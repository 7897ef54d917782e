import RabbitControl.Calls

/-!
# A server and its clients

One `ParameterServer` and any number of `ParameterClient`s.  A connection is a queue of messages in either direction,
so that messages arrive in order and none is lost.  What happens is an interleaving of calls on the server, calls on
the clients and the arrival of one message at a time.
-/

namespace RabbitControl

open Lib

/-- The messages of client `i` that have not arrived at the server are `up i`, those of the server to client `i` are
`down i`, the oldest first. -/
structure System (ι : Type) where
  server : Server
  client : ι → Client
  up : ι → List Bytes := fun _ => []
  down : ι → List Bytes := fun _ => []

inductive Action (ι : Type)
  | call (c : Call)
  | clientSet (i : ι) (r : Ref) (a : Setter)
  | clientUpdate (i : ι)
  | clientSend (i : ι) (data : Bytes)
  | serverReceived (i : ι) (depth : Nat) (ch : Chance)
  | clientReceived (i : ι) (ch : Chance)

/-- The clients of a system of two. -/
def firstClient : Fin 2 := 0

def secondClient : Fin 2 := 1

namespace System

variable {ι : Type} [DecidableEq ι]

/-- One action.  `Call.receive` is no call of the application, messages arrive from the clients only. -/
def step (s : System ι) : Action ι → System ι
  | .call (.receive ..) => s
  | .call c =>
    { s with
      server := s.server.call c
      down := fun i => s.down i ++ (s.server.emitted c).map Message.bytes }
  | .clientSet i r a =>
    { s with client := Function.update s.client i { s.client i with store := (s.client i).store.set r a } }
  | .clientUpdate i =>
    let w := (s.client i).update
    { s with
      client := Function.update s.client i w.2
      up := Function.update s.up i (s.up i ++ w.1.map Message.bytes) }
  | .clientSend i data => { s with up := Function.update s.up i (s.up i ++ [data]) }
  | .serverReceived i depth ch =>
    match s.up i with
    | [] => s
    | data :: rest =>
      let r := s.server.received depth ch data
      -- replies go to the sender, and a message that is relayed to everyone else
      { s with
        server := r.server
        up := Function.update s.up i rest
        down := fun j => s.down j ++
          if j = i then r.replies.map Message.bytes
          else if r.relay ∧ s.server.transporterList ≠ [] then [data] else [] }
  | .clientReceived i ch =>
    match s.down i with
    | [] => s
    | data :: rest =>
      let r := (s.client i).received ch data
      { s with
        client := Function.update s.client i r.1
        down := Function.update s.down i rest
        up := Function.update s.up i (s.up i ++ r.2.map Message.bytes) }

/-- A new server with its transporters, and new clients. -/
def start (mem : Memory) (transporters : List Nat) (memory : ι → Memory) : System ι where
  server := Server.start mem transporters
  client i := Client.new (memory i)

end System

end RabbitControl
