import RabbitControl.ParameterParser

/-!
# Packets

`Packet::write` and `Packet::parse` with the data of the commands: parameters, ids (`iddata.h`) and version
information (`infodata.h`).
-/

namespace RabbitControl

open Lib

/-! ### Outgoing packets -/

inductive MessageData
  | none
  | parameter (body : Body)
  | id (id : Id)
  | info (version applicationId : Bytes)
  deriving DecidableEq

/-- The id of the parameter that the data are about. -/
def MessageData.parameterId : MessageData → Option Id
  | .parameter b => some b.id
  | .id i => some i
  | .none | .info .. => Option.none

/-- A packet as a server or a client sends it. -/
structure Message where
  command : Command
  data : MessageData
  deriving DecidableEq

/-- `InfoData::write`, without the application id if it is empty. -/
def writeInfo (version applicationId : Bytes) : Bytes :=
  writeTinyString version ++ (if applicationId = [] then [] else 26 :: writeTinyString applicationId) ++ [0]

def MessageData.bytes : MessageData → Bytes
  | none => []
  | parameter b => 18 :: b.bytes
  | id i => 18 :: writeInt16 i
  | info v a => 18 :: writeInfo v a

/-- `Packet::write`: `UPDATEVALUE` is followed by the parameter alone. -/
def Message.bytes (m : Message) : Bytes :=
  match m.command, m.data with
  | .updateValue, .parameter b => m.command.code :: b.bytes
  | .updateValue, _ => [m.command.code]
  | c, d => c.code :: d.bytes ++ [0]

/-! ### Incoming packets -/

inductive PacketData
  | parameter (p : Parameter)
  | id (id : Id)
  | info (version applicationId : Bytes)

structure Packet where
  command : Command
  timestamp : Option Nat := none
  data : Option PacketData := none

/-- The parsed parameter of a packet. -/
def Packet.parameter (k : Packet) : Option Parameter :=
  match k.data with
  | some (.parameter p) => some p
  | _ => none

/-- What `Packet::parse` comes to: a packet, an empty option, or an exception. -/
inductive Verdict
  | accepted
  | rejected
  | threw (e : Stop)
  deriving DecidableEq

/-- The end of a parse.  The packet of a rejected parse is what had been read of it. -/
structure Parsed (σ : Type) where
  state : σ
  packet : Option Packet
  verdict : Verdict

/-- `InfoData::parse`: options are skipped up to the terminator. -/
def parseInfoOptions : Nat → Bytes × Bytes → IStream → Outcome (Bytes × Bytes)
  | 0, s, _ => .throw .hang s
  | n + 1, s, is =>
    if is.eof then .done s is
    else
      let opt := is.get
      if opt.1 = some 0 then .done s opt.2
      else if opt.2.eof || opt.2.fail then .done s opt.2
      else if opt.1 = some 26 then
        match readTinyString opt.2 with
        | .error e => .throw e s
        | .ok (a, is) => parseInfoOptions n (s.1, a) is
      else parseInfoOptions n s opt.2

def parseInfo (is : IStream) : Outcome (Bytes × Bytes) :=
  match readTinyString is with
  | .error e => .throw e ([], [])
  | .ok (version, is) => parseInfoOptions (is.rest.length + 1) (version, []) is

section Parse

variable {σ : Type}

/-- The `DATA` option of a packet that has no data yet. -/
def parseData (env : ParseEnv σ) (mem : Memory) (s : σ) (k : Packet) (is : IStream) : Outcome (σ × Packet) :=
  match k.command with
  | .info => (parseInfo is).map fun i => (s, { k with data := some (.info i.1 i.2) })
  | .init | .remove =>
    let id := readInt16 is
    .done (s, { k with data := some (.id id.1) }) id.2
  | .update =>
    (parseParameter env mem s is).map fun r => (r.1, { k with data := r.2.map .parameter })
  | .discover | .updateValue => .done (s, k) is

/-- The option loop of a packet. -/
def parsePacketOptions (env : ParseEnv σ) (mem : Memory) : Nat → σ → Packet → IStream → Parsed σ
  | 0, s, k, _ => ⟨s, some k, .threw .hang⟩
  | n + 1, s, k, is =>
    if is.eof then ⟨s, some k, .accepted⟩
    else
      let opt := is.get
      if opt.1 = some 0 then ⟨s, some k, .accepted⟩
      else if opt.2.eof || opt.2.fail then ⟨s, some k, .rejected⟩
      else if opt.1 = some 17 then
        let v := opt.2.readBE 8
        if v.2.eof then parsePacketOptions env mem n s k v.2
        else parsePacketOptions env mem n s { k with timestamp := some v.1 } v.2
      else if opt.1 = some 18 then
        -- a second `DATA` option discards the packet
        if k.data.isSome then ⟨s, some k, .rejected⟩
        else
          match parseData env mem s k opt.2 with
          | .throw e s => ⟨s.1, some s.2, .threw e⟩
          | .done s is => parsePacketOptions env mem n s.1 s.2 is
      else ⟨s, some k, .accepted⟩

/-- `Packet::parse`. -/
def parsePacket (env : ParseEnv σ) (mem : Memory) (s : σ) (is : IStream) : Parsed σ :=
  let command := is.get
  match command.1.bind Command.ofCode with
  | none => ⟨s, none, .rejected⟩
  | some .updateValue =>
    match parseUpdateValue mem command.2 with
    | .error e => ⟨s, none, .threw e⟩
    | .ok none => ⟨s, none, .rejected⟩
    | .ok (some p) => ⟨s, some { command := .updateValue, data := some (.parameter p) }, .accepted⟩
  | some c => parsePacketOptions env mem (command.2.rest.length + 1) s { command := c } command.2

end Parse

/-- The command of a message. -/
def commandOf (data : Bytes) : Option Command := data.head?.bind Command.ofCode

/-- A buffer to read from, and what memory holds beyond it. -/
def stream (junk : Nat → UInt8) (data : Bytes) : IStream := { rest := data, junk := junk }

/-- Memory as a parser may find it. -/
structure Chance where
  mem : Memory
  junk : Nat → UInt8

/-- `Packet::parse` on a store: a proxy that was built, be it in a packet that is rejected, lies on the heap. -/
def Store.parse (s : Store) (ch : Chance) (data : Bytes) : Parsed Store :=
  let r := parsePacket storeEnv ch.mem s (stream ch.junk data)
  match r.packet.bind Packet.parameter with
  | none => r
  | some p => { r with state := { r.state.put s.next p with next := s.next + 1 } }

/-- The same packet read from the store without changing it, with the groups that its `PARENTID` options leave. -/
def Store.dryParse (s : Store) (ch : Chance) (data : Bytes) : Parsed (List Ref) :=
  parsePacket (dryEnv s) ch.mem [] (stream ch.junk data)

end RabbitControl
