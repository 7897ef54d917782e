import RabbitControl.Packet

/-!
# Server and client

`ParameterServer` and `ParameterClient` over the store: flushing the dirty list, answering `INITIALIZE`, and handling
a received packet.  Callbacks of the application are logged by the store and otherwise not modelled.

`sendParameterFull` follows the children of groups and need not end.  It gets a bound on its depth; when the bound is
reached everything stops, so that what has been sent is what the code sends first.
-/

namespace RabbitControl

open Lib

/-- The dirty list in the order of its ids. -/
def Store.dirtyRefs (s : Store) : List Ref := s.dirtyParameter.toList.map Prod.snd

/-- Write the parameters of a dirty list, `UPDATEVALUE` if only the value has changed and `UPDATE` else. -/
def Store.writeDirty : List Ref → Store → List Message × Store
  | [], s => ([], s)
  | r :: rs, s =>
    let p := s.heap r
    let w := p.write s.idOf false
    let rest := writeDirty rs (s.put r w.2)
    (⟨if p.onlyValueChanged then .updateValue else .update, .parameter w.1⟩ :: rest.1, rest.2)

/-! ### Server -/

/-- `cpp-server`, the label `root`, and the version `0.1.0` of the specification. -/
def serverApplicationId : Bytes := [99, 112, 112, 45, 115, 101, 114, 118, 101, 114]
def rootLabel : Bytes := [114, 111, 111, 116]
def specificationVersion : Bytes := [48, 46, 49, 46, 48]

structure Server where
  store : Store
  transporterList : List Nat := []
  applicationId : Bytes := serverApplicationId

/-- What the reading of one message does. -/
structure Response where
  server : Server
  /-- Packets for the sender. -/
  replies : List Message := []
  /-- The message goes to all connections but that of the sender. -/
  relay : Bool := false
  /-- `false` if the server never gets to the end of its reply. -/
  ended : Bool := true

/-- The packets of a full transmission so far, and whether it came to its end. -/
structure Transmission where
  store : Store
  packets : List Message := []
  ended : Bool := true

/-- Two transmissions in a row; the second does not happen if the first does not end. -/
def Transmission.andThen (t : Transmission) (f : Store → Transmission) : Transmission :=
  if t.ended then
    let u := f t.store
    ⟨u.store, t.packets ++ u.packets, u.ended⟩
  else t

namespace Server

/-- A server without transporters; its root group is labelled. -/
def new (mem : Memory) : Server where
  store := (Store.empty mem).set root (.label (.set rootLabel))

def addTransporter (t : Nat) (s : Server) : Server :=
  if t ∈ s.transporterList then s else { s with transporterList := s.transporterList ++ [t] }

/-- `update()`: the packets that every transporter sends to all its connections. -/
def update (s : Server) : List Message × Server :=
  if s.transporterList = [] then ([], s)
  else
    let removes := s.store.removedParameter.toList.map fun e => ⟨.remove, .id (s.store.idOf e.2)⟩
    let w := s.store.writeDirty s.store.dirtyRefs
    (removes ++ w.1, { s with store := { w.2 with removedParameter := ∅, dirtyParameter := ∅ } })

/-- `_sendParameterFull`. -/
def sendParameterFull : Nat → Ref → Store → Transmission
  | 0, _, s => { store := s, ended := false }
  | n + 1, r, s =>
    let w := (s.heap r).write s.idOf true
    let t : Transmission := { store := s.put r w.2, packets := [⟨.update, .parameter w.1⟩] }
    (s.children r).toList.foldl (fun t c => t.andThen (sendParameterFull n c.2)) t

/-- `_init`. -/
def sendAll (depth : Nat) (s : Store) : Transmission :=
  (s.children root).toList.foldl (fun t c => t.andThen (sendParameterFull depth c.2)) { store := s }

/-- `_update`: the parsed parameter is applied if it is cached.  A server does not add parameters, but the packet
counts as handled. -/
def applyUpdate (r : Ref) (s : Store) : Store :=
  match s.params[s.idOf r]? with
  | some cached => if (s.heap cached).isValid then (s.update cached r).1 else s
  | none => s

/-- `received`. -/
def received (depth : Nat) (ch : Chance) (data : Bytes) (s : Server) : Response :=
  let r := s.store.parse ch data
  let s' := { s with store := r.state }
  match r.verdict, r.packet with
  | .accepted, some k =>
    match k.command with
    | .init =>
      let t := sendAll depth s'.store
      { server := { s' with store := t.store }, replies := t.packets, ended := t.ended }
    | .updateValue | .update =>
      match k.data with
      | some (.parameter _) =>
        { server := { s' with store := applyUpdate s.store.next s'.store }, relay := true }
      | _ => { server := s' }
    | .info =>
      match k.data with
      | some _ => { server := s' }
      | none =>
        { server := s',
          replies := [⟨.info, .info specificationVersion s.applicationId⟩, ⟨.info, .none⟩] }
    | .discover | .remove => { server := s' }
  | _, _ => { server := s' }

end Server

/-! ### Client -/

structure Client where
  store : Store
  applicationId : Bytes := []

namespace Client

def new (mem : Memory) : Client := { store := Store.empty mem }

/-- `update()`, while the client is connected: one message for each dirty parameter. -/
def update (c : Client) : List Message × Client :=
  let w := c.store.writeDirty c.store.dirtyRefs
  (w.1, { c with store := { w.2 with dirtyParameter := ∅ } })

/-- `_update`: a parameter that is not cached is added. -/
def applyUpdate (r : Ref) (s : Store) : Store :=
  match s.params[s.idOf r]? with
  | some cached => if (s.heap cached).isValid then (s.update cached r).1 else s.addParameter r
  | none => s.addParameter r

/-- `_remove`. -/
def applyRemove (id : Id) (s : Store) : Store :=
  match s.params[id]? with
  | some r => if (s.heap r).isValid then s.removeParameterDirect (s.next + 1) r else s
  | none => s

/-- `received`, and the packets sent back. -/
def received (ch : Chance) (data : Bytes) (c : Client) : Client × List Message :=
  let r := c.store.parse ch data
  let c' := { c with store := r.state }
  match r.verdict, r.packet with
  | .accepted, some k =>
    match k.command, k.data with
    | .update, some (.parameter _) | .updateValue, some (.parameter _) =>
      ({ c with store := applyUpdate c.store.next c'.store }, [])
    | .remove, some (.id i) => ({ c with store := applyRemove i c'.store }, [])
    | .info, none => (c', [⟨.info, .info specificationVersion c.applicationId⟩])
    | _, _ => (c', [])
  | _, _ => (c', [])

/-- `disconnected()`. -/
def disconnected (c : Client) : Client := { c with store := c.store.clear }

end Client

end RabbitControl
