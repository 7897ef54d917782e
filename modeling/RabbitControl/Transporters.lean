import RabbitControl.CompleteFlush

/-!
# Transporters

How a server relays a message (`websocketServerTransporter.h`, `rabbitholeWsServerTransporter.cpp`).  Every transporter
reads the stream that the parser has left once more, from its start.  `relaysExactly_iff` says when each open connection
but that of the sender gets the bytes of the message, and the sender nothing.
-/

namespace Lib

namespace IStream

/-- What a transporter takes from a stream: seek to the end, tell the length, and read it from the start.  The length
`-1` makes a buffer of `SIZE_MAX` bytes, `none`. -/
def drain (buffer : List UInt8) (is : IStream) : Option (List UInt8) × IStream :=
  let last := is.seek buffer buffer.length
  match last.tell buffer with
  | none => (none, ((last.seek buffer 0).read (2 ^ 64 - 1)).2)
  | some length =>
    let r := (last.seek buffer 0).read length
    (some r.1, r.2)

/-- A stream without `failbit` gives its whole buffer, wherever it stands, and may be read again. -/
theorem drain_of_not_fail {buffer : List UInt8} {is : IStream} (h : is.fail = false) :
    (is.drain buffer).1 = some buffer ∧ (is.drain buffer).2.fail = false := by
  simp [drain, seek, tell, read, good, h]

theorem drain_of_fail {buffer : List UInt8} {is : IStream} (h : is.fail = true) :
    (is.drain buffer).1 = none ∧ (is.drain buffer).2.fail = true := by
  simp [drain, seek, tell, read, good, h]

end IStream

end Lib

namespace RabbitControl

open Lib

/-! ### The stream after parsing -/

/-- The stream that `ParameterParser::parseUpdateValue` leaves. -/
def leftUpdateValue (is : IStream) : IStream :=
  let type := (readInt16 is).2.get
  match type.1.bind parameterType with
  | some (.value τ) =>
    match readValue τ type.2 with
    | .error _ => type.2
    | .ok (_, is) => is
  | _ => type.2

section Scan

variable {σ : Type} (env : ParseEnv σ) (mem : Memory)

/-- The option loop of a packet, with the stream that it leaves. -/
def scanPacketOptions : Nat → σ → Packet → IStream → Parsed σ × IStream
  | 0, s, k, is => (⟨s, some k, .threw .hang⟩, is)
  | n + 1, s, k, is =>
    if is.eof then (⟨s, some k, .accepted⟩, is)
    else
      let opt := is.get
      if opt.1 = some 0 then (⟨s, some k, .accepted⟩, opt.2)
      else if opt.2.eof || opt.2.fail then (⟨s, some k, .rejected⟩, opt.2)
      else if opt.1 = some 17 then
        let v := opt.2.readBE 8
        if v.2.eof then scanPacketOptions n s k v.2
        else scanPacketOptions n s { k with timestamp := some v.1 } v.2
      else if opt.1 = some 18 then
        if k.data.isSome then (⟨s, some k, .rejected⟩, opt.2)
        else
          match parseData env mem s k opt.2 with
          | .throw e s => (⟨s.1, some s.2, .threw e⟩, opt.2)
          | .done s is => scanPacketOptions n s.1 s.2 is
      else (⟨s, some k, .accepted⟩, opt.2)

/-- `Packet::parse`, with the stream that it leaves. -/
def scanPacket (s : σ) (is : IStream) : Parsed σ × IStream :=
  let command := is.get
  match command.1.bind Command.ofCode with
  | some .updateValue => (parsePacket env mem s is, leftUpdateValue command.2)
  | some c => scanPacketOptions env mem (command.2.rest.length + 1) s { command := c } command.2
  | none => (parsePacket env mem s is, command.2)

variable {env mem}

theorem parsed_scanPacketOptions (n : Nat) (s : σ) (k : Packet) (is : IStream) :
    (scanPacketOptions env mem n s k is).1 = parsePacketOptions env mem n s k is := by
  induction n generalizing s k is with
  | zero => rfl
  | succ n ih =>
    unfold scanPacketOptions parsePacketOptions
    split
    · rfl
    dsimp only
    split
    · rfl
    split
    · rfl
    split
    · split <;> exact ih ..
    split
    · split
      · rfl
      · cases parseData env mem s k is.get.2 with
        | throw e s => rfl
        | done s is => exact ih ..
    · rfl

/-- The parse is the one of `parsePacket`. -/
theorem parsed_scanPacket (s : σ) (is : IStream) : (scanPacket env mem s is).1 = parsePacket env mem s is := by
  unfold scanPacket
  dsimp only
  split
  · rfl
  · next c hne hc =>
    rw [parsed_scanPacketOptions, parsePacket, hc]
    cases c <;> first | rfl | exact absurd rfl hne
  · rfl

end Scan

/-- The stream that the parse of a received message leaves. -/
def Store.left (s : Store) (ch : Chance) (data : Bytes) : IStream :=
  (scanPacket storeEnv ch.mem s (stream ch.junk data)).2

/-! ### Transporters -/

/-- A `ServerTransporter` with its connections, which are named by the pointers that the transporters pass as ids.  A
websocket server may be listening or not; the client of a rabbithole passes itself. -/
inductive Transporter
  | websocketServer (isListening : Bool) (connections : List Nat)
  | rabbitholeWsServer (self : Nat) (isOpen : Bool)

namespace Transporter

/-- A websocket server that has been stopped has no open connection. -/
def openConnections : Transporter → List Nat
  | websocketServer isListening connections => if isListening then connections else []
  | rabbitholeWsServer self isOpen => if isOpen then [self] else []

/-- `sendToAll`: what goes to which connection, and the stream afterwards.  A buffer of `SIZE_MAX` bytes is `none`. -/
def sendToAll (t : Transporter) (buffer : Bytes) (excludeId : Nat) (is : IStream) :
    List (Nat × Option Bytes) × IStream :=
  match t with
  | websocketServer isListening connections =>
    if isListening then
      let d := is.drain buffer
      ((connections.filter (· ≠ excludeId)).map fun x => (x, d.1), d.2)
    else ([], is)
  | rabbitholeWsServer self isOpen =>
    let d := is.drain buffer
    (if isOpen then [(self, d.1)] else [], d.2)

/-- Whether `sendToAll` looks at the id that it should leave out. -/
def excludes : Transporter → Bool
  | websocketServer .. => true
  | rabbitholeWsServer .. => false

/-- What a transporter sends if the stream is good, and if it is not. -/
theorem sendToAll_eq (t : Transporter) (buffer : Bytes) (c : Nat) (is : IStream) :
    (t.sendToAll buffer c is).1 = (t.openConnections.filter fun x => !t.excludes || x ≠ c).map
        (fun x => (x, if is.fail then none else some buffer)) ∧
      (t.sendToAll buffer c is).2.fail = is.fail := by
  have hdrain : (is.drain buffer).1 = (if is.fail then none else some buffer) ∧ (is.drain buffer).2.fail = is.fail := by
    cases hf : is.fail with
    | true => exact IStream.drain_of_fail hf
    | false => exact IStream.drain_of_not_fail hf
  cases t with
  | websocketServer isListening connections =>
    cases isListening with
    | true => simp [sendToAll, openConnections, excludes, hdrain]
    | false => simp [sendToAll, openConnections]
  | rabbitholeWsServer self isOpen => cases isOpen <;> simp [sendToAll, openConnections, excludes, hdrain]

/-- The transporters of a list in a row, each with the stream that the one before has left. -/
def sendToAllOf (buffer : Bytes) (excludeId : Nat) : List Transporter → IStream → List (Nat × Option Bytes)
  | [], _ => []
  | t :: ts, is =>
    let r := t.sendToAll buffer excludeId is
    r.1 ++ sendToAllOf buffer excludeId ts r.2

theorem sendToAllOf_eq (buffer : Bytes) (c : Nat) (ts : List Transporter) (is : IStream) :
    sendToAllOf buffer c ts is = ts.flatMap fun t => (t.openConnections.filter fun x => !t.excludes || x ≠ c).map
      (fun x => (x, if is.fail then none else some buffer)) := by
  induction ts generalizing is with
  | nil => rfl
  | cons t ts ih =>
    obtain ⟨h1, h2⟩ := sendToAll_eq t buffer c is
    rw [sendToAllOf, List.flatMap_cons, ih, h1, h2]

end Transporter

/-- The transporters by their names.  Different objects have different addresses, so a connection belongs to one
transporter and is there once. -/
structure Network where
  transporter : Nat → Transporter
  nodup : ∀ t, (transporter t).openConnections.Nodup
  apart : ∀ {t u x}, x ∈ (transporter t).openConnections → x ∈ (transporter u).openConnections → t = u

namespace Network

variable (net : Network)

/-- An open connection of a registered transporter. -/
def IsOpen (s : Server) (x : Nat) : Prop := ∃ t ∈ s.transporterList, x ∈ (net.transporter t).openConnections

/-- The connection of a transporter that leaves out the sender. -/
def IsExcluded (s : Server) (x : Nat) : Prop :=
  ∃ t ∈ s.transporterList, x ∈ (net.transporter t).openConnections ∧ (net.transporter t).excludes = true

/-- What `ParameterServer::received` makes the transporters send to other connections. -/
def relayed (s : Server) (depth : Nat) (ch : Chance) (data : Bytes) (id : Nat) : List (Nat × Option Bytes) :=
  if (s.received depth ch data).relay then
    Transporter.sendToAllOf data id (s.transporterList.map net.transporter) (s.store.left ch data)
  else []

/-- Every open connection but that of the sender is sent the message once, and the sender is sent nothing. -/
def RelaysExactly (s : Server) (depth : Nat) (ch : Chance) (data : Bytes) (c : Nat) : Prop :=
  (∀ x, net.IsOpen s x → x ≠ c → (net.relayed s depth ch data c).filter (·.1 = x) = [(x, some data)]) ∧
    (net.relayed s depth ch data c).filter (·.1 = c) = []

variable {net} {s : Server} {depth : Nat} {ch : Chance} {data : Bytes} {c x t : Nat}

/-- In a list without duplicates one element alone may contribute. -/
private theorem flatMap_of_unique {β : Type} {f : Nat → List β} {l : List Nat} (hl : l.Nodup) (ht : t ∈ l)
    (hf : ∀ u ∈ l, u ≠ t → f u = []) : l.flatMap f = f t := by
  induction l with
  | nil => simp at ht
  | cons u l ih =>
    rw [List.nodup_cons] at hl
    rw [List.flatMap_cons]
    rcases List.mem_cons.mp ht with rfl | ht
    · have hrest : l.flatMap f = [] := by
        rw [List.flatMap_eq_nil_iff]
        exact fun u hu => hf u (List.mem_cons_of_mem _ hu) fun h => hl.1 (h ▸ hu)
      rw [hrest, List.append_nil]
    · rw [hf u (List.mem_cons_self ..) fun h => hl.1 (h ▸ ht), List.nil_append]
      exact ih hl.2 ht fun v hv => hf v (List.mem_cons_of_mem _ hv)

/-- What one open connection is sent. -/
theorem filter_relayed (hts : s.transporterList.Nodup) (hr : (s.received depth ch data).relay = true)
    (ht : t ∈ s.transporterList) (hx : x ∈ (net.transporter t).openConnections) :
    (net.relayed s depth ch data c).filter (·.1 = x) =
      if !(net.transporter t).excludes || x ≠ c then
        [(x, if (s.store.left ch data).fail then none else some data)]
      else [] := by
  rw [relayed, if_pos hr, Transporter.sendToAllOf_eq, List.flatMap_map, List.filter_flatMap]
  rw [flatMap_of_unique hts ht]
  · rw [List.filter_map, List.filter_filter]
    have hone : (net.transporter t).openConnections.filter (fun y => y = x) = [x] := by
      rw [List.filter_eq, List.count_eq_one_of_mem (net.nodup t) hx]
      rfl
    have hand : (net.transporter t).openConnections.filter
          (fun y => decide (y = x) && (!(net.transporter t).excludes || decide (y ≠ c))) =
        [x].filter fun y => !(net.transporter t).excludes || decide (y ≠ c) := by
      rw [← hone, List.filter_filter]
      simp only [Bool.and_comm]
    refine (congrArg (List.map _) hand).trans ?_
    rw [List.filter_singleton]
    cases !(net.transporter t).excludes || decide (x ≠ c) <;> rfl
  · intro u hu hut
    rw [List.filter_eq_nil_iff]
    intro y hy
    obtain ⟨z, hz, rfl⟩ := List.mem_map.mp hy
    have hmem := (List.mem_filter.mp hz).1
    simp only [decide_eq_true_eq]
    rintro rfl
    exact hut (net.apart hmem hx)

/-- The relay of a message is exact if and only if its sender is connected to a websocket server, and the parser has
not run into the end of the message, unless there is nobody else. -/
theorem relaysExactly_of_nodup (hts : s.transporterList.Nodup) (hc : net.IsOpen s c)
    (hr : (s.received depth ch data).relay = true) :
    net.RelaysExactly s depth ch data c ↔
      net.IsExcluded s c ∧ ((s.store.left ch data).fail = false ∨ ∀ x, net.IsOpen s x → x = c) := by
  obtain ⟨t, ht, htc⟩ := hc
  constructor
  · rintro ⟨hothers, hsender⟩
    refine ⟨⟨t, ht, htc, ?_⟩, or_iff_not_imp_right.mpr fun hx => ?_⟩
    · rw [filter_relayed hts hr ht htc] at hsender
      by_contra hno
      rw [Bool.not_eq_true] at hno
      simp [hno] at hsender
    · push Not at hx
      obtain ⟨x, hopen, hxc⟩ := hx
      have hsent := hothers x hopen hxc
      obtain ⟨u, hu, hux⟩ := hopen
      rw [filter_relayed hts hr hu hux, if_pos (by simp [hxc])] at hsent
      by_contra hfail
      simp [Bool.not_eq_false .. ▸ hfail] at hsent
  · rintro ⟨⟨u, -, huc, hex⟩, hgood⟩
    obtain rfl := net.apart huc htc
    refine ⟨fun x hopen hxc => ?_, ?_⟩
    · obtain ⟨v, hv, hvx⟩ := hopen
      have hfail := hgood.resolve_right fun hall => hxc (hall x ⟨v, hv, hvx⟩)
      rw [filter_relayed hts hr hv hvx, if_pos (by simp [hxc]), hfail]
      rfl
    · rw [filter_relayed hts hr ht htc, if_neg (by simp [hex])]

end Network

/-! ### Runs -/

theorem Server.transporterList_received (s : Server) (depth : Nat) (ch : Chance) (data : Bytes) :
    (s.received depth ch data).server.transporterList = s.transporterList := by
  unfold received
  dsimp only
  repeat' split
  all_goals rfl

/-- A transporter is registered once. -/
theorem Server.nodup_transporterList (mem : Memory) (ts : List Nat) (ops : List ServerOp) :
    (run operate (start mem ts) ops).transporterList.Nodup := by
  have hadd : ∀ (s : Server) (t : Nat), s.transporterList.Nodup → (s.addTransporter t).transporterList.Nodup := by
    intro s t hs
    unfold addTransporter
    split
    · exact hs
    · next ht =>
      refine List.nodup_append.mpr ⟨hs, List.nodup_singleton t, fun a ha b hb hab => ?_⟩
      exact ht (List.mem_singleton.mp hb ▸ hab ▸ ha)
  have hstart : (start mem ts).transporterList.Nodup := by
    have hfold : ∀ (ts : List Nat) (s : Server), s.transporterList.Nodup →
        (ts.foldl (fun s t => s.addTransporter t) s).transporterList.Nodup := by
      intro ts
      induction ts with
      | nil => exact fun _ h => h
      | cons t ts ih => exact fun s hs => ih _ (hadd s t hs)
    exact hfold ts _ List.nodup_nil
  refine run_invariant (I := fun s : Server => s.transporterList.Nodup) (fun s op hs => ?_) _ hstart
  cases op with
  | call c =>
    cases c with
    | create mem f label g =>
      rw [operate, call]
      split <;> exact hs
    | update => exact (transporterList_update s).symm ▸ hs
    | receive depth ch data => exact (transporterList_received s depth ch data).symm ▸ hs
    | _ => exact hs
  | addTransporter t => exact hadd s t hs
  | removeTransporter t => exact hs.erase t
  | _ => exact hs

namespace Network

/-- The relay of a message is exact if and only if its sender is connected to a websocket server, and the parser has
not run into the end of the message, unless there is nobody else. -/
theorem relaysExactly_iff (net : Network) (mem : Memory) (ts : List Nat) (ops : List ServerOp)
    {depth : Nat} {ch : Chance}
    {data : Bytes} {c : Nat} (hc : net.IsOpen (run Server.operate (Server.start mem ts) ops) c)
    (hr : ((run Server.operate (Server.start mem ts) ops).received depth ch data).relay = true) :
    net.RelaysExactly (run Server.operate (Server.start mem ts) ops) depth ch data c ↔
      net.IsExcluded (run Server.operate (Server.start mem ts) ops) c ∧
        (((run Server.operate (Server.start mem ts) ops).store.left ch data).fail = false ∨
          ∀ x, net.IsOpen (run Server.operate (Server.start mem ts) ops) x → x = c) :=
  relaysExactly_of_nodup (Server.nodup_transporterList mem ts ops) hc hr

/-- A websocket server with two connections and a connection to a rabbithole. -/
def twoTransporters : Network where
  transporter
    | 0 => .websocketServer true [10, 11]
    | 1 => .rabbitholeWsServer 20 true
    | _ => .websocketServer false []
  nodup t := by
    match t with
    | 0 => decide
    | 1 => decide
    | _ + 2 => exact List.nodup_nil
  apart {t u x} ht hu := by
    match t, u with
    | 0, 0 | 1, 1 => rfl
    | 0, 1 | 1, 0 => simp [Transporter.openConnections] at ht hu; omega
    | _ + 2, _ => simp [Transporter.openConnections] at ht
    | _, _ + 2 => simp [Transporter.openConnections] at hu

/-- A server with one boolean parameter. -/
def oneParameter : List ServerOp := [.call (.create {} .createBooleanParameter [97] root)]

/-- A client of the websocket server changes the parameter. -/
theorem relaysExactly_changedValue :
    twoTransporters.RelaysExactly (run Server.operate (Server.start {} [0, 1]) oneParameter) 0 ⟨{}, fun _ => 0⟩
        [6, 0, 1, 16, 1] 10 ↔
      twoTransporters.IsExcluded (run Server.operate (Server.start {} [0, 1]) oneParameter) 10 ∧
        (((run Server.operate (Server.start {} [0, 1]) oneParameter).store.left ⟨{}, fun _ => 0⟩
            [6, 0, 1, 16, 1]).fail = false ∨
          ∀ x, twoTransporters.IsOpen (run Server.operate (Server.start {} [0, 1]) oneParameter) x → x = 10) :=
  relaysExactly_iff twoTransporters {} [0, 1] oneParameter ⟨0, by decide, by decide⟩ (by decide)

/-- A message of the rabbithole goes back to it; and what the other connections are sent of a message that ends before
its value is not that message. -/
theorem changedValue_not_exact :
    ¬twoTransporters.RelaysExactly (run Server.operate (Server.start {} [0, 1]) oneParameter) 0 ⟨{}, fun _ => 0⟩
        [6, 0, 1, 16, 1] 20 ∧
      ¬twoTransporters.RelaysExactly (run Server.operate (Server.start {} [0, 1]) oneParameter) 0 ⟨{}, fun _ => 0⟩
        [6, 0, 1, 16] 10 := by
  constructor
  · rintro ⟨-, h⟩
    exact absurd h (by decide)
  · rintro ⟨h, -⟩
    exact absurd (h 11 ⟨0, by decide, by decide⟩ (by decide)) (by decide)

end Network

end RabbitControl
