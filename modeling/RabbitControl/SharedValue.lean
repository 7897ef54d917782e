import RabbitControl.Lib.Reading
import RabbitControl.Lib.Star
import RabbitControl.Flush
import RabbitControl.ReadBack
import RabbitControl.System
import RabbitControl.UpdateLemmas

/-!
# A value shared by a server and its clients

A server and its clients that set the value of one parameter, send their changes and receive those of the others are a
star of copies (`tracks_step`).  So the copies agree whenever nothing is left to send or to deliver
(`agree_at_quiescence`); but a client sends back what it has merely received, and only under a condition does the
server keep what it was set to (`keeps_lastSet`).
-/

namespace RabbitControl

open Lib

/-! ### The message of a value -/

/-- The types whose values are compared bit by bit. -/
def NumberType.isInteger : NumberType → Bool
  | float32 | float64 => false
  | _ => true

theorem NumberType.eqv_iff {t : NumberType} (ht : t.isInteger = true) (a b : t.Val) : t.eqv a b = true ↔ a = b := by
  have h : t.eqv a b = (a.toNat == b.toNat) := by
    cases t <;> first | rfl | exact absurd ht (by decide)
  rw [h, beq_iff_eq]
  exact ⟨BitVec.eq_of_toNat_eq, congrArg _⟩

@[simp] theorem ValueType.eqv_number (t : NumberType) : (ValueType.number t).eqv = t.eqv := by
  funext a b
  rfl

/-- What is sent when only the value of a number parameter has changed. -/
def valueMessage (id : Id) (t : NumberType) (v : t.Val) : Message :=
  ⟨.updateValue, .parameter (.short id [t.datatype] (encodeBE t.size v.toNat))⟩

/-- The parameter that the message is read as. -/
def valueProxy (mem : Memory) (id : Id) (t : NumberType) (v : t.Val) : Parameter :=
  ((Parameter.create mem id (.value (.number t))).apply (.setValue (τ := .number t) v)).1

theorem Store.parse_valueMessage (s : Store) (ch : Chance) (id : Id) (t : NumberType) (v : t.Val) :
    s.parse ch (valueMessage id t v).bytes =
      { state := { s.put s.next (valueProxy ch.mem id t v) with next := s.next + 1 }
        packet := some { command := .updateValue, data := some (.parameter (valueProxy ch.mem id t v)) }
        verdict := .accepted } := by
  have hvalue : parseUpdateValue ch.mem
      { rest := writeInt16 id ++ [t.datatype] ++ encodeBE t.size v.toNat, junk := ch.junk } =
      .ok (some (valueProxy ch.mem id t v)) := by
    have htype : parameterType t.datatype = some (.value (.number t)) := by cases t <;> rfl
    have hread := reads_bits v [] ch.junk
    rw [List.append_nil] at hread
    rw [parseUpdateValue, List.append_assoc, readInt16_append]
    dsimp only
    rw [List.singleton_append, IStream.get_cons, Option.bind_some, htype]
    dsimp only
    rw [readValue, hread]
    rfl
  have hpacket : parsePacket storeEnv ch.mem s (stream ch.junk (valueMessage id t v).bytes) =
      ⟨s, some { command := .updateValue, data := some (.parameter (valueProxy ch.mem id t v)) }, .accepted⟩ := by
    show parsePacket storeEnv ch.mem s
      { rest := 6 :: (writeInt16 id ++ [t.datatype] ++ encodeBE t.size v.toNat), junk := ch.junk } = _
    rw [parsePacket, IStream.get_cons, Option.bind_some, show Command.ofCode 6 = some .updateValue from rfl]
    dsimp only
    rw [hvalue]
  rw [Store.parse, hpacket]
  rfl

/-! ### A copy of the value -/

namespace Store

variable {s u : Store} {r : Ref} {id : Id} {t : NumberType} {c : Cell t.Val}

/-- The store holds the parameter under the id with the given value, and nothing of it is changed but, if so, the
value; it is on the dirty list exactly in this case, and nothing else is to be sent. -/
structure Copy (id : Id) (t : NumberType) (s : Store) (r : Ref) (c : Cell t.Val) : Prop where
  cached : s.params[id]? = some r
  idOf : s.idOf r = id
  built : r < s.next
  valid : (s.heap r).isValid = true
  managed : (s.heap r).managed = true
  value : ∃ d : TypeDefinition (.number t), d.anyOptionChanged = false ∧
    (s.heap r).kind = .value (.number t) d ⟨true, c.value, c.changed⟩
  still : (s.heap r).anyOptionChanged = false
  writable : (s.heap r).readonly.content = false
  removed : s.removedParameter = ∅
  dirty : s.dirtyParameter = if c.changed then (∅ : Std.ExtTreeMap Int16 Ref).insert id r else ∅

/-- A setter that leaves the flags of the options alone. -/
private theorem Copy.of_set {a : Setter} (h : Copy id t s r c) {c' : Cell t.Val}
    (hvalue : ∀ d, (s.heap r).kind = .value (.number t) d ⟨true, c.value, c.changed⟩ →
      ((s.heap r).apply a).1.kind = .value (.number t) d ⟨true, c'.value, c'.changed⟩)
    (hstill : ((s.heap r).apply a).1.anyOptionChanged = false)
    (hwritable : ((s.heap r).apply a).1.readonly.content = false)
    (hdirty : (s.set r a).dirtyParameter = if c'.changed then (∅ : Std.ExtTreeMap Int16 Ref).insert id r else ∅) :
    Copy id t (s.set r a) r c' := by
  have hf := frame_set s r a
  have hheap : (s.set r a).heap r = ((s.heap r).apply a).1 := by rw [heap_set, if_pos rfl]
  obtain ⟨d, hd, hk⟩ := h.value
  refine ⟨?_, ?_, ?_, ?_, ?_, ⟨d, hd, ?_⟩, ?_, ?_, ?_, hdirty⟩
  · rw [params_set]; exact h.cached
  · rw [hf.idOf]; exact h.idOf
  · rw [hf.next]; exact h.built
  · rw [hf.isValid]; exact h.valid
  · rw [hf.managed]; exact h.managed
  · rw [hheap]; exact hvalue d hk
  · rw [hheap]; exact hstill
  · rw [hheap]; exact hwritable
  · rw [hf.removed]; exact h.removed

/-- `setValue` assigns to the copy. -/
theorem copy_setValue (ht : t.isInteger = true) (h : Copy id t s r c) (v : t.Val) :
    Copy id t (s.set r (.setValue (τ := .number t) v)) r (c.assign v) := by
  obtain ⟨d, -, hk⟩ := h.value
  have happly : (s.heap r).apply (.setValue (τ := .number t) v) =
      ({ s.heap r with kind := .value (.number t) d (Slot.set t.eqv v ⟨true, c.value, c.changed⟩).1 },
        (Slot.set t.eqv v ⟨true, c.value, c.changed⟩).2) := by
    simp [Parameter.apply, onPart, Kind.apply, hk]
  have hset : Slot.set t.eqv v ⟨true, c.value, c.changed⟩ =
      (⟨true, (c.assign v).value, (c.assign v).changed⟩, decide (c.value ≠ v)) := by
    unfold Slot.set Cell.assign
    have he := NumberType.eqv_iff ht c.value v
    by_cases hv : c.value = v
    · rw [if_pos (he.mpr hv), if_pos hv, decide_eq_false (not_not.mpr hv)]
    · rw [if_neg (fun h => hv (he.mp h)), if_neg hv, decide_eq_true hv]
  rw [hset] at happly
  refine h.of_set (fun d' hd' => ?_) ?_ ?_ ?_
  · rw [happly]
    rw [hk] at hd'
    cases hd'
    rfl
  · rw [happly]; exact h.still
  · rw [happly]; exact h.writable
  · have hfree : s.idOf r ∉ s.removedParameter := by
      rw [h.removed]
      exact Std.ExtTreeMap.not_mem_empty
    rw [dirty_set, happly]
    unfold Cell.assign
    by_cases hv : c.value = v
    · simp [hv, h.dirty]
    · rw [if_pos ⟨by simpa using hv, h.managed, hfree⟩, if_neg hv, if_pos rfl, h.idOf, h.dirty]
      split
      · exact insert_insert_self
      · rfl

/-- A parameter that may be written is not changed by being declared so. -/
theorem copy_setReadonly (h : Copy id t s r c) : Copy id t (s.set r (.setReadonly false)) r c := by
  have happly : (s.heap r).apply (.setReadonly false) =
      ({ s.heap r with readonly := { (s.heap r).readonly with has := true } }, false) := by
    simp [Parameter.apply, onPart, Slot.set, h.writable]
  refine h.of_set (fun d hd => ?_) ?_ ?_ ?_
  · rw [happly]; exact hd
  · rw [happly]; exact h.still
  · rw [happly]; exact h.writable
  · rw [dirty_set, happly, if_neg (by simp), h.dirty]

/-- A parsed parameter beside the copy. -/
theorem copy_put (h : Copy id t s r c) (p : Parameter) :
    Copy id t { s.put s.next p with next := s.next + 1 } r c := by
  have hheap : ({ s.put s.next p with next := s.next + 1 } : Store).heap r = s.heap r := if_neg (Nat.ne_of_lt h.built)
  refine ⟨h.cached, ?_, Nat.lt_succ_of_lt h.built, ?_, ?_, ?_, ?_, ?_, h.removed, h.dirty⟩
  · rw [Store.idOf, hheap]; exact h.idOf
  · rw [hheap]; exact h.valid
  · rw [hheap]; exact h.managed
  · rw [hheap]; exact h.value
  · rw [hheap]; exact h.still
  · rw [hheap]; exact h.writable

/-- A received value is assigned like a local change. -/
theorem copy_update (ht : t.isInteger = true) (h : Copy id t s r c) (mem : Memory) (v : t.Val) :
    Copy id t (({ s.put s.next (valueProxy mem id t v) with next := s.next + 1 } : Store).update r s.next).1 r
      (c.assign v) := by
  set u : Store := { s.put s.next (valueProxy mem id t v) with next := s.next + 1 } with hu
  have hcopy : Copy id t u r c := copy_put h _
  have hne : s.next ≠ r := Ne.symm (Nat.ne_of_lt h.built)
  have hproxy : u.heap s.next = valueProxy mem id t v := by simp [hu, put]
  have hkind : ∃ d b, (valueProxy mem id t v).kind = .value (.number t) d ⟨true, v, b⟩ := by
    have hslot : ∀ b : t.Val, ∃ b', (Slot.set t.eqv v (⟨false, b, false⟩ : Slot t.Val)).1 = ⟨true, v, b'⟩ := by
      intro b
      unfold Slot.set
      split
      · next he =>
        rw [(NumberType.eqv_iff ht _ _).mp he]
        exact ⟨false, rfl⟩
      · exact ⟨true, rfl⟩
    obtain ⟨b', hb'⟩ := hslot ((ValueType.number t).blank mem)
    refine ⟨TypeDefinition.make mem (.number t), b', ?_⟩
    simp [valueProxy, Parameter.apply, onPart, Kind.apply, Parameter.create, Kind.make, hb']
  obtain ⟨d, b, hkind⟩ := hkind
  have hset := copy_setValue ht hcopy v
  have hid : u.idOf s.next = u.idOf r := by
    rw [hcopy.idOf, Store.idOf, hproxy]
    rfl
  obtain ⟨d', -, hk⟩ := hcopy.value
  have hbare : (u.heap s.next).Bare := by
    rw [hproxy]
    exact ⟨rfl, rfl, rfl, rfl, rfl, rfl, rfl⟩
  rw [update_of_bare hne hid hk (by rw [hproxy, hkind]) hbare, hproxy]
  -- of the options of the parsed parameter only `readonly`, which its constructor leaves unset, may be there
  split
  · exact copy_setReadonly hset
  · exact hset

/-- The dirty list holds at most the parameter. -/
theorem dirtyRefs_copy (h : Copy id t s r c) : s.dirtyRefs = if c.changed then [r] else [] := by
  cases hc : c.changed with
  | false =>
    rw [dirtyRefs, h.dirty, hc]
    simp
  | true =>
    have hd : s.dirtyParameter = (∅ : Std.ExtTreeMap Int16 Ref).insert id r := by rw [h.dirty, hc]; rfl
    have hlength : s.dirtyRefs.length = 1 := by simp [dirtyRefs, hd, Std.ExtTreeMap.size_insert]
    obtain ⟨x, hx⟩ := List.length_eq_one_iff.mp hlength
    have hmem : r ∈ s.dirtyRefs := mem_dirtyRefs.mpr ⟨id, by simp [hd]⟩
    rw [hx, List.mem_singleton] at hmem
    rw [hx, hmem]
    rfl

/-- Flushing the dirty list sends the value if it has changed. -/
theorem copy_flush (h : Copy id t s r c) :
    (writeDirty s.dirtyRefs s).1 = (if c.changed then [valueMessage id t c.value] else []) ∧
      Copy id t { (writeDirty s.dirtyRefs s).2 with dirtyParameter := ∅ } r ⟨c.value, false⟩ := by
  rw [dirtyRefs_copy h]
  obtain ⟨d, hd, hk⟩ := h.value
  cases hc : c.changed with
  | false =>
    refine ⟨rfl, h.cached, h.idOf, h.built, h.valid, h.managed, ⟨d, hd, ?_⟩, h.still, h.writable, h.removed, rfl⟩
    rw [hc] at hk
    exact hk
  | true =>
    rw [hc] at hk
    have honly : (s.heap r).onlyValueChanged = true := by simp [Parameter.onlyValueChanged, hk, h.still, hd]
    have hwrite : (s.heap r).write s.idOf false =
        (.short id [t.datatype] (encodeBE t.size c.value.toNat),
          { s.heap r with kind := .value (.number t) d ⟨true, c.value, false⟩ }) := by
      have hid := h.idOf
      unfold Parameter.write
      split
      · next heq =>
        rw [hk] at heq
        cases heq
        rw [if_pos honly]
        exact Prod.ext (congrArg (Body.short · _ _) hid) rfl
      · next hno => exact absurd hk (hno _ _ _)
    have hheap : (s.put r ((s.heap r).write s.idOf false).2).heap r =
        { s.heap r with kind := .value (.number t) d ⟨true, c.value, false⟩ } := by
      rw [hwrite]
      exact if_pos rfl
    have hvalid := h.valid
    rw [Parameter.isValid, Parameter.getDatatype, hk] at hvalid
    rw [if_pos rfl, if_pos rfl]
    unfold writeDirty writeDirty
    dsimp only
    refine ⟨?_, h.cached, ?_, h.built, ?_, ?_, ⟨d, hd, ?_⟩, ?_, ?_, h.removed, rfl⟩
    · rw [honly, hwrite]
      rfl
    · exact (congrArg Parameter.parameterId hheap).trans h.idOf
    · exact (congrArg Parameter.isValid hheap).trans hvalid
    · exact (congrArg Parameter.managed hheap).trans h.managed
    · exact congrArg Parameter.kind hheap
    · exact (congrArg Parameter.anyOptionChanged hheap).trans h.still
    · exact (congrArg (·.readonly.content) hheap).trans h.writable

/-- What a server or a client does with a received value. -/
theorem copy_applyUpdate (ht : t.isInteger = true) (h : Copy id t s r c) (mem : Memory) (v : t.Val) :
    Copy id t (Server.applyUpdate s.next { s.put s.next (valueProxy mem id t v) with next := s.next + 1 }) r
        (c.assign v) ∧
      Copy id t (Client.applyUpdate s.next { s.put s.next (valueProxy mem id t v) with next := s.next + 1 }) r
        (c.assign v) := by
  set u : Store := { s.put s.next (valueProxy mem id t v) with next := s.next + 1 } with hu
  have hid : u.idOf s.next = id := by
    have hproxy : u.heap s.next = valueProxy mem id t v := if_pos rfl
    rw [Store.idOf, hproxy]
    rfl
  have hcopy : Copy id t u r c := copy_put h _
  have hupdate : Copy id t (u.update r s.next).1 r (c.assign v) := copy_update ht h mem v
  have hvalid : (if (u.heap r).isValid then (u.update r s.next).1 else u) = (u.update r s.next).1 :=
    if_pos hcopy.valid
  constructor
  · rw [Server.applyUpdate, hid, hcopy.cached]
    dsimp only
    rw [hvalid]
    exact hupdate
  · rw [Client.applyUpdate, hid, hcopy.cached]
    dsimp only
    rw [if_pos hcopy.valid]
    exact hupdate

/-- The parameter is dirty exactly if its value has changed. -/
theorem Copy.mem_dirty (h : Copy id t s r c) : id ∈ s.dirtyParameter ↔ c.changed = true := by
  rw [h.dirty]
  split
  · next hc => simp [hc]
  · next hc => simp [hc]

theorem Copy.observe (h : Copy id t s r c) : (s.heap r).observe .value = some (.value (.number t) c.value) := by
  obtain ⟨d, -, hk⟩ := h.value
  simp [Parameter.observe, Kind.observe, hk, Slot.get?]

end Store

/-! ### Server and client -/

section Peers

variable {r : Ref} {id : Id} {t : NumberType} {c : Cell t.Val}

theorem Server.update_copy {s : Server} (hs : s.transporterList ≠ []) (h : Store.Copy id t s.store r c) :
    s.update.1 = (if c.changed then [valueMessage id t c.value] else []) ∧
      Store.Copy id t s.update.2.store r ⟨c.value, false⟩ ∧ s.update.2.transporterList = s.transporterList := by
  obtain ⟨hsent, hcopy⟩ := Store.copy_flush h
  set u := (Store.writeDirty s.store.dirtyRefs s.store).2
  have hstore : ({ u with removedParameter := ∅, dirtyParameter := ∅ } : Store) = { u with dirtyParameter := ∅ } :=
    congrArg (fun m => ({ u with removedParameter := m, dirtyParameter := ∅ } : Store)) hcopy.removed.symm
  have hnone : s.store.removedParameter.toList = [] := by rw [h.removed]; rfl
  rw [Server.update, if_neg hs, hnone]
  exact ⟨hsent, (congrArg (Store.Copy id t · r ⟨c.value, false⟩) hstore).mpr hcopy, rfl⟩

theorem Server.received_valueMessage {s : Server} (ht : t.isInteger = true) (h : Store.Copy id t s.store r c)
    (depth : Nat) (ch : Chance) (v : t.Val) :
    ∃ u, Store.Copy id t u r (c.assign v) ∧
      s.received depth ch (valueMessage id t v).bytes = { server := { s with store := u }, relay := true } := by
  have hparse := s.store.parse_valueMessage ch id t v
  refine ⟨_, (Store.copy_applyUpdate ht h ch.mem v).1, ?_⟩
  rw [Server.received_of_parameter (p := valueProxy ch.mem id t v) (by rw [hparse]) (by rw [hparse]; rfl), hparse]

theorem Client.received_valueMessage {s : Client} (ht : t.isInteger = true) (h : Store.Copy id t s.store r c)
    (ch : Chance) (v : t.Val) :
    ∃ u, Store.Copy id t u r (c.assign v) ∧
      s.received ch (valueMessage id t v).bytes = ({ s with store := u }, []) := by
  have hparse := s.store.parse_valueMessage ch id t v
  refine ⟨_, (Store.copy_applyUpdate ht h ch.mem v).2, ?_⟩
  rw [Client.received_of_parameter (p := valueProxy ch.mem id t v) (by rw [hparse]) (by rw [hparse]; rfl), hparse]

end Peers

/-! ### The star of copies -/

/-- What happens to the shared parameter: its value is set, changes are sent, and messages arrive. -/
inductive Move (ι : Type) (t : NumberType)
  | serverSet (v : t.Val)
  | serverUpdate
  | clientSet (i : ι) (v : t.Val)
  | clientUpdate (i : ι)
  | serverReceived (i : ι) (depth : Nat) (ch : Chance)
  | clientReceived (i : ι) (ch : Chance)

namespace Move

variable {ι : Type} {t : NumberType}

/-- The parameter is `r` on the server and `c i` on client `i`. -/
def action (r : Ref) (c : ι → Ref) : Move ι t → Action ι
  | serverSet v => .call (.set r (.setValue (τ := .number t) v))
  | serverUpdate => .call .update
  | clientSet i v => .clientSet i (c i) (.setValue (τ := .number t) v)
  | clientUpdate i => .clientUpdate i
  | serverReceived i depth ch => .serverReceived i depth ch
  | clientReceived i ch => .clientReceived i ch

def abstract : Move ι t → Star.Action ι t.Val
  | serverSet v => .assignHub v
  | serverUpdate => .flushHub
  | clientSet i v => .assignLeaf i v
  | clientUpdate i => .flushLeaf i
  | serverReceived i _ _ => .arriveHub i
  | clientReceived i _ => .arriveLeaf i

end Move

namespace System

variable {ι : Type} {id : Id} {t : NumberType} {r : Ref} {c : ι → Ref} {s : System ι} {a : Star ι t.Val}

/-- The system holds the copies of a star, and what is on its way in the star are its messages. -/
structure Tracks (id : Id) (t : NumberType) (r : Ref) (c : ι → Ref) (s : System ι) (a : Star ι t.Val) : Prop where
  server : Store.Copy id t s.server.store r a.hub
  client : ∀ i, Store.Copy id t (s.client i).store (c i) (a.leaf i)
  up : ∀ i, s.up i = (a.up i).map fun v => (valueMessage id t v).bytes
  down : ∀ i, s.down i = (a.down i).map fun v => (valueMessage id t v).bytes
  transporters : s.server.transporterList ≠ []

variable [DecidableEq ι]

theorem tracks_step (ht : t.isInteger = true) (h : Tracks id t r c s a) (m : Move ι t) :
    Tracks id t r c (s.step (m.action r c)) (a.step m.abstract) := by
  cases m with
  | serverSet v =>
    refine ⟨Store.copy_setValue ht h.server v, h.client, h.up, fun i => ?_, h.transporters⟩
    exact (List.append_nil _).trans (h.down i)
  | serverUpdate =>
    obtain ⟨hsent, hcopy, hts⟩ := Server.update_copy h.transporters h.server
    have hdown : ∀ i, (s.step (.call .update)).down i = s.down i ++ s.server.update.1.map Message.bytes :=
      fun _ => rfl
    rw [Move.abstract, Star.step]
    split
    · next hc =>
      refine ⟨hcopy, h.client, h.up, fun i => ?_, fun hnil => h.transporters (hts.symm.trans hnil)⟩
      rw [Move.action, hdown, hsent, if_pos hc, h.down]
      simp
    · next hc =>
      have hcell : (⟨a.hub.value, false⟩ : Cell t.Val) = a.hub := by
        rw [Bool.not_eq_true] at hc
        rw [← hc]
      refine ⟨hcell ▸ hcopy, h.client, h.up, fun i => ?_, fun hnil => h.transporters (hts.symm.trans hnil)⟩
      rw [Move.action, hdown, hsent, if_neg hc, h.down]
      simp
  | clientSet i v =>
    refine ⟨h.server, fun j => ?_, h.up, h.down, h.transporters⟩
    rw [Move.action, Move.abstract, step, Star.step]
    by_cases hj : j = i
    · subst hj
      simp only [Function.update_self]
      exact Store.copy_setValue ht (h.client j) v
    · simp only [Function.update_of_ne hj]
      exact h.client j
  | clientUpdate i =>
    obtain ⟨hsent, hcopy⟩ := Store.copy_flush (h.client i)
    have hclient : ∀ leaf : ι → Cell t.Val, leaf i = ⟨(a.leaf i).value, false⟩ →
        (∀ j, j ≠ i → leaf j = a.leaf j) →
        ∀ j, Store.Copy id t ((s.step (.clientUpdate i)).client j).store (c j) (leaf j) := by
      intro leaf hi hj j
      by_cases hji : j = i
      · subst hji
        rw [hi]
        simpa [step, Client.update] using hcopy
      · rw [hj j hji]
        simpa [step, hji] using h.client j
    have hup : ∀ j, (s.step (.clientUpdate i)).up j =
        if j = i then s.up i ++ (s.client i).update.1.map Message.bytes else s.up j := by
      intro j
      simp [step, Function.update_apply]
    rw [Move.abstract, Star.step]
    split
    · next hc =>
      refine ⟨h.server, hclient _ (Function.update_self ..) fun j hj => Function.update_of_ne hj .., fun j => ?_,
        h.down, h.transporters⟩
      rw [Move.action, hup, Client.update, hsent, if_pos hc]
      by_cases hj : j = i
      · subst hj
        simp [h.up]
      · simp [h.up, hj]
    · next hc =>
      have hcell : a.leaf i = ⟨(a.leaf i).value, false⟩ := by
        rw [Bool.not_eq_true] at hc
        rw [← hc]
      refine ⟨h.server, hclient _ hcell fun _ _ => rfl, fun j => ?_, h.down, h.transporters⟩
      rw [Move.action, hup, Client.update, hsent, if_neg hc]
      by_cases hj : j = i
      · subst hj
        simp [h.up]
      · simp [h.up, hj]
  | serverReceived i depth ch =>
    cases hup : a.up i with
    | nil =>
      have hnone : s.up i = [] := by rw [h.up, hup, List.map_nil]
      have hs : s.step (.serverReceived i depth ch) = s := by rw [step, hnone]
      have ha : a.step (.arriveHub i) = a := by rw [Star.step, hup]
      rw [Move.action, Move.abstract, hs, ha]
      exact h
    | cons v rest =>
      obtain ⟨u, hcopy, hr⟩ := Server.received_valueMessage ht h.server depth ch v
      have hcons : s.up i = (valueMessage id t v).bytes :: rest.map fun v => (valueMessage id t v).bytes := by
        rw [h.up, hup, List.map_cons]
      rw [Move.action, Move.abstract, step, Star.step, hcons, hup]
      dsimp only
      rw [hr]
      refine ⟨hcopy, h.client, fun j => ?_, fun j => ?_, h.transporters⟩
      · by_cases hj : j = i
        · subst hj
          simp
        · simp [hj, h.up]
      · by_cases hj : j = i
        · simp [hj, h.down]
        · simp [hj, h.down, h.transporters]
  | clientReceived i ch =>
    cases hdown : a.down i with
    | nil =>
      have hnone : s.down i = [] := by rw [h.down, hdown, List.map_nil]
      have hs : s.step (.clientReceived i ch) = s := by rw [step, hnone]
      have ha : a.step (.arriveLeaf i) = a := by rw [Star.step, hdown]
      rw [Move.action, Move.abstract, hs, ha]
      exact h
    | cons v rest =>
      obtain ⟨u, hcopy, hr⟩ := Client.received_valueMessage ht (h.client i) ch v
      have hcons : s.down i = (valueMessage id t v).bytes :: rest.map fun v => (valueMessage id t v).bytes := by
        rw [h.down, hdown, List.map_cons]
      rw [Move.action, Move.abstract, step, Star.step, hcons, hdown]
      dsimp only
      rw [hr]
      refine ⟨h.server, fun j => ?_, fun j => ?_, fun j => ?_, h.transporters⟩
      · by_cases hj : j = i
        · subst hj
          simpa using hcopy
        · simpa [hj] using h.client j
      · by_cases hj : j = i
        · subst hj
          simp [h.up]
        · simp [hj, h.up]
      · by_cases hj : j = i
        · subst hj
          simp
        · simp [hj, h.down]

theorem tracks_run (ht : t.isInteger = true) (h : Tracks id t r c s a) (ms : List (Move ι t)) :
    Tracks id t r c (run step s (ms.map (Move.action r c))) (run Star.step a (ms.map Move.abstract)) := by
  induction ms generalizing s a with
  | nil => exact h
  | cons m ms ih => exact ih (tracks_step ht h m)

/-! ### Agreement -/

/-- The parameter has the value `v` everywhere. -/
def Agree (r : Ref) (c : ι → Ref) (s : System ι) (v : t.Val) : Prop :=
  (s.server.store.heap r).observe .value = some (.value (.number t) v) ∧
    ∀ i, ((s.client i).store.heap (c i)).observe .value = some (.value (.number t) v)

/-- No message is on its way, and nobody has the parameter dirty. -/
def Quiet (id : Id) (s : System ι) : Prop :=
  (∀ i, s.up i = [] ∧ s.down i = []) ∧ id ∉ s.server.store.dirtyParameter ∧
    ∀ i, id ∉ (s.client i).store.dirtyParameter

/-- The server and its clients share the parameter: everyone has it with the value `v`, nothing is changed and nothing
is to be sent or on its way. -/
structure Shared (id : Id) (t : NumberType) (r : Ref) (c : ι → Ref) (s : System ι) (v : t.Val) : Prop where
  server : Store.Copy id t s.server.store r ⟨v, false⟩
  client : ∀ i, Store.Copy id t (s.client i).store (c i) ⟨v, false⟩
  up : ∀ i, s.up i = []
  down : ∀ i, s.down i = []
  transporters : s.server.transporterList ≠ []

variable {v : t.Val}

omit [DecidableEq ι] in
theorem Shared.tracks (h : Shared id t r c s v) : Tracks id t r c s (Star.agreed v) :=
  ⟨h.server, h.client, h.up, h.down, h.transporters⟩

/-- However the values are set and the messages are interleaved: if nothing is on its way and nobody has the parameter
dirty, then all have the same value. -/
theorem agree_at_quiescence (ht : t.isInteger = true) (hs : Shared id t r c s v) (ms : List (Move ι t))
    (hq : Quiet id (run step s (ms.map (Move.action r c)))) :
    ∃ w : t.Val, Agree r c (run step s (ms.map (Move.action r c))) w := by
  have h := tracks_run ht hs.tracks ms
  have hstar := Star.converging_run (Star.converging_agreed v) (ms.map (Move.abstract (ι := ι)))
  obtain ⟨hqueues, hserver, hclient⟩ := hq
  rw [h.server.mem_dirty, Bool.not_eq_true] at hserver
  refine ⟨_, h.server.observe, fun i => ?_⟩
  have hleaf := hclient i
  rw [(h.client i).mem_dirty, Bool.not_eq_true] at hleaf
  have hup : (run Star.step (Star.agreed v) (ms.map Move.abstract)).up i = [] :=
    List.map_eq_nil_iff.mp ((h.up i).symm.trans (hqueues i).1)
  have hdown : (run Star.step (Star.agreed v) (ms.map Move.abstract)).down i = [] :=
    List.map_eq_nil_iff.mp ((h.down i).symm.trans (hqueues i).2)
  rw [(h.client i).observe, hstar.agree i hserver hdown hleaf hup]

/-- A server with a 32-bit integer that its two clients have received. -/
def connected : System (Fin 2) :=
  run step (start {} [0] fun _ => {})
    [.call (.create {} .createInt32Parameter [118] root), .call (.set 1 (.setValue (τ := .number .int32) 5#32)),
      .call .update, .clientReceived firstClient ⟨{}, fun _ => 0⟩, .clientReceived secondClient ⟨{}, fun _ => 0⟩]

theorem shared_connected : Shared 1 .int32 1 (fun _ => 1) connected 5#32 where
  server := ⟨by decide, by decide, by decide, by decide, by decide, ⟨_, rfl, rfl⟩, by decide, by decide, rfl, rfl⟩
  client := by
    intro i
    have h : ∀ i : Fin 2, i = 0 ∨ i = 1 := by decide
    rcases h i with rfl | rfl <;>
    exact ⟨by decide, by decide, by decide, by decide, by decide, ⟨_, rfl, rfl⟩, by decide, by decide, rfl, rfl⟩
  up := by decide
  down := by decide
  transporters := by decide

def crossing : List (Move (Fin 2) .int32) :=
  let ch : Chance := ⟨{}, fun _ => 0⟩
  [.serverSet 7#32, .clientSet secondClient 9#32, .serverUpdate, .clientUpdate secondClient,
    .serverReceived secondClient 0 ch, .clientReceived secondClient ch, .clientReceived firstClient ch,
    .clientReceived firstClient ch, .serverUpdate, .clientReceived firstClient ch, .clientReceived secondClient ch,
    .clientUpdate firstClient, .clientUpdate secondClient, .serverReceived firstClient 0 ch,
    .serverReceived secondClient 0 ch, .clientReceived firstClient ch, .clientReceived secondClient ch]

theorem agree_crossing :
    ∃ w : BitVec 32, Agree (t := .int32) 1 (fun _ => 1) (run step connected (crossing.map (Move.action 1 fun _ => 1))) w :=
  agree_at_quiescence rfl shared_connected crossing ⟨by decide, by decide, by decide⟩

/-! ### Echoes -/

/-- The value that the server was last set to, at first `v`. -/
def lastSet (v : t.Val) (ms : List (Move ι t)) : t.Val :=
  ms.foldl (fun v m => match m with
    | .serverSet w => w
    | _ => v) v

/-- The server takes a new value only while no message is on its way to it, and a client, which sets no values of its
own, sends a value that it has received only while the server has it. -/
def NoEcho (id : Id) (r : Ref) (c : ι → Ref) (s : System ι) : Move ι t → Prop
  | .serverSet v => (s.server.store.heap r).observe .value = some (.value (.number t) v) ∨ ∀ i, s.up i = []
  | .clientSet .. => False
  | .clientUpdate i => id ∈ (s.client i).store.dirtyParameter →
      ((s.client i).store.heap (c i)).observe .value = (s.server.store.heap r).observe .value
  | .serverUpdate | .serverReceived .. | .clientReceived .. => True

theorem value_inj {v w : t.Val} :
    some (Content.value (.number t) v) = some (Content.value (.number t) w) ↔ v = w := by
  rw [Option.some.injEq, Content.value_inj]

omit [DecidableEq ι] in
theorem nothingStale_iff (h : Tracks id t r c s a) (m : Move ι t) :
    NoEcho id r c s m ↔ Star.NothingStale a m.abstract := by
  cases m with
  | serverSet v =>
    refine or_congr ?_ (forall_congr' fun i => ?_)
    · rw [h.server.observe, value_inj]
      exact eq_comm
    · rw [h.up, List.map_eq_nil_iff]
  | clientUpdate i =>
    show (_ → _) ↔ (_ → _)
    rw [(h.client i).mem_dirty, (h.client i).observe, h.server.observe, value_inj]
  | clientSet i v => exact Iff.rfl
  | serverUpdate | serverReceived | clientReceived => exact Iff.rfl

theorem along_nothingStale (ht : t.isInteger = true) (h : Tracks id t r c s a) {ms : List (Move ι t)}
    (hms : Along (fun s m => s.step (m.action r c)) (NoEcho id r c) s ms) :
    Along Star.step Star.NothingStale a (ms.map Move.abstract) := by
  induction ms generalizing s a with
  | nil => trivial
  | cons m ms ih => exact ⟨(nothingStale_iff h m).mp hms.1, ih (tracks_step ht h m) hms.2⟩

/-- In a run without echoes the server has the value that it was last set to. -/
theorem keeps_lastSet (ht : t.isInteger = true) (hs : Shared id t r c s v) (ms : List (Move ι t))
    (hms : Along (fun s m => s.step (m.action r c)) (NoEcho id r c) s ms) :
    ((run step s (ms.map (Move.action r c))).server.store.heap r).observe .value =
      some (.value (.number t) (lastSet v ms)) := by
  have hrun := Star.echoless_run (along_nothingStale ht hs.tracks hms) (by intro i; simp [Star.agreed])
  rw [(tracks_run ht hs.tracks ms).server.observe, hrun.2, List.foldl_map]
  congr 3
  funext w m
  cases m <;> rfl

/-- A step that may echo lets some client overwrite the last value with what it has on its way. -/
theorem echo_of_not (ht : t.isInteger = true) (hs : Shared id t r c s v) {ms : List (Move ι t)}
    (hms : Along (fun s m => s.step (m.action r c)) (NoEcho id r c) s ms) {m : Move ι t}
      (hset : ∀ i v, m ≠ .clientSet i v)
    (hm : ¬NoEcho id r c (run step s (ms.map (Move.action r c))) m) (ch : Chance) :
    ∃ i n, ((run step s ((ms ++ m :: List.replicate n (.serverReceived i 0 ch)).map
      (Move.action r c))).server.store.heap r).observe .value ≠ some (.value (.number t) (lastSet v (ms ++ [m]))) := by
  have htracks := tracks_run ht hs.tracks ms
  have hrun := Star.echoless_run (along_nothingStale ht hs.tracks hms) (by intro i; simp [Star.agreed])
  obtain ⟨i, n, hne⟩ := Star.stale_of_not (a := m.abstract) hrun.1 (fun h => hm ((nothingStale_iff htracks m).mpr h))
    (by cases m <;> simp_all [Move.abstract])
  have hlast : lastSet v (ms ++ [m]) =
      m.abstract.assigned (run Star.step (Star.agreed v) (ms.map Move.abstract)).hub.value := by
    have hvalue := value_inj.mp ((keeps_lastSet ht hs ms hms).symm.trans htracks.server.observe)
    rw [← hvalue, lastSet, List.foldl_append]
    cases m <;> rfl
  refine ⟨i, n, fun h => hne ?_⟩
  have hall := tracks_run ht hs.tracks (ms ++ m :: List.replicate n (.serverReceived i 0 ch))
  rw [hall.server.observe, value_inj, hlast] at h
  rw [← h, List.map_append, run_append, List.map_cons, run_cons, List.map_replicate]
  rfl

/-- The server sets a value and sends it, and both clients pass it back before the server sets the next one. -/
def inTurn : List (Move (Fin 2) .int32) :=
  let ch : Chance := ⟨{}, fun _ => 0⟩
  [.serverSet 7#32, .serverUpdate, .clientReceived firstClient ch, .clientReceived secondClient ch,
    .clientUpdate firstClient, .clientUpdate secondClient, .serverReceived firstClient 0 ch,
    .serverReceived secondClient 0 ch, .serverSet 8#32]

theorem keeps_inTurn :
    ((run step connected (inTurn.map (Move.action 1 fun _ => 1))).server.store.heap 1).observe .value =
      some (.value (.number .int32) 8#32) := by
  refine keeps_lastSet rfl shared_connected inTurn ?_
  exact ⟨Or.inr (by decide), trivial, trivial, trivial, fun _ => rfl, fun _ => rfl, trivial, trivial,
    Or.inr (by decide), trivial⟩

/-- The server sets another value before the first client has passed back what it has received. -/
def overtaken : List (Move (Fin 2) .int32) :=
  let ch : Chance := ⟨{}, fun _ => 0⟩
  [.serverSet 7#32, .serverUpdate, .clientReceived firstClient ch, .serverSet 8#32, .clientUpdate firstClient,
    .serverReceived firstClient 0 ch]

theorem echo_overtaken :
    ¬∀ ms : List (Move (Fin 2) .int32), (∀ m ∈ ms, ∀ i v, m ≠ .clientSet i v) →
      ((run step connected (ms.map (Move.action 1 fun _ => 1))).server.store.heap 1).observe .value =
        some (.value (.number .int32) (lastSet 5#32 ms)) := by
  intro h
  have hlast := h overtaken (by simp [overtaken])
  have hseven : ((run step connected (overtaken.map (Move.action 1 fun _ => 1))).server.store.heap 1).observe .value =
      some (.value (.number .int32) 7#32) := rfl
  rw [hseven] at hlast
  have heq : (7#32 : BitVec 32) = 8#32 := (value_inj (t := .int32)).mp hlast
  exact absurd heq (by decide)

end System

end RabbitControl
