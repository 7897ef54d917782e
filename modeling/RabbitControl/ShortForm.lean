import RabbitControl.Bookkeeping
import RabbitControl.EnumRoundTrip
import RabbitControl.PacketRoundTrip

/-!
# The short form and the full form

A parameter of which only the value has changed is sent short, in an `UPDATEVALUE` packet.  It is read through another
table of types than the full form and it is stored by a setter instead of the option loop.  `short_form_iff` says for
which types and values a receiver comes to the same state as by an `UPDATE` packet with the value as its only option.
-/

namespace RabbitControl

open Lib

/-! ### Comparing values -/

private theorem floatEq_symm (e m a b : Nat) : NumberType.floatEq e m a b = NumberType.floatEq e m b a := by
  unfold NumberType.floatEq
  dsimp only
  rw [Bool.beq_comm (a := a) (b := b), Bool.and_comm (!_) (!_), Bool.and_comm (_ % _ == 0) (_ % _ == 0)]

private theorem floatEq_self {e m a b : Nat} (h : NumberType.floatEq e m a b = true) :
    NumberType.floatEq e m b b = true := by
  unfold NumberType.floatEq at h ⊢
  dsimp only at h ⊢
  rw [Bool.and_eq_true, Bool.and_eq_true] at h
  rw [h.1.2, beq_self_eq_true, Bool.true_or]
  rfl

theorem NumberType.eqv_symm (t : NumberType) (a b : t.Val) : t.eqv a b = t.eqv b a := by
  cases t with
  | float32 | float64 => exact floatEq_symm ..
  | _ => exact Bool.beq_comm

/-- What equals anything is no NaN, and equals itself. -/
theorem NumberType.eqv_self {t : NumberType} {a b : t.Val} (h : t.eqv a b = true) : t.eqv b b = true := by
  cases t with
  | float32 | float64 => exact floatEq_self h
  | _ => exact beq_self_eq_true _

namespace ValueType

theorem eqv_symm (τ : ValueType) (a b : τ.Val) : τ.eqv a b = τ.eqv b a := by
  cases τ with
  | number t => exact t.eqv_symm a b
  | range t => exact congrArg₂ (· && ·) (t.eqv_symm a.1 b.1) (t.eqv_symm a.2 b.2)
  | string | enum | uri | ipv6 => exact decide_eq_decide.mpr eq_comm
  | boolean | rgb | rgba | ipv4 | custom => exact Bool.beq_comm

theorem eqv_self {τ : ValueType} {a b : τ.Val} (h : τ.eqv a b = true) : τ.eqv b b = true := by
  cases τ with
  | number t => exact NumberType.eqv_self h
  | range t =>
    have hand := (Bool.and_eq_true ..).mp h
    exact (Bool.and_eq_true ..).mpr ⟨NumberType.eqv_self hand.1, NumberType.eqv_self hand.2⟩
  | string | enum | uri | ipv6 => exact decide_eq_true rfl
  | boolean | rgb | rgba | ipv4 | custom => exact beq_self_eq_true _

end ValueType

/-! ### Values that are set -/

section Slots

variable {α : Type} {eqv : α → α → Bool} {c : Slot α} {blank v : α}

/-- The value of a parameter that was just constructed, after it was set. -/
theorem Slot.set_fresh (eqv : α → α → Bool) (blank v : α) :
    ∃ b, (Slot.set eqv v { content := blank }).1 = ⟨true, if eqv blank v then blank else v, b⟩ := by
  unfold Slot.set
  split
  · exact ⟨false, rfl⟩
  · exact ⟨true, rfl⟩

theorem Slot.get?_set (eqv : α → α → Bool) (v : α) (c : Slot α) :
    (Slot.set eqv v c).1.get? = some (if eqv c.content v then c.content else v) := by
  unfold Slot.set
  split <;> rfl

/-- A value that was set in a fresh parameter and then in a cached one is kept exactly if it is neither taken for the
cached value nor, unless it is that value, for the blank one. -/
theorem Slot.set_set_iff (hsymm : ∀ a b, eqv a b = eqv b a) :
    (Slot.set eqv (if eqv blank v then blank else v) c).1.get? = some v ↔
      (eqv c.content v = true → c.content = v) ∧ (eqv blank v = true → blank = v ∨ c.content = v) := by
  rw [Slot.get?_set, Option.some.injEq]
  by_cases hb : eqv blank v = true
  · rw [if_pos hb]
    by_cases hbv : blank = v
    · rw [hbv]
      by_cases hc : eqv c.content v = true <;> simp [hc]
    · by_cases hcv : c.content = v
      · rw [hcv, hsymm, if_pos hb]
        simp
      · have hne : (if eqv c.content blank = true then c.content else blank) ≠ v := by
          split <;> assumption
        exact iff_of_false hne fun h => (h.2 hb).elim hbv hcv
  · rw [if_neg hb]
    by_cases hc : eqv c.content v = true <;> simp [hb, hc]

/-- Then it does not matter that it was set in a fresh parameter before. -/
theorem Slot.set_set_eq (hsymm : ∀ a b, eqv a b = eqv b a) (hself : ∀ {a b}, eqv a b = true → eqv b b = true)
    (h : eqv blank v = true → blank = v ∨ c.content = v) :
    Slot.set eqv (if eqv blank v then blank else v) c = Slot.set eqv v c := by
  split
  · next hb =>
    rcases h hb with h | h
    · rw [h]
    · unfold Slot.set
      rw [h, hsymm v, hb, hself hb]
      rfl
  · rfl

end Slots

/-! ### What is sent -/

/-- The packet that a server or a client sends for a dirty parameter. -/
def Parameter.message (idOf : Ref → Id) (p : Parameter) : Message :=
  ⟨if p.onlyValueChanged then .updateValue else .update, .parameter (p.write idOf false).1⟩

/-- The full form of a parameter with a value and nothing else. -/
def fullForm (id : Id) (τ : ValueType) (v : τ.Val) : Message :=
  ⟨.update, .parameter (.full id ((TypeDefinition.make {} τ).write false).1 [⟨.value, writeValue τ v⟩])⟩

/-- A parameter with a value and nothing else. -/
def valueOnly (id : Id) (τ : ValueType) (v : τ.Val) : Parameter :=
  { Parameter.create {} id (.value τ) with kind := .value τ (.make {} τ) ⟨true, v, true⟩ }

theorem Parameter.bytes_message {p : Parameter} {τ : ValueType} {d : TypeDefinition τ} {v : Slot τ.Val}
    (hp : p.onlyValueChanged = true) (hk : p.kind = .value τ d v) (idOf : Ref → Id) :
    (p.message idOf).bytes = 6 :: (writeInt16 p.parameterId ++ (τ.mandatory ++ writeValue τ v.content)) := by
  have hwrite : (p.write idOf false).1 = .short p.parameterId τ.mandatory (writeValue τ v.content) := by
    unfold Parameter.write
    split
    · next heq =>
      rw [hk] at heq
      cases heq
      rw [if_pos hp]
    · next hno => exact absurd hk (hno _ _ _)
  rw [Parameter.message, if_pos hp, hwrite, ← List.append_assoc]
  rfl

theorem bytes_fullForm (idOf : Ref → Id) (id : Id) (τ : ValueType) (v : τ.Val) :
    (fullForm id τ v).bytes = 4 :: 18 :: (((valueOnly id τ v).writeFull idOf false).1.bytes ++ [0]) := rfl

/-! ### What is read -/

/-- The types that the short form is read back at. -/
def ValueType.readsShort : ValueType → Bool
  | enum | range _ | custom _ => false
  | _ => true

/-- The parameter that the short form is read as. -/
def shortProxy (mem : Memory) (id : Id) (τ : ValueType) (v : τ.Val) : Parameter :=
  ((Parameter.create mem id (.value τ)).apply (.setValue v)).1

section Read

variable {σ : Type} {env : ParseEnv σ} {mem : Memory} {s : σ} {junk : Nat → UInt8} {τ : ValueType} {v : τ.Val}

theorem shortProxy_eq (mem : Memory) (id : Id) (τ : ValueType) (v : τ.Val) :
    ∃ b, shortProxy mem id τ v = { Parameter.create mem id (.value τ) with
      kind := .value τ (.make mem τ) ⟨true, if τ.eqv (τ.blank mem) v then τ.blank mem else v, b⟩ } := by
  obtain ⟨b, hb⟩ := Slot.set_fresh τ.eqv (τ.blank mem) v
  refine ⟨b, ?_⟩
  rw [shortProxy, Parameter.apply_setValue (show (Parameter.create mem id (.value τ)).kind = _ from rfl), hb]

/-- After the command comes the parameter. -/
theorem readPacket_updateValue (id : Id) (c : UInt8) (l : Bytes) :
    readPacket env mem s (stream junk (6 :: (writeInt16 id ++ c :: l))) =
      match parameterType c with
      | some (.value τ) =>
        match readValue τ (stream junk l) with
        | .error e => .throw e ⟨s, none, .threw e⟩
        | .ok (v, is) =>
          .done ⟨s, some { command := .updateValue, data := some (.parameter (shortProxy mem id τ v)) }, .accepted⟩ is
      | _ => .done ⟨s, none, .rejected⟩ (stream junk l) := by
  have hget : (stream junk (6 :: (writeInt16 id ++ c :: l))).get = (some 6, stream junk (writeInt16 id ++ c :: l)) := rfl
  have hid : readInt16 (stream junk (writeInt16 id ++ c :: l)) = (id, stream junk (c :: l)) := readInt16_append ..
  have hc : (stream junk (c :: l)).get = (some c, stream junk l) := rfl
  rw [readPacket, hget, Option.bind_some, show Command.ofCode 6 = some .updateValue from rfl]
  dsimp only
  rw [readUpdateValue, hid]
  dsimp only
  rw [hc, Option.bind_some]
  rcases parameterType c with _ | τ | _ | _ | _
  case some.value =>
    dsimp only
    cases readValue τ (stream junk l) <;> rfl
  all_goals rfl

/-- The types of the short form that can be read. -/
theorem readPacket_short (hτ : τ.readsShort = true) (hv : τ.Fits v) (id : Id) (tail : Bytes) :
    readPacket env mem s (stream junk (6 :: (writeInt16 id ++ (τ.mandatory ++ writeValue τ v)) ++ tail)) =
      .done ⟨s, some { command := .updateValue, data := some (.parameter (shortProxy mem id τ v)) }, .accepted⟩
        (stream junk tail) := by
  have htype : τ.mandatory = [τ.datatype] ∧ parameterType τ.datatype = some (.value τ) ∧ τ ≠ .enum := by
    cases τ with
    | number t => cases t <;> exact ⟨rfl, rfl, ValueType.noConfusion⟩
    | enum | range | custom => exact absurd hτ Bool.false_ne_true
    | _ => exact ⟨rfl, rfl, ValueType.noConfusion⟩
  have hread : readValue τ (stream junk (writeValue τ v ++ tail)) = .ok (v, stream junk tail) :=
    reads_value htype.2.2 hv tail junk
  rw [htype.1, List.cons_append, List.append_assoc, List.append_assoc, List.singleton_append, readPacket_updateValue,
    htype.2.1]
  dsimp only
  rw [hread]

/-- The length of an enum value is written in four bytes and read in one. -/
private theorem readTinyString_long {v w : Bytes} :
    readTinyString (stream junk ([] ++ (encodeBE 4 v.length ++ v))) ≠ .ok (w, stream junk []) := by
  intro h
  obtain ⟨hw, hbytes, -⟩ := bytes_of_readTinyString rfl h rfl
  have hbytes' : encodeBE 4 v.length ++ v = UInt8.ofNat w.length :: w := by
    have hwrite : writeTinyString w = UInt8.ofNat w.length :: w := writeTinyString_short (by omega)
    rw [← hwrite]
    exact hbytes.trans (List.append_nil _)
  have hlength := congrArg List.length hbytes'
  rw [List.length_append, length_encodeBE, List.length_cons] at hlength
  have hfirst : UInt8.ofNat (v.length / 256 ^ 3) = UInt8.ofNat w.length := (List.cons.inj hbytes').1
  have hzero : v.length / 256 ^ 3 = 0 := by omega
  rw [hzero] at hfirst
  have hnat := congrArg UInt8.toNat hfirst
  rw [UInt8.toNat_ofNat', UInt8.toNat_ofNat', Nat.mod_eq_of_lt (show w.length < 2 ^ 8 by omega)] at hnat
  omega

/-- A range is not read in the short form, and of an enum too few bytes are read. -/
theorem not_readPacket_short (hτ : τ.readsShort = false) (hcustom : ∀ n, τ ≠ .custom n) (id : Id) (k : Packet) :
    readPacket env mem s (stream junk (6 :: (writeInt16 id ++ (τ.mandatory ++ writeValue τ v)))) ≠
      .done ⟨s, some k, .accepted⟩ (stream junk []) := by
  cases τ with
  | custom n => exact absurd rfl (hcustom n)
  | range t =>
    rw [show (ValueType.range t).mandatory = [45, t.datatype] from rfl, List.cons_append, readPacket_updateValue,
      show parameterType 45 = none from rfl]
    simp
  | enum =>
    intro h
    rw [show ValueType.enum.mandatory = [36] from rfl, List.cons_append, readPacket_updateValue,
      show parameterType 36 = some (.value .enum) from rfl] at h
    dsimp only at h
    split at h
    · simp at h
    · next w is hread =>
      have his : is = stream junk [] := (Outcome.done.inj h).2
      exact readTinyString_long (hread.trans (by rw [his]))
  | _ => exact absurd hτ Bool.noConfusion

/-- A parameter that was read from either form: it has the value, and `readonly` if the memory says so. -/
structure Carries (mem : Memory) (id : Id) (τ : ValueType) (v : τ.Val) (q : Parameter) : Prop where
  id : q.parameterId = id
  kind : ∃ d b, q.kind = .value τ d ⟨true, v, b⟩
  bare : q.Bare
  readonly : ∃ b, q.readonly = ⟨mem.hasReadonly, false, b⟩

theorem carries_short (mem : Memory) (id : Id) (τ : ValueType) (v : τ.Val) :
    Carries mem id τ (if τ.eqv (τ.blank mem) v then τ.blank mem else v) (shortProxy mem id τ v) := by
  obtain ⟨b, hb⟩ := shortProxy_eq mem id τ v
  rw [hb]
  exact ⟨rfl, ⟨_, b, rfl⟩, ⟨rfl, rfl, rfl, rfl, rfl, rfl, rfl⟩, ⟨_, rfl⟩⟩

theorem Kind.Received.exists_value {d : TypeDefinition τ} {c : Slot τ.Val} {all : Bool} {k : Kind}
    (h : Kind.Received mem all (.value τ d c) k) :
    ∃ d', k = .value τ d' (Slot.receive (c.sent all c.content) { content := τ.blank mem }) := by
  cases h with
  | value _ => exact ⟨_, rfl⟩

/-- The full form is read back as it was written. -/
theorem readPacket_full (hτ : τ.readsBack = true) (hv : τ.Fits v) (mem : Memory) (id : Id) :
    ∃ q, Carries mem id τ v q ∧ ∀ (σ : Type) (env : ParseEnv σ) (s : σ) (junk : Nat → UInt8) (tail : Bytes),
      readPacket env mem s (stream junk ((fullForm id τ v).bytes ++ tail)) =
        .done ⟨s, some { command := .update, data := some (.parameter q) }, .accepted⟩ (stream junk tail) := by
  have hreadable : (valueOnly id τ v).Readable := by
    have htext : ∀ n, ({} : Text).Readable n := fun n =>
      ⟨fun h => absurd h (by simp), fun h => by simp at h, fun h => by simp at h⟩
    exact ⟨htext _, htext _, fun s hs => by simp [valueOnly, Parameter.create, Slot.get?] at hs,
      fun s hs => by simp [valueOnly, Parameter.create, Slot.get?] at hs⟩
  have hdefinition : (TypeDefinition.make {} τ).Readable := by
    cases τ with
    | number t | range t => intro s hs; simp [TypeDefinition.make, Slot.get?] at hs
    | uri =>
        exact ⟨fun s hs => by simp [TypeDefinition.make, Slot.get?] at hs, by simp [TypeDefinition.make],
          by simp [TypeDefinition.make]⟩
    | _ => trivial
  have hkind : (valueOnly id τ v).kind.Readable false := by
    refine ⟨hdefinition, fun u hu => ?_⟩
    have hsent : Slot.sent false v ⟨true, v, true⟩ = some v := rfl
    rw [← Option.some.inj (hsent.symm.trans hu)]
    exact hv
  obtain ⟨k, hk, hread⟩ := parseParameter_write hreadable rfl hτ hkind (fun _ => 0) mem
  obtain ⟨d, rfl⟩ : ∃ d, k = .value τ d ⟨true, v, false⟩ := hk.exists_value
  refine ⟨.proxy mem id (.value τ d ⟨true, v, false⟩),
    ⟨rfl, ⟨d, false, rfl⟩, ⟨rfl, rfl, rfl, rfl, rfl, rfl, rfl⟩, ⟨_, rfl⟩⟩,
    fun σ env s junk tail => ?_⟩
  have hparameter := hread σ env s (0 :: tail) junk
  rw [bytes_fullForm (fun _ => 0), List.cons_append, List.cons_append, List.append_assoc]
  exact readPacket_update hparameter

end Read

/-! ### What is received -/

/-- A client, or a server with a bound on the depth of its answers. -/
inductive Receiver
  | client (applicationId : Bytes)
  | server (transporterList : List Nat) (applicationId : Bytes) (depth : Nat)

namespace Receiver

/-- The store after a message was received. -/
def received (ch : Chance) (data : Bytes) (s : Store) : Receiver → Store
  | client a => (Client.received ch data ⟨s, a⟩).1.store
  | server ts a n => (Server.received n ch data ⟨s, ts, a⟩).server.store

end Receiver

namespace Store

variable {s t u : Store} {r n : Ref} {id : Id} {τ : ValueType} {d : TypeDefinition τ} {c : Slot τ.Val} {v : τ.Val}
  {q : Parameter} {ch : Chance} {data : Bytes} {recv : Receiver}

/-- The store has a value parameter under the id. -/
structure Holds (s : Store) (id : Id) (r : Ref) (τ : ValueType) (d : TypeDefinition τ) (c : Slot τ.Val) : Prop where
  cached : s.params[id]? = some r
  idOf : s.idOf r = id
  built : r < s.next
  kind : (s.heap r).kind = .value τ d c

/-- The store with a parsed parameter. -/
def withProxy (q : Parameter) (s : Store) : Store := { s.put s.next q with next := s.next + 1 }

theorem heap_withProxy (q : Parameter) (hr : r ≠ s.next) : (s.withProxy q).heap r = s.heap r := if_neg hr

/-- Two stores that agree but for the parameter `n`. -/
structure SameBut (n : Ref) (s t : Store) : Prop where
  heap : ∀ r, r ≠ n → s.heap r = t.heap r
  next : s.next = t.next
  ids : s.ids = t.ids
  params : s.params = t.params
  dirtyParameter : s.dirtyParameter = t.dirtyParameter
  removedParameter : s.removedParameter = t.removedParameter

theorem sameBut_withProxy (s : Store) (p q : Parameter) : SameBut s.next (s.withProxy p) (s.withProxy q) :=
  ⟨fun _ hr => (heap_withProxy p hr).trans (heap_withProxy q hr).symm, rfl, rfl, rfl, rfl, rfl⟩

/-- Setters that do the same to a parameter. -/
theorem SameBut.set (h : SameBut n s t) (hr : r ≠ n) {a b : Setter} (hab : (s.heap r).apply a = (s.heap r).apply b) :
    SameBut n (s.set r a) (t.set r b) := by
  have hheap : (t.heap r).apply b = (s.heap r).apply a := by rw [hab, h.heap r hr]
  have hid : t.idOf r = s.idOf r := congrArg Parameter.parameterId (h.heap r hr).symm
  refine ⟨fun x hx => ?_, ?_, ?_, ?_, ?_, ?_⟩
  · rw [heap_set, heap_set, hheap]
    split
    · rfl
    · exact h.heap x hx
  · rw [(frame_set s r a).next, (frame_set t r b).next, h.next]
  · rw [ids_set, ids_set, h.ids]
  · rw [params_set, params_set, h.params]
  · rw [dirty_set, dirty_set, hheap, hid, h.removedParameter, h.dirtyParameter, h.heap r hr]
  · rw [(frame_set s r a).removed, (frame_set t r b).removed, h.removedParameter]

/-- A parameter that is known not to be readonly stays as it is when it is told so. -/
theorem set_readonly_false (h : (s.heap r).readonly.get? = some false) : s.set r (.setReadonly false) = s := by
  have hslot : Slot.set (· == ·) false (s.heap r).readonly = ((s.heap r).readonly, false) := by
    generalize (s.heap r).readonly = ro at h ⊢
    obtain ⟨has, content, changed⟩ := ro
    cases has <;> cases content <;> simp_all [Slot.get?, Slot.set]
  have happly : (s.heap r).apply (.setReadonly false) = (s.heap r, false) := by
    rw [Parameter.apply, onPart, hslot]
  rw [Store.set, happly, if_neg (by simp), put]
  have hheap : (fun x => if x = r then s.heap r else s.heap x) = s.heap := by
    funext x
    split
    · next hx => rw [hx]
    · rfl
  rw [hheap]

/-- What a received parameter does to the cached one of its id. -/
theorem received_of_carries (recv : Receiver) {w : τ.Val} {command : Command} {is : IStream} (h : s.Holds id r τ d c)
    (hc : command = .update ∨ command = .updateValue) (hq : Carries ch.mem id τ w q)
    (hread : readPacket storeEnv ch.mem s (stream ch.junk data) =
      .done ⟨s, some { command := command, data := some (.parameter q) }, .accepted⟩ is) :
    recv.received ch data s =
      if (s.heap r).isValid then
        if ch.mem.hasReadonly then ((s.withProxy q).set r (.setValue w)).set r (.setReadonly false)
        else (s.withProxy q).set r (.setValue w)
      else s.withProxy q := by
  have hne : s.next ≠ r := Ne.symm (Nat.ne_of_lt h.built)
  have hparse : s.parse ch data =
      ⟨s.withProxy q, some { command := command, data := some (.parameter q) }, .accepted⟩ := by
    have hstate : (readPacket storeEnv ch.mem s (stream ch.junk data)).state = _ := state_readPacket _
    rw [hread] at hstate
    rw [Store.parse, ← hstate]
    rfl
  have hproxy : (s.withProxy q).heap s.next = q := if_pos rfl
  have hheap : (s.withProxy q).heap r = s.heap r := heap_withProxy q (Ne.symm hne)
  have hid : (s.withProxy q).idOf s.next = id := by rw [idOf, hproxy, hq.id]
  have hid' : (s.withProxy q).idOf r = id := by rw [idOf, hheap]; exact h.idOf
  have hcached : (s.withProxy q).params[id]? = some r := h.cached
  have hadd : (s.withProxy q).addParameter s.next = s.withProxy q := by
    rw [addParameter, if_pos]
    rw [hid, Std.ExtTreeMap.mem_iff_isSome_getElem?, hcached]
    rfl
  have hupdate : ((s.withProxy q).update r s.next).1 =
      if ch.mem.hasReadonly then ((s.withProxy q).set r (.setValue w)).set r (.setReadonly false)
      else (s.withProxy q).set r (.setValue w) := by
    obtain ⟨d', b, hkind⟩ := hq.kind
    obtain ⟨b', hreadonly⟩ := hq.readonly
    rw [update_of_bare hne (hid.trans hid'.symm) (hheap ▸ h.kind) (by rw [hproxy]; exact hkind)
      (by rw [hproxy]; exact hq.bare), hproxy, hreadonly]
  have hserver : Server.applyUpdate s.next (s.withProxy q) =
      if (s.heap r).isValid then ((s.withProxy q).update r s.next).1 else s.withProxy q := by
    rw [Server.applyUpdate, hid, hcached]
    dsimp only
    rw [hheap]
  have hclient : Client.applyUpdate s.next (s.withProxy q) =
      if (s.heap r).isValid then ((s.withProxy q).update r s.next).1 else s.withProxy q := by
    rw [Client.applyUpdate, hid, hcached]
    dsimp only
    rw [hheap, hadd]
  rw [← hupdate]
  cases recv with
  | client a =>
    rw [← hclient, Receiver.received, Client.received]
    dsimp only
    rw [hparse]
    rcases hc with rfl | rfl <;> rfl
  | server ts a k =>
    rw [← hserver, Receiver.received, Server.received]
    dsimp only
    rw [hparse]
    rcases hc with rfl | rfl <;> rfl

/-! ### The two forms -/

/-- The short form is accepted and read to its end, the cached parameter gets the value `v` and stays as it is
otherwise, and the full form leads to the same state. -/
structure ShortFormWorks (recv : Receiver) (ch ch' : Chance) (s : Store) (r : Ref) (τ : ValueType) (v : τ.Val)
    (short full : Bytes) : Prop where
  accepted : ∀ tail, ∃ k, readPacket storeEnv ch.mem s (stream ch.junk (short ++ tail)) =
    .done ⟨s, some k, .accepted⟩ (stream ch.junk tail)
  observe : ∀ o, ((recv.received ch short s).heap r).observe o =
    if o = .value then some (.value τ v) else (s.heap r).observe o
  same : SameBut s.next (recv.received ch short s) (recv.received ch' full s)

/-- The type has a short form that can be read, an id that is not valid has the value already, and at a valid one
`readonly` is not made up from what memory held, and the value is neither taken for a cached one with other bits nor
for such a blank one. -/
structure TakesOver (ch ch' : Chance) (p : Parameter) (τ : ValueType) (c : Slot τ.Val) (v : τ.Val) : Prop where
  type : τ.readsShort = true
  known : p.isValid = false → c.get? = some v
  readonly : p.isValid = true → (ch.mem.hasReadonly || ch'.mem.hasReadonly) = true → p.readonly.get? = some false
  cached : p.isValid = true → τ.eqv c.content v = true → c.content = v
  blank : p.isValid = true → τ.eqv (τ.blank ch.mem) v = true → τ.blank ch.mem = v ∨ c.content = v

theorem observe_setValue (hk : (s.heap r).kind = .value τ d c) (w : τ.Val) (o : OptionId) :
    ((s.set r (.setValue w)).heap r).observe o =
      if o = .value then some (.value τ (if τ.eqv c.content w then c.content else w)) else (s.heap r).observe o := by
  have hvalue := Slot.get?_set τ.eqv w c
  have hheap : (s.set r (.setValue w)).heap r = { s.heap r with kind := .value τ d (Slot.set τ.eqv w c).1 } := by
    rw [heap_set, if_pos rfl, Parameter.apply_setValue hk]
  rw [hheap]
  split
  · next ho =>
    rw [ho]
    show (Slot.set τ.eqv w c).1.get?.map _ = _
    rw [hvalue]
    rfl
  · next ho => cases o <;> simp_all [Parameter.observe, Kind.observe]

theorem observe_setReadonly (s : Store) (r : Ref) (o : OptionId) :
    ((s.set r (.setReadonly false)).heap r).observe o =
      if o = .readonly then some (.flag false) else (s.heap r).observe o := by
  have hro := Slot.get?_set (· == ·) false (s.heap r).readonly
  have hheap : (s.set r (.setReadonly false)).heap r =
      { s.heap r with readonly := (Slot.set (· == ·) false (s.heap r).readonly).1 } := by
    rw [heap_set, if_pos rfl]
    rfl
  rw [hheap]
  split
  · next ho =>
    rw [ho]
    show (Slot.set (· == ·) false (s.heap r).readonly).1.get?.map _ = _
    rw [hro]
    cases (s.heap r).readonly.content <;> rfl
  · next ho => cases o <;> simp_all [Parameter.observe]

theorem Holds.observe_value (h : s.Holds id r τ d c) : (s.heap r).observe .value = c.get?.map (.value τ) := by
  simp [Parameter.observe, Kind.observe, h.kind]

private theorem map_value_iff {o : Option τ.Val} : o.map (Content.value τ) = some (.value τ v) ↔ o = some v := by
  cases o with
  | none => simp
  | some u => rw [Option.map_some, Option.some.injEq, Option.some.injEq, Content.value_inj]

/-- An id that is not valid: nothing is stored. -/
private theorem works_iff_of_invalid {short full : Bytes} {q' : Parameter} {ch' : Chance} (h : s.Holds id r τ d c)
    (haccepted : ∀ tail, ∃ k, readPacket storeEnv ch.mem s (stream ch.junk (short ++ tail)) =
      .done ⟨s, some k, .accepted⟩ (stream ch.junk tail))
    (hshort : recv.received ch short s = s.withProxy q) (hfull : recv.received ch' full s = s.withProxy q') :
    ShortFormWorks recv ch ch' s r τ v short full ↔ c.get? = some v := by
  have hheap : (s.withProxy q).heap r = s.heap r := heap_withProxy q (Nat.ne_of_lt h.built)
  rw [← map_value_iff, ← h.observe_value]
  constructor
  · intro hw
    have hvalue := hw.observe .value
    rwa [hshort, hheap, if_pos rfl] at hvalue
  · intro hv
    refine ⟨haccepted, fun o => ?_, ?_⟩
    · rw [hshort, hheap]
      split
      · next ho => rw [ho, hv]
      · rfl
    · rw [hshort, hfull]
      exact sameBut_withProxy ..

/-- A valid id: the two values are set in the same parameter. -/
private theorem works_iff_of_valid {short full : Bytes} {q' : Parameter} {ch' : Chance} (h : s.Holds id r τ d c)
    (haccepted : ∀ tail, ∃ k, readPacket storeEnv ch.mem s (stream ch.junk (short ++ tail)) =
      .done ⟨s, some k, .accepted⟩ (stream ch.junk tail))
    (hshort : recv.received ch short s =
      let t := (s.withProxy q).set r (.setValue (if τ.eqv (τ.blank ch.mem) v then τ.blank ch.mem else v))
      if ch.mem.hasReadonly then t.set r (.setReadonly false) else t)
    (hfull : recv.received ch' full s =
      let t := (s.withProxy q').set r (.setValue v)
      if ch'.mem.hasReadonly then t.set r (.setReadonly false) else t) :
    ShortFormWorks recv ch ch' s r τ v short full ↔
      ((ch.mem.hasReadonly || ch'.mem.hasReadonly) = true → (s.heap r).readonly.get? = some false) ∧
        (τ.eqv c.content v = true → c.content = v) ∧
        (τ.eqv (τ.blank ch.mem) v = true → τ.blank ch.mem = v ∨ c.content = v) := by
  have hne : r ≠ s.next := Nat.ne_of_lt h.built
  have hheap : ∀ x, (s.withProxy x).heap r = s.heap r := fun x => heap_withProxy x hne
  have hkind : ∀ x, ((s.withProxy x).heap r).kind = .value τ d c := fun x => (hheap x).symm ▸ h.kind
  have hflag : (s.heap r).observe .readonly = some (.flag false) ↔ (s.heap r).readonly.get? = some false := by
    simp [Parameter.observe]
  dsimp only at hshort hfull
  set w := if τ.eqv (τ.blank ch.mem) v then τ.blank ch.mem else v with hw
  -- what can be seen of the parameter after each of the packets
  have hseen : ∀ o, o ≠ .readonly → ((recv.received ch short s).heap r).observe o =
      if o = .value then (Slot.set τ.eqv w c).1.get?.map (.value τ) else (s.heap r).observe o := by
    intro o ho
    rw [hshort]
    split <;> simp only [observe_setReadonly, if_neg ho, observe_setValue (hkind q), hheap, Slot.get?_set,
      Option.map_some]
  constructor
  · intro hworks
    have hvalue := hworks.observe .value
    rw [hseen .value (by decide), if_pos rfl, if_pos rfl, map_value_iff, Slot.set_set_iff τ.eqv_symm] at hvalue
    refine ⟨fun hm => hflag.mp ?_, hvalue⟩
    have hro := hworks.observe .readonly
    have hsame := congrArg (Parameter.observe · .readonly) (hworks.same.heap r hne)
    rw [if_neg (by decide)] at hro
    rw [hro] at hsame
    by_cases hm₁ : ch.mem.hasReadonly = true
    · rw [← hro, hshort, if_pos hm₁, observe_setReadonly, if_pos rfl]
    · have hm₂ : ch'.mem.hasReadonly = true := by simpa [hm₁] using hm
      rw [hsame, hfull, if_pos hm₂, observe_setReadonly, if_pos rfl]
  · rintro ⟨hm, hcached, hblank⟩
    -- `readonly` makes no difference, and both values are set alike
    have hplain : ∀ x (y : τ.Val) (m : Bool), (m = true → (s.heap r).readonly.get? = some false) →
        (if m then ((s.withProxy x).set r (.setValue y)).set r (.setReadonly false)
          else (s.withProxy x).set r (.setValue y)) = (s.withProxy x).set r (.setValue y) := by
      intro x y m hm
      split
      · next hmt =>
        refine set_readonly_false ?_
        rw [heap_set, if_pos rfl, Parameter.apply_setValue (hkind x), hheap]
        exact hm hmt
      · rfl
    rw [hplain q w _ fun hx => hm (by rw [hx]; rfl)] at hshort
    rw [hplain q' v _ fun hx => hm (by rw [hx]; exact Bool.or_true _)] at hfull
    refine ⟨haccepted, fun o => ?_, ?_⟩
    · by_cases ho : o = .readonly
      · rw [ho, hshort, observe_setValue (hkind q), if_neg (by decide), if_neg (by decide), hheap]
      · rw [hseen o ho, (Slot.set_set_iff τ.eqv_symm).mpr ⟨hcached, hblank⟩]
        rfl
    · rw [hshort, hfull]
      refine (sameBut_withProxy s q q').set hne ?_
      rw [Parameter.apply_setValue (hkind q), Parameter.apply_setValue (hkind q),
        Slot.set_set_eq τ.eqv_symm ValueType.eqv_self hblank]

/-- For which types, values and states the short form does the same as the full form. -/
theorem short_form_iff {p : Parameter} {d' : TypeDefinition τ} {b : Bool} (recv : Receiver) (ch ch' : Chance)
    (idOf : Ref → Id) (h : s.Holds p.parameterId r τ d c) (hcustom : ∀ n, τ ≠ .custom n)
      (hp : p.onlyValueChanged = true)
    (hk : p.kind = .value τ d' ⟨true, v, b⟩) (hv : τ.Fits v) :
    ShortFormWorks recv ch ch' s r τ v (p.message idOf).bytes (fullForm p.parameterId τ v).bytes ↔
      TakesOver ch ch' (s.heap r) τ c v := by
  rw [Parameter.bytes_message hp hk]
  set short := 6 :: (writeInt16 p.parameterId ++ (τ.mandatory ++ writeValue τ v))
  set full := (fullForm p.parameterId τ v).bytes
  by_cases hτ : τ.readsShort = true
  swap
  · rw [Bool.not_eq_true] at hτ
    refine iff_of_false (fun hw => ?_) fun ht => by simp [ht.type] at hτ
    obtain ⟨k, hread⟩ := hw.accepted []
    exact not_readPacket_short hτ hcustom p.parameterId k (by rwa [List.append_nil] at hread)
  have hback : τ.readsBack = true := by
    cases τ with
    | enum | range | custom => exact absurd hτ Bool.false_ne_true
    | _ => rfl
  -- what both packets are read as, and what becomes of the cached parameter
  have hread : ∀ tail, readPacket storeEnv ch.mem s (stream ch.junk (short ++ tail)) = _ :=
    readPacket_short hτ hv p.parameterId
  have hread' := hread []
  rw [List.append_nil] at hread'
  have hshort := received_of_carries recv h (Or.inr rfl) (carries_short ch.mem p.parameterId τ v) hread'
  obtain ⟨q, hq, hreadfull⟩ := readPacket_full hback hv ch'.mem p.parameterId
  have hreadfull' := hreadfull Store storeEnv s ch'.junk []
  rw [List.append_nil] at hreadfull'
  have hfull := received_of_carries recv h (Or.inl rfl) hq hreadfull'
  have haccepted : ∀ tail, ∃ k, readPacket storeEnv ch.mem s (stream ch.junk (short ++ tail)) =
      .done ⟨s, some k, .accepted⟩ (stream ch.junk tail) := fun tail => ⟨_, hread tail⟩
  by_cases hvalid : (s.heap r).isValid = true
  swap
  · rw [if_neg hvalid] at hshort hfull
    rw [works_iff_of_invalid h haccepted hshort hfull]
    exact ⟨fun hc => ⟨hτ, fun _ => hc, fun hx => absurd hx hvalid, fun hx => absurd hx hvalid,
      fun hx => absurd hx hvalid⟩, fun ht => ht.known (by simpa using hvalid)⟩
  rw [if_pos hvalid] at hshort hfull
  rw [works_iff_of_valid h haccepted hshort hfull]
  exact ⟨fun hc => ⟨hτ, fun hx => by simp [hvalid] at hx, fun _ => hc.1, fun _ => hc.2.1, fun _ => hc.2.2⟩,
    fun ht => ⟨ht.readonly hvalid, ht.cached hvalid, ht.blank hvalid⟩⟩

/-- A client that has received a parameter with a value. -/
def cacheOf (τ : ValueType) (v : τ.Val) : Store :=
  Receiver.received ⟨{}, fun _ => 0⟩ (fullForm 1 τ v).bytes (Client.new {}).store (.client [])

/-- The value of an integer changes from five to seven. -/
theorem short_form_integer :
    ShortFormWorks (.client []) ⟨{}, fun _ => 0⟩ ⟨{}, fun _ => 0⟩ (cacheOf (.number .int32) 5#32) 1 (.number .int32) 7#32
      ((valueOnly 1 (.number .int32) 7#32).message fun _ => 0).bytes (fullForm 1 (.number .int32) 7#32).bytes := by
  have hholds : (cacheOf (.number .int32) 5#32).Holds 1 1 (.number .int32) {} ⟨true, 5#32, false⟩ :=
    ⟨by decide, by decide, by decide, rfl⟩
  have hfits : (ValueType.number .int32).Fits 7#32 := trivial
  refine (short_form_iff (p := valueOnly 1 (.number .int32) 7#32) (.client []) ⟨{}, fun _ => 0⟩ ⟨{}, fun _ => 0⟩
    (fun _ => 0) hholds (fun _ => ValueType.noConfusion) rfl rfl hfits).mpr ?_
  exact ⟨rfl, fun h => absurd h (by decide), fun _ h => absurd h (by decide), fun _ h => absurd h (by decide),
    fun _ h => absurd h (by decide)⟩

/-- The short form of a range is rejected. -/
theorem short_form_range :
    ¬ShortFormWorks (.client []) ⟨{}, fun _ => 0⟩ ⟨{}, fun _ => 0⟩ (cacheOf (.range .int32) (0#32, 1#32)) 1
      (.range .int32) (0#32, 2#32) ((valueOnly 1 (.range .int32) (0#32, 2#32)).message fun _ => 0).bytes
      (fullForm 1 (.range .int32) (0#32, 2#32)).bytes := by
  intro h
  obtain ⟨k, hk⟩ := h.accepted []
  exact not_readPacket_short (τ := .range .int32) (v := (0#32, 2#32)) rfl (fun _ => ValueType.noConfusion) 1 k hk

end Store

end RabbitControl
