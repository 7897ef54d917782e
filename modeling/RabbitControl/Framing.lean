import RabbitControl.OptionRoundTrip

/-!
# Payload and framing

What `Packet::parse` makes of a parameter whose type it cannot create (`packet.h`, `parameter_parser.h`).  The parser of
the parameter returns a null pointer right after the type, and the loop of the packet goes on there, in the payload.
So the packet is given up only if what follows the type looks like options of a packet that is not complete:
`framed_iff`.
-/

namespace RabbitControl

open Lib

/-! ### Types -/

/-- The type of the parameter that is created for a type byte, and what follows: a range takes the type of its elements
from the next byte. -/
def createdType (d : UInt8) (rest : Bytes) : Option (ParameterType × Bytes) :=
  if d = 45 then
    match rest with
    | e :: rest => (NumberType.ofDatatype e).map fun t => (.value (.range t), rest)
    | [] => none
  else (parameterType d).map fun t => (t, rest)

/-- What follows a type that is not supported, or the element type of a range that is not. -/
def afterUnsupported (d : UInt8) (rest : Bytes) : Option Bytes :=
  if d = 45 then
    match rest with
    | e :: rest => if (NumberType.ofDatatype e).isSome then none else some rest
    | [] => none
  else if (parameterType d).isSome then none else some rest

theorem parameterType_of_ge {d : UInt8} (h : d ≥ datatypeMax) : parameterType d = none ∧ d ≠ 45 := by
  constructor
  · unfold parameterType
    split
    all_goals first | exact absurd h (by decide) | skip
    unfold NumberType.ofDatatype
    split
    all_goals first | exact absurd h (by decide) | rfl
  · rintro rfl
    exact absurd h (by decide)

theorem datatype_of_ofDatatype {e : UInt8} {t : NumberType} (h : NumberType.ofDatatype e = some t) :
    t.datatype = e := by
  unfold NumberType.ofDatatype at h
  split at h
  all_goals first | (obtain rfl := Option.some.inj h; rfl) | exact absurd h (by simp)

theorem datatype_of_parameterType {d : UInt8} {type : ParameterType} (h : parameterType d = some type) (mem : Memory)
    (id : Id) : (Parameter.create mem id type).getDatatype = d ∧ ∀ t, type ≠ .value (.range t) := by
  unfold parameterType at h
  split at h
  all_goals first | (obtain rfl := Option.some.inj h; exact ⟨rfl, by simp⟩) | skip
  obtain ⟨t, ht, rfl⟩ := Option.map_eq_some_iff.mp h
  exact ⟨datatype_of_ofDatatype ht, by simp⟩

/-- The parameter that is created has the datatype that was read, and a range has the element type that follows. -/
theorem datatype_of_createdType {d : UInt8} {rest rest' : Bytes} {type : ParameterType}
    (h : createdType d rest = some (type, rest')) (mem : Memory) (id : Id) :
    (Parameter.create mem id type).getDatatype = d ∧
      ∀ t, type = .value (.range t) → rest.head? = some t.datatype := by
  unfold createdType at h
  split at h
  · next h45 =>
    split at h
    · next e l =>
      obtain ⟨t, ht, heq⟩ := Option.map_eq_some_iff.mp h
      obtain ⟨rfl, rfl⟩ := Prod.mk.inj heq
      refine ⟨h45.symm, fun t' h' => ?_⟩
      obtain rfl : t = t' := by simpa using h'
      exact congrArg some (datatype_of_ofDatatype ht).symm
    · exact absurd h (by simp)
  · obtain ⟨type', htype, heq⟩ := Option.map_eq_some_iff.mp h
    obtain ⟨rfl, rfl⟩ := Prod.mk.inj heq
    obtain ⟨hd, hno⟩ := datatype_of_parameterType htype mem id
    exact ⟨hd, fun t ht => absurd ht (hno t)⟩

/-- No custom parameter is created. -/
theorem createdType_ne_custom {d : UInt8} {rest rest' : Bytes} {type : ParameterType}
    (h : createdType d rest = some (type, rest')) (n : Nat) : type ≠ .value (.custom n) := by
  unfold createdType at h
  split at h
  · split at h
    · obtain ⟨t, -, heq⟩ := Option.map_eq_some_iff.mp h
      rw [← (Prod.mk.inj heq).1]
      simp
    · exact absurd h (by simp)
  · obtain ⟨type', htype, heq⟩ := Option.map_eq_some_iff.mp h
    rw [← (Prod.mk.inj heq).1]
    rintro rfl
    exact parameterType_ne_custom htype

/-! ### The parser of a parameter -/

section Parse

variable {σ : Type} {env : ParseEnv σ} {mem : Memory} {s : σ} {junk : Nat → UInt8} {hi lo d : UInt8} {rest l : Bytes}

/-- A type that is not supported yields no parameter, and the stream stays right behind it. -/
theorem parseParameter_unsupported (h : afterUnsupported d rest = some l) :
    parseParameter env mem s (stream junk (hi :: lo :: d :: rest)) = .done (s, none) (stream junk l) := by
  rw [parseParameter_stream]
  unfold afterUnsupported at h
  by_cases hd : d ≥ datatypeMax
  · obtain ⟨hnone, h45⟩ := parameterType_of_ge hd
    rw [if_neg h45, hnone] at h
    rw [if_pos hd, ← Option.some.inj h]
  rw [if_neg hd, readParameterType]
  by_cases h45 : d = 45
  · rw [if_pos h45] at h ⊢
    cases rest with
    | nil => exact absurd h (by simp)
    | cons e rest =>
      dsimp only at h
      split at h
      · exact absurd h (by simp)
      · next he =>
        have hnone : NumberType.ofDatatype e = none := by simpa using he
        rw [get_stream_cons, ← Option.some.inj h]
        dsimp only
        rw [Option.bind_some, hnone]
        rfl
  · rw [if_neg h45] at h ⊢
    split at h
    · exact absurd h (by simp)
    · next hd =>
      have hnone : parameterType d = none := by simpa using hd
      rw [hnone, ← Option.some.inj h]

/-- A type that is created is followed by the definition and the options. -/
theorem parseParameter_created {type : ParameterType} (h : createdType d rest = some (type, l)) :
    parseParameter env mem s (stream junk (hi :: lo :: d :: rest)) =
      parseProxy env mem (bytesId hi lo) type s (stream junk l) := by
  rw [parseParameter_stream]
  unfold createdType at h
  by_cases hd : d ≥ datatypeMax
  · obtain ⟨hnone, h45⟩ := parameterType_of_ge hd
    rw [if_neg h45, hnone] at h
    exact absurd h (by simp)
  rw [if_neg hd, readParameterType]
  by_cases h45 : d = 45
  · rw [if_pos h45] at h ⊢
    cases rest with
    | nil => exact absurd h (by simp)
    | cons e rest =>
      obtain ⟨t, ht, heq⟩ := Option.map_eq_some_iff.mp h
      obtain ⟨rfl, rfl⟩ := Prod.mk.inj heq
      rw [get_stream_cons]
      dsimp only
      rw [Option.bind_some, ht]
      rfl
  · rw [if_neg h45] at h ⊢
    obtain ⟨type', htype, heq⟩ := Option.map_eq_some_iff.mp h
    obtain ⟨rfl, rfl⟩ := Prod.mk.inj heq
    rw [htype]

/-- A range that is cut off before its element type has run into the end of the stream. -/
theorem parseParameter_cut (h : createdType d rest = none) (hno : afterUnsupported d rest = none) :
    ∃ is, parseParameter env mem s (stream junk (hi :: lo :: d :: rest)) = .done (s, none) is ∧ is.eof = true := by
  unfold createdType at h
  unfold afterUnsupported at hno
  by_cases h45 : d = 45
  · subst h45
    rw [if_pos rfl] at h hno
    cases rest with
    | nil => exact ⟨_, parseParameter_stream s junk hi lo 45 [], rfl⟩
    | cons e rest =>
      dsimp only at h hno
      cases he : NumberType.ofDatatype e <;> simp [he] at h hno
  · rw [if_neg h45] at h hno
    cases hd : parameterType d <;> simp [hd] at h hno

/-- A parameter that is cut off before its type has run into the end of the stream, too. -/
theorem parseParameter_short (h : l.length < 3) :
    ∃ is, parseParameter env mem s (stream junk l) = .done (s, none) is ∧ is.eof = true := by
  match l with
  | [] | [_] =>
    have heof : ∀ l : Bytes, l.length < 2 → (readInt16 (stream junk l)).2.eof = true := fun l hl => eof_readBE_stream hl
    unfold parseParameter
    dsimp only
    rw [if_pos (heof _ (by simp))]
    exact ⟨_, rfl, heof _ (by simp)⟩
  | [hi, lo] =>
    refine ⟨(stream junk []).get.2, ?_, rfl⟩
    unfold parseParameter
    rw [readInt16_stream]
    rfl
  | _ :: _ :: _ :: _ => simp at h; omega

end Parse

/-! ### The type of a proxy -/

theorem type_of_isGroup {p : Parameter} (h : p.isGroup = true) : p.kind.type = .group := by
  unfold Parameter.isGroup at h
  split at h
  · next hk => rw [hk]; rfl
  · exact absurd h (by simp)

/-- A proxy that leaves a group keeps its id and its type. -/
theorem type_removeChild (g : Ref) (x : Store × Parameter) :
    (storeEnv.removeChild g x).2.parameterId = x.2.parameterId ∧
      (storeEnv.removeChild g x).2.kind.type = x.2.kind.type := by
  have hp : (x.1.put x.1.next x.2).heap x.1.next = x.2 := if_pos rfl
  have hframe := Store.frame_removeChild (x.1.put x.1.next x.2) g x.1.next
  have hid : (storeEnv.removeChild g x).2.parameterId = ((x.1.put x.1.next x.2).heap x.1.next).parameterId :=
    hframe.idOf x.1.next
  refine ⟨by rw [hid, hp], ?_⟩
  rcases (removeChild_proxy g x).2.2 with hkind | hgroup
  · rw [hkind]
  · have hisGroup : (storeEnv.removeChild g x).2.isGroup = ((x.1.put x.1.next x.2).heap x.1.next).isGroup :=
      hframe.isGroup x.1.next
    rw [hp] at hisGroup
    rw [type_of_isGroup hgroup, type_of_isGroup (hisGroup ▸ hgroup)]

theorem type_parseDefinition (k : Kind) (is : IStream) : (k.parseDefinition is).state.type = k.type := by
  cases k with
  | value τ d v => rw [Kind.parseDefinition, Outcome.state_map]; rfl
  | _ => rfl

/-- The proxy is read under the id and at the type that it was created at. -/
theorem type_parseProxy (mem : Memory) (id : Id) (type : ParameterType) (s : Store) (is : IStream) :
    ∃ p, (p.parameterId = id ∧ p.kind.type = type) ∧ (parseProxy storeEnv mem id type s is).state.2 = some p := by
  have hcreate := type_create mem id type
  have hdef := type_parseDefinition (Parameter.create mem id type).kind is
  unfold parseProxy
  dsimp only
  split
  · next heq =>
    rw [heq] at hdef
    exact ⟨_, ⟨rfl, hdef.trans hcreate⟩, rfl⟩
  · next k is' heq =>
    rw [heq] at hdef
    rw [Outcome.state_map]
    refine ⟨_, ?_, rfl⟩
    refine optionList_forall (P := fun x : Store × Parameter => x.2.parameterId = id ∧ x.2.kind.type = type)
      (fun x c is hx => ?_) _ _ ⟨rfl, hdef.trans hcreate⟩
    refine parseOption_keeps (P := fun x => x.2.parameterId = id ∧ x.2.kind.type = type) (fun hid hk _ _ h => ?_)
      (fun _ _ _ h => h) (fun _ _ _ h => h) (fun {x τ d v y _ _} hk _ h => ?_) (fun g x h => ?_) x is hx
    · rw [hid, hk]
      exact h
    · refine ⟨h.1, ?_⟩
      rw [← h.2, hk]
      rfl
    · rw [(type_removeChild g x).1, (type_removeChild g x).2]
      exact h

/-! ### The options of a packet -/

/-- What follows the data of a packet is not closed by a terminator, or holds a second `DATA` option. -/
inductive OpenEnd : Bytes → Prop
  | nil : OpenEnd []
  | timestamp {v l : Bytes} (hv : v.length = 8) (hl : OpenEnd l) : OpenEnd (17 :: (v ++ l))
  | data (l : Bytes) : OpenEnd (18 :: l)

/-- The options of an `UPDATE` packet that still has no data are given up: there is nothing but complete timestamps and
parameters of unsupported types up to the end, or a parameter that is read as a whole and an open end. -/
inductive Discarded (s : Store) (ch : Chance) : Bytes → Prop
  | nil : Discarded s ch []
  | timestamp {v l : Bytes} (hv : v.length = 8) (hl : Discarded s ch l) : Discarded s ch (17 :: (v ++ l))
  | unsupported {hi lo d : UInt8} {rest l : Bytes} (hd : afterUnsupported d rest = some l) (hl : Discarded s ch l) :
    Discarded s ch (18 :: hi :: lo :: d :: rest)
  | parameter {hi lo d : UInt8} {rest l : Bytes} {type : ParameterType} {x : Store × Option Parameter} {is : IStream}
    (hd : createdType d rest = some (type, l))
    (hx : parseProxy storeEnv ch.mem (bytesId hi lo) type s (stream ch.junk l) = .done x is) (heof : is.eof = false)
    (hl : OpenEnd is.rest) : Discarded s ch (18 :: hi :: lo :: d :: rest)

section Loop

variable {σ : Type} {env : ParseEnv σ} {mem : Memory} {s : σ} {k : Packet} {junk : Nat → UInt8} {l : Bytes} {n : Nat}

theorem loop_of_eof {is : IStream} (hn : 0 < n) (h : is.eof = true) :
    parsePacketOptions env mem n s k is = ⟨s, some k, .accepted⟩ := by
  obtain ⟨n, rfl⟩ : ∃ m, n = m + 1 := ⟨n - 1, by omega⟩
  rw [parsePacketOptions, if_pos h]

theorem loop_nil : parsePacketOptions env mem (n + 1) s k (stream junk []) = ⟨s, some k, .rejected⟩ := rfl

theorem loop_timestamp (h : 8 ≤ l.length) :
    parsePacketOptions env mem (n + 1) s k (stream junk (17 :: l)) =
      parsePacketOptions env mem n s { k with timestamp := some (decodeBE (l.take 8)) } (stream junk (l.drop 8)) := by
  rw [parsePacketOptions, get_stream_cons]
  dsimp only
  rw [if_neg (by simp [stream]), if_neg (by decide), if_neg (by simp [stream]), if_pos rfl, readBE_stream h]
  rfl

theorem loop_timestamp_cut (hn : 0 < n) (h : l.length < 8) :
    parsePacketOptions env mem (n + 1) s k (stream junk (17 :: l)) = ⟨s, some k, .accepted⟩ := by
  have heof : ((stream junk l).readBE 8).2.eof = true := eof_readBE_stream h
  rw [parsePacketOptions, get_stream_cons]
  dsimp only
  rw [if_neg (by simp [stream]), if_neg (by decide), if_neg (by simp [stream]), if_pos rfl, if_pos heof,
    loop_of_eof hn heof]

theorem loop_data_again (h : k.data.isSome = true) :
    parsePacketOptions env mem (n + 1) s k (stream junk (18 :: l)) = ⟨s, some k, .rejected⟩ := by
  rw [parsePacketOptions, get_stream_cons]
  dsimp only
  rw [if_neg (by simp [stream]), if_neg (by decide), if_neg (by simp [stream]), if_neg (by decide), if_pos rfl,
    if_pos h]

theorem loop_data (hc : k.command = .update) (hd : k.data = none) :
    parsePacketOptions env mem (n + 1) s k (stream junk (18 :: l)) =
      match parseParameter env mem s (stream junk l) with
      | .throw e x => ⟨x.1, some { k with data := x.2.map .parameter }, .threw e⟩
      | .done x is => parsePacketOptions env mem n x.1 { k with data := x.2.map .parameter } is := by
  rw [parsePacketOptions, get_stream_cons]
  dsimp only
  rw [if_neg (by simp [stream]), if_neg (by decide), if_neg (by simp [stream]), if_neg (by decide), if_pos rfl,
    if_neg (by simp [hd]), parseData, hc]
  cases parseParameter env mem s (stream junk l) <;> rfl

theorem loop_other {c : UInt8} (h17 : c ≠ 17) (h18 : c ≠ 18) :
    parsePacketOptions env mem (n + 1) s k (stream junk (c :: l)) = ⟨s, some k, .accepted⟩ := by
  rw [parsePacketOptions, get_stream_cons]
  dsimp only
  rw [if_neg (by simp [stream])]
  split
  · rfl
  · rw [if_neg (by simp [stream]), if_neg (by simpa using h17), if_neg (by simpa using h18)]

end Loop

/-! ### Packets that are given up -/

theorem OpenEnd.of_cons {c : UInt8} {l : Bytes} (h : OpenEnd (c :: l)) :
    (c = 17 ∧ ∃ v l', v.length = 8 ∧ l = v ++ l' ∧ OpenEnd l') ∨ c = 18 := by
  generalize hx : c :: l = x at h
  cases h with
  | nil => simp at hx
  | @timestamp v l' hv hl =>
    obtain ⟨rfl, rfl⟩ := List.cons.inj hx
    exact Or.inl ⟨rfl, v, l', hv, rfl, hl⟩
  | data => exact Or.inr (List.cons.inj hx).1

theorem openEnd_timestamp {l : Bytes} (h : 8 ≤ l.length) : OpenEnd (17 :: l) ↔ OpenEnd (l.drop 8) := by
  constructor
  · intro ho
    rcases ho.of_cons with ⟨-, v, l', hv, rfl, hl⟩ | h17
    · rwa [← hv, List.drop_left]
    · exact absurd h17 (by decide)
  · intro ho
    rw [← List.take_append_drop 8 l]
    exact .timestamp (List.length_take_of_le h) ho

/-- A packet that has its data is given up exactly if its end is open. -/
theorem rejected_of_data {σ : Type} {env : ParseEnv σ} {mem : Memory} {s : σ} {k : Packet} {junk : Nat → UInt8}
    {l : Bytes} {n : Nat} (hd : k.data.isSome = true) (hn : l.length < n) :
    (parsePacketOptions env mem n s k (stream junk l)).verdict = .rejected ↔ OpenEnd l := by
  induction n generalizing k l with
  | zero => exact absurd hn (by omega)
  | succ n ih =>
    cases l with
    | nil => exact iff_of_true (congrArg Parsed.verdict loop_nil) .nil
    | cons c l =>
      have hl : l.length < n := by simpa using hn
      by_cases h17 : c = 17
      · subst h17
        by_cases h8 : 8 ≤ l.length
        · have hdrop : (l.drop 8).length < n := by rw [List.length_drop]; omega
          rw [loop_timestamp h8, openEnd_timestamp h8]
          exact ih hd hdrop
        · rw [loop_timestamp_cut (by omega) (by omega)]
          refine iff_of_false (by simp) fun ho => ?_
          rcases ho.of_cons with ⟨-, v, l', hv, rfl, -⟩ | h18
          · exact h8 (by rw [List.length_append]; omega)
          · exact absurd h18 (by decide)
      · by_cases h18 : c = 18
        · subst h18
          exact iff_of_true (congrArg Parsed.verdict (loop_data_again hd)) (.data l)
        · rw [loop_other h17 h18]
          refine iff_of_false (by simp) fun ho => ?_
          rcases ho.of_cons with ⟨h, -⟩ | h
          · exact h17 h
          · exact h18 h

/-- The two ways in which the parameter of a discarded packet is read. -/
inductive Discarded.Data (s : Store) (ch : Chance) (hi lo d : UInt8) (rest : Bytes) : Prop
  | unsupported (l : Bytes) (hd : afterUnsupported d rest = some l) (hl : Discarded s ch l)
  | parameter (l : Bytes) (type : ParameterType) (x : Store × Option Parameter) (is : IStream)
    (hd : createdType d rest = some (type, l))
    (hx : parseProxy storeEnv ch.mem (bytesId hi lo) type s (stream ch.junk l) = .done x is) (heof : is.eof = false)
    (hl : OpenEnd is.rest)

section Discarded

variable {s : Store} {ch : Chance} {l rest : Bytes} {hi lo d : UInt8}

theorem Discarded.of_cons {c : UInt8} (h : Discarded s ch (c :: l)) :
    (c = 17 ∧ ∃ v l', v.length = 8 ∧ l = v ++ l' ∧ Discarded s ch l') ∨
      c = 18 ∧ ∃ hi lo d rest, l = hi :: lo :: d :: rest ∧ Discarded.Data s ch hi lo d rest := by
  generalize hx : c :: l = x at h
  cases h with
  | nil => simp at hx
  | @timestamp v l' hv hl =>
    obtain ⟨rfl, rfl⟩ := List.cons.inj hx
    exact Or.inl ⟨rfl, v, l', hv, rfl, hl⟩
  | @unsupported hi lo d rest l' hd hl =>
    obtain ⟨rfl, rfl⟩ := List.cons.inj hx
    exact Or.inr ⟨rfl, hi, lo, d, rest, rfl, .unsupported l' hd hl⟩
  | @parameter hi lo d rest l' type x is hd hx' heof hl =>
    obtain ⟨rfl, rfl⟩ := List.cons.inj hx
    exact Or.inr ⟨rfl, hi, lo, d, rest, rfl, .parameter l' type x is hd hx' heof hl⟩

theorem discarded_timestamp (h : 8 ≤ l.length) : Discarded s ch (17 :: l) ↔ Discarded s ch (l.drop 8) := by
  constructor
  · intro hdis
    rcases hdis.of_cons with ⟨-, v, l', hv, rfl, hl⟩ | ⟨h17, -⟩
    · rwa [← hv, List.drop_left]
    · exact absurd h17 (by decide)
  · intro hdis
    rw [← List.take_append_drop 8 l]
    exact .timestamp (List.length_take_of_le h) hdis

theorem discarded_data : Discarded s ch (18 :: hi :: lo :: d :: rest) ↔ Discarded.Data s ch hi lo d rest := by
  constructor
  · intro hdis
    rcases hdis.of_cons with ⟨h18, -⟩ | ⟨-, hi', lo', d', rest', heq, hdata⟩
    · exact absurd h18 (by decide)
    · obtain ⟨rfl, rfl, rfl, rfl⟩ : hi = hi' ∧ lo = lo' ∧ d = d' ∧ rest = rest' := by simpa using heq
      exact hdata
  · rintro (⟨l, hd, hl⟩ | ⟨l, type, x, is, hd, hx, heof, hl⟩)
    · exact .unsupported hd hl
    · exact .parameter hd hx heof hl

theorem createdType_of_afterUnsupported (h : afterUnsupported d rest = some l) : createdType d rest = none := by
  unfold afterUnsupported at h
  unfold createdType
  by_cases h45 : d = 45
  · rw [if_pos h45] at h ⊢
    cases rest with
    | nil => rfl
    | cons e rest =>
      dsimp only at h ⊢
      cases he : NumberType.ofDatatype e with
      | none => rfl
      | some t => simp [he] at h
  · rw [if_neg h45] at h ⊢
    cases hd : parameterType d with
    | none => rfl
    | some type => simp [hd] at h

/-- Where the type is not supported, nothing else is looked at. -/
theorem discarded_unsupported (h : afterUnsupported d rest = some l) :
    Discarded s ch (18 :: hi :: lo :: d :: rest) ↔ Discarded s ch l := by
  rw [discarded_data]
  constructor
  · rintro (⟨l', hd, hl⟩ | ⟨l', type, x, is, hd, -⟩)
    · obtain rfl := Option.some.inj (h.symm.trans hd)
      exact hl
    · rw [createdType_of_afterUnsupported h] at hd
      exact absurd hd (by simp)
  · exact .unsupported l h

theorem length_afterUnsupported (h : afterUnsupported d rest = some l) : l.length ≤ rest.length := by
  unfold afterUnsupported at h
  split at h
  · split at h
    · split at h
      · simp at h
      · obtain rfl := Option.some.inj h
        simp
    · simp at h
  · split at h
    · simp at h
    · rw [Option.some.inj h]

theorem length_createdType {type : ParameterType} (h : createdType d rest = some (type, l)) :
    l.length ≤ rest.length := by
  unfold createdType at h
  split at h
  · split at h
    · obtain ⟨t, -, heq⟩ := Option.map_eq_some_iff.mp h
      obtain ⟨-, rfl⟩ := Prod.mk.inj heq
      simp
    · simp at h
  · obtain ⟨t, -, heq⟩ := Option.map_eq_some_iff.mp h
    rw [(Prod.mk.inj heq).2]

end Discarded

/-- A stream that has not come to its end is read on from what is left. -/
theorem IStream.eq_stream {is : IStream} (h : is.Steady) (he : is.eof = false) : is = stream is.junk is.rest := by
  have hfail := h.fail_false he
  cases is
  simp_all [stream]

/-- A parameter that is created is the data of the packet, which is given up exactly if it has been read as a whole and
the end is open. -/
theorem rejected_created {s : Store} {ch : Chance} {k : Packet} {hi lo d : UInt8} {rest l : Bytes} {n : Nat}
    {type : ParameterType} (hc : k.command = .update) (hd : k.data = none) (hn : rest.length < n)
    (htype : createdType d rest = some (type, l)) :
    (parsePacketOptions storeEnv ch.mem (n + 1) s k (stream ch.junk (18 :: hi :: lo :: d :: rest))).verdict =
        .rejected ↔ Discarded.Data s ch hi lo d rest := by
  have hlocal : Local (parseProxy storeEnv ch.mem (bytesId hi lo) type s) :=
    local_parseProxy (bytesId hi lo) (createdType_ne_custom htype) s
  have hl := hlocal (stream ch.junk l) (steady_stream ch.junk l)
  obtain ⟨p, -, hp⟩ := type_parseProxy ch.mem (bytesId hi lo) type s (stream ch.junk l)
  have hlength := length_createdType htype
  -- the condition, with the type and the rest that are read
  have hdata : Discarded.Data s ch hi lo d rest ↔
      ∃ x is, parseProxy storeEnv ch.mem (bytesId hi lo) type s (stream ch.junk l) = .done x is ∧ is.eof = false ∧
        OpenEnd is.rest := by
    constructor
    · rintro (⟨l', hun, -⟩ | ⟨l', type', x, is, hcr, hx, heof, hopen⟩)
      · rw [createdType_of_afterUnsupported hun] at htype
        exact absurd htype (by simp)
      · obtain ⟨rfl, rfl⟩ := Prod.mk.inj (Option.some.inj (htype.symm.trans hcr))
        exact ⟨x, is, hx, heof, hopen⟩
    · rintro ⟨x, is, hx, heof, hopen⟩
      exact .parameter l type x is htype hx heof hopen
  rw [loop_data hc hd, parseParameter_created htype, hdata]
  cases hx : parseProxy storeEnv ch.mem (bytesId hi lo) type s (stream ch.junk l) with
  | throw e x => exact iff_of_false (by simp) (by rintro ⟨x, is, h, -⟩; simp at h)
  | done x is =>
    rw [hx] at hl hp
    obtain ⟨hleft, -⟩ : IStream.Left (stream ch.junk l) is ∧ _ := hl
    have hfuel : is.rest.length < n := (hleft.length.trans hlength).trans_lt hn
    have hsome : (x.2.map PacketData.parameter).isSome = true := by rw [show x.2 = some p from hp]; rfl
    dsimp only
    cases heof : is.eof with
    | true =>
      rw [loop_of_eof (by omega) heof]
      exact iff_of_false (by simp) (by rintro ⟨x', is', h, h', -⟩; simp_all)
    | false =>
      have hstream := IStream.eq_stream hleft.steady heof
      have hopen : (parsePacketOptions storeEnv ch.mem n x.1 { k with data := x.2.map .parameter } is).verdict =
          .rejected ↔ OpenEnd is.rest := by
        rw [hstream]
        exact rejected_of_data hsome hfuel
      rw [hopen]
      constructor
      · exact fun hopen => ⟨x, is, rfl, heof, hopen⟩
      · rintro ⟨x', is', h, -, hopen⟩
        obtain ⟨-, rfl⟩ := Outcome.done.inj h
        exact hopen

/-- An `UPDATE` packet that still has no data is given up exactly if what follows is discarded. -/
theorem rejected_iff {s : Store} {ch : Chance} {k : Packet} {l : Bytes} {n : Nat} (hc : k.command = .update)
    (hd : k.data = none) (hn : l.length < n) :
    (parsePacketOptions storeEnv ch.mem n s k (stream ch.junk l)).verdict = .rejected ↔ Discarded s ch l := by
  induction n generalizing k l with
  | zero => exact absurd hn (by omega)
  | succ n ih =>
    cases l with
    | nil => exact iff_of_true (congrArg Parsed.verdict loop_nil) .nil
    | cons c l =>
      have hl : l.length < n := by simpa using hn
      by_cases h17 : c = 17
      · subst h17
        by_cases h8 : 8 ≤ l.length
        · have hdrop : (l.drop 8).length < n := by rw [List.length_drop]; omega
          rw [loop_timestamp h8, discarded_timestamp h8]
          exact ih hc hd hdrop
        · rw [loop_timestamp_cut (by omega) (by omega)]
          refine iff_of_false (by simp) fun hdis => ?_
          rcases hdis.of_cons with ⟨-, v, l', hv, rfl, -⟩ | ⟨h18, -⟩
          · exact h8 (by rw [List.length_append]; omega)
          · exact absurd h18 (by decide)
      by_cases h18 : c = 18
      · subst h18
        -- the parameter may be cut off, of an unsupported type, cut off within its type, or created
        by_cases h3 : l.length < 3
        · obtain ⟨is, his, heof⟩ : ∃ is, parseParameter storeEnv ch.mem s (stream ch.junk l) = .done (s, none) is ∧
              is.eof = true := parseParameter_short h3
          rw [loop_data hc hd, his]
          dsimp only
          rw [loop_of_eof (by omega) heof]
          refine iff_of_false (by simp) fun hdis => ?_
          rcases hdis.of_cons with ⟨h, -⟩ | ⟨-, hi, lo, d, rest, rfl, -⟩
          · exact h17 h
          · simp only [List.length_cons] at h3
            omega
        obtain ⟨hi, lo, d, rest, rfl⟩ : ∃ hi lo d rest, l = hi :: lo :: d :: rest := by
          match l, h3 with
          | hi :: lo :: d :: rest, _ => exact ⟨hi, lo, d, rest, rfl⟩
          | [], h | [_], h | [_, _], h => simp at h
        have hrest : rest.length < n := by simp at hl; omega
        cases hun : afterUnsupported d rest with
        | some l' =>
          have hl' := length_afterUnsupported hun
          rw [loop_data hc hd, parseParameter_unsupported hun, discarded_unsupported hun]
          exact ih hc rfl (hl'.trans_lt hrest)
        | none =>
          cases htype : createdType d rest with
          | some r => exact (rejected_created hc hd hrest htype).trans discarded_data.symm
          | none =>
            obtain ⟨is, his, heof⟩ : ∃ is, parseParameter storeEnv ch.mem s (stream ch.junk (hi :: lo :: d :: rest)) =
                .done (s, none) is ∧ is.eof = true := parseParameter_cut htype hun
            rw [loop_data hc hd, his, discarded_data]
            dsimp only
            rw [loop_of_eof (by omega) heof]
            refine iff_of_false (by simp) ?_
            rintro (⟨l', h, -⟩ | ⟨l', type, x, is, h, -⟩)
            · simp [hun] at h
            · simp [htype] at h
      · rw [loop_other h17 h18]
        refine iff_of_false (by simp) fun hdis => ?_
        rcases hdis.of_cons with ⟨h, -⟩ | ⟨h, -⟩
        · exact h17 h
        · exact h18 h

/-! ### Whole packets -/

/-- An `UPDATE` packet up to the type of its parameter: the command, timestamps, the prefix of the data and an id. -/
def framed (ts : List (BitVec 64)) (hi lo t : UInt8) (rest : Bytes) : Bytes :=
  4 :: (ts.flatMap (fun v => 17 :: encodeBE 8 v.toNat) ++ 18 :: hi :: lo :: t :: rest)

/-- Timestamps are read off, and nothing else happens. -/
theorem loop_timestamps {σ : Type} {env : ParseEnv σ} {mem : Memory} {s : σ} {junk : Nat → UInt8} {l : Bytes}
    (ts : List (BitVec 64)) {k : Packet} {n : Nat}
    (hn : (ts.flatMap (fun v => 17 :: encodeBE 8 v.toNat) ++ l).length < n) :
    ∃ k' m, l.length < m ∧ k'.command = k.command ∧ k'.data = k.data ∧
      parsePacketOptions env mem n s k (stream junk (ts.flatMap (fun v => 17 :: encodeBE 8 v.toNat) ++ l)) =
        parsePacketOptions env mem m s k' (stream junk l) := by
  induction ts generalizing k n with
  | nil => exact ⟨k, n, hn, rfl, rfl, rfl⟩
  | cons v ts ih =>
    obtain ⟨n, rfl⟩ : ∃ m, n = m + 1 := ⟨n - 1, by omega⟩
    rw [List.flatMap_cons, List.cons_append, List.cons_append, List.append_assoc] at hn ⊢
    have hlength : (encodeBE 8 v.toNat).length = 8 := length_encodeBE 8 _
    rw [List.length_cons, List.length_append, hlength] at hn
    rw [loop_timestamp (by rw [List.length_append]; omega), List.drop_left' hlength]
    exact ih (k := ⟨k.command, some _, k.data⟩) (n := n) (by omega)

/-- The payload is not taken for framing: a packet that is returned with a parameter has the announced one, and a packet
whose parameter is of an unsupported type is given up. -/
structure Framed (s : Store) (ch : Chance) (ts : List (BitVec 64)) (hi lo t : UInt8) (rest : Bytes) : Prop where
  carried : ∀ k p, (s.parse ch (framed ts hi lo t rest)).verdict = .accepted →
    (s.parse ch (framed ts hi lo t rest)).packet = some k → k.parameter = some p →
    p.parameterId = bytesId hi lo ∧ p.getDatatype = t ∧
      ∀ τ, p.kind.type = .value (.range τ) → rest.head? = some τ.datatype
  rejected : ∀ l, afterUnsupported t rest = some l → (s.parse ch (framed ts hi lo t rest)).verdict = .rejected

/-- The loop of a packet from the prefix of its data on. -/
theorem parsePacket_framed (s : Store) (ch : Chance) (ts : List (BitVec 64)) (hi lo t : UInt8) (rest : Bytes) :
    ∃ k n, rest.length + 3 < n ∧ k.command = .update ∧ k.data = none ∧
      parsePacket storeEnv ch.mem s (stream ch.junk (framed ts hi lo t rest)) =
        parsePacketOptions storeEnv ch.mem (n + 1) s k (stream ch.junk (18 :: hi :: lo :: t :: rest)) := by
  obtain ⟨k, n, hn, hc, hd, hloop⟩ :
      ∃ k n, (18 :: hi :: lo :: t :: rest).length < n ∧ k.command = .update ∧ k.data = none ∧ _ =
        parsePacketOptions storeEnv ch.mem n s k (stream ch.junk (18 :: hi :: lo :: t :: rest)) :=
    loop_timestamps ts (k := { command := .update }) (Nat.lt_succ_self _)
  obtain ⟨n, rfl⟩ : ∃ m, n = m + 1 := ⟨n - 1, by omega⟩
  exact ⟨k, n, by simp only [List.length_cons] at hn; omega, hc, hd, hloop⟩

/-- A parameter of a type that is created is announced by the packet that carries it. -/
theorem carried_created {s : Store} {ch : Chance} {k k' : Packet} {p : Parameter} {hi lo t : UInt8} {rest l : Bytes}
    {n : Nat} {type : ParameterType} (hc : k.command = .update) (hd : k.data = none)
    (htype : createdType t rest = some (type, l))
    (h : (parsePacketOptions storeEnv ch.mem (n + 1) s k (stream ch.junk (18 :: hi :: lo :: t :: rest))).packet =
      some k')
    (hp : k'.parameter = some p) : p.parameterId = bytesId hi lo ∧ p.kind.type = type := by
  obtain ⟨q, ⟨hid, hq⟩, hst⟩ := type_parseProxy ch.mem (bytesId hi lo) type s (stream ch.junk l)
  rw [loop_data hc hd, parseParameter_created htype] at h
  have hdata : k'.data = some (.parameter q) := by
    cases hx : parseProxy storeEnv ch.mem (bytesId hi lo) type s (stream ch.junk l) with
    | throw e x =>
      rw [hx] at h hst
      rw [← Option.some.inj h]
      exact congrArg (Option.map PacketData.parameter) hst
    | done x is =>
      rw [hx] at h hst
      have hdata : x.2.map PacketData.parameter = some (.parameter q) := congrArg (Option.map PacketData.parameter) hst
      obtain ⟨k₂, hk₂, hdata⟩ := parsePacketOptions_of_data (k := { k with data := x.2.map .parameter }) hdata n x.1 is
      rw [← Option.some.inj (hk₂.symm.trans h)]
      exact hdata
  rw [Packet.data_of_parameter hp] at hdata
  obtain rfl : p = q := by simpa using hdata
  exact ⟨hid, hq⟩

/-- Payload is kept out of the framing exactly if, after a type that is not supported, the rest of the packet is
discarded. -/
theorem framed_iff (s : Store) (ch : Chance) (ts : List (BitVec 64)) (hi lo t : UInt8) (rest : Bytes) :
    Framed s ch ts hi lo t rest ↔ ∀ l, afterUnsupported t rest = some l → Discarded s ch l := by
  obtain ⟨k, n, hn, hc, hd, hparse⟩ := parsePacket_framed s ch ts hi lo t rest
  have hverdict : ∀ l, afterUnsupported t rest = some l →
      ((s.parse ch (framed ts hi lo t rest)).verdict = .rejected ↔ Discarded s ch l) := by
    intro l hl
    rw [Store.verdict_parse, hparse, rejected_iff hc hd (by simp only [List.length_cons]; omega),
      discarded_unsupported hl]
  constructor
  · exact fun h l hl => (hverdict l hl).mp (h.rejected l hl)
  · intro h
    refine ⟨fun k' p haccepted hk' hp => ?_, fun l hl => (hverdict l hl).mpr (h l hl)⟩
    rw [Store.packet_parse, hparse] at hk'
    cases hun : afterUnsupported t rest with
    | some l =>
      rw [(hverdict l hun).mpr (h l hun)] at haccepted
      exact absurd haccepted (by simp)
    | none =>
      cases htype : createdType t rest with
      | some r =>
        obtain ⟨type, l⟩ := r
        obtain ⟨hid, hkind⟩ := carried_created hc hd htype hk' hp
        obtain ⟨hdatatype, hrange⟩ := datatype_of_createdType htype ch.mem (bytesId hi lo)
        have hsame : p.kind.type = (Parameter.create ch.mem (bytesId hi lo) type).kind.type := by
          rw [hkind, type_create]
        exact ⟨hid, (datatype_of_type hsame).trans hdatatype, fun τ hτ => hrange τ (hkind.symm.trans hτ)⟩
      | none =>
        -- the packet ends within the type, and carries nothing
        obtain ⟨is, his, heof⟩ : ∃ is, parseParameter storeEnv ch.mem s (stream ch.junk (hi :: lo :: t :: rest)) =
            .done (s, none) is ∧ is.eof = true := parseParameter_cut htype hun
        rw [loop_data hc hd, his] at hk'
        dsimp only at hk'
        rw [loop_of_eof (by omega) heof] at hk'
        rw [← Option.some.inj hk'] at hp
        exact absurd hp (by simp [Packet.parameter])

/-- The body of a parameter of an unsupported type: it reads as an update of another parameter. -/
def nestedUpdate : Bytes := [18, 0, 2, 39, 0, 0, 0]

example : ((Store.empty {}).parse ⟨{}, fun _ => 0⟩ (framed [] 0 1 46 nestedUpdate)).packet.bind
    (fun k => k.parameter.map Parameter.identity) = some (2, 39) := by decide

theorem nestedUpdate_accepted :
    ¬∀ (s : Store) (ch : Chance) (ts : List (BitVec 64)) (hi lo t : UInt8) (rest : Bytes),
      Framed s ch ts hi lo t rest := by
  intro h
  have hrejected := (h (.empty {}) ⟨{}, fun _ => 0⟩ [] 0 1 46 nestedUpdate).rejected nestedUpdate rfl
  exact absurd hrejected (by decide)

end RabbitControl
