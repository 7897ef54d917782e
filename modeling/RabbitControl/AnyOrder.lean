import RabbitControl.ParseFrame
import RabbitControl.ParameterRoundTrip

/-!
# Options in any order

What `Parameter::parseOptions` makes of a list of options as an encoder may send them, in any order and with any
repetition.  A group that is named twice in a row makes the parser return (`parameter_intern.h`, the `PARENTID` case),
and an id under which no group is cached is passed over.  Apart from that the last option of its kind counts:
`readInAnyOrder_iff`.
-/

namespace RabbitControl

open Lib

/-! ### Options -/

/-- A value whose length the reader can take. -/
def ValueType.Counted : (τ : ValueType) → τ.Val → Prop
  | .string, s | .uri, s => s.length < 4294967296
  | .enum, s => s.length ≤ 127
  | _, _ => True

/-- A value as `readValue` expects it; an enum has one byte for its length. -/
def ValueType.payload : (τ : ValueType) → τ.Val → Bytes
  | .enum, s => encodeBE 1 s.length ++ s
  | τ, v => writeValue τ v

/-- The entry of a language table for the code `c`. -/
def Text.textOf? (c : Bytes) (e : Bytes × Bytes) : Option Bytes := if e.1 = c then some e.2 else none

/-- An option for a parameter of a type, its strings no longer than the reader can count, its language codes three bytes
that are not zero. -/
inductive ParameterOption (type : ParameterType)
  | label (es : List (Bytes × Bytes)) (h : ∀ e ∈ es, (e.1.length = 3 ∧ 0 ∉ e.1) ∧ e.2.length ≤ 127)
  | description (es : List (Bytes × Bytes)) (h : ∀ e ∈ es, (e.1.length = 3 ∧ 0 ∉ e.1) ∧ e.2.length ≤ 65535)
  | tags (v : Bytes) (h : v.length ≤ 127)
  | order (v : BitVec 32)
  | parentId (id : Id)
  | userdata (v : Bytes) (h : v.length < 4294967296)
  | userid (v : Bytes) (h : v.length ≤ 127)
  | readonly (v : Bool)
  | value {τ : ValueType} (ht : type = .value τ) (v : τ.Val) (h : τ.Counted v)

/-- The cached group that a `PARENTID` option names; zero names none. -/
def Store.named (s : Store) (id : Id) : Option Ref := if id = 0 then none else s.getGroup id

def Kind.fill {τ : ValueType} (v : τ.Val) : Kind → Kind
  | .value τ' d w => if h : τ = τ' then .value τ' d (w.fill (h ▸ v)) else .value τ' d w
  | k => k

namespace ParameterOption

variable {type : ParameterType}

/-- The option on the wire. -/
def field : ParameterOption type → Field
  | label es _ => ⟨.label, (es.flatMap fun e => e.1 ++ (encodeBE 1 e.2.length ++ e.2)) ++ [0]⟩
  | description es _ => ⟨.description, (es.flatMap fun e => e.1 ++ (encodeBE 2 e.2.length ++ e.2)) ++ [0]⟩
  | tags v _ => ⟨.tags, encodeBE 1 v.length ++ v⟩
  | order v => ⟨.order, encodeBE 4 v.toNat⟩
  | parentId id => ⟨.parentId, writeInt16 id⟩
  | userdata v _ => ⟨.userdata, encodeBE 4 v.length ++ v⟩
  | userid v _ => ⟨.userid, encodeBE 1 v.length ++ v⟩
  | readonly v => ⟨.readonly, writeBool v⟩
  | @value _ τ _ v _ => ⟨.value, τ.payload v⟩

/-- Store an option that is read. -/
def receive (s : Store) (p : Parameter) : ParameterOption type → Parameter
  | label es _ => { p with label := p.label.receive es }
  | description es _ => { p with description := p.description.receive es }
  | tags v _ => { p with tags := p.tags.fill v }
  | order v => { p with order := p.order.fill v }
  | parentId id => { p with parent := (s.named id).or p.parent }
  | userdata v _ => { p with userdata := p.userdata.fill v }
  | userid v _ => { p with userid := p.userid.fill v }
  | readonly v => { p with readonly := p.readonly.fill v }
  | value _ v _ => { p with kind := p.kind.fill v }

/-! The contents by kind of option. -/

def label? (c : Bytes) : ParameterOption type → Option Bytes
  | label es _ => (es.filterMap (Text.textOf? c)).getLast?
  | _ => none

def description? (c : Bytes) : ParameterOption type → Option Bytes
  | description es _ => (es.filterMap (Text.textOf? c)).getLast?
  | _ => none

def tags? : ParameterOption type → Option Bytes
  | tags v _ => some v
  | _ => none

def order? : ParameterOption type → Option (BitVec 32)
  | order v => some v
  | _ => none

def parentId? : ParameterOption type → Option Id
  | parentId id => some id
  | _ => none

def userdata? : ParameterOption type → Option Bytes
  | userdata v _ => some v
  | _ => none

def userid? : ParameterOption type → Option Bytes
  | userid v _ => some v
  | _ => none

def readonly? : ParameterOption type → Option Bool
  | readonly v => some v
  | _ => none

def value? : ParameterOption type → Option ((τ : ValueType) × τ.Val)
  | @value _ τ _ v _ => some ⟨τ, v⟩
  | _ => none

/-- The content of the last option of a kind. -/
def last {α : Type} (kind : ParameterOption type → Option α) (os : List (ParameterOption type)) : Option α :=
  (os.filterMap kind).getLast?

/-- The groups that are named one after the other. -/
def groups (s : Store) (os : List (ParameterOption type)) : List Ref := (os.filterMap parentId?).filterMap s.named

end ParameterOption

/-- The text for a language code; `any` stands for the plain text. -/
def Text.get (c : Bytes) (t : Text) : Option Bytes :=
  if c = [97, 110, 121] then if t.has then some t.content else none else t.languages[c]?

open ParameterOption in
/-- Every option of the parameter holds the content of its last occurrence. -/
structure HoldsLast {type : ParameterType} (s : Store) (os : List (ParameterOption type)) (p : Parameter) : Prop where
  label : ∀ c v, last (label? c) os = some v → p.label.get c = some v
  description : ∀ c v, last (description? c) os = some v → p.description.get c = some v
  tags : ∀ v, last tags? os = some v → p.tags.get? = some v
  order : ∀ v, last order? os = some v → p.order.get? = some v
  parent : ∀ id, last parentId? os = some id → p.parent = s.named id
  userdata : ∀ v, last userdata? os = some v → p.userdata.content = v
  userid : ∀ v, last userid? os = some v → p.userid.get? = some v
  readonly : ∀ v, last readonly? os = some v → p.readonly.get? = some v
  value : ∀ v, last value? os = some v → ∃ d w, p.kind = .value v.1 d w ∧ w.get? = some v.2

/-! ### One option -/

section Turn

variable {type : ParameterType} {s : Store} {l : List Ref} {q : Parameter}

theorem reads_counted {n : Nat} {s : Bytes} (h : s.length < 256 ^ n) (tail : Bytes) (junk : Nat → UInt8) :
    ({ rest := encodeBE n s.length ++ s ++ tail, junk := junk } : IStream).readBE n =
      (s.length, { rest := s ++ tail, junk := junk }) := by
  rw [List.append_assoc, IStream.readBE_encodeBE, Nat.mod_eq_of_lt h]

theorem reads_tinyCounted {s : Bytes} (h : s.length ≤ 127) : Reads readTinyString (encodeBE 1 s.length ++ s) s := by
  intro tail junk
  rw [readTinyString, reads_counted (n := 1) (by omega)]
  dsimp only
  rw [if_neg (by omega), readChars_append]

theorem reads_shortCounted {s : Bytes} (h : s.length ≤ 65535) : Reads readShortString (encodeBE 2 s.length ++ s) s := by
  intro tail junk
  rw [readShortString, reads_counted (n := 2) (by omega)]
  dsimp only
  rw [readChars_append]

theorem reads_payload {τ : ValueType} {v : τ.Val} (h : τ.Counted v) : Reads (readValue τ) (τ.payload v) v := by
  by_cases hτ : τ = .enum
  · subst hτ
    exact reads_tinyCounted h
  · have hpayload : τ.payload v = writeValue τ v := by
      cases τ
      case enum => exact absurd rfl hτ
      all_goals rfl
    have hfits : τ.Fits v := by
      cases τ
      case enum => exact absurd rfl hτ
      case string | uri => exact h
      all_goals trivial
    rw [hpayload]
    exact reads_value hτ hfits

/-- User data replace whatever there was. -/
theorem parseUserdata_counted {v : Bytes} (h : v.length < 4294967296) (b : Block UInt8) (tail : Bytes)
    (junk : Nat → UInt8) :
    parseUserdata b { rest := encodeBE 4 v.length ++ v ++ tail, junk := junk } =
      (b.fill v, { rest := tail, junk := junk }) := by
  have hkept : (List.take v.length b.content ++ List.replicate (v.length - b.content.length) 0).length = v.length := by
    rw [List.length_append, List.length_take, List.length_replicate]
    omega
  rw [parseUserdata, reads_counted (n := 4) (by omega)]
  dsimp only
  rw [IStream.read_append]
  dsimp only
  rw [List.drop_of_length_le hkept.le, List.append_nil]

theorem kind_of_type {τ : ValueType} {k : Kind} (h : k.type = .value τ) : ∃ d w, k = .value τ d w := by
  cases k with
  | value σ d w =>
    obtain rfl : σ = τ := by simpa [Kind.type] using h
    exact ⟨d, w, rfl⟩
  | bang | group | invalid => simp [Kind.type] at h

theorem Kind.fill_value {τ : ValueType} (d : TypeDefinition τ) (w : Slot τ.Val) (v : τ.Val) :
    (Kind.value τ d w).fill v = .value τ d (w.fill v) := by
  simp [Kind.fill]

theorem Kind.type_fill {τ : ValueType} (v : τ.Val) (k : Kind) : (k.fill v).type = k.type := by
  cases k with
  | value σ d w =>
    unfold Kind.fill
    dsimp only
    split <;> rfl
  | bang | group | invalid => rfl

namespace ParameterOption

/-- The group that an option names. -/
def group (s : Store) (o : ParameterOption type) : Option Ref := o.parentId?.bind s.named

theorem type_receive (s : Store) (q : Parameter) (o : ParameterOption type) :
    (o.receive s q).kind.type = q.kind.type := by
  cases o with
  | value ht v h => exact q.kind.type_fill v
  | _ => rfl

theorem parent_receive (s : Store) (q : Parameter) (o : ParameterOption type) :
    (o.receive s q).parent = (o.group s).or q.parent := by
  cases o <;> rfl

/-- An option with one content. -/
private theorem turnsOn_content {α : Type} {read : Reader α} {c : UInt8} {bytes : Bytes} {v : α}
    (put : α → Parameter → Parameter) (h : Reads read bytes v)
    (hturn : ∀ is, parseOption (dryEnv s) (l, q) (some c) is =
      readOption read (fun v x => (x.1, put v x.2)) (l, q) is) :
    TurnsOn (parseOption (dryEnv s)) (l, q) c bytes (l, put v q) := h.turnsOn hturn

/-- The parser of `PARENTID` by the group that is named. -/
theorem parseParent_named (id : Id) (tail : Bytes) (junk : Nat → UInt8) :
    parseParent (dryEnv s) (l, q) { rest := writeInt16 id ++ tail, junk := junk } =
      match s.named id with
      | none => .next (l, q) { rest := tail, junk := junk }
      | some g =>
        match q.parent with
        | some p =>
          if s.idOf g = s.idOf p then .leave (l, q) { rest := tail, junk := junk }
          else .next (l ++ [p], { q with parent := some g }) { rest := tail, junk := junk }
        | none => .next (l, { q with parent := some g }) { rest := tail, junk := junk } := by
  rw [parseParent, readInt16_append]
  dsimp only
  rw [if_neg (by simp), Store.named]
  by_cases h0 : id = 0
  · rw [if_pos h0, if_pos h0]
  · rw [if_neg h0, if_neg h0]
    rfl

/-- An option that names no group, or another one than the parent, is stored. -/
theorem turnsOn_receive (hq : q.kind.type = type) (o : ParameterOption type)
    (ho : ∀ g ∈ o.group s, ∀ p ∈ q.parent, s.idOf g ≠ s.idOf p) :
    ∃ l', TurnsOn (parseOption (dryEnv s)) (l, q) o.field.opt.code o.field.payload (l', o.receive s q) := by
  cases o with
  | label es h =>
    have hturn : TurnsOn (parseOption (dryEnv s)) (l, q) 33 _ _ := turnsOn_entries
      (fun v => encodeBE 1 v.length ++ v) es (fun e he => (h e he).1) (fun e he => reads_tinyCounted (h e he).2)
      fun _ => rfl
    rw [foldl_snd (fun c t p => { p with label := p.label.fill c t }), foldl_label] at hturn
    exact ⟨l, hturn⟩
  | description es h =>
    have hturn : TurnsOn (parseOption (dryEnv s)) (l, q) 34 _ _ := turnsOn_entries
      (fun v => encodeBE 2 v.length ++ v) es (fun e he => (h e he).1) (fun e he => reads_shortCounted (h e he).2)
      fun _ => rfl
    rw [foldl_snd (fun c t p => { p with description := p.description.fill c t }), foldl_description] at hturn
    exact ⟨l, hturn⟩
  | tags v h =>
    exact ⟨l, turnsOn_content (fun v p => { p with tags := p.tags.fill v }) (reads_tinyCounted h) fun _ => rfl⟩
  | order v =>
    exact ⟨l, turnsOn_content (fun v p => { p with order := p.order.fill v }) (reads_bits (n := 4) v) fun _ => rfl⟩
  | parentId id =>
    have hturn : ∀ is, parseOption (dryEnv s) (l, q) (some 37) is = parseParent (dryEnv s) (l, q) is := fun _ => rfl
    unfold receive
    dsimp only
    cases hg : s.named id with
    | none =>
      refine ⟨l, fun tail junk => ?_⟩
      rw [field, OptionId.code, hturn, parseParent_named, hg]
      rfl
    | some g =>
      cases hp : q.parent with
      | none =>
        refine ⟨l, fun tail junk => ?_⟩
        rw [field, OptionId.code, hturn, parseParent_named, hg, hp]
        rfl
      | some p =>
        refine ⟨l ++ [p], fun tail junk => ?_⟩
        rw [field, OptionId.code, hturn, parseParent_named, hg, hp]
        exact if_neg (ho g hg p hp)
  | userdata v h =>
    refine ⟨l, fun tail junk => ?_⟩
    show Turn.next (l, { q with userdata := (parseUserdata q.userdata _).1 }) (parseUserdata q.userdata _).2 = _
    rw [field, parseUserdata_counted h]
    rfl
  | userid v h =>
    exact ⟨l, turnsOn_content (fun v p => { p with userid := p.userid.fill v }) (reads_tinyCounted h) fun _ => rfl⟩
  | readonly v =>
    exact ⟨l, turnsOn_content (fun v p => { p with readonly := p.readonly.fill v }) (reads_bool v) fun _ => rfl⟩
  | value ht v h =>
    obtain ⟨d, w, hk⟩ := kind_of_type (hq.trans ht)
    have hturn : ∀ is, parseOption (dryEnv s) (l, q) (some 32) is = handleOption (l, q) (some 32) is := fun _ => rfl
    refine ⟨l, fun tail junk => ?_⟩
    rw [field, OptionId.code, hturn, handleOption]
    dsimp only
    rw [receive, hk, Kind.fill_value]
    dsimp only
    rw [if_pos rfl, reads_payload h]
    rfl

/-! ### Lists of options -/

theorem groups_cons (s : Store) (o : ParameterOption type) (os : List (ParameterOption type)) :
    groups s (o :: os) = (o.group s).toList ++ groups s os := by
  unfold groups group
  cases ho : o.parentId? with
  | none => rw [List.filterMap_cons_none ho]; rfl
  | some id =>
    rw [List.filterMap_cons_some ho, Option.bind_some]
    cases hg : s.named id with
    | none => rw [List.filterMap_cons_none hg]; rfl
    | some g => rw [List.filterMap_cons_some hg]; rfl

/-- With the parent `p` at first, no option names the group that is the parent already. -/
def Moves (s : Store) (p : Option Ref) (os : List (ParameterOption type)) : Prop :=
  (p.toList ++ groups s os).IsChain fun g g' => s.idOf g' ≠ s.idOf g

theorem moves_cons {p : Option Ref} {o : ParameterOption type} {os : List (ParameterOption type)} :
    Moves s p (o :: os) ↔ (∀ g ∈ o.group s, ∀ r ∈ p, s.idOf g ≠ s.idOf r) ∧ Moves s ((o.group s).or p) os := by
  unfold Moves
  rw [groups_cons]
  cases ho : o.group s with
  | none => simp
  | some g =>
    cases p with
    | none => simp
    | some r => simp [List.isChain_cons_cons]

/-- Without such an option the list is read to its end. -/
theorem consumes_receive {os : List (ParameterOption type)} (hq : q.kind.type = type) (h : Moves s q.parent os) :
    ∃ l', Consumes (parseOption (dryEnv s)) (l, q) (fieldBytes (os.map field)) (l', os.foldl (receive s) q) := by
  induction os generalizing l q with
  | nil => exact ⟨l, .nil _⟩
  | cons o os ih =>
    obtain ⟨ho, hos⟩ := moves_cons.mp h
    obtain ⟨l₁, hturn⟩ := turnsOn_receive (l := l) hq o ho
    obtain ⟨l₂, hrest⟩ := ih (l := l₁) ((type_receive s q o).trans hq) (by rwa [parent_receive])
    exact ⟨l₂, (hturn.consumes o.field.opt.code_ne_zero).append hrest⟩

/-- With one, the parser returns before the end of the list. -/
theorem leaves_receive {os : List (ParameterOption type)} (hq : q.kind.type = type) (h : ¬Moves s q.parent os) :
    ∃ x more, ∀ tail junk n, (fieldBytes (os.map field)).length + tail.length < n →
      optionLoop (parseOption (dryEnv s)) n (l, q) { rest := fieldBytes (os.map field) ++ tail, junk := junk } =
        .done x { rest := more ++ tail, junk := junk } := by
  induction os generalizing l q with
  | nil => exact absurd (by cases hp : q.parent <;> simp [Moves, groups]) h
  | cons o os ih =>
    rw [moves_cons, not_and] at h
    have hbytes : fieldBytes ((o :: os).map field) = o.field.bytes ++ fieldBytes (os.map field) := rfl
    by_cases ho : ∀ g ∈ o.group s, ∀ r ∈ q.parent, s.idOf g ≠ s.idOf r
    · obtain ⟨l₁, hturn⟩ := turnsOn_receive (l := l) hq o ho
      obtain ⟨x, more, hleave⟩ := ih (l := l₁) ((type_receive s q o).trans hq) (by rw [parent_receive]; exact h ho)
      refine ⟨x, more, fun tail junk n hn => ?_⟩
      rw [hbytes, List.length_append] at hn
      obtain ⟨m, hm, hloop⟩ := hturn.consumes o.field.opt.code_ne_zero (fieldBytes (os.map field) ++ tail) junk n
        (by rw [List.length_append]; exact (Nat.add_assoc ..).symm.trans_lt hn)
      rw [hbytes, List.append_assoc]
      exact hloop.trans (hleave tail junk m (by rwa [List.length_append] at hm))
    · push Not at ho
      obtain ⟨g, hg, r, hr, hid⟩ := ho
      obtain ⟨id, rfl, hnamed⟩ : ∃ id, o = parentId id ∧ s.named id = some g := by
        cases o with
        | parentId id => exact ⟨id, rfl, hg⟩
        | _ => simp [group, parentId?] at hg
      have hturn : ∀ is, parseOption (dryEnv s) (l, q) (some 37) is = parseParent (dryEnv s) (l, q) is := fun _ => rfl
      refine ⟨(l, q), fieldBytes (os.map field), fun tail junk n hn => ?_⟩
      obtain ⟨n, rfl⟩ : ∃ m, n = m + 1 := ⟨n - 1, by omega⟩
      have hrest : fieldBytes ((parentId id :: os).map field) ++ tail =
          37 :: (writeInt16 id ++ (fieldBytes (os.map field) ++ tail)) := by
        rw [hbytes, List.append_assoc]
        rfl
      rw [hrest, optionLoop, IStream.get_cons]
      dsimp only
      rw [if_neg (by simp), if_neg (by simp), if_neg (by decide), hturn, parseParent_named, hnamed, hr]
      dsimp only
      rw [if_pos hid]

/-- Where the list is read to its end, the group that was named last is the parent. -/
theorem parent_foldl (s : Store) (os : List (ParameterOption type)) (q : Parameter) :
    (os.foldl (receive s) q).parent = (groups s os).getLast?.or q.parent := by
  induction os generalizing q with
  | nil => rfl
  | cons o os ih =>
    rw [List.foldl_cons, ih, parent_receive, groups_cons]
    cases o.group s with
    | none => rfl
    | some g => cases h : (groups s os).getLast? <;> simp_all [List.getLast?_cons]

/-- If the last id names a group, or no id does, the last group is the one of the last id. -/
theorem getLast?_groups {os : List (ParameterOption type)} {i : Id} (hi : last parentId? os = some i)
    (hnamed : groups s os ≠ [] → (s.named i).isSome = true) : (groups s os).getLast? = s.named i := by
  obtain ⟨ids, hids⟩ := List.getLast?_eq_some_iff.mp hi
  have hgroups : groups s os = ids.filterMap s.named ++ [i].filterMap s.named := by
    rw [groups, hids, List.filterMap_append]
  cases hg : s.named i with
  | none =>
    by_cases hnil : groups s os = []
    · rw [hnil]
      rfl
    · exact absurd (hnamed hnil) (by simp [hg])
  | some g => simp [hgroups, hg]

theorem type_foldl (s : Store) (os : List (ParameterOption type)) (q : Parameter) :
    (os.foldl (receive s) q).kind.type = q.kind.type := by
  induction os generalizing q with
  | nil => rfl
  | cons o os ih => rw [List.foldl_cons, ih, type_receive]

end ParameterOption

end Turn

/-! ### Contents -/

theorem Text.get_fill (c : Bytes) (e : Bytes × Bytes) (t : Text) :
    (t.fill e.1 e.2).get c = if e.1 = c then some e.2 else t.get c := by
  unfold fill get
  by_cases he : e.1 = [97, 110, 121] <;> by_cases hc : c = [97, 110, 121] <;> by_cases h : e.1 = c <;>
    simp_all [Std.ExtTreeMap.getElem?_insert]

theorem Text.get_fill_entry {c v : Bytes} (t : Text) (e : Bytes × Bytes) (he : textOf? c e = some v) :
    (t.fill e.1 e.2).get c = some v := by
  rw [get_fill]
  unfold textOf? at he
  split at he
  · next hc => rw [if_pos hc, he]
  · simp at he

theorem Text.get_fill_other {c v : Bytes} (t : Text) (e : Bytes × Bytes) (he : textOf? c e = none)
    (ht : t.get c = some v) : (t.fill e.1 e.2).get c = some v := by
  have hc : e.1 ≠ c := by simpa [textOf?] using he
  rw [get_fill, if_neg hc, ht]

/-- Of the entries for a language the last one counts. -/
theorem Text.get_receive {es : List (Bytes × Bytes)} {c v : Bytes} (h : (es.filterMap (textOf? c)).getLast? = some v)
    (t : Text) : (t.receive es).get c = some v :=
  foldl_last (P := fun v t => Text.get c t = some v) (fun t e _ => t.get_fill_entry e)
    (fun t e _ => t.get_fill_other e) es t h

theorem Text.get_receive_of_none {es : List (Bytes × Bytes)} {c v : Bytes}
    (h : (es.filterMap (textOf? c)).getLast? = none) {t : Text} (ht : t.get c = some v) :
    (t.receive es).get c = some v :=
  foldl_keep (P := fun v t => Text.get c t = some v) (fun t e _ => t.get_fill_other e) es h ht

section Last

variable {type : ParameterType} {s : Store}

open ParameterOption

/-- An option that is stored in a slot. -/
private theorem get?_foldl {α : Type} {kind : ParameterOption type → Option α} (slot : Parameter → Slot α)
    (hset : ∀ p o a, kind o = some a → slot (o.receive s p) = (slot p).fill a)
    (hkeep : ∀ p o, kind o = none → slot (o.receive s p) = slot p) (os : List (ParameterOption type)) (q : Parameter)
    {v : α} (h : last kind os = some v) : (slot (os.foldl (receive s) q)).get? = some v :=
  foldl_last (P := fun v p => (slot p).get? = some v) (fun p o a ho => by rw [hset p o a ho]; rfl)
    (fun p o a ho hp => by rw [hkeep p o ho, hp]) os q h

/-- The last value is the value. -/
private theorem value_foldl (os : List (ParameterOption type)) {q : Parameter} (hq : q.kind.type = type)
    {v : (τ : ValueType) × τ.Val} (h : last value? os = some v) :
    ∃ d w, (os.foldl (receive s) q).kind = .value v.1 d w ∧ w.get? = some v.2 := by
  have hlast : (os.foldl (receive s) q).kind.type = type →
      ∃ d w, (os.foldl (receive s) q).kind = .value v.1 d w ∧ w.get? = some v.2 := by
    refine foldl_last
      (P := fun v p => p.kind.type = type → ∃ d w, p.kind = .value v.1 d w ∧ w.get? = some v.2)
      (fun p o a ho htype => ?_) (fun p o a ho hp htype => ?_) os q h
    · cases o with
      | value ht v h =>
        obtain rfl : _ = a := Option.some.inj ho
        rw [type_receive] at htype
        obtain ⟨d, w, hk⟩ := kind_of_type (htype.trans ht)
        exact ⟨d, w.fill v, by rw [receive, hk, Kind.fill_value], rfl⟩
      | _ => simp [value?] at ho
    · rw [type_receive] at htype
      cases o with
      | value => simp [value?] at ho
      | _ => exact hp htype
  exact hlast (by rw [type_foldl, hq])

/-- After a list that is read to its end every option but the parent holds its last content, and so does the parent if
the last id names a group, or no id does. -/
theorem holdsLast_foldl (os : List (ParameterOption type)) {q : Parameter} (hq : q.kind.type = type)
    (hparent : ∀ id, last parentId? os = some id → (os.foldl (receive s) q).parent = s.named id) :
    HoldsLast s os (os.foldl (receive s) q) where
  label c v h := by
    refine foldl_last (P := fun v p => p.label.get c = some v) (fun p o a ho => ?_) (fun p o a ho hp => ?_) os q h
    · cases o with
      | label es _ => exact Text.get_receive ho p.label
      | _ => simp [label?] at ho
    · cases o with
      | label es _ => exact Text.get_receive_of_none ho hp
      | _ => exact hp
  description c v h := by
    refine foldl_last (P := fun v p => p.description.get c = some v) (fun p o a ho => ?_) (fun p o a ho hp => ?_)
      os q h
    · cases o with
      | description es _ => exact Text.get_receive ho p.description
      | _ => simp [description?] at ho
    · cases o with
      | description es _ => exact Text.get_receive_of_none ho hp
      | _ => exact hp
  tags v h := get?_foldl Parameter.tags (fun p o a ho => by cases o <;> simp_all [tags?, receive])
    (fun p o ho => by cases o <;> simp_all [tags?, receive]) os q h
  order v h := get?_foldl Parameter.order (fun p o a ho => by cases o <;> simp_all [order?, receive])
    (fun p o ho => by cases o <;> simp_all [order?, receive]) os q h
  parent := hparent
  userdata v h := by
    refine foldl_last (P := fun v p => p.userdata.content = v) (fun p o a ho => ?_) (fun p o a ho hp => ?_) os q h
    · cases o <;> simp_all [userdata?, receive, Block.fill]
    · cases o <;> simp_all [userdata?, receive]
  userid v h := get?_foldl Parameter.userid (fun p o a ho => by cases o <;> simp_all [userid?, receive])
    (fun p o ho => by cases o <;> simp_all [userid?, receive]) os q h
  readonly v h := get?_foldl Parameter.readonly (fun p o a ho => by cases o <;> simp_all [readonly?, receive])
    (fun p o ho => by cases o <;> simp_all [readonly?, receive]) os q h
  value v h := value_foldl os hq h

end Last

/-! ### Fresh parameters -/

theorem HoldsLast.of_parentChanged {type : ParameterType} {s : Store} {os : List (ParameterOption type)} {p : Parameter}
    {b : Bool} (h : HoldsLast s os p) : HoldsLast s os { p with parentChanged := b } :=
  ⟨h.label, h.description, h.tags, h.order, h.parent, h.userdata, h.userid, h.readonly, h.value⟩

/-- The parser of a fresh parameter stops right behind the terminator, and every option holds its last content. -/
def ReadInAnyOrder (s : Store) (ch : Chance) (id : Id) {type : ParameterType} (os : List (ParameterOption type))
    (rest : Bytes) : Prop :=
  ∃ x, optionList (parseOption storeEnv) (s, { Parameter.create ch.mem id type with managed := true })
      (stream ch.junk (fieldBytes (os.map ParameterOption.field) ++ 0 :: rest)) = .done x (stream ch.junk rest) ∧
    HoldsLast s os x.2

open ParameterOption in
/-- Options are read in any order exactly if none of them names the group that the one before it named, and the last id
names a cached group, unless none does. -/
theorem readInAnyOrder_iff {s : Store} (hs : s.Allocated) (ch : Chance) (id : Id) {type : ParameterType}
    (os : List (ParameterOption type)) (rest : Bytes) :
    ReadInAnyOrder s ch id os rest ↔ (groups s os).IsChain (fun g g' => s.idOf g' ≠ s.idOf g) ∧
      ∀ i, last parentId? os = some i → groups s os ≠ [] → (s.named i).isSome = true := by
  set q : Parameter := { Parameter.create ch.mem id type with managed := true } with hq
  have htype : q.kind.type = type := type_create ch.mem id type
  have hchildren : q.children = ∅ := by cases type <;> rfl
  have hrel : Outcome.Rel (SimPair s)
      (optionList (parseOption storeEnv) (s, q) (stream ch.junk (fieldBytes (os.map field) ++ 0 :: rest)))
      (optionList (parseOption (dryEnv s)) ([], q) (stream ch.junk (fieldBytes (os.map field) ++ 0 :: rest))) :=
    optionList_rel (fun x y c is hxy => parseOption_sim hs c is hxy) (s, q) ([], q) _ (Sim.refl rfl hchildren)
  by_cases hmoves : Moves s q.parent os
  · obtain ⟨l', hconsumes⟩ := consumes_receive (l := []) htype hmoves
    have hdry := optionList_of_consumes hconsumes rest ch.junk
    obtain ⟨x, hx, hsim⟩ : ∃ x, optionList (parseOption storeEnv) (s, q)
        (stream ch.junk (fieldBytes (os.map field) ++ 0 :: rest)) = .done x (stream ch.junk rest) ∧
        SimPair s x (l', os.foldl (receive s) q) := Outcome.Rel.of_done (hdry ▸ hrel)
    obtain ⟨b, hb⟩ := hsim.proxy
    have hfold : (os.foldl (receive s) q).parent = (groups s os).getLast? :=
      (parent_foldl s os q).trans Option.or_none
    constructor
    · rintro ⟨y, hy, hlast⟩
      obtain ⟨rfl, -⟩ := Outcome.done.inj (hx.symm.trans hy)
      refine ⟨hmoves, fun i hi hne => ?_⟩
      have hparent := hlast.parent i hi
      rw [hb] at hparent
      rw [← hparent, hfold]
      exact Option.isSome_iff_ne_none.mpr (by simpa [List.getLast?_eq_none_iff] using hne)
    · rintro ⟨-, hnamed⟩
      refine ⟨x, hx, ?_⟩
      rw [hb]
      refine (holdsLast_foldl os htype fun i hi => ?_).of_parentChanged
      rw [hfold, getLast?_groups hi (hnamed i hi)]
  · -- the parser returns with the rest of the list and the terminator unread
    obtain ⟨y, more, hleaves⟩ := leaves_receive (l := []) htype hmoves
    have hdry := hleaves (0 :: rest) ch.junk ((fieldBytes (os.map field) ++ 0 :: rest).length + 1)
      (by rw [List.length_append]; exact Nat.lt_succ_self _)
    obtain ⟨x, hx, -⟩ : ∃ x, optionList (parseOption storeEnv) (s, q)
        (stream ch.junk (fieldBytes (os.map field) ++ 0 :: rest)) = .done x (stream ch.junk (more ++ 0 :: rest)) ∧
        SimPair s x y := Outcome.Rel.of_done (hdry ▸ hrel)
    refine iff_of_false ?_ fun h => hmoves h.1
    rintro ⟨z, hz, -⟩
    have hstream := congrArg (fun is : IStream => is.rest.length) (Outcome.done.inj (hx.symm.trans hz)).2
    simp only [stream, List.length_append, List.length_cons] at hstream
    omega

/-- Both groups are named, the second one last, with other options in between. -/
def movedOptions : List (ParameterOption (.value .boolean)) :=
  [.tags [97] (by decide), .parentId 1, .value rfl true trivial, .parentId 2, .tags [98] (by decide)]

theorem readInAnyOrder_moved :
    ReadInAnyOrder (run Watched.call (.start {} [0]) Store.twoGroups).server.store ⟨{}, fun _ => 0⟩ 3 movedOptions
      [7] :=
  (readInAnyOrder_iff Store.allocated_twoGroups ⟨{}, fun _ => 0⟩ 3 movedOptions [7]).mpr
    ⟨by decide, fun i hi _ => by obtain rfl : 2 = i := Option.some.inj hi; decide⟩

/-- One group is named twice in a row. -/
theorem sameParent_twice_fails :
    ¬∀ (s : Store), s.Allocated → ∀ (ch : Chance) (id : Id) (type : ParameterType) (os : List (ParameterOption type))
      (rest : Bytes), ReadInAnyOrder s ch id os rest := by
  intro h
  obtain ⟨x, hx, -⟩ := h _ Store.allocated_twoGroups ⟨{}, fun _ => 0⟩ 3 (.value .boolean) [.parentId 1, .parentId 1] []
  -- the terminator is left unread
  have hrest := congrArg (fun o => match o with | .done _ is => is.rest | .throw _ _ => []) hx
  dsimp only [stream] at hrest
  exact absurd hrest (by decide)

end RabbitControl
