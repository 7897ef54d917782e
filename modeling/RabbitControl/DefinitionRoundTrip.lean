import RabbitControl.ReadBack

/-!
# Type definitions read back

What `parseOptions` of a fresh type definition makes of the bytes that `write` emits: every option is read as what is
sent for it, the terminator is found, and nothing of what follows is read (`TypeDefinition.parseOptions_write`).  The
strings of string and URI definitions are cut off where their length ends; enums are not read back, nor are custom
types looked at.
-/

namespace RabbitControl

open Lib

/-- The types whose definitions are read back here. -/
def ValueType.readsBack : ValueType → Bool
  | enum | custom _ => false
  | _ => true

/-! ### Schemas -/

/-- Words without white space are split where they were joined. -/
theorem splitWords_intercalate {l : List Bytes} (h : ∀ w ∈ l, w ≠ [] ∧ ∀ c ∈ w, isSpace c = false) :
    splitWords (List.intercalate [32] l) = l := by
  induction l with
  | nil => simp [splitWords]
  | cons w l ih =>
    obtain ⟨hne, hspace⟩ := h w List.mem_cons_self
    have hrest := ih fun v hv => h v (List.mem_cons_of_mem _ hv)
    cases l with
    | nil =>
      rw [List.intercalate_singleton, splitWords, List.splitOnP_eq_singleton hspace]
      simp [hne]
    | cons v l =>
      have hsep : isSpace 32 = true := rfl
      rw [splitWords] at hrest
      rw [List.intercalate_cons_cons, List.append_assoc, List.singleton_append, splitWords,
        List.splitOnP_append_cons_of_forall_mem hspace 32 hsep, List.filter_cons, if_pos (by simpa using hne), hrest]

/-! ### Options of the definitions -/

namespace NumberDefinition

variable {t : NumberType}

/-- Store what is sent of the definition `d`. -/
def receive (all : Bool) (d into : NumberDefinition t) : NumberDefinition t where
  defaultValue := into.defaultValue.receive (d.defaultValue.sent all 0)
  minimum := into.minimum.receive (d.minimum.sent all t.minimum)
  maximum := into.maximum.receive (d.maximum.sent all t.maximum)
  multipleof := into.multipleof.receive (d.multipleof.sent all 0)
  scale := into.scale.receive (d.scale.sent all 0)
  unit := into.unit.receive (d.unit.sent all [])

theorem consumes_write (all : Bool) (d into : NumberDefinition t)
    (hunit : ∀ s, d.unit.sent all [] = some s → s.length ≤ 127) :
    Consumes parseOption into (fieldBytes (d.write all).1) (d.receive all into) := by
  let num := fun v : t.Val => encodeBE t.size v.toNat
  let i1 := { into with defaultValue := into.defaultValue.receive (d.defaultValue.sent all 0) }
  let i2 := { i1 with minimum := into.minimum.receive (d.minimum.sent all t.minimum) }
  let i3 := { i2 with maximum := into.maximum.receive (d.maximum.sent all t.maximum) }
  let i4 := { i3 with multipleof := into.multipleof.receive (d.multipleof.sent all 0) }
  let i5 := { i4 with scale := into.scale.receive (d.scale.sent all 0) }
  have h1 : Consumes parseOption into (fieldBytes (d.defaultValue.write (.number .default) num (num 0) all).1) i1 :=
    Slot.consumes_write (fun x => { into with defaultValue := x }) rfl (fun _ => rfl) rfl
      fun v _ => reads_bits v
  have h2 : Consumes parseOption i1 (fieldBytes (d.minimum.write (.number .minimum) num (num t.minimum) all).1) i2 :=
    Slot.consumes_write (fun x => { i1 with minimum := x }) rfl (fun _ => rfl) rfl fun v _ => reads_bits v
  have h3 : Consumes parseOption i2 (fieldBytes (d.maximum.write (.number .maximum) num (num t.maximum) all).1) i3 :=
    Slot.consumes_write (fun x => { i2 with maximum := x }) rfl (fun _ => rfl) rfl fun v _ => reads_bits v
  have h4 : Consumes parseOption i3 (fieldBytes (d.multipleof.write (.number .multipleof) num (num 0) all).1) i4 :=
    Slot.consumes_write (fun x => { i3 with multipleof := x }) rfl (fun _ => rfl) rfl
      fun v _ => reads_bits v
  have h5 : Consumes parseOption i4 (fieldBytes (d.scale.write (.number .scale) (fun v => [v]) [0] all).1) i5 :=
    Slot.consumes_write (fun x => { i4 with scale := x }) rfl (fun _ => rfl) rfl fun v _ => reads_get v
  have h6 : Consumes parseOption i5
      (fieldBytes (d.unit.write (.number .unit) writeTinyString (writeTinyString []) all).1) (d.receive all into) :=
    Slot.consumes_write (fun x => { i5 with unit := x }) rfl (fun _ => rfl) rfl
      fun v hv => reads_tinyString (hunit v hv)
  rw [write]
  simp only [fieldBytes_append]
  exact ((((h1.append h2).append h3).append h4).append h5).append h6

end NumberDefinition

theorem DefaultDefinition.consumes_write {α : Type} {enc : α → Bytes} {read : Reader α}
    (hread : ∀ v, Reads read (enc v) v)
    (all : Bool) (d into : DefaultDefinition α) :
    Consumes (parseOption read) into (fieldBytes (d.write enc all).1)
      { into with defaultValue := into.defaultValue.receive (d.defaultValue.sent all d.blank) } :=
  Slot.consumes_write (fun x => { into with defaultValue := x }) rfl (fun _ => rfl) rfl fun v _ => hread v

/-- A default value that is cleared comes back as the value that is written in its place. -/
theorem DefaultDefinition.get?_received {α : Type} (all : Bool) (d into : DefaultDefinition α) {v : α}
    (hinto : into.defaultValue.has = false) (hblank : d.blank = v) :
    (into.defaultValue.receive (d.defaultValue.sent all d.blank)).get? = d.defaultValue.sent all v := by
  rw [hblank]
  exact Slot.get?_receive hinto _

/-- The strings of a string definition are cut off where their length ends. -/
theorem StringDefinition.consumes_write (all : Bool) (d into : StringDefinition) :
    Consumes parseOption into (fieldBytes (d.write all).1)
      { defaultValue := into.defaultValue.receive ((d.defaultValue.sent all []).map (List.take 4294967295))
        regex := into.regex.receive ((d.regex.sent all []).map (List.take 4294967295)) } := by
  let i1 := { into with
    defaultValue := into.defaultValue.receive ((d.defaultValue.sent all []).map (List.take 4294967295)) }
  have h1 : Consumes parseOption into
      (fieldBytes (d.defaultValue.write .default writeString (writeString []) all).1) i1 :=
    Slot.consumes_trimmed (fun x => { into with defaultValue := x }) _ rfl (fun _ => rfl) rfl reads_string
  have h2 : Consumes parseOption i1 (fieldBytes (d.regex.write .regex writeString (writeString []) all).1)
      { i1 with regex := into.regex.receive ((d.regex.sent all []).map (List.take 4294967295)) } :=
    Slot.consumes_trimmed (fun x => { i1 with regex := x }) _ rfl (fun _ => rfl) rfl reads_string
  rw [write, fieldBytes_append]
  exact h1.append h2

/-- The filter and the schemas are short enough to be read. -/
structure UriDefinition.Readable (d : UriDefinition) : Prop where
  filter : ∀ s ∈ d.filter.get?, s.length ≤ 127
  length : (List.intercalate [32] d.schemas.content).length ≤ 127
  schemas : ∀ w ∈ d.schemas.content, w ≠ [] ∧ ∀ c ∈ w, isSpace c = false

/-- What is sent for a slot is what it shows, or neutral. -/
theorem Slot.sent_cases {α : Type} {all : Bool} {neutral v : α} {s : Slot α} (h : s.sent all neutral = some v) :
    s.get? = some v ∨ v = neutral := by
  unfold sent at h
  split at h
  · next hp =>
    split at h
    · exact Or.inl (by rw [get?, if_pos hp, h])
    · simp at h
  · split at h
    · exact Or.inr (Option.some.inj h).symm
    · simp at h

/-- What is sent for a short string is short. -/
theorem Slot.length_sent {all : Bool} {s : Slot Bytes} (hs : ∀ v ∈ s.get?, v.length ≤ 127) {v : Bytes}
    (hv : s.sent all [] = some v) : v.length ≤ 127 := by
  rcases Slot.sent_cases hv with h | rfl
  · exact hs v h
  · simp

theorem UriDefinition.consumes_write (all : Bool) (d : UriDefinition) (hd : d.Readable) :
    Consumes parseOption {} (fieldBytes (d.write all).1)
      { defaultValue := ({ content := [] } : Slot Bytes).receive ((d.defaultValue.sent all []).map (List.take 4294967295))
        filter := ({ content := [] } : Slot Bytes).receive (d.filter.sent all [])
        schemas := { content := if all || d.schemas.changed then d.schemas.content else [] } } := by
  let i1 : UriDefinition :=
    { defaultValue := ({ content := [] } : Slot Bytes).receive ((d.defaultValue.sent all []).map (List.take 4294967295)) }
  let i2 : UriDefinition := { i1 with filter := i1.filter.receive (d.filter.sent all []) }
  have h1 : Consumes parseOption ({} : UriDefinition)
      (fieldBytes (d.defaultValue.write .default writeString (writeString []) all).1) i1 :=
    Slot.consumes_trimmed (fun x => ({ defaultValue := x } : UriDefinition)) _ rfl (fun _ => rfl) rfl reads_string
  have h2 : Consumes parseOption i1 (fieldBytes (d.filter.write .filter writeTinyString (writeTinyString []) all).1) i2 :=
    Slot.consumes_write (fun x => { i1 with filter := x }) rfl (fun _ => rfl) rfl
      fun v hv => reads_tinyString (Slot.length_sent hd.filter hv)
  have hschemas : ∀ l : List Bytes, (List.intercalate [32] l).length ≤ 127 → splitWords (List.intercalate [32] l) = l →
      TurnsOn parseOption i2 OptionId.schema.code (writeSchemas l) { i2 with schemas := { content := l } } := by
    intro l hlength hsplit
    have hturn : ∀ is, parseOption i2 (some OptionId.schema.code) is =
        readOption readTinyString (fun v d => { d with schemas := d.schemas.fill (splitWords v) }) i2 is := fun _ => rfl
    have h := (reads_tinyString hlength).turnsOn hturn
    rwa [hsplit] at h
  have h3 : Consumes parseOption i2
      (fieldBytes (d.schemas.write .schema writeSchemas (writeTinyString []) all).1)
      { i2 with schemas := { content := if all || d.schemas.changed then d.schemas.content else [] } } :=
    Block.consumes_write (fun l => { i2 with schemas := { content := l } }) rfl
      (fun _ => hschemas _ hd.length (splitWords_intercalate hd.schemas)) (hschemas [] (by simp) rfl)
  rw [write]
  simp only [fieldBytes_append]
  exact (h1.append h2).append h3

/-- A cleared default of a range is sent as twice the default of its element, or zero. -/
def RangeDefinition.neutral {t : NumberType} (d : RangeDefinition t) : t.Val × t.Val :=
  let v := (d.element.defaultValue.get?).getD 0
  (v, v)

/-- Store what is sent of the definition `d`. -/
def RangeDefinition.receive {t : NumberType} (all : Bool) (d into : RangeDefinition t) : RangeDefinition t where
  element := d.element.receive all into.element
  defaultValue := into.defaultValue.receive (d.defaultValue.sent all d.neutral)

/-- The default of a range takes two words. -/
theorem RangeDefinition.consumes_default {t : NumberType} (all : Bool) (s : Slot (t.Val × t.Val)) (v : t.Val)
    (into : RangeDefinition t) :
    Consumes parseOption into
      (fieldBytes (s.write .default (fun r => encodeBE t.size r.1.toNat ++ encodeBE t.size r.2.toNat)
        (encodeBE t.size v.toNat ++ encodeBE t.size v.toNat) all).1)
      { into with defaultValue := into.defaultValue.receive (s.sent all (v, v)) } := by
  have hword : ∀ x : t.Val, BitVec.ofNat (8 * t.size) (x.toNat % 256 ^ t.size) = x := by
    intro x
    rw [← decodeBE_encodeBE, ofNat_decodeBE_encodeBE]
  have hturn : ∀ r : t.Val × t.Val, TurnsOn parseOption into OptionId.default.code
      (encodeBE t.size r.1.toNat ++ encodeBE t.size r.2.toNat)
      { into with defaultValue := into.defaultValue.fill r } := by
    intro r tail junk
    show RangeDefinition.parseOption into (some 48) _ = _
    rw [parseOption, List.append_assoc, IStream.readBE_encodeBE]
    dsimp only
    rw [if_neg (by simp), IStream.readBE_encodeBE]
    dsimp only
    rw [if_neg (by simp), hword, hword]
  have h := Slot.consumes_turns (fun x => { into with defaultValue := x }) id rfl rfl
    (fun r (_ : s.sent all (v, v) = some r) => hturn r)
  rwa [Option.map_id] at h

/-! ### Whole definitions -/

/-- The unit of a number is short enough to be read. -/
def NumberDefinition.Readable {t : NumberType} (d : NumberDefinition t) : Prop := ∀ s ∈ d.unit.get?, s.length ≤ 127

/-- The strings of a definition are short enough to be read. -/
def TypeDefinition.Readable : {τ : ValueType} → TypeDefinition τ → Prop
  | .number _, d => NumberDefinition.Readable d
  | .range _, d => d.element.Readable
  | .uri, d => UriDefinition.Readable d
  | _, _ => True

/-- Every option of a number comes back as what is sent for it. -/
structure NumberDefinition.Returned {t : NumberType} (all : Bool) (d d' : NumberDefinition t) : Prop where
  defaultValue : d'.defaultValue.get? = d.defaultValue.sent all 0
  minimum : d'.minimum.get? = d.minimum.sent all t.minimum
  maximum : d'.maximum.get? = d.maximum.sent all t.maximum
  multipleof : d'.multipleof.get? = d.multipleof.sent all 0
  scale : d'.scale.get? = d.scale.sent all 0
  unit : d'.unit.get? = d.unit.sent all []

/-- The options of an URI, of whose default `trim` is left. -/
structure UriDefinition.Returned (trim : Bytes → Bytes) (all : Bool) (d d' : UriDefinition) : Prop where
  defaultValue : d'.defaultValue.get? = (d.defaultValue.sent all []).map trim
  filter : d'.filter.get? = d.filter.sent all []
  schemas : d'.schemas.content = if all || d.schemas.changed then d.schemas.content else []

structure EnumDefinition.Returned (all : Bool) (d d' : EnumDefinition) : Prop where
  defaultValue : d'.defaultValue.get? = d.defaultValue.sent all []
  options : d'.options.content = if all || d.options.changed then d.options.content else []
  multiselect : d'.multiselect.get? = d.multiselect.sent all false

structure CustomDefinition.Returned {n : Nat} (all : Bool) (d d' : CustomDefinition n) : Prop where
  defaultValue : d'.defaultValue.get? = d.defaultValue.sent all (Vector.replicate n 0)
  uuid : d'.uuid.get? = d.uuid.sent all d.uuid.content
  config : d'.config.content = if all || d.config.changed then d.config.content else []

/-- Every option of the definition `d` comes back in `d'` as what is sent for it: its content if it is present, else a
neutral value if its change flag is up.  Of long strings `trim` is left. -/
def TypeDefinition.Returned (trim : Bytes → Bytes) (all : Bool) :
    {τ : ValueType} → TypeDefinition τ → TypeDefinition τ → Prop
  | .boolean, d, d' => d'.defaultValue.get? = d.defaultValue.sent all false
  | .number _, d, d' => NumberDefinition.Returned all d d'
  | .string, d, d' =>
    d'.defaultValue.get? = (d.defaultValue.sent all []).map trim ∧ d'.regex.get? = (d.regex.sent all []).map trim
  | .enum, d, d' => EnumDefinition.Returned all d d'
  | .rgb, d, d' | .rgba, d, d' | .ipv4, d, d' => d'.defaultValue.get? = d.defaultValue.sent all (0 : BitVec 32)
  | .ipv6, d, d' => d'.defaultValue.get? = d.defaultValue.sent all ⟨0, 0, 0, 0⟩
  | .uri, d, d' => UriDefinition.Returned trim all d d'
  | .range _, d, d' =>
    d.element.Returned all d'.element ∧
      d'.defaultValue.get? = d.defaultValue.sent all (RangeDefinition.neutral d)
  | .custom _, d, d' => CustomDefinition.Returned all d d'

/-- A default-constructed value is zero, also that of an IP address. -/
def TypeDefinition.ZeroBlank : {τ : ValueType} → TypeDefinition τ → Prop
  | .boolean, d => d.blank = false
  | .rgb, d | .rgba, d | .ipv4, d => d.blank = (0 : BitVec 32)
  | .ipv6, d => d.blank = ⟨0, 0, 0, 0⟩
  | _, _ => True

theorem NumberDefinition.returned_receive {t : NumberType} (all : Bool) (d : NumberDefinition t) :
    d.Returned all (d.receive all {}) where
  defaultValue := Slot.get?_receive rfl _
  minimum := Slot.get?_receive rfl _
  maximum := Slot.get?_receive rfl _
  multipleof := Slot.get?_receive rfl _
  scale := Slot.get?_receive rfl _
  unit := Slot.get?_receive rfl _

theorem NumberDefinition.consumes_receive {t : NumberType} {d : NumberDefinition t} (hd : d.Readable) (all : Bool)
    (into : NumberDefinition t) : Consumes parseOption into (fieldBytes (d.write all).1) (d.receive all into) :=
  consumes_write all d into fun _ hs => Slot.length_sent hd hs

/-- What follows the mandatory part of a fresh definition's bytes is read as what is sent of the definition. -/
theorem TypeDefinition.parseOptions_write {τ : ValueType} (hτ : τ.readsBack = true) (all : Bool) (d : TypeDefinition τ)
    (hd : d.Readable) (mem : Memory) :
    ∃ body, (d.write all).1.bytes = τ.mandatory ++ body ∧
      ∃ d', (d.ZeroBlank → d.Returned (List.take 4294967295) all d') ∧ ∀ tail junk,
        (TypeDefinition.make mem τ).parseOptions { rest := body ++ tail, junk := junk } =
          .done d' { rest := tail, junk := junk } := by
  have hbody : ∀ {σ : Type} {turn : σ → Option UInt8 → IStream → Turn σ} {s s' : σ} {l : Bytes},
      Consumes turn s l s' → ∀ tail junk, optionList turn s { rest := l ++ [0] ++ tail, junk := junk } =
        .done s' { rest := tail, junk := junk } := by
    intro σ turn s s' l h tail junk
    rw [List.append_assoc]
    exact optionList_of_consumes h tail junk
  cases τ with
  | boolean =>
    have h := DefaultDefinition.consumes_write reads_bool all d (DefaultDefinition.make false)
    refine ⟨_, rfl, _, fun hz => ?_, hbody h⟩
    exact DefaultDefinition.get?_received all d _ rfl hz
  | number t =>
    have h := NumberDefinition.consumes_receive hd all {}
    exact ⟨_, rfl, _, fun _ => NumberDefinition.returned_receive all d, hbody h⟩
  | string =>
    have h := StringDefinition.consumes_write all d {}
    refine ⟨_, rfl, _, fun _ => ?_, hbody h⟩
    exact ⟨Slot.get?_receive rfl _, Slot.get?_receive rfl _⟩
  | rgb | rgba =>
    have h := DefaultDefinition.consumes_write (fun v => reads_bits (n := 4) v) all d (DefaultDefinition.make 0)
    refine ⟨_, rfl, _, fun hz => ?_, hbody h⟩
    exact DefaultDefinition.get?_received all d _ rfl hz
  | ipv4 =>
    have h := DefaultDefinition.consumes_write (fun v => reads_bits (n := 4) v) all d (DefaultDefinition.make mem.ipv4)
    refine ⟨_, rfl, _, fun hz => ?_, hbody h⟩
    exact DefaultDefinition.get?_received all d _ rfl hz
  | ipv6 =>
    have h := DefaultDefinition.consumes_write reads_IPv6 all d (DefaultDefinition.make mem.ipv6)
    refine ⟨_, rfl, _, fun hz => ?_, hbody h⟩
    exact DefaultDefinition.get?_received all d _ rfl hz
  | uri =>
    have h := UriDefinition.consumes_write all d hd
    refine ⟨_, rfl, _, fun _ => ?_, hbody h⟩
    exact ⟨Slot.get?_receive rfl _, Slot.get?_receive rfl _, rfl⟩
  | range t =>
    have helement := NumberDefinition.consumes_receive (d := d.element) hd all {}
    have hdefault := RangeDefinition.consumes_default all d.defaultValue ((d.element.defaultValue.get?).getD 0)
      { element := d.element.receive all {} }
    have hbytes : (TypeDefinition.write all d).1.bytes = ValueType.mandatory (.range t) ++
        (fieldBytes (d.element.write all).1 ++ [0] ++ (fieldBytes (RangeDefinition.write all d).1.2 ++ [0])) := by
      simp [TypeDefinition.write, DefinitionBody.bytes, ValueType.mandatory, RangeDefinition.write]
    refine ⟨_, hbytes, RangeDefinition.receive all d {}, fun _ => ?_, fun tail junk => ?_⟩
    · exact ⟨NumberDefinition.returned_receive all d.element, Slot.get?_receive rfl _⟩
    · show RangeDefinition.parseOptions {} _ = _
      rw [List.append_assoc, RangeDefinition.parseOptions, NumberDefinition.parseOptions, hbody helement]
      exact hbody hdefault tail junk
  | enum | custom => exact absurd hτ Bool.false_ne_true

/-- A fresh definition reads what follows the mandatory part of the bytes of `d` as `d`, and nothing of the rest. -/
def TypeDefinition.RoundTrips {τ : ValueType} (trim : Bytes → Bytes) (mem : Memory) (d : TypeDefinition τ) : Prop :=
  ∃ body, (d.write true).1.bytes = τ.mandatory ++ body ∧
    ∃ d', d.Returned trim true d' ∧ ∀ rest junk,
      (TypeDefinition.make mem τ).parseOptions { rest := body ++ rest, junk := junk } =
        .done d' { rest := rest, junk := junk }

/-- Type definitions come back, with long strings cut off where their length ends. -/
theorem TypeDefinition.round_trip {τ : ValueType} (hτ : τ.readsBack = true) {d : TypeDefinition τ} (hd : d.Readable)
    (hzero : d.ZeroBlank) (mem : Memory) : d.RoundTrips (List.take 4294967295) mem := by
  obtain ⟨body, hbytes, d', hreturned, hparse⟩ := parseOptions_write hτ true d hd mem
  exact ⟨body, hbytes, d', hreturned hzero, hparse⟩

/-- A range of bytes with a minimum and a unit, whose default was cleared. -/
theorem TypeDefinition.round_trip_range :
    @TypeDefinition.RoundTrips (.range .int8) (List.take 4294967295) {}
      { element := { minimum := ⟨true, 3, false⟩, unit := ⟨true, [109], true⟩ },
        defaultValue := ⟨false, (1, 2), true⟩ } := by
  refine @round_trip (.range .int8) rfl _ ?_ trivial {}
  intro s hs
  obtain rfl := Option.some.inj hs
  decide

/-- A string of `2 ^ 32` bytes does not come back whole. -/
theorem TypeDefinition.long_string_cut :
    ¬∀ {τ : ValueType}, τ.readsBack = true → ∀ {d : TypeDefinition τ}, d.Readable → d.ZeroBlank →
      ∀ mem, d.RoundTrips id mem := by
  intro h
  let d : TypeDefinition .string := { defaultValue := ⟨true, List.replicate 4294967296 97, false⟩ }
  obtain ⟨body, hbytes, d₁, hclaim, hparse⟩ := h (d := d) rfl trivial trivial {}
  obtain ⟨body', hbytes', d₂, hreturned, hparse'⟩ := @parseOptions_write .string rfl true d trivial {}
  obtain rfl : body = body' := List.append_cancel_left (hbytes.symm.trans hbytes')
  have hd : d₁ = d₂ := by
    have heq := (hparse [] fun _ => 0).symm.trans (hparse' [] fun _ => 0)
    injection heq
  have hcut : d₁.defaultValue.get? = some (List.replicate 4294967296 97) := hclaim.1
  rw [hd, (hreturned trivial).1] at hcut
  have hlength := congrArg List.length (Option.some.inj hcut)
  rw [List.length_take, List.length_replicate] at hlength
  omega

end RabbitControl
