import RabbitControl.ChangeFlags

/-!
# Setters that report their change

A setter reports the change it makes to an option if afterwards either nothing new is observed, or the change flag
of the option is up and the parameter is on the dirty list.  `Parameter.reports` says of a state and a call whether
it does.  Four kinds of calls may not:

* a set with the content that was kept by a clear function, which makes the option present and returns early;
* `clearLabel` and `clearDescription`, which set no change flag;
* `setDefault` and `clearDefault` of an URI definition, which do not call `setDirty()`;
* `clearDefault` of an URI definition, which sets no change flag either.
-/

namespace RabbitControl

open Lib

/-- What a step on an option leaves: nothing new to see, or a change flag that is up on a dirty parameter.  A change
flag that was up stays up. -/
def Noted {α : Type} (seen seen' : Option α) (changed changed' dirty' : Bool) : Prop :=
  (seen' = seen ∨ changed' = true ∧ dirty' = true) ∧ (changed = true → changed' = true)

namespace Noted

variable {α β : Type} {seen seen' : Option α} {changed changed' dirty' : Bool}

theorem refl (seen : Option α) (changed dirty' : Bool) : Noted seen seen changed changed dirty' :=
  ⟨Or.inl rfl, id⟩

theorem map (f : α → β) (h : Noted seen seen' changed changed' dirty') :
    Noted (seen.map f) (seen'.map f) changed changed' dirty' :=
  ⟨h.1.imp (congrArg (Option.map f)) id, h.2⟩

end Noted

/-! ### Single options -/

/-- An equal content must be present already, or its change flag up on a dirty parameter. -/
def Slot.reports {α : Type} (eqv : α → α → Bool) (v : α) (s : Slot α) (dirty : Bool) : Bool :=
  !eqv s.content v || s.has || s.changed && dirty

section Single

variable {α : Type} {dirty : Bool}

private theorem Slot.noted_set {eqv : α → α → Bool} {v : α} {s : Slot α} (h : s.reports eqv v dirty = true) :
    Noted s.get? (s.set eqv v).1.get? s.changed (s.set eqv v).1.changed ((s.set eqv v).2 || dirty) := by
  unfold set
  by_cases he : eqv s.content v = true
  · cases hh : s.has <;> simp_all [Slot.reports, Noted, get?]
  · simp [he, Noted]

private theorem Slot.noted_clear (s : Slot α) :
    Noted s.get? s.clear.1.get? s.changed s.clear.1.changed (s.clear.2 || dirty) := by
  simp [clear, Noted]

private theorem Block.noted_set (v : List α) (b : Block α) :
    Noted b.get? (b.set v).1.get? b.changed (b.set v).1.changed ((b.set v).2 || dirty) := by
  simp [set, Noted]

private theorem Block.noted_clear (b : Block α) :
    Noted b.get? b.clear.1.get? b.changed b.clear.1.changed (b.clear.2 || dirty) := by
  simp [clear, Noted]

private theorem Block.noted_push (v : α) (b : Block α) :
    Noted b.get? (b.push v).1.get? b.changed (b.push v).1.changed ((b.push v).2 || dirty) := by
  simp [push, Noted]

/-- `clear` of a text must not take anything away, unless its change flag is up already. -/
def Text.reports (t : Text) (dirty : Bool) : TextSetter → Bool
  | .set s => t.content != s || t.has || t.changed && dirty
  | .clear => !t.has || t.changed
  | _ => true

private theorem Text.noted_apply {t : Text} {a : TextSetter} (h : t.reports dirty a = true) :
    Noted t.get? (t.apply a).1.get? t.changed (t.apply a).1.changed ((t.apply a).2 || dirty) := by
  cases a with
  | set s =>
    by_cases hs : t.content = s
    · cases hh : t.has <;> simp_all [Text.reports, Noted, Text.apply, Text.set, get?, present]
    · simp [Text.apply, Text.set, hs, Noted]
  | clear => cases hh : t.has <;> simp_all [Text.reports, Noted, Text.apply, clear, get?, present]
  | setLanguage code s => simp [Text.apply, setLanguage, Noted]
  | removeLanguage code =>
    by_cases hc : code ∈ t.languages
    · simp [Text.apply, removeLanguage, hc, Noted]
    · simp [Text.apply, removeLanguage, hc, Noted]
  | clearLanguages => simp [Text.apply, clearLanguages, Noted]

end Single

/-! ### Type definitions -/

def NumberDefinition.reports {t : NumberType} (d : NumberDefinition t) (dirty : Bool) : NumberSetter t → Bool
  | .setDefault v => d.defaultValue.reports t.eqv v dirty
  | .setMinimum v => d.minimum.reports t.eqv v dirty
  | .setMaximum v => d.maximum.reports t.eqv v dirty
  | .setMultipleof v => d.multipleof.reports t.eqv v dirty
  | .setScale v => d.scale.reports (· == ·) v dirty
  | .setUnit v => d.unit.reports (· == ·) v dirty
  | _ => true

/-- The default of an URI needs a parameter that is dirty for other reasons. -/
def TypeDefinition.reportsDefault {τ : ValueType} (v : τ.Val) (d : TypeDefinition τ) (dirty : Bool) : Bool :=
  if τ = .uri then
    if τ.eqv d.defaultValue.content v then d.defaultValue.has || d.defaultValue.changed && dirty else dirty
  else d.defaultValue.reports τ.eqv v dirty

def TypeDefinition.reports : {τ : ValueType} → TypeDefinition τ → Bool → DefinitionSetter τ → Bool
  | _, d, dirty, .number a => NumberDefinition.reports d dirty a
  | _, d, dirty, .element a => d.element.reports dirty a
  | _, d, dirty, .setDefault v => reportsDefault v d dirty
  | τ, d, dirty, .clearDefault =>
    if τ = .uri then !d.defaultValue.has || d.defaultValue.changed && dirty else true
  | _, d, dirty, .setRegex v => d.regex.reports (· == ·) v dirty
  | _, d, dirty, .setMultiselect v => d.multiselect.reports (· == ·) v dirty
  | _, d, dirty, .setFilter v => d.filter.reports (· == ·) v dirty
  | _, d, dirty, .setUuid v =>
    if h : v.length = 16 then d.uuid.reports (· == ·) ⟨v.toArray, CustomDefinition.size_uuid h⟩ dirty else true
  | _, _, _, _ => true

section Definition

variable {t : NumberType} {τ : ValueType} {dirty : Bool}

private theorem NumberDefinition.noted_apply {d : NumberDefinition t} {a : NumberSetter t}
    (h : d.reports dirty a = true) (o : NumberOption) :
    Noted (d.observe o) ((d.apply a).1.observe o) (d.changed o) ((d.apply a).1.changed o)
      ((d.apply a).2 || dirty) := by
  cases a <;> cases o <;> first
    | exact Noted.refl _ _ _
    | exact (Slot.noted_set h).map _
    | exact (Slot.noted_clear _).map _

/-- The default value of a definition is one of its options, and none of the others. -/
private theorem TypeDefinition.noted_withDefault {d : TypeDefinition τ} {s : Slot τ.Val} {dirty' : Bool}
    (h : Noted d.defaultValue.get? s.get? d.defaultValue.changed s.changed dirty') (o : OptionId) :
    Noted (d.observe o) ((d.withDefault s).observe o) (d.changed o) ((d.withDefault s).changed o) dirty' := by
  cases τ with
  | number t =>
    cases o with
    | number o => cases o <;> first | exact Noted.refl _ _ _ | exact h.map _
    | _ => exact Noted.refl _ _ _
  | _ => cases o <;> first | exact Noted.refl _ _ _ | exact h.map _

private theorem TypeDefinition.noted_setDefault {d : TypeDefinition τ} {v : τ.Val}
    (h : reportsDefault v d dirty = true) (o : OptionId) :
    Noted (d.observe o) ((setDefault v d).1.observe o) (d.changed o) ((setDefault v d).1.changed o)
      ((setDefault v d).2 || dirty) := by
  refine noted_withDefault ?_ o
  simp only [setDefault, onPart]
  by_cases hu : τ = .uri
  · simp only [reportsDefault, hu, if_true] at h
    by_cases he : τ.eqv d.defaultValue.content v = true
    · cases hh : d.defaultValue.has <;> simp_all [Noted, Slot.set, Slot.get?]
    · simp_all [Noted, Slot.set]
  · have hn : (τ != .uri) = true := by simpa using hu
    rw [hn, Bool.and_true]
    exact Slot.noted_set (by simpa [reportsDefault, hu] using h)

private theorem TypeDefinition.noted_clearDefault {d : TypeDefinition τ}
    (h : d.reports dirty .clearDefault = true) (o : OptionId) :
    Noted (d.observe o) ((clearDefault d).1.observe o) (d.changed o) ((clearDefault d).1.changed o)
      ((clearDefault d).2 || dirty) := by
  unfold clearDefault
  by_cases hu : τ = .uri
  · rw [if_pos hu]
    refine noted_withDefault ?_ o
    simp only [reports, hu, if_true] at h
    cases hh : d.defaultValue.has <;> simp_all [Noted, Slot.get?]
  · rw [if_neg hu]
    exact noted_withDefault (Slot.noted_clear _) o

private theorem CustomDefinition.noted_setUuid {n : Nat} {d : CustomDefinition n} {v : Bytes}
    (h : TypeDefinition.reports (τ := .custom n) d dirty (.setUuid v) = true) (o : OptionId) :
    Noted (TypeDefinition.observe (τ := .custom n) d o) (TypeDefinition.observe (τ := .custom n) (d.setUuid v).1 o)
      (TypeDefinition.changed (τ := .custom n) d o) (TypeDefinition.changed (τ := .custom n) (d.setUuid v).1 o)
      ((d.setUuid v).2 || dirty) := by
  unfold setUuid
  by_cases hv : v.length = 16
  · rw [dif_pos hv]
    simp only [TypeDefinition.reports, dif_pos hv] at h
    cases o <;> first | exact Noted.refl _ _ _ | exact (Slot.noted_set h).map _
  · rw [dif_neg hv]
    exact Noted.refl _ _ _

/-- A setter that reports notes its change at every option of the definition. -/
theorem TypeDefinition.noted_apply {d : TypeDefinition τ} {a : DefinitionSetter τ}
    (h : d.reports dirty a = true) (o : OptionId) :
    Noted (d.observe o) ((d.apply a).1.observe o) (d.changed o) ((d.apply a).1.changed o)
      ((d.apply a).2 || dirty) := by
  cases a with
  | number a =>
    cases o with
    | number o => exact NumberDefinition.noted_apply h o
    | _ => exact Noted.refl _ _ _
  | element a =>
    cases o with
    | number o => exact NumberDefinition.noted_apply h o
    | _ => exact Noted.refl _ _ _
  | setDefault v => exact noted_setDefault h o
  | clearDefault => exact noted_clearDefault h o
  | setUuid v => exact CustomDefinition.noted_setUuid h o
  | clearUuid => cases o <;> first | exact Noted.refl _ _ _ | simp [apply, CustomDefinition.clearUuid, Noted, changed]
  | setRegex v | setMultiselect v | setFilter v =>
    cases o <;> first | exact Noted.refl _ _ _ | exact (Slot.noted_set h).map _
  | clearRegex | clearMultiselect | clearFilter =>
    cases o <;> first | exact Noted.refl _ _ _ | exact (Slot.noted_clear _).map _
  | addOption v | addSchema v => cases o <;> first | exact Noted.refl _ _ _ | exact (Block.noted_push v _).map _
  | setOptions v | setSchemas v | setConfig v =>
    cases o <;> first | exact Noted.refl _ _ _ | exact (Block.noted_set v _).map _
  | clearOptions | clearSchemas | clearConfig =>
    cases o <;> first | exact Noted.refl _ _ _ | exact (Block.noted_clear _).map _

end Definition

/-! ### Parameters -/

def Kind.reports (k : Kind) (dirty : Bool) : Setter → Bool
  | @Setter.setValue σ v =>
    match k with
    | .value τ _ s => if h : σ = τ then s.reports τ.eqv (h ▸ v) dirty else true
    | _ => true
  | @Setter.definition σ a =>
    match k with
    | .value τ d _ => if h : σ = τ then d.reports dirty (h ▸ a) else true
    | _ => true
  | _ => true

/-- The call reports the change it makes to the parameter; `dirty` says whether the dirty list names it already. -/
def Parameter.reports (p : Parameter) (dirty : Bool) : Setter → Bool
  | .label a => p.label.reports dirty a
  | .description a => p.description.reports dirty a
  | .setTags s => p.tags.reports (· == ·) s dirty
  | .setOrder v => p.order.reports (· == ·) v dirty
  | .setUserid s => p.userid.reports (· == ·) s dirty
  | .setReadonly b => p.readonly.reports (· == ·) b dirty
  | a => p.kind.reports dirty a

private theorem Kind.noted_apply {k : Kind} {a : Setter} {dirty : Bool} (h : k.reports dirty a = true)
    (o : OptionId) :
    Noted (k.observe o) ((k.apply a).1.observe o) (k.changed o) ((k.apply a).1.changed o)
      ((k.apply a).2 || dirty) := by
  rcases k with ⟨τ, d, s⟩ | _ | _ | _
  · cases a with
    | @setValue σ v =>
      by_cases hσ : σ = τ
      · subst hσ
        simp only [reports, dif_pos] at h
        simp only [apply, dif_pos, onPart]
        cases o <;> first | exact Noted.refl _ _ _ | exact (Slot.noted_set h).map _
      · simp only [apply, dif_neg hσ]
        exact Noted.refl _ _ _
    | clearValue => cases o <;> first | exact Noted.refl _ _ _ | exact (Slot.noted_clear _).map _
    | @definition σ a =>
      by_cases hσ : σ = τ
      · subst hσ
        simp only [reports, dif_pos] at h
        simp only [apply, dif_pos, onPart]
        cases o <;> first | exact Noted.refl _ _ _ | exact TypeDefinition.noted_apply h _
      · simp only [apply, dif_neg hσ]
        exact Noted.refl _ _ _
    | _ => exact Noted.refl _ _ _
  all_goals cases a <;> exact Noted.refl _ _ _

/-- A call that reports notes its change at every option of the parameter. -/
theorem Parameter.noted_apply {p : Parameter} {a : Setter} {dirty : Bool} (h : p.reports dirty a = true)
    (o : OptionId) :
    Noted (p.observe o) ((p.apply a).1.observe o) (p.changed o) ((p.apply a).1.changed o)
      ((p.apply a).2 || dirty) := by
  cases a with
  | label a | description a => cases o <;> first | exact Noted.refl _ _ _ | exact (Text.noted_apply h).map _
  | setTags v | setOrder v | setUserid v | setReadonly v =>
    cases o <;> first | exact Noted.refl _ _ _ | exact (Slot.noted_set h).map _
  | clearTags | clearOrder | clearUserid | clearReadonly =>
    cases o <;> first | exact Noted.refl _ _ _ | exact (Slot.noted_clear _).map _
  | setUserdata v => cases o <;> first | exact Noted.refl _ _ _ | exact (Block.noted_set v _).map _
  | clearUserdata => cases o <;> first | exact Noted.refl _ _ _ | exact (Block.noted_clear _).map _
  | setValue v =>
    have hk := Kind.noted_apply (k := p.kind) (a := .setValue v) h
    cases o <;> first | exact Noted.refl _ _ _ | exact hk _
  | clearValue =>
    have hk := Kind.noted_apply (show p.kind.reports dirty .clearValue = true from h)
    cases o <;> first | exact Noted.refl _ _ _ | exact hk _
  | definition a =>
    have hk := Kind.noted_apply (k := p.kind) (a := .definition a) h
    cases o <;> first | exact Noted.refl _ _ _ | exact hk _
  | bang =>
    have hk := Kind.noted_apply (show p.kind.reports dirty .bang = true from h)
    cases o <;> first | exact Noted.refl _ _ _ | exact hk _

end RabbitControl
