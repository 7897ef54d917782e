import RabbitControl.Parameter

/-!
# Change flags and the two kinds of writes

* an update write (`all = false`) carries every option whose change flag is up and takes all change flags down;
* a full write (`all = true`) takes a change flag down exactly when the option is absent, and the short form of a
  value parameter takes its value flag down (`changed_write_full`);
* so a full write leaves a parameter alone exactly when no option is both absent and changed and the short form is
  not taken (`write_full_frame`).
-/

namespace RabbitControl

open Lib

/-! ### Single options -/

namespace Slot

variable {α : Type} {opt : OptionId} {enc : α → Bytes} {cleared : Bytes}

@[simp] theorem write_full (s : Slot α) :
    (s.write opt enc cleared true).2 = { s with changed := s.changed && s.has } := by
  simp [write, writeOption_full_changed]

@[simp] theorem write_update (s : Slot α) : (s.write opt enc cleared false).2 = { s with changed := false } := by
  simp [write]

@[simp] theorem get?_write (all : Bool) (s : Slot α) : (s.write opt enc cleared all).2.get? = s.get? := rfl

theorem mem_write {s : Slot α} (h : s.changed = true) :
    opt ∈ (s.write opt enc cleared false).1.map Field.opt := by
  simpa [write, h] using writeOption_mem

theorem changed_and_has {s : Slot α} (h : s.changed = true → s.has = true) :
    { s with changed := s.changed && s.has } = s := by
  obtain ⟨has, content, changed⟩ := s
  cases changed <;> simp_all

end Slot

namespace Block

variable {α : Type} {opt : OptionId} {enc : List α → Bytes} {cleared : Bytes}

@[simp] theorem write_full (b : Block α) :
    (b.write opt enc cleared true).2 = { b with changed := b.changed && b.has } := by
  simp [write, writeOption_full_changed]

@[simp] theorem write_update (b : Block α) : (b.write opt enc cleared false).2 = { b with changed := false } := by
  simp [write]

@[simp] theorem get?_write (all : Bool) (b : Block α) : (b.write opt enc cleared all).2.get? = b.get? := rfl

theorem mem_write {b : Block α} (h : b.changed = true) :
    opt ∈ (b.write opt enc cleared false).1.map Field.opt := by
  simpa [write, h] using writeOption_mem

theorem changed_and_has {b : Block α} (h : b.changed = true → b.has = true) :
    { b with changed := b.changed && b.has } = b := by
  obtain ⟨content, changed⟩ := b
  cases changed <;> simp_all

end Block

namespace Text

variable {opt : OptionId} {enc : Bytes → Bytes}

@[simp] theorem isSome_get? (t : Text) : t.get?.isSome = t.present := by
  cases h : t.present <;> simp [get?, h]

@[simp] theorem write_full (t : Text) :
    (t.write opt enc true).2 = { t with changed := t.changed && t.present } := by
  simp [write, writeOption_full_changed]

@[simp] theorem write_update (t : Text) : (t.write opt enc false).2 = { t with changed := false } := by
  simp [write]

@[simp] theorem get?_write (all : Bool) (t : Text) : (t.write opt enc all).2.get? = t.get? := rfl

theorem mem_write {t : Text} (h : t.changed = true) : opt ∈ (t.write opt enc false).1.map Field.opt := by
  simpa [write, h] using writeOption_mem

theorem changed_and_present {t : Text} (h : t.changed = true → t.present = true) :
    { t with changed := t.changed && t.present } = t := by
  obtain ⟨has, content, languages, changed⟩ := t
  cases changed <;> simp_all [present]

end Text

/-! ### Type definitions -/

section Definition

variable {t : NumberType} {τ : ValueType}

private theorem NumberDefinition.changed_write_full (d : NumberDefinition t) (o : NumberOption) :
    (d.write true).2.changed o = (d.changed o && (d.observe o).isSome) := by
  cases o <;> simp [write, changed, observe]

/-- A full write of a definition takes down the change flags of the absent options. -/
theorem TypeDefinition.changed_write_full (d : TypeDefinition τ) (o : OptionId) :
    (d.write true).2.changed o = (d.changed o && (d.observe o).isSome) := by
  cases τ with
  | number t =>
    cases o with
    | number o => exact NumberDefinition.changed_write_full d o
    | _ => rfl
  | range t =>
    cases o with
    | number o => exact NumberDefinition.changed_write_full d.element o
    | default => simp [write, changed, observe, RangeDefinition.write, TypeDefinition.defaultValue]
    | _ => rfl
  | _ =>
    cases o <;> simp [write, changed, observe, DefaultDefinition.write, StringDefinition.write,
      EnumDefinition.write, UriDefinition.write, CustomDefinition.write, TypeDefinition.defaultValue]

private theorem NumberDefinition.write_full_eq {d : NumberDefinition t}
    (h : ∀ o, d.changed o = true → (d.observe o).isSome) : (d.write true).2 = d := by
  have h1 := h .default
  have h2 := h .minimum
  have h3 := h .maximum
  have h4 := h .multipleof
  have h5 := h .scale
  have h6 := h .unit
  simp only [changed, observe, Option.isSome_map, Slot.isSome_get?] at h1 h2 h3 h4 h5 h6
  simp only [write, Slot.write_full]
  rw [Slot.changed_and_has h1, Slot.changed_and_has h2, Slot.changed_and_has h3, Slot.changed_and_has h4,
    Slot.changed_and_has h5, Slot.changed_and_has h6]

private theorem DefaultDefinition.write_full_eq {α : Type} {enc : α → Bytes} {d : DefaultDefinition α}
    (h : d.defaultValue.changed = true → d.defaultValue.has = true) : (d.write enc true).2 = d := by
  simp only [write, Slot.write_full]
  rw [Slot.changed_and_has h]

/-- A full write leaves a definition alone if every changed option is present. -/
theorem TypeDefinition.write_full_eq {d : TypeDefinition τ}
    (h : ∀ o, d.changed o = true → (d.observe o).isSome) : (d.write true).2 = d := by
  cases τ with
  | number t => exact NumberDefinition.write_full_eq fun o => h (.number o)
  | boolean | rgb | rgba | ipv4 | ipv6 =>
    have h1 := h .default
    simp only [changed, observe, Option.isSome_map, Slot.isSome_get?] at h1
    exact DefaultDefinition.write_full_eq h1
  | string =>
    have h1 := h .default
    have h2 := h .regex
    simp only [changed, observe, Option.isSome_map, Slot.isSome_get?, TypeDefinition.defaultValue] at h1 h2
    simp only [write, StringDefinition.write, Slot.write_full]
    rw [Slot.changed_and_has h1, Slot.changed_and_has h2]
  | enum =>
    have h1 := h .default
    have h2 := h .entries
    have h3 := h .multiselect
    simp only [changed, observe, Option.isSome_map, Slot.isSome_get?, Block.isSome_get?,
      TypeDefinition.defaultValue] at h1 h2 h3
    simp only [write, EnumDefinition.write, Slot.write_full, Block.write_full]
    rw [Slot.changed_and_has h1, Block.changed_and_has h2, Slot.changed_and_has h3]
  | uri =>
    have h1 := h .default
    have h2 := h .filter
    have h3 := h .schema
    simp only [changed, observe, Option.isSome_map, Slot.isSome_get?, Block.isSome_get?,
      TypeDefinition.defaultValue] at h1 h2 h3
    simp only [write, UriDefinition.write, Slot.write_full, Block.write_full]
    rw [Slot.changed_and_has h1, Slot.changed_and_has h2, Block.changed_and_has h3]
  | range t =>
    have h1 := h .default
    simp only [changed, observe, Option.isSome_map, Slot.isSome_get?, TypeDefinition.defaultValue] at h1
    have h2 : (d.element.write true).2 = d.element := NumberDefinition.write_full_eq fun o => h (.number o)
    simp only [write, RangeDefinition.write, Slot.write_full]
    rw [h2, Slot.changed_and_has h1]
  | custom n =>
    have h1 := h .default
    have h2 := h .uuid
    have h3 := h .config
    simp only [changed, observe, Option.isSome_map, Slot.isSome_get?, Block.isSome_get?,
      TypeDefinition.defaultValue] at h1 h2 h3
    simp only [write, CustomDefinition.write, Slot.write_full, Block.write_full]
    rw [Slot.changed_and_has h1, Slot.changed_and_has h2, Block.changed_and_has h3]

private theorem NumberDefinition.changed_write_update (d : NumberDefinition t) (o : NumberOption) :
    (d.write false).2.changed o = false := by
  cases o <;> simp [write, changed]

/-- An update write takes every change flag of a definition down. -/
theorem TypeDefinition.changed_write_update (d : TypeDefinition τ) (o : OptionId) :
    (d.write false).2.changed o = false := by
  cases τ with
  | number t =>
    cases o with
    | number o => exact NumberDefinition.changed_write_update d o
    | _ => rfl
  | range t =>
    cases o with
    | number o => exact NumberDefinition.changed_write_update d.element o
    | default => simp [write, changed, RangeDefinition.write, TypeDefinition.defaultValue]
    | _ => rfl
  | _ =>
    cases o <;> simp [write, changed, DefaultDefinition.write, StringDefinition.write, EnumDefinition.write,
      UriDefinition.write, CustomDefinition.write, TypeDefinition.defaultValue]

/-- No write changes what is observed of a definition. -/
theorem TypeDefinition.observe_write (all : Bool) (d : TypeDefinition τ) (o : OptionId) :
    (d.write all).2.observe o = d.observe o := by
  cases τ with
  | number t =>
    cases o with
    | number o => cases o <;> rfl
    | _ => rfl
  | range t =>
    cases o with
    | number o => cases o <;> rfl
    | _ => rfl
  | _ => cases o <;> rfl

private theorem NumberDefinition.mem_write {d : NumberDefinition t} {o : NumberOption} (h : d.changed o = true) :
    .number o ∈ (d.write false).1.map Field.opt := by
  simp only [write, List.map_append, List.mem_append]
  cases o <;> simp only [changed] at h <;> simp only [Slot.mem_write h, true_or, or_true]

/-- An update write of a definition carries every changed option. -/
theorem TypeDefinition.mem_options {d : TypeDefinition τ} {o : OptionId} (h : d.changed o = true) :
    o ∈ (d.write false).1.options := by
  cases τ with
  | number t =>
    cases o with
    | number o => simpa [write, DefinitionBody.options] using NumberDefinition.mem_write h
    | _ => simp [changed] at h
  | range t =>
    cases o with
    | number o =>
      have hm := NumberDefinition.mem_write (d := d.element) h
      simp only [write, RangeDefinition.write, DefinitionBody.options, Option.map_some, Option.getD_some,
        List.mem_append]
      exact Or.inl hm
    | default =>
      simp only [changed, TypeDefinition.defaultValue] at h
      simp only [write, RangeDefinition.write, DefinitionBody.options, List.mem_append]
      exact Or.inr (Slot.mem_write h)
    | _ => simp [changed] at h
  | _ =>
    cases o <;> simp only [changed, TypeDefinition.defaultValue, Bool.false_eq_true] at h <;>
      simp only [write, DefaultDefinition.write, StringDefinition.write, EnumDefinition.write, UriDefinition.write,
        CustomDefinition.write, DefinitionBody.options, Option.map_none, Option.getD_none, List.map_nil,
        List.nil_append, List.map_append, List.mem_append, Slot.mem_write, Block.mem_write, h, true_or, or_true]

theorem TypeDefinition.anyOptionChanged_of_changed {d : TypeDefinition τ} {o : OptionId}
    (h : d.changed o = true) : d.anyOptionChanged = true := by
  cases τ with
  | number t =>
    cases o with
    | number o => cases o <;> simp_all [changed, anyOptionChanged, NumberDefinition.changed,
        NumberDefinition.anyOptionChanged]
    | _ => simp [changed] at h
  | range t =>
    cases o with
    | number o => cases o <;> simp_all [changed, anyOptionChanged, NumberDefinition.changed,
        NumberDefinition.anyOptionChanged]
    | default => simp_all [changed, anyOptionChanged, TypeDefinition.defaultValue]
    | _ => simp [changed] at h
  | _ => cases o <;> simp_all [changed, anyOptionChanged, TypeDefinition.defaultValue]

private theorem NumberDefinition.anyOptionChanged_eq_false {d : NumberDefinition t} (h : ∀ o, d.changed o = false) :
    d.anyOptionChanged = false := by
  simp only [anyOptionChanged, Bool.or_eq_false_iff]
  exact ⟨⟨⟨⟨⟨h .default, h .minimum⟩, h .maximum⟩, h .multipleof⟩, h .scale⟩, h .unit⟩

theorem TypeDefinition.anyOptionChanged_eq_false {d : TypeDefinition τ} (h : ∀ o, d.changed o = false) :
    d.anyOptionChanged = false := by
  cases τ with
  | number t => exact NumberDefinition.anyOptionChanged_eq_false fun o => h (.number o)
  | range t =>
    rw [anyOptionChanged, NumberDefinition.anyOptionChanged_eq_false fun o => h (.number o), Bool.false_or]
    exact h .default
  | string => simp only [anyOptionChanged, Bool.or_eq_false_iff]; exact ⟨h .default, h .regex⟩
  | enum => simp only [anyOptionChanged, Bool.or_eq_false_iff]; exact ⟨⟨h .default, h .entries⟩, h .multiselect⟩
  | uri => simp only [anyOptionChanged, Bool.or_eq_false_iff]; exact ⟨⟨h .default, h .filter⟩, h .schema⟩
  | custom n => simp only [anyOptionChanged, Bool.or_eq_false_iff]; exact ⟨⟨h .default, h .uuid⟩, h .config⟩
  | _ => exact h .default

end Definition

/-! ### Parameters -/

private theorem Kind.changed_value {τ : ValueType} {d : TypeDefinition τ} {s : Slot τ.Val} {o : OptionId}
    (h : o ≠ .value) : (Kind.value τ d s).changed o = d.changed o := by
  cases o <;> first | rfl | exact absurd rfl h

private theorem Kind.observe_value {τ : ValueType} {d : TypeDefinition τ} {s : Slot τ.Val} {o : OptionId}
    (h : o ≠ .value) : (Kind.value τ d s).observe o = d.observe o := by
  cases o <;> first | rfl | exact absurd rfl h

private theorem Kind.changed_write_full (k : Kind) (o : OptionId) :
    (k.write true).2.changed o = (k.changed o && (k.observe o).isSome) := by
  cases k with
  | value τ d s =>
    cases o with
    | value => simp [write, changed, observe]
    | _ => exact TypeDefinition.changed_write_full d _
  | _ => cases o <;> rfl

private theorem Kind.write_full_eq {k : Kind} (h : ∀ o, k.changed o = true → (k.observe o).isSome) :
    (k.write true).2 = k := by
  cases k with
  | value τ d s =>
    have hs := h .value
    simp only [changed, observe, Option.isSome_map, Slot.isSome_get?] at hs
    have hd : (d.write true).2 = d := by
      refine TypeDefinition.write_full_eq fun o ho => ?_
      by_cases hv : o = .value
      · subst hv; cases τ <;> simp [TypeDefinition.changed] at ho
      · rw [← Kind.observe_value (s := s) hv]
        exact h o (by rw [Kind.changed_value hv, ho])
    simp only [write, Slot.write_full]
    rw [hd, Slot.changed_and_has hs]
  | _ => rfl

private theorem Kind.changed_write_update (k : Kind) (o : OptionId) : (k.write false).2.changed o = false := by
  cases k with
  | value τ d s =>
    cases o with
    | value => simp [write, changed]
    | _ => exact TypeDefinition.changed_write_update d _
  | _ => cases o <;> rfl

private theorem Kind.observe_write (all : Bool) (k : Kind) (o : OptionId) :
    (k.write all).2.observe o = k.observe o := by
  cases k with
  | value τ d s =>
    cases o with
    | value => rfl
    | _ => exact TypeDefinition.observe_write all d _
  | _ => rfl

private theorem Kind.mem_write {k : Kind} {o : OptionId} (h : k.changed o = true) :
    o ∈ (k.write false).1.1.options ∨ o ∈ (k.write false).1.2.map Field.opt := by
  cases k with
  | value τ d s =>
    cases o with
    | value => exact Or.inr (Slot.mem_write h)
    | _ => exact Or.inl (TypeDefinition.mem_options h)
  | _ => simp [changed] at h

namespace Parameter

variable {idOf : Ref → Id} {p : Parameter}

/-- The full form takes down the change flags of the absent options. -/
theorem changed_writeFull_true (o : OptionId) :
    (p.writeFull idOf true).2.changed o = (p.changed o && (p.observe o).isSome) := by
  cases o <;> simp [writeFull, writeOptions, changed, observe, writeOption_full_changed, Kind.changed_write_full]

/-- The options whose change flag a kind can hold are its own. -/
private theorem changed_of_kind {o : OptionId} (h : p.kind.changed o = true) :
    p.changed o = true ∧ p.observe o = p.kind.observe o := by
  cases o with
  | label | description | tags | order | parentId | userdata | userid | readonly =>
    rcases hp : p.kind with ⟨τ, d, s⟩ | _ | _ | _ <;> rw [hp] at h
    · cases τ <;> simp [Kind.changed, TypeDefinition.changed] at h
    all_goals simp [Kind.changed] at h
  | _ => exact ⟨h, rfl⟩

theorem writeFull_true_eq (h : ∀ o, p.changed o = true → (p.observe o).isSome) :
    (p.writeFull idOf true).2 = p := by
  have hk : (p.kind.write true).2 = p.kind := by
    refine Kind.write_full_eq fun o ho => ?_
    obtain ⟨hc, hobs⟩ := changed_of_kind ho
    rw [← hobs]
    exact h o hc
  have h1 := h .label
  have h2 := h .description
  have h3 := h .tags
  have h4 := h .order
  have h5 := h .parentId
  have h6 := h .userdata
  have h7 := h .userid
  have h8 := h .readonly
  simp only [changed, observe, Option.isSome_map, Slot.isSome_get?, Block.isSome_get?, Text.isSome_get?]
    at h1 h2 h3 h4 h5 h6 h7 h8
  have h5' : (p.parentChanged && p.parent.isSome) = p.parentChanged := by
    cases hc : p.parentChanged <;> simp_all
  simp only [writeFull, writeOptions, Slot.write_full, Block.write_full, Text.write_full, writeOption_full_changed]
  rw [hk, Text.changed_and_present h1, Text.changed_and_present h2, Slot.changed_and_has h3,
    Slot.changed_and_has h4, h5', Block.changed_and_has h6, Slot.changed_and_has h7, Slot.changed_and_has h8]

theorem write_of_not_onlyValueChanged (all : Bool) (h : p.onlyValueChanged = false) :
    p.write idOf all = p.writeFull idOf all := by
  rcases hk : p.kind with ⟨τ, d, s⟩ | _ | _ | _ <;> simp [write, hk, h]

/-- The short form is taken with the value flag up, and leaves no change flag. -/
theorem write_of_onlyValueChanged (idOf : Ref → Id) (all : Bool) (h : p.onlyValueChanged = true) :
    ∃ τ d s, p.kind = .value τ d s ∧ s.changed = true ∧ p.write idOf all =
      (.short p.parameterId τ.mandatory (writeValue τ s.content),
        { p with kind := .value τ d { s with changed := false } }) := by
  rcases hk : p.kind with ⟨τ, d, s⟩ | _ | _ | _
  · refine ⟨τ, d, s, rfl, ?_, by simp [write, hk, h]⟩
    simp only [onlyValueChanged, hk, Bool.and_eq_true] at h
    exact h.2
  all_goals simp [onlyValueChanged, hk] at h

/-- If only the value has changed, no other change flag is up. -/
theorem changed_eq_of_onlyValueChanged (h : p.onlyValueChanged = true) {o : OptionId} (ho : p.changed o = true) :
    o = .value := by
  rcases hk : p.kind with ⟨τ, d, s⟩ | _ | _ | _
  · simp only [onlyValueChanged, hk, Bool.and_eq_true, Bool.not_eq_true'] at h
    obtain ⟨⟨hp, hd⟩, -⟩ := h
    simp only [anyOptionChanged, Bool.or_eq_false_iff] at hp
    cases o with
    | value => rfl
    | label | description | tags | order | parentId | userdata | userid | readonly => simp_all [changed]
    | _ =>
      simp only [changed, hk, Kind.changed] at ho
      rw [TypeDefinition.anyOptionChanged_of_changed ho] at hd
      exact absurd hd (by decide)
  all_goals simp [onlyValueChanged, hk] at h

/-- Only the value has changed: its change flag is the only one that is up. -/
theorem onlyValueChanged_iff :
    p.onlyValueChanged = true ↔ p.changed .value = true ∧ ∀ o, p.changed o = true → o = .value := by
  constructor
  · intro h
    obtain ⟨τ, d, s, hk, hs, -⟩ := write_of_onlyValueChanged (fun _ => 0) true h
    exact ⟨by simpa [changed, Kind.changed, hk] using hs, fun o => changed_eq_of_onlyValueChanged h⟩
  · rintro ⟨hv, hall⟩
    have hnone : ∀ o, o ≠ .value → p.changed o = false := fun o ho => Bool.eq_false_iff.mpr fun hc => ho (hall o hc)
    rcases hk : p.kind with ⟨τ, d, s⟩ | _ | _ | _
    · have hp : p.anyOptionChanged = false := by
        simp only [anyOptionChanged, Bool.or_eq_false_iff]
        exact ⟨⟨⟨⟨⟨⟨⟨hnone .label (by decide), hnone .description (by decide)⟩, hnone .tags (by decide)⟩,
          hnone .order (by decide)⟩, hnone .parentId (by decide)⟩, hnone .userdata (by decide)⟩,
          hnone .userid (by decide)⟩, hnone .readonly (by decide)⟩
      have hd : d.anyOptionChanged = false := by
        refine TypeDefinition.anyOptionChanged_eq_false fun o => ?_
        by_cases ho : o = .value
        · subst ho; cases τ <;> rfl
        · rw [← Kind.changed_value (s := s) ho, ← hk]
          exact Bool.eq_false_iff.mpr fun hc => ho (hall o (changed_of_kind hc).1)
      simpa [onlyValueChanged, hk, hp, hd, changed, Kind.changed] using hv
    all_goals simp [changed, Kind.changed, hk] at hv

/-- An update write takes every change flag down. -/
@[simp] theorem changed_write_update (o : OptionId) : (p.write idOf false).2.changed o = false := by
  by_cases h : p.onlyValueChanged = true
  · obtain ⟨τ, d, s, hk, -, hw⟩ := write_of_onlyValueChanged idOf false h
    rw [hw]
    by_cases ho : o = .value
    · subst ho; rfl
    · have hn : p.changed o = false := Bool.eq_false_iff.mpr fun hc => ho (changed_eq_of_onlyValueChanged h hc)
      cases o <;> simp_all [changed, Kind.changed]
  · rw [write_of_not_onlyValueChanged _ (by simpa using h)]
    cases o <;> simp [writeFull, writeOptions, changed, Kind.changed_write_update]

/-- No write changes what is observed. -/
@[simp] theorem observe_write (all : Bool) (o : OptionId) : (p.write idOf all).2.observe o = p.observe o := by
  by_cases h : p.onlyValueChanged = true
  · obtain ⟨τ, d, s, hk, -, hw⟩ := write_of_onlyValueChanged idOf all h
    rw [hw]
    cases o <;> simp [observe, hk, Kind.observe, Slot.get?]
  · rw [write_of_not_onlyValueChanged _ (by simpa using h)]
    cases o <;> simp [writeFull, writeOptions, observe, Kind.observe_write]

/-- An update write carries every changed option. -/
theorem mem_options_write {o : OptionId} (h : p.changed o = true) : o ∈ (p.write idOf false).1.options := by
  by_cases hv : p.onlyValueChanged = true
  · obtain ⟨τ, d, s, -, -, hw⟩ := write_of_onlyValueChanged idOf false hv
    rw [hw, changed_eq_of_onlyValueChanged hv h]
    exact List.mem_singleton.mpr rfl
  · rw [write_of_not_onlyValueChanged _ (by simpa using hv)]
    simp only [writeFull, Body.options, writeOptions, List.map_append, List.mem_append]
    cases o with
    | label | description => simp only [changed] at h; simp only [Text.mem_write, h, true_or, or_true]
    | tags | order | userid | readonly => simp only [changed] at h; simp only [Slot.mem_write, h, true_or, or_true]
    | userdata => simp only [changed] at h; simp only [Block.mem_write, h, true_or, or_true]
    | parentId => simp only [changed] at h; simp only [h, writeOption_mem, true_or, or_true]
    | _ => rcases Kind.mem_write (k := p.kind) h with hm | hm <;> simp only [hm, true_or, or_true]

/-- The body is short exactly if only the value has changed, whatever the writer is asked for. -/
theorem isFull_write (all : Bool) : (p.write idOf all).1.isFull = !p.onlyValueChanged := by
  by_cases h : p.onlyValueChanged = true
  · obtain ⟨τ, d, s, -, -, hw⟩ := write_of_onlyValueChanged idOf all h
    rw [hw, h]; rfl
  · have h' : p.onlyValueChanged = false := by simpa using h
    rw [write_of_not_onlyValueChanged _ h', h']; rfl

theorem id_write (p : Parameter) (idOf : Ref → Id) (all : Bool) : (p.write idOf all).1.id = p.parameterId := by
  by_cases h : p.onlyValueChanged = true
  · obtain ⟨τ, d, s, -, -, hw⟩ := write_of_onlyValueChanged idOf all h
    rw [hw]; rfl
  · rw [write_of_not_onlyValueChanged _ (by simpa using h)]; rfl

/-! ### Full writes and pending changes -/

/-- A full write leaves every change flag, and with it the bytes of the next update write, exactly when the short
form is not due and no option is changed and absent at once. -/
theorem write_full_frame (idOf : Ref → Id) (p : Parameter) :
    ((∀ o, (p.write idOf true).2.changed o = p.changed o) ∧
      ((p.write idOf true).2.write idOf false).1.bytes = (p.write idOf false).1.bytes) ↔
    (p.onlyValueChanged = false ∧ ∀ o, p.changed o = true → (p.observe o).isSome) := by
  constructor
  · rintro ⟨hflags, -⟩
    by_cases h : p.onlyValueChanged = true
    · obtain ⟨τ, d, s, hk, hs, hw⟩ := write_of_onlyValueChanged idOf true h
      have hv := hflags .value
      rw [hw] at hv
      simp [changed, Kind.changed, hk, hs] at hv
    · have h' : p.onlyValueChanged = false := by simpa using h
      refine ⟨h', fun o ho => ?_⟩
      have hv := hflags o
      rw [write_of_not_onlyValueChanged _ h', changed_writeFull_true, ho] at hv
      simpa using hv
  · rintro ⟨h, hp⟩
    rw [write_of_not_onlyValueChanged _ h, writeFull_true_eq hp]
    exact ⟨fun _ => rfl, rfl⟩

/-- A boolean parameter whose new value is pending. -/
def pendingValue : Parameter :=
  ((Parameter.create {} 1 (.value .boolean)).apply (.setValue (τ := .boolean) true)).1

theorem pendingValue_not_kept :
    ¬((∀ o, (pendingValue.write (fun _ => 0) true).2.changed o = pendingValue.changed o) ∧
      ((pendingValue.write (fun _ => 0) true).2.write (fun _ => 0) false).1.bytes =
        (pendingValue.write (fun _ => 0) false).1.bytes) :=
  fun h => absurd (h.1 .value) (by decide)

end Parameter

end RabbitControl
