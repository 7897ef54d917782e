import RabbitControl.ChangeFlags
import RabbitControl.Lib.Run
import RabbitControl.UpdateSpec

/-!
# Members that the constructors leave unset

Two runs of the same calls in which the unset members start out differently.  `Marks` says of the readonly flag, the
value and the default value of a parameter which members do not depend on memory any more.  `outputs_agree`: if no call
reads a member that is not marked, both runs write the same bytes, and parameters that are marked throughout look the
same in the end.
-/

namespace RabbitControl

open Lib

/-! ### Marks -/

/-- The members of an option that do not depend on what memory held. -/
structure Mark where
  has : Bool
  content : Bool
  changed : Bool
  deriving DecidableEq

namespace Mark

variable {α : Type}

def known : Mark := ⟨true, true, true⟩

/-- A setter leaves a known content, but the change flag depends on the content before. -/
def set (eqv : α → α → Bool) (v : α) (s : Slot α) (k : Mark) : Mark where
  has := true
  content := true
  changed := if k.content then k.changed || !eqv s.content v else k.changed && s.changed

def clear (k : Mark) : Mark := { k with has := true, changed := true }

def takeOver (eqv : α → α → Bool) (other s : Slot α) (k : Mark) : Mark := other.get?.elim k fun v => k.set eqv v s

/-- The writer of the option reads nothing unknown; `cleared` says that what it writes for a cleared option is known. -/
def writes (all cleared : Bool) (s : Slot α) (k : Mark) : Bool :=
  k.has && if s.has then all || k.changed else k.changed && (!s.changed || cleared)

@[simp] theorem set_known (eqv : α → α → Bool) (v : α) (s : Slot α) : known.set eqv v s = known := by
  simp [set, known]

@[simp] theorem clear_known : known.clear = known := rfl

end Mark

/-- Two states of an option that agree in the members that are known. -/
structure Slot.Alike {α : Type} (k : Mark) (s t : Slot α) : Prop where
  has : k.has = true → t.has = s.has
  content : k.content = true → t.content = s.content
  changed : k.changed = true → t.changed = s.changed
  /-- An option that is present has a known content. -/
  present : k.content = true ∨ k.has = true ∧ s.has = false

namespace Slot.Alike

variable {α : Type} {k l : Mark} {s t o u : Slot α} {eqv : α → α → Bool}

theorem refl (h : k.content = true ∨ k.has = true ∧ s.has = false) : Alike k s s :=
  ⟨fun _ => rfl, fun _ => rfl, fun _ => rfl, h⟩

theorem set (h : Alike k s t) (heqv : k.content = true ∨ ∀ a b, eqv a b = true → a = b) (v : α) :
    Alike (k.set eqv v s) (Slot.set eqv v s).1 (Slot.set eqv v t).1 := by
  have hhas : ∀ u : Slot α, (Slot.set eqv v u).1.has = true := by
    intro u
    unfold Slot.set
    split <;> rfl
  refine ⟨fun _ => by rw [hhas, hhas], fun _ => ?_, fun hc => ?_, Or.inl rfl⟩
  · by_cases hk : k.content = true
    · unfold Slot.set
      rw [h.content hk]
      split <;> rfl
    · -- whichever branch is taken, the content is the new one
      have hv : ∀ u : Slot α, (Slot.set eqv v u).1.content = v := by
        intro u
        unfold Slot.set
        split
        · next he => exact heqv.resolve_left hk _ _ he
        · rfl
      rw [hv, hv]
  · by_cases hk : k.content = true
    · simp only [Mark.set, hk, if_true, Bool.or_eq_true, Bool.not_eq_true'] at hc
      unfold Slot.set
      rw [h.content hk]
      split
      · next he => exact h.changed (hc.resolve_right (by rw [he]; decide))
      · rfl
    · simp only [Mark.set, if_neg hk, Bool.and_eq_true] at hc
      have ht : t.changed = true := (h.changed hc.1).trans hc.2
      have hup : ∀ u : Slot α, u.changed = true → (Slot.set eqv v u).1.changed = true := by
        intro u hu
        unfold Slot.set
        split
        · exact hu
        · rfl
      rw [hup s hc.2, hup t ht]

theorem clear (h : Alike k s t) : Alike k.clear s.clear.1 t.clear.1 :=
  ⟨fun _ => rfl, h.content, fun _ => rfl, Or.inr ⟨rfl, rfl⟩⟩

/-- The content of an option that is known to be there or not. -/
theorem get? (h : Alike k s t) (hk : k.has = true) : t.get? = s.get? := by
  unfold Slot.get?
  rw [h.has hk]
  split
  · next hs =>
    rcases h.present with hc | ⟨-, hn⟩
    · rw [h.content hc]
    · rw [hs] at hn
      simp at hn
  · rfl

theorem takeOver (h : Alike k s t) (heqv : k.content = true ∨ ∀ a b, eqv a b = true → a = b) (ho : Alike l o u)
    (hl : l.has = true) : Alike (k.takeOver eqv o s) (o.takeOver eqv s) (u.takeOver eqv t) := by
  unfold Mark.takeOver Slot.takeOver
  rw [ho.get? hl]
  cases o.get? with
  | none => exact h
  | some v => exact h.set heqv v

/-- A writer that reads known members only writes the same bytes, and leaves what is known as known as it was. -/
theorem write {all cleared : Bool} {c d : Bytes} (h : Alike k s t) (hw : k.writes all cleared s = true)
    (hc : cleared = true → d = c) (opt : OptionId) (enc : α → Bytes) :
    (t.write opt enc d all).1 = (s.write opt enc c all).1 ∧
      Alike k (s.write opt enc c all).2 (t.write opt enc d all).2 := by
  simp only [Mark.writes, Bool.and_eq_true] at hw
  obtain ⟨hk, hw⟩ := hw
  have hhas := h.has hk
  -- has flag and content stay
  suffices hmain : (t.write opt enc d all).1 = (s.write opt enc c all).1 ∧
      (k.changed = true → (t.write opt enc d all).2.changed = (s.write opt enc c all).2.changed) from
    ⟨hmain.1, fun _ => hhas, h.content, hmain.2, h.present⟩
  cases hs : s.has with
  | true =>
    rw [hs, if_pos rfl, Bool.or_eq_true] at hw
    have hcontent : t.content = s.content := h.content (h.present.resolve_right fun hn => by rw [hs] at hn; simp at hn)
    unfold Slot.write writeOption
    rw [hhas, hs, hcontent]
    cases all with
    | true => exact ⟨rfl, fun hch => by simpa using h.changed hch⟩
    | false =>
      rw [h.changed (hw.resolve_left (by decide))]
      exact ⟨rfl, fun _ => rfl⟩
  | false =>
    rw [hs, if_neg (by decide), Bool.and_eq_true, Bool.or_eq_true, Bool.not_eq_true'] at hw
    unfold Slot.write writeOption
    rw [hhas, hs, h.changed hw.1]
    cases hsc : s.changed with
    | true =>
      rw [hc (hw.2.resolve_left (by rw [hsc]; decide))]
      exact ⟨rfl, fun _ => rfl⟩
    | false => exact ⟨rfl, fun _ => rfl⟩

end Slot.Alike

/-! ### Type definitions -/

/-- The types whose values have no initialiser. -/
def ValueType.isAddress : ValueType → Bool
  | ipv4 | ipv6 => true
  | _ => false

theorem ValueType.eq_of_eqv {τ : ValueType} (h : τ.isAddress = true) (a b : τ.Val) (he : τ.eqv a b = true) : a = b := by
  cases τ <;> simp [isAddress] at h
  · exact beq_iff_eq.mp he
  · exact of_decide_eq_true he

namespace TypeDefinition

variable {τ : ValueType} {k : Mark} {d e : TypeDefinition τ}

/-- What is known of the default value after a setter. -/
def marks (d : TypeDefinition τ) (a : DefinitionSetter τ) (k : Mark) : Mark :=
  match a with
  | .setDefault v => k.set τ.eqv v d.defaultValue
  | .clearDefault => k.clear
  | _ => k

/-- Only the default value of an IP address starts out unset. -/
def Alike (k : Mark) (d e : TypeDefinition τ) : Prop :=
  k = .known ∧ e = d ∨ τ.isAddress = true ∧ k.has = true ∧ Slot.Alike k d.defaultValue e.defaultValue

theorem Alike.apply (h : Alike k d e) (a : DefinitionSetter τ) : Alike (d.marks a k) (d.apply a).1 (e.apply a).1 := by
  rcases h with ⟨rfl, rfl⟩ | ⟨hτ, hk, hs⟩
  · refine Or.inl ⟨?_, rfl⟩
    cases a <;> simp [marks]
  · refine Or.inr ⟨hτ, ?_⟩
    cases τ <;> simp only [ValueType.isAddress, Bool.false_eq_true] at hτ
    all_goals
      cases a with
      | setDefault v => exact ⟨rfl, hs.set (Or.inr (ValueType.eq_of_eqv rfl)) v⟩
      | clearDefault => exact ⟨rfl, hs.clear⟩

/-- The blank value that is written for a cleared default is not known. -/
private theorem write_default {α : Type} {all : Bool} {d e : DefaultDefinition α}
    (h : Slot.Alike k d.defaultValue e.defaultValue) (hw : k.writes all false d.defaultValue = true) (enc : α → Bytes) :
    (e.write enc all).1 = (d.write enc all).1 ∧
      Slot.Alike k (d.write enc all).2.defaultValue (e.write enc all).2.defaultValue :=
  h.write hw (fun hf => absurd hf Bool.false_ne_true) .default enc

theorem Alike.write {all : Bool} (h : Alike k d e) (hw : k.writes all (!τ.isAddress) d.defaultValue = true) :
    (e.write all).1 = (d.write all).1 ∧ Alike k (d.write all).2 (e.write all).2 := by
  rcases h with ⟨hk, rfl⟩ | ⟨hτ, hk, hs⟩
  · exact ⟨rfl, Or.inl ⟨hk, rfl⟩⟩
  · rw [hτ] at hw
    cases τ <;> simp only [ValueType.isAddress, Bool.false_eq_true] at hτ
    · obtain ⟨hbytes, halike⟩ := write_default hs hw fun v => encodeBE 4 v.toNat
      exact ⟨congrArg (DefinitionBody.mk [43] none) hbytes, Or.inr ⟨rfl, hk, halike⟩⟩
    · obtain ⟨hbytes, halike⟩ := write_default hs hw writeIPv6
      exact ⟨congrArg (DefinitionBody.mk [44] none) hbytes, Or.inr ⟨rfl, hk, halike⟩⟩

theorem Alike.anyOptionChanged (h : Alike k d e) (hk : k.changed = true) : e.anyOptionChanged = d.anyOptionChanged := by
  rcases h with ⟨-, rfl⟩ | ⟨hτ, -, hs⟩
  · rfl
  · cases τ <;> simp only [ValueType.isAddress, Bool.false_eq_true] at hτ
    all_goals exact hs.changed hk

/-- If the default value is known, nothing can be told apart. -/
theorem Alike.look (h : Alike k d e) (hk : k.has = true) (hc : k.changed = true) (o : OptionId) :
    e.observe o = d.observe o ∧ e.changed o = d.changed o := by
  rcases h with ⟨-, rfl⟩ | ⟨hτ, -, hs⟩
  · exact ⟨rfl, rfl⟩
  · have hget := hs.get? hk
    have hflag := hs.changed hc
    cases τ <;> simp only [ValueType.isAddress, Bool.false_eq_true] at hτ
    all_goals
      cases o
      case default => exact ⟨congrArg (Option.map _) hget, hflag⟩
      all_goals exact ⟨rfl, rfl⟩

end TypeDefinition

/-! ### Parameters -/

/-- What is known of a parameter; all other members are set by the constructors. -/
structure Marks where
  readonly : Mark
  value : Mark
  default : Mark
  deriving DecidableEq

namespace Marks

/-- A constructor sets of the readonly flag the content only, and no IP address. -/
def fresh : ParameterType → Marks
  | .value τ => ⟨⟨false, true, false⟩, ⟨true, !τ.isAddress, true⟩, ⟨true, !τ.isAddress, true⟩⟩
  | _ => ⟨⟨false, true, false⟩, .known, .known⟩

/-- All that can be observed is known. -/
def settled (k : Marks) : Bool :=
  k.readonly.has && k.readonly.changed && k.value.has && k.value.changed && k.default.has && k.default.changed

end Marks

namespace Kind

variable {k : Marks} {a b : Kind}

/-- What is known of the value and of the type definition after a setter. -/
def marks (κ : Kind) (a : Setter) (k : Marks) : Marks :=
  match κ, a with
  | .value τ _ s, @Setter.setValue σ v => if h : σ = τ then { k with value := k.value.set τ.eqv (h ▸ v) s } else k
  | .value _ _ _, .clearValue => { k with value := k.value.clear }
  | .value τ d _, @Setter.definition σ c => if h : σ = τ then { k with default := d.marks (h ▸ c) k.default } else k
  | _, _ => k

inductive Alike (k : Marks) : Kind → Kind → Prop
  | value {τ : ValueType} {d e : TypeDefinition τ} {s t : Slot τ.Val} (hd : d.Alike k.default e)
    (hs : Slot.Alike k.value s t) (hh : k.value.has = true) (hc : k.value.content = true ∨ τ.isAddress = true) :
    Alike k (.value τ d s) (.value τ e t)
  | bang : Alike k .bang .bang
  | group (c : Std.ExtTreeMap Int16 Ref) : Alike k (.group c) (.group c)
  | invalid : Alike k .invalid .invalid

theorem Alike.congr {l : Marks} (h : Alike k a b) (hv : l.value = k.value)
    (hd : l.default = k.default) : Alike l a b := by
  cases h with
  | value h1 h2 h3 h4 => exact .value (hd ▸ h1) (hv ▸ h2) (by rw [hv, h3]) (by rw [hv]; exact h4)
  | bang => exact .bang
  | group c => exact .group c
  | invalid => exact .invalid

@[simp] theorem readonly_marks (κ : Kind) (a : Setter) (k : Marks) : (κ.marks a k).readonly = k.readonly := by
  unfold marks
  split <;> first | rfl | (split <;> rfl)

theorem Alike.apply (h : Alike k a b) (c : Setter) : Alike (a.marks c k) (a.apply c).1 (b.apply c).1 := by
  cases h with
  | @value τ d e s t hd hs hh hc =>
    cases c with
    | @setValue σ v =>
      unfold marks Kind.apply
      dsimp only
      split
      · next h =>
        subst h
        exact .value hd (hs.set (hc.imp_right ValueType.eq_of_eqv) v) rfl (Or.inl rfl)
      · exact .value hd hs hh hc
    | clearValue => exact .value hd hs.clear rfl hc
    | @definition σ x =>
      unfold marks Kind.apply
      dsimp only
      split
      · next h =>
        subst h
        exact .value (hd.apply x) hs hh hc
      · exact .value hd hs hh hc
    | _ => exact .value hd hs hh hc
  | bang => cases c <;> exact .bang
  | group l => cases c <;> exact .group l
  | invalid => cases c <;> exact .invalid

/-- What is known of the value after an update. -/
def marksOver (other κ : Kind) (k : Marks) : Marks :=
  match other, κ with
  | .value σ _ v, .value τ _ s => if h : σ = τ then { k with value := k.value.takeOver τ.eqv (h ▸ v) s } else k
  | _, _ => k

theorem Alike.takeOver {l : Marks} {o u : Kind} (h : Alike k a b) (ho : Alike l o u) :
    Alike (o.marksOver a k) (o.takeOver a) (u.takeOver b) := by
  cases h with
  | @value τ d e s t hd hs hh hc =>
    cases ho with
    | @value σ d' e' s' t' hd' hs' hh' hc' =>
      unfold marksOver Kind.takeOver
      dsimp only
      split
      · next h =>
        subst h
        refine .value hd (hs.takeOver (hc.imp_right ValueType.eq_of_eqv) hs' hh') ?_ ?_
        · unfold Mark.takeOver
          cases s'.get? <;> first | exact hh | rfl
        · unfold Mark.takeOver
          cases s'.get? with
          | none => exact hc
          | some v => exact Or.inl rfl
      · exact .value hd hs hh hc
    | _ => exact .value hd hs hh hc
  | bang => cases ho <;> exact .bang
  | group c => cases ho <;> exact .group c
  | invalid => cases ho <;> exact .invalid

/-- What is known throughout looks the same. -/
theorem Alike.look (h : Alike k a b) (hk : k.settled = true) (o : OptionId) :
    b.observe o = a.observe o ∧ b.changed o = a.changed o := by
  simp only [Marks.settled, Bool.and_eq_true] at hk
  obtain ⟨⟨⟨-, hvc⟩, hdh⟩, hdc⟩ := hk
  cases h with
  | @value τ d e s t hd hs hh hc =>
    have hlook := hd.look hdh hdc o
    cases o
    case value => exact ⟨congrArg (Option.map (Content.value τ)) (hs.get? hh), hs.changed hvc⟩
    all_goals exact hlook
  | _ => exact ⟨rfl, rfl⟩

/-- The writers of type definition and value read nothing unknown. -/
def writes (k : Marks) (all : Bool) : Kind → Bool
  | .value τ d s => k.default.writes all (!τ.isAddress) d.defaultValue && k.value.writes all k.value.content s
  | _ => true

theorem Alike.write {all : Bool} (h : Alike k a b) (hw : a.writes k all = true) :
    (b.write all).1 = (a.write all).1 ∧ Alike k (a.write all).2 (b.write all).2 := by
  cases h with
  | @value τ d e s t hd hs hh hc =>
    simp only [writes, Bool.and_eq_true] at hw
    obtain ⟨hdbytes, hdalike⟩ := hd.write hw.1
    obtain ⟨hsbytes, hsalike⟩ := hs.write (c := writeValue τ s.content) (d := writeValue τ t.content) hw.2
      (fun hk => by rw [hs.content hk]) .value (writeValue τ)
    refine ⟨?_, .value hdalike hsalike hh hc⟩
    exact congrArg₂ Prod.mk hdbytes hsbytes
  | bang => exact ⟨rfl, .bang⟩
  | group c => exact ⟨rfl, .group c⟩
  | invalid => exact ⟨rfl, .invalid⟩

end Kind

namespace Parameter

variable {k l : Marks} {p q o u : Parameter}

/-- What is known after a setter. -/
def marks (p : Parameter) (a : Setter) (k : Marks) : Marks :=
  match a with
  | .setReadonly b => { k with readonly := k.readonly.set (· == ·) b p.readonly }
  | .clearReadonly => { k with readonly := k.readonly.clear }
  | a => p.kind.marks a k

/-- What is known after an update. -/
def marksOver (other p : Parameter) (k : Marks) : Marks :=
  { other.kind.marksOver p.kind k with readonly := k.readonly.takeOver (· == ·) other.readonly p.readonly }

/-- Two states of a parameter that agree in the members that are known. -/
structure Alike (k : Marks) (p q : Parameter) : Prop where
  rest : q = { p with readonly := q.readonly, kind := q.kind }
  parent : p.parent = none
  readonly : Slot.Alike k.readonly p.readonly q.readonly
  content : k.readonly.content = true
  kind : Kind.Alike k p.kind q.kind

theorem Alike.intro {r : Slot Bool} {κ : Kind} (hp : p.parent = none) (hr : Slot.Alike k.readonly p.readonly r)
    (hc : k.readonly.content = true) (hk : Kind.Alike k p.kind κ) : Alike k p { p with readonly := r, kind := κ } :=
  ⟨rfl, hp, hr, hc, hk⟩

theorem Alike.exists_eq (h : Alike k p q) : ∃ r κ, q = { p with readonly := r, kind := κ } ∧ p.parent = none ∧
    Slot.Alike k.readonly p.readonly r ∧ k.readonly.content = true ∧ Kind.Alike k p.kind κ :=
  ⟨q.readonly, q.kind, h.rest, h.parent, h.readonly, h.content, h.kind⟩

theorem alike_create (mem mem' : Memory) (id : Id) (type : ParameterType) :
    Alike (.fresh type) (create mem id type) (create mem' id type) := by
  have hslot : ∀ b c b' c' : Bool, Slot.Alike ⟨false, true, false⟩ (⟨b, false, c⟩ : Slot Bool) ⟨b', false, c'⟩ :=
    fun _ _ _ _ => ⟨fun h => absurd h Bool.false_ne_true, fun _ => rfl,
      fun h => absurd h Bool.false_ne_true, Or.inl rfl⟩
  have hvalue : ∀ (τ : ValueType) (m : Mark), m = ⟨true, !τ.isAddress, true⟩ →
      Slot.Alike m ({ content := τ.blank mem } : Slot τ.Val) { content := τ.blank mem' } := by
    rintro τ _ rfl
    refine ⟨fun _ => rfl, fun h => ?_, fun _ => rfl, Or.inr ⟨rfl, rfl⟩⟩
    cases τ <;> first | rfl | exact absurd h Bool.false_ne_true
  have hdefinition : ∀ (τ : ValueType) (m : Mark), m = ⟨true, !τ.isAddress, true⟩ →
      TypeDefinition.Alike m (.make mem τ) (.make mem' τ) := by
    intro τ m hm
    cases τ
    case ipv4 => exact Or.inr ⟨rfl, by rw [hm], hvalue .ipv4 m hm⟩
    case ipv6 => exact Or.inr ⟨rfl, by rw [hm], hvalue .ipv6 m hm⟩
    all_goals exact Or.inl ⟨hm, rfl⟩
  cases type with
  | value τ =>
    refine ⟨rfl, rfl, hslot .., rfl, .value (hdefinition τ _ rfl) (hvalue τ _ rfl) rfl ?_⟩
    show (!τ.isAddress) = true ∨ _
    cases τ.isAddress <;> simp
  | bang => exact ⟨rfl, rfl, hslot .., rfl, .bang⟩
  | group => exact ⟨rfl, rfl, hslot .., rfl, .group ∅⟩
  | invalid => exact ⟨rfl, rfl, hslot .., rfl, .invalid⟩

theorem Alike.apply (h : Alike k p q) (a : Setter) : Alike (p.marks a k) (p.apply a).1 (q.apply a).1 := by
  obtain ⟨r, κ, rfl, hp, hr, hc, hk⟩ := h.exists_eq
  have hka := hk.apply a
  have hro : (p.kind.marks a k).readonly = k.readonly := Kind.readonly_marks ..
  cases a with
  | setReadonly b => exact ⟨rfl, hp, hr.set (Or.inl hc) b, rfl, hk.congr rfl rfl⟩
  | clearReadonly => exact ⟨rfl, hp, hr.clear, hc, hk.congr rfl rfl⟩
  | _ => exact ⟨rfl, hp, hro.symm ▸ hr, (congrArg Mark.content hro).trans hc, hka⟩

theorem Alike.takeOver (h : Alike k p q) (ho : Alike l o u) (hl : l.readonly.has = true) :
    Alike (o.marksOver p k) (o.takeOver p) (u.takeOver q) := by
  obtain ⟨r, κ, rfl, hp, hr, hc, hk⟩ := h.exists_eq
  obtain ⟨r', κ', rfl, -, hr', -, hk'⟩ := ho.exists_eq
  refine ⟨rfl, hp, hr.takeOver (Or.inl hc) hr' hl, ?_, (hk.takeOver hk').congr rfl rfl⟩
  show (Mark.takeOver _ o.readonly p.readonly k.readonly).content = true
  unfold Mark.takeOver
  cases o.readonly.get? with
  | none => exact hc
  | some b => rfl

/-! ### Writing -/

/-- What is known tells whether the short form is taken: all flags are known, or one of those that are rules it out. -/
def formKnown (k : Marks) (p : Parameter) : Bool :=
  match p.kind with
  | .value _ d s =>
    k.readonly.changed && k.default.changed && k.value.changed ||
      ({ p with readonly := { p.readonly with changed := p.readonly.changed && k.readonly.changed } }).anyOptionChanged ||
      d.anyOptionChanged && k.default.changed || !s.changed && k.value.changed
  | _ => true

/-- The writer reads nothing unknown. -/
def writes (k : Marks) (all : Bool) (p : Parameter) : Bool :=
  p.formKnown k &&
    if p.onlyValueChanged then k.value.content
    else k.readonly.writes all true p.readonly && p.kind.writes k all

theorem Alike.onlyValueChanged (h : Alike k p q) (hf : p.formKnown k = true) :
    q.onlyValueChanged = p.onlyValueChanged := by
  obtain ⟨r, κ, rfl, hp, hr, hc, hk⟩ := h.exists_eq
  unfold Parameter.onlyValueChanged
  dsimp only
  generalize hpk : p.kind = π at hk
  cases hk with
  | @value τ d e s t hd hs hh hcv =>
    simp only [formKnown, hpk, Bool.or_eq_true, Bool.and_eq_true, Bool.not_eq_true'] at hf
    dsimp only
    rcases hf with ((⟨⟨hkr, hkd⟩, hkv⟩ | hany) | ⟨hdany, hkd⟩) | ⟨hsn, hkv⟩
    · rw [hd.anyOptionChanged hkd, hs.changed hkv]
      unfold anyOptionChanged
      rw [hr.changed hkr]
    · -- an option that is known to have changed
      have hboth : p.anyOptionChanged = true ∧
          ({ p with readonly := r, kind := .value τ e t } : Parameter).anyOptionChanged = true := by
        simp only [anyOptionChanged, Bool.or_eq_true, Bool.and_eq_true] at hany ⊢
        rcases hany with hrest | ⟨hpc, hkr⟩
        · exact ⟨Or.inl hrest, Or.inl hrest⟩
        · exact ⟨Or.inr hpc, Or.inr ((hr.changed hkr).trans hpc)⟩
      rw [hboth.1, hboth.2]
      rfl
    · rw [hd.anyOptionChanged hkd, hdany]
      simp
    · rw [hs.changed hkv, hsn]
      simp
  | _ => rfl

theorem Alike.writeFull {all : Bool} (h : Alike k p q) (idOf idOf' : Ref → Id)
    (hw : k.readonly.writes all true p.readonly = true) (hkw : p.kind.writes k all = true) :
    (q.writeFull idOf' all).1 = (p.writeFull idOf all).1 ∧ Alike k (p.writeFull idOf all).2 (q.writeFull idOf' all).2 := by
  obtain ⟨r, κ, rfl, hp, hr, hc, hk⟩ := h.exists_eq
  obtain ⟨hkbytes, hkalike⟩ := hk.write hkw
  obtain ⟨hrbytes, hralike⟩ := hr.write hw (fun _ => rfl) .readonly writeBool
  unfold Parameter.writeFull writeOptions
  dsimp only
  rw [hp, hkbytes, hrbytes]
  exact ⟨rfl, rfl, rfl, hralike, hc, hkalike⟩

/-- A write that reads known members only writes the same bytes, and leaves what is known as known as it was. -/
theorem Alike.write {all : Bool} (h : Alike k p q) (idOf idOf' : Ref → Id) (hw : p.writes k all = true) :
    (q.write idOf' all).1 = (p.write idOf all).1 ∧ Alike k (p.write idOf all).2 (q.write idOf' all).2 := by
  simp only [writes, Bool.and_eq_true] at hw
  obtain ⟨hf, hw⟩ := hw
  have hv := h.onlyValueChanged hf
  cases hpv : p.onlyValueChanged with
  | true =>
    rw [hpv, if_pos rfl] at hw
    obtain ⟨τ, d, s, hpk, -, hp⟩ := write_of_onlyValueChanged idOf all hpv
    obtain ⟨σ, e, t, hqk, -, hq⟩ := write_of_onlyValueChanged idOf' all (hv.trans hpv)
    rw [hp, hq]
    obtain ⟨r, κ, rfl, hpar, hr, hc, hk⟩ := h.exists_eq
    obtain rfl : κ = .value σ e t := hqk
    rw [hpk] at hk
    cases hk with
    | value hd hs hh hcv =>
      refine ⟨by rw [hs.content hw], rfl, hpar, hr, hc, .value hd ?_ hh hcv⟩
      exact ⟨hs.has, hs.content, fun _ => rfl, hs.present⟩
  | false =>
    rw [hpv, if_neg (by decide), Bool.and_eq_true] at hw
    rw [write_of_not_onlyValueChanged all hpv, write_of_not_onlyValueChanged all (hv.trans hpv)]
    exact h.writeFull idOf idOf' hw.1 hw.2

/-- What is known throughout looks the same. -/
theorem Alike.look (h : Alike k p q) (hk : k.settled = true) (o : OptionId) :
    q.observe o = p.observe o ∧ q.changed o = p.changed o := by
  have hkind := h.kind.look hk o
  simp only [Marks.settled, Bool.and_eq_true] at hk
  obtain ⟨⟨⟨⟨⟨hrh, hrc⟩, -⟩, -⟩, -⟩, -⟩ := hk
  have hreadonly := h.readonly.get? hrh
  have hchanged := h.readonly.changed hrc
  obtain ⟨r, κ, rfl, -⟩ := h.exists_eq
  cases o
  case readonly => exact ⟨congrArg (Option.map Content.flag) hreadonly, hchanged⟩
  case label | description | tags | order | parentId | userdata | userid => exact ⟨rfl, rfl⟩
  all_goals exact hkind

end Parameter

/-! ### Runs -/

/-- The calls on parameters that have no manager. -/
inductive ParameterCall
  | construct (id : Id) (type : ParameterType)
  | set (r : Ref) (a : Setter)
  | update (r other : Ref)
  | write (r : Ref) (all : Bool)

/-- The parameters, what is known of them, and the bytes written so far. -/
structure Tracked where
  store : Store
  marks : Ref → Marks
  written : List Bytes

namespace Tracked

open Store

variable {w w' : Tracked} {mem mem' : Ref → Memory}

/-- References that are not taken yet hold a group, as the root does. -/
def start (mem : Ref → Memory) : Tracked := ⟨.empty (mem root), fun _ => .fresh .group, []⟩

/-- One call.  The constructor of the parameter `r` finds the memory `mem r`. -/
def call (mem : Ref → Memory) (w : Tracked) : ParameterCall → Tracked
  | .construct id type =>
    let r := w.store.next
    ⟨{ w.store with next := r + 1 }.put r (.create (mem r) id type), Function.update w.marks r (.fresh type), w.written⟩
  | .set r a =>
    ⟨w.store.set r a, Function.update w.marks r ((w.store.heap r).marks a (w.marks r)), w.written⟩
  | .update r other =>
    let s := (w.store.update r other).1
    if other = r ∨ w.store.idOf other ≠ w.store.idOf r then ⟨s, w.marks, w.written⟩
    else ⟨s, Function.update w.marks r ((w.store.heap other).marksOver (w.store.heap r) (w.marks r)), w.written⟩
  | .write r all =>
    let b := (w.store.heap r).write w.store.idOf all
    ⟨w.store.put r b.2, w.marks, w.written ++ [b.1.bytes]⟩

/-- The call reads no member that still depends on memory. -/
def Defined (w : Tracked) : ParameterCall → Prop
  | .update r other => other ≠ r → w.store.idOf other = w.store.idOf r → (w.marks other).readonly.has = true
  | .write r all => (w.store.heap r).writes (w.marks r) all = true
  | _ => True

instance (w : Tracked) : (c : ParameterCall) → Decidable (w.Defined c)
  | .construct _ _ | .set _ _ => isTrue trivial
  | .update r other =>
    inferInstanceAs (Decidable
      (other ≠ r → w.store.idOf other = w.store.idOf r → (w.marks other).readonly.has = true))
  | .write r all => inferInstanceAs (Decidable ((w.store.heap r).writes (w.marks r) all = true))

/-- Two runs that agree in what is known. -/
structure Agrees (w w' : Tracked) : Prop where
  next : w'.store.next = w.store.next
  alike : ∀ r, (w.store.heap r).Alike (w.marks r) (w'.store.heap r)
  written : w'.written = w.written

theorem agrees_start (mem mem' : Ref → Memory) : Agrees (start mem) (start mem') :=
  ⟨rfl, fun _ => Parameter.alike_create (mem root) (mem' root) 0 .group, rfl⟩

theorem Agrees.idOf (h : Agrees w w') (r : Ref) : w'.store.idOf r = w.store.idOf r := by
  rw [Store.idOf, (h.alike r).rest]
  rfl

/-- A call that changes the parameter `r` only. -/
private theorem Agrees.step {s s' : Store} {k : Marks} {b : List Bytes} {r : Ref} (h : Agrees w w')
    (hn : s'.next = s.next) (hr : (s.heap r).Alike k (s'.heap r)) (hs : ∀ x, x ≠ r → s.heap x = w.store.heap x)
    (hs' : ∀ x, x ≠ r → s'.heap x = w'.store.heap x) (marks' : Ref → Marks) :
    Agrees ⟨s, Function.update w.marks r k, b⟩ ⟨s', marks', b⟩ := by
  refine ⟨hn, fun x => ?_, rfl⟩
  by_cases hx : x = r
  · subst hx
    show (s.heap x).Alike (Function.update w.marks x k x) (s'.heap x)
    rw [Function.update_self]
    exact hr
  · show (s.heap x).Alike (Function.update w.marks r k x) (s'.heap x)
    rw [Function.update_of_ne hx, hs x hx, hs' x hx]
    exact h.alike x

/-- A call that reads nothing unknown does the same in both runs. -/
theorem agrees_call (h : Agrees w w') (c : ParameterCall) (hd : w.Defined c) :
    Agrees (w.call mem c) (w'.call mem' c) := by
  cases c with
  | construct id type =>
    unfold call
    dsimp only
    rw [h.written, h.next]
    refine h.step ?_ ?_ (fun x hx => ?_) (fun x hx => ?_) _
    · rfl
    · show Parameter.Alike _ (if _ then _ else _) (if _ then _ else _)
      rw [if_pos rfl, if_pos rfl]
      exact Parameter.alike_create ..
    · exact if_neg hx
    · exact if_neg hx
  | set r a =>
    unfold call
    rw [h.written]
    refine h.step ?_ ?_ (fun x hx => ?_) (fun x hx => ?_) _
    · rw [(frame_set ..).next, (frame_set ..).next, h.next]
    · rw [heap_set, if_pos rfl, heap_set, if_pos rfl]
      exact (h.alike r).apply a
    · rw [heap_set, if_neg hx]
    · rw [heap_set, if_neg hx]
  | update r other =>
    unfold call
    dsimp only
    rw [h.idOf, h.idOf, h.written]
    by_cases hsame : other = r ∨ w.store.idOf other ≠ w.store.idOf r
    · -- nothing is taken over
      have hid : ∀ s : Store, s.idOf other = w.store.idOf other → s.idOf r = w.store.idOf r →
          (s.update r other).1 = s := by
        intro s ho hr
        unfold Store.update
        rcases hsame with heq | hne
        · rw [if_pos heq]
        · rw [ho, hr, if_neg hne]
          split <;> rfl
      rw [if_pos hsame, if_pos hsame, hid _ rfl rfl, hid _ (h.idOf other) (h.idOf r)]
      exact ⟨h.next, h.alike, rfl⟩
    · rw [if_neg hsame, if_neg hsame]
      push Not at hsame
      obtain ⟨hne, hid⟩ := hsame
      have hparent := (h.alike other).parent
      have hparent' : (w'.store.heap other).parent = none := by rw [(h.alike other).rest]; exact hparent
      refine h.step ?_ ?_ (fun x hx => heap_update_of_ne hparent hx) (fun x hx => heap_update_of_ne hparent' hx) _
      · rw [(touched_update ..).frame.next, (touched_update ..).frame.next, h.next]
      · rw [heap_update_of_parentless hne hid hparent,
          heap_update_of_parentless hne (by rw [h.idOf, h.idOf, hid]) hparent']
        exact (h.alike r).takeOver (h.alike other) (hd hne hid)
  | write r all =>
    obtain ⟨hbytes, halike⟩ := (h.alike r).write w.store.idOf w'.store.idOf hd
    unfold call
    dsimp only
    rw [h.written, hbytes]
    refine ⟨h.next, fun x => ?_, rfl⟩
    show Parameter.Alike _ (if _ then _ else _) (if _ then _ else _)
    split
    · next hx => rw [hx]; exact halike
    · exact h.alike x

/-- If no call reads a member that depends on memory, the same bytes are written whatever memory holds, and the
parameters that are known throughout in the end have the same options and change flags. -/
theorem outputs_agree (mem mem' : Ref → Memory) (cs : List ParameterCall)
    (h : Along (call mem) Defined (start mem) cs) :
    (run (call mem') (start mem') cs).written = (run (call mem) (start mem) cs).written ∧
      ∀ r, ((run (call mem) (start mem) cs).marks r).settled = true → ∀ o,
        ((run (call mem') (start mem') cs).store.heap r).observe o =
            ((run (call mem) (start mem) cs).store.heap r).observe o ∧
          ((run (call mem') (start mem') cs).store.heap r).changed o =
            ((run (call mem) (start mem) cs).store.heap r).changed o := by
  have hrun : ∀ (cs : List ParameterCall) {w w' : Tracked}, Agrees w w' → Along (call mem) Defined w cs →
      Agrees (run (call mem) w cs) (run (call mem') w' cs) := by
    intro cs
    induction cs with
    | nil => exact fun hw _ => hw
    | cons c cs ih => exact fun hw hc => ih (agrees_call hw c hc.1) hc.2
  have hfinal := hrun cs (agrees_start mem mem') h
  exact ⟨hfinal.written, fun r hr => (hfinal.alike r).look hr⟩

/-- The value of an IP address is cleared before it is set, and another parameter is updated from it. -/
def clearedFirst : List ParameterCall :=
  [.construct 1 (.value .ipv4), .set 1 .clearReadonly, .write 1 true, .set 1 .clearValue,
    .set 1 (@Setter.setValue .ipv4 7), .construct 1 (.value .ipv4), .set 2 .clearReadonly, .update 2 1, .write 1 false]

theorem agree_clearedFirst :
    (run (call fun _ => ⟨true, true, 7, ⟨1, 2, 3, 4⟩⟩) (start fun _ => ⟨true, true, 7, ⟨1, 2, 3, 4⟩⟩) clearedFirst).written =
        (run (call fun _ => {}) (start fun _ => {}) clearedFirst).written ∧
      ∀ o, ((run (call fun _ => ⟨true, true, 7, ⟨1, 2, 3, 4⟩⟩) (start fun _ => ⟨true, true, 7, ⟨1, 2, 3, 4⟩⟩)
            clearedFirst).store.heap 1).observe o =
          ((run (call fun _ => {}) (start fun _ => {}) clearedFirst).store.heap 1).observe o ∧
        ((run (call fun _ => ⟨true, true, 7, ⟨1, 2, 3, 4⟩⟩) (start fun _ => ⟨true, true, 7, ⟨1, 2, 3, 4⟩⟩)
            clearedFirst).store.heap 1).changed o =
          ((run (call fun _ => {}) (start fun _ => {}) clearedFirst).store.heap 1).changed o :=
  have h := outputs_agree (fun _ => {}) (fun _ => ⟨true, true, 7, ⟨1, 2, 3, 4⟩⟩) clearedFirst (by decide)
  ⟨h.1, h.2 1 (by decide)⟩

/-- A boolean is written as it comes from its constructor. -/
def writtenAtOnce : List ParameterCall := [.construct 1 (.value .boolean), .write 1 true]

theorem written_depends_on_memory :
    ¬∀ mem mem' : Ref → Memory, (run (call mem') (start mem') writtenAtOnce).written =
      (run (call mem) (start mem) writtenAtOnce).written :=
  fun h => absurd (h (fun _ => {}) fun _ => { hasReadonly := true }) (by decide)

/-- What is written for the cleared default value of an IP address is what memory holds. -/
example : (run (call fun _ => { ipv4 := 7 }) (start fun _ => {})
    [.construct 1 (.value .ipv4), .set 1 .clearReadonly, .set 1 (@Setter.definition .ipv4 .clearDefault),
      .write 1 false]).written =
      [[0, 1, 43, 48, 0, 0, 0, 7, 0, 41, 0, 0]] := by decide

end Tracked

end RabbitControl
