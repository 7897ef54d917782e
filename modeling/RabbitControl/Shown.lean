import RabbitControl.Increments
import RabbitControl.Lib.Link

/-!
# What an option shows

The contents of an option up to what a setter takes for the same, and what the setters do to it.  A setter of the
application that reports its change marks it (`moves_apply`); a setter that an update calls takes its value over, and
may leave it unmarked if it is not new (`hears_apply`).
-/

namespace RabbitControl

open Lib

/-! ### Contents -/

/-- Two contents that a setter takes for the same. -/
inductive Content.Same : Content → Content → Prop
  | refl (c : Content) : Same c c
  | value {τ : ValueType} {a b : τ.Val} (h : τ.eqv a b = true) : Same (.value τ a) (.value τ b)

theorem Content.Same.symm {a b : Content} (h : a.Same b) : b.Same a := by
  cases h with
  | refl => exact .refl _
  | value h => exact .value ((ValueType.eqv_symm _ _ _).trans h)

theorem Content.Same.trans {a b c : Content} (h : a.Same b) (k : b.Same c) : a.Same c := by
  cases h with
  | refl => exact k
  | value h =>
    cases k with
    | refl => exact .value h
    | value k => exact .value (ValueType.eqv_trans h k)

def Content.setoid : Setoid Content := ⟨Content.Same, .refl, .symm, .trans⟩

/-- Contents up to what a setter takes for the same: `+0` and `-0` are one value. -/
def Shown : Type := Quotient Content.setoid

def Content.shown (c : Content) : Shown := Quotient.mk Content.setoid c

theorem Content.shown_value {τ : ValueType} {a b : τ.Val} (h : τ.eqv a b = true) :
    (Content.value τ a).shown = (Content.value τ b).shown :=
  Quotient.sound (s := Content.setoid) (Content.Same.value h)

/-- What is shown alike is the same to a setter. -/
theorem Content.same_of_shown {a b : Content} (h : a.shown = b.shown) : a.Same b :=
  Quotient.exact (s := Content.setoid) h

theorem Content.shown_of_rel {τ : ValueType} {x y : Option τ.Val} (h : Option.Rel τ.Same x y) :
    (y.map (Content.value τ)).map shown = (x.map (Content.value τ)).map shown := by
  cases h with
  | none => rfl
  | some hab =>
    rcases hab with rfl | hab
    · rfl
    · exact congrArg some (Content.shown_value hab).symm

/-- What an option shows of what an update carries.  Of a text this is the plain one. -/
def Parameter.shown (p : Parameter) : OptionId → Option Shown
  | .label => p.label.plain.map fun s => (Content.string s).shown
  | .description => p.description.plain.map fun s => (Content.string s).shown
  | .tags => p.tags.get?.map fun s => (Content.string s).shown
  | .order => p.order.get?.map fun v => (Content.order v).shown
  | .userid => p.userid.get?.map fun s => (Content.string s).shown
  | .value => (p.kind.observe .value).map Content.shown
  | _ => none

namespace Parameter

variable {p q w : Parameter} {o : OptionId} {a : Setter} {dirty : Bool}

theorem shown_of_observe (h : q.observe o = p.observe o) : q.shown o = p.shown o := by
  have hinj : ∀ {α : Type} {f : α → Content} {x y : Option α}, Function.Injective f → x.map f = y.map f → x = y :=
    fun hf hxy => Option.map_injective hf hxy
  have htext : Function.Injective fun c : Option Bytes × Std.ExtTreeMap Bytes Bytes => Content.text c.1 c.2 :=
    fun _ _ hc => Prod.ext (Content.text.inj hc).1 (Content.text.inj hc).2
  have hstring : Function.Injective Content.string := fun _ _ hc => Content.string.inj hc
  cases o with
  | label => exact congrArg (Option.map _) (Text.plain_of_get? (hinj htext h))
  | description => exact congrArg (Option.map _) (Text.plain_of_get? (hinj htext h))
  | tags => exact congrArg (Option.map _) (hinj hstring h)
  | order => exact congrArg (Option.map _) (hinj (fun _ _ hc => Content.order.inj hc) h)
  | userid => exact congrArg (Option.map _) (hinj hstring h)
  | value => exact congrArg (Option.map Content.shown) h
  | _ => rfl

/-- What is marked, and is to be sent if the parameter is dirty. -/
def cell (p : Parameter) (dirty : Bool) (o : OptionId) : Cell (Option Shown) := ⟨p.shown o, dirty && p.changed o⟩

/-! ### Setters of the application -/

/-- A setter that takes nothing away and reports its change marks what it changes. -/
theorem moves_apply (hp : p.Uncleared) (ha : a.adds = true) (hr : p.reports dirty a = true) (o : OptionId) :
    (p.cell dirty o).Moves ((p.apply a).1.cell ((p.apply a).2 || dirty) o) := by
  obtain ⟨hseen, hchanged⟩ := noted_apply hr o
  have hmarked : (p.cell dirty o).Keeps ((p.apply a).1.cell ((p.apply a).2 || dirty) o) ∨
      ((p.apply a).1.cell ((p.apply a).2 || dirty) o).changed = true := by
    refine hseen.imp (fun h => ⟨shown_of_observe h, fun hc => ?_⟩) fun h => ?_
    · obtain ⟨hd, hc⟩ := Bool.and_eq_true_iff.mp hc
      exact Bool.and_eq_true_iff.mpr ⟨by rw [hd, Bool.or_true], hchanged hc⟩
    · exact Bool.and_eq_true_iff.mpr ⟨h.2, h.1⟩
  refine ⟨hmarked, fun hnone => ?_⟩
  -- an option that shows nothing afterwards was not marked by a setter that adds
  rcases hmarked with hk | hc
  · exact hk.value.symm.trans hnone
  · have hchanged' := (Bool.and_eq_true_iff.mp hc).2
    have hu := hp.apply ha
    have hslot : ∀ {α : Type} {s : Slot α} {f : α → Shown}, s.get?.map f = none → s.has = true → False := by
      intro α s f hs hh
      rw [Option.map_eq_none_iff, Slot.get?, if_pos hh] at hs
      simp at hs
    have htext : ∀ {t t' : Text} {f : Bytes → Shown}, (t.has = true → t'.has = true) → t'.plain.map f = none →
        t.plain.map f = none := by
      intro t t' f hkeep hn
      rw [Option.map_eq_none_iff, Text.plain] at hn ⊢
      split
      · next hh =>
        rw [if_pos (hkeep hh)] at hn
        simp at hn
      · rfl
    have ht := tracked_apply ha hr
    cases o with
    | label => exact htext ht.label hnone
    | description => exact htext ht.description hnone
    | tags => exact (hslot hnone (hu.tags hchanged')).elim
    | order => exact (hslot hnone (hu.order hchanged')).elim
    | userid => exact (hslot hnone (hu.userid hchanged')).elim
    | value =>
      have hsome := hu.value hchanged'
      rw [show (p.apply a).1.kind.observe .value = none from Option.map_eq_none_iff.mp hnone] at hsome
      simp at hsome
    | _ => rfl

end Parameter

/-! ### Setters of an update -/

/-- The option that a setter sets, and to what. -/
def Setter.tells : Setter → OptionId → Option Shown
  | .label (.set s), .label => some (Content.string s).shown
  | .description (.set s), .description => some (Content.string s).shown
  | .setTags s, .tags => some (Content.string s).shown
  | .setOrder v, .order => some (Content.order v).shown
  | .setUserid s, .userid => some (Content.string s).shown
  | @Setter.setValue τ v, .value => some (Content.value τ v).shown
  | _, _ => none

/-- The setters that an update calls on a parameter of the type. -/
def Setter.Plain (type : ParameterType) : Setter → Prop
  | .label (.set _) | .description (.set _) | .setTags _ | .setOrder _ | .setUserid _ | .setReadonly _ => True
  | @Setter.setValue τ _ => type = .value τ
  | _ => False

theorem Setter.Plain.adds {type : ParameterType} {a : Setter} (h : a.Plain type) : a.adds = true := by
  cases a with
  | label t | description t =>
    cases t with
    | set => rfl
    | _ => exact h.elim
  | setTags | setOrder | setUserid | setReadonly | setValue => rfl
  | _ => exact h.elim

section Hears

variable {dirty : Bool}

/-- A part that a setter has set. -/
private theorem takes_of_set {shown shown' : Option Shown} {changed changed' set : Bool} {v : Shown}
    (h : set = true ∧ shown' = some v ∧ changed' = true ∨
      set = false ∧ shown' = some v ∧ changed' = changed ∧ ∀ u ∈ shown, u = v) :
    Cell.Takes v ⟨shown, dirty && changed⟩ ⟨shown', (set || dirty) && changed'⟩ := by
  rcases h with ⟨rfl, hv, rfl⟩ | ⟨rfl, hv, rfl, hold⟩
  · exact ⟨hv, Or.inl rfl⟩
  · refine ⟨hv, ?_⟩
    cases hc : dirty && changed' with
    | false => exact Or.inr ⟨rfl, hold⟩
    | true => exact Or.inl (by simpa using hc)

private theorem keeps_of_eq {shown shown' : Option Shown} {changed changed' set : Bool} (h : shown' = shown)
    (hc : changed = true → changed' = true) :
    Cell.Keeps ⟨shown, dirty && changed⟩ ⟨shown', (set || dirty) && changed'⟩ := by
  refine ⟨h, fun hm => ?_⟩
  obtain ⟨hd, hm⟩ := Bool.and_eq_true_iff.mp hm
  exact Bool.and_eq_true_iff.mpr ⟨by rw [hd, Bool.or_true], hc hm⟩

private theorem Slot.takes_set {α : Type} {eqv : α → α → Bool} {f : α → Shown}
    (hf : ∀ {a b}, eqv a b = true → f a = f b) (v : α) (s : Slot α) :
    Cell.Takes (f v) ⟨s.get?.map f, dirty && s.changed⟩
      ⟨(s.set eqv v).1.get?.map f, ((s.set eqv v).2 || dirty) && (s.set eqv v).1.changed⟩ := by
  refine takes_of_set ?_
  unfold Slot.set
  split
  · next he =>
    refine Or.inr ⟨rfl, congrArg some (hf he), rfl, fun u hu => ?_⟩
    obtain ⟨c, hc, rfl⟩ := Option.mem_map.mp hu
    unfold get? at hc
    split at hc
    · rw [← hf he, Option.mem_some.mp hc]
    · simp at hc
  · exact Or.inl ⟨rfl, rfl, rfl⟩

private theorem Text.takes_set (v : Bytes) (t : Text) :
    Cell.Takes (Content.string v).shown ⟨t.plain.map fun s => (Content.string s).shown, dirty && t.changed⟩
      ⟨(t.set v).1.plain.map fun s => (Content.string s).shown, ((t.set v).2 || dirty) && (t.set v).1.changed⟩ := by
  refine takes_of_set ?_
  unfold Text.set
  split
  · next he =>
    refine Or.inr ⟨rfl, by rw [← he]; rfl, rfl, fun u hu => ?_⟩
    obtain ⟨c, hc, rfl⟩ := Option.mem_map.mp hu
    unfold plain at hc
    split at hc
    · rw [← he, Option.mem_some.mp hc]
    · simp at hc
  · exact Or.inl ⟨rfl, rfl, rfl⟩

private theorem Slot.changed_set {α : Type} (eqv : α → α → Bool) (v : α) (s : Slot α) (h : s.changed = true) :
    (s.set eqv v).1.changed = true := by
  unfold Slot.set
  split
  · exact h
  · rfl

/-- A setter of an update is heard by the option that it sets, and by no other one. -/
theorem Parameter.hears_apply {p : Parameter} {a : Setter} (ha : a.Plain p.kind.type) (o : OptionId) :
    Cell.Hears (a.tells o) (p.cell dirty o) ((p.apply a).1.cell ((p.apply a).2 || dirty) o) := by
  cases a with
  | label t =>
    cases t with
    | set s =>
      cases o with
      | label => exact Text.takes_set s p.label
      | _ => exact keeps_of_eq rfl id
    | _ => exact ha.elim
  | description t =>
    cases t with
    | set s =>
      cases o with
      | description => exact Text.takes_set s p.description
      | _ => exact keeps_of_eq rfl id
    | _ => exact ha.elim
  | setTags s =>
    cases o with
    | tags => exact Slot.takes_set (f := fun s => (Content.string s).shown) (fun h => by rw [beq_iff_eq.mp h]) s p.tags
    | _ => exact keeps_of_eq rfl id
  | setOrder v =>
    cases o with
    | order => exact Slot.takes_set (f := fun v => (Content.order v).shown) (fun h => by rw [beq_iff_eq.mp h]) v p.order
    | _ => exact keeps_of_eq rfl id
  | setUserid s =>
    cases o with
    | userid =>
      exact Slot.takes_set (f := fun s => (Content.string s).shown) (fun h => by rw [beq_iff_eq.mp h]) s p.userid
    | _ => exact keeps_of_eq rfl id
  | setReadonly b =>
    cases o with
    | readonly => exact keeps_of_eq rfl (Slot.changed_set _ b p.readonly)
    | _ => exact keeps_of_eq rfl id
  | @setValue τ v =>
    have htype : p.kind.type = .value τ := ha
    cases hk : p.kind with
    | value σ d s =>
      obtain rfl : σ = τ := by
        rw [hk] at htype
        exact ParameterType.value.inj htype
      have happly := apply_setValue hk v
      rw [happly]
      cases o with
      | value =>
        have hshown : ∀ s : Slot σ.Val, ((s.get?.map (Content.value σ)).map Content.shown) =
            s.get?.map fun v => (Content.value σ v).shown := fun s => Option.map_map ..
        show Cell.Takes _ ⟨(p.kind.observe .value).map _, _ && p.kind.changed .value⟩
          ⟨((Slot.set _ _ _).1.get?.map _).map _, _⟩
        rw [hk]
        show Cell.Takes _ ⟨(s.get?.map _).map _, _⟩ _
        rw [hshown, hshown]
        exact Slot.takes_set (f := fun v => (Content.value σ v).shown) Content.shown_value v s
      | number | default | regex | entries | multiselect | filter | schema | uuid | config =>
        refine keeps_of_eq rfl fun hc => ?_
        have hc' : p.kind.changed _ = true := hc
        rw [hk] at hc'
        exact hc'
      | _ => exact keeps_of_eq rfl id
    | bang | group | invalid => exact absurd (hk ▸ htype :) ParameterType.noConfusion
  | setUserdata | clearTags | clearOrder | clearUserdata | clearUserid | clearReadonly | clearValue | definition
  | bang => exact ha.elim

end Hears

/-! ### Updates -/

/-- The setter that an update calls for the value. -/
def Kind.tellings : Kind → List Setter
  | value _ _ v => v.get?.toList.map .setValue
  | _ => []

namespace Parameter

variable {p w : Parameter} {named : Ref → Option Ref}

/-- What a reader makes of an update shows the options that were marked. -/
theorem Sent.shown (h : p.Sent named w) (o : OptionId) : w.shown o = if p.changed o then p.shown o else none := by
  have hmap : ∀ {α : Type} {f : α → Shown} {sent here : Option α} {changed : Bool},
      sent = (if changed then here else none) → sent.map f = if changed then here.map f else none := by
    intro α f sent here changed hsent
    rw [hsent]
    split <;> rfl
  cases o with
  | label => exact hmap h.label
  | description => exact hmap h.description
  | tags => exact hmap h.tags
  | order => exact hmap h.order
  | userid => exact hmap h.userid
  | value =>
    have hkind := h.kind
    show (w.kind.observe .value).map Content.shown =
      if p.kind.changed .value then (p.kind.observe .value).map Content.shown else none
    generalize w.kind = k at hkind
    generalize p.kind = j at hkind
    cases hkind with
    | @value τ d d' v u hv =>
      show (u.get?.map _).map _ = if v.changed then (v.get?.map _).map _ else none
      split
      · next hc =>
        rw [if_pos hc] at hv
        exact Content.shown_of_rel hv
      · next hc =>
        rw [if_neg hc] at hv
        rw [hv]
        rfl
    | bang | group => rfl
  | _ => exact (ite_self none).symm

/-- The setters that an update from this parameter calls, which has no user data. -/
def tellings (q : Parameter) : List Setter :=
  q.kind.tellings ++ q.label.plain.toList.map (.label <| .set ·) ++
    q.description.plain.toList.map (.description <| .set ·) ++ q.tags.get?.toList.map .setTags ++
    q.order.get?.toList.map .setOrder ++ q.userid.get?.toList.map .setUserid ++
    q.readonly.get?.toList.map .setReadonly

theorem plain_tellings (q : Parameter) : ∀ a ∈ q.tellings, a.Plain q.kind.type := by
  intro a ha
  simp only [tellings, List.mem_append, List.mem_map, Option.mem_toList] at ha
  rcases ha with (((((ha | ⟨_, _, rfl⟩) | ⟨_, _, rfl⟩) | ⟨_, _, rfl⟩) | ⟨_, _, rfl⟩) | ⟨_, _, rfl⟩) | ⟨_, _, rfl⟩
  · generalize q.kind = k at ha ⊢
    cases k with
    | value τ d v =>
      obtain ⟨u, -, rfl⟩ := List.mem_map.mp ha
      rfl
    | bang | group | invalid => simp [Kind.tellings] at ha
  all_goals trivial

end Parameter

/-- What a list of setters sets an option to in the end. -/
def told (o : OptionId) (l : List Setter) : Option Shown := l.foldr (fun a v => v.or (a.tells o)) none

theorem told_append (o : OptionId) (l₁ l₂ : List Setter) : told o (l₁ ++ l₂) = (told o l₂).or (told o l₁) := by
  induction l₁ with
  | nil => exact (Option.or_none).symm
  | cons a l₁ ih =>
    show (told o (l₁ ++ l₂)).or _ = _
    rw [ih, Option.or_assoc]
    rfl

private theorem told_toList {α : Type} (o : OptionId) (x : Option α) (f : α → Setter) :
    told o (x.toList.map f) = x.bind fun v => (f v).tells o := by
  cases x with
  | none => rfl
  | some v => exact Option.none_or

theorem told_tellings (q : Parameter) (o : OptionId) : told o q.tellings = q.shown o := by
  have hvalue : told o q.kind.tellings = if o = .value then (q.kind.observe .value).map Content.shown else none := by
    cases q.kind with
    | value τ d v =>
      show told o (v.get?.toList.map _) = if o = .value then (v.get?.map _).map _ else none
      rw [told_toList]
      cases v.get? <;> cases o <;> rfl
    | bang | group | invalid => exact (ite_self none).symm
  unfold Parameter.tellings
  simp only [told_append, told_toList, hvalue]
  cases o <;> simp [Setter.tells, Parameter.shown, Option.map_eq_bind]

end RabbitControl
