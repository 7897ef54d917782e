import RabbitControl.ParameterRoundTrip
import RabbitControl.UpdateSpec

/-!
# Merging an update

An incoming parameter may hold any of the options that the parser fills.  `merges_iff` says when a cached parameter
has all of them after an update from it: the texts of the languages and the options of the type definition are not
copied, and a value that the cached one is taken to equal is not stored.
-/

namespace RabbitControl

open Lib

/-! ### Contents after an update -/

/-- The text for any language. -/
def Text.plain (t : Text) : Option Bytes := if t.has then some t.content else none

theorem Text.plain_takeOver (q t : Text) : (q.takeOver t).plain = q.plain.or t.plain := by
  unfold takeOver plain set
  cases hq : q.has with
  | false => simp
  | true =>
    by_cases h : t.content = q.content
    · simp [h]
    · simp [h]

theorem Text.languages_takeOver (q t : Text) : (q.takeOver t).languages = t.languages := by
  unfold takeOver set
  split
  · split <;> rfl
  · rfl

theorem Slot.get?_takeOver {α : Type} (eqv : α → α → Bool) (q t : Slot α) :
    (q.takeOver eqv t).get? = (q.get?.map fun v => if eqv t.content v then t.content else v).or t.get? := by
  unfold takeOver
  cases q.get? with
  | none => simp
  | some v =>
    simp only [Option.elim_some, Option.map_some, Option.some_or]
    unfold set
    split <;> rfl

theorem Slot.get?_takeOver_beq {α : Type} [BEq α] [LawfulBEq α] (q t : Slot α) :
    (q.takeOver (· == ·) t).get? = q.get?.or t.get? := by
  have hsame : ∀ v : α, (if (t.content == v) = true then t.content else v) = v := by
    intro v
    split
    · next h => exact eq_of_beq h
    · rfl
  rw [get?_takeOver]
  simp only [hsame, Option.map_id']

theorem Block.get?_takeOver {α : Type} (q t : Block α) : (q.takeOver t).get? = q.get?.or t.get? := by
  unfold takeOver
  cases hq : q.get? with
  | none => rfl
  | some v =>
    have hv : v.isEmpty = false := by
      unfold get? has at hq
      split at hq
      · next h => rw [← Option.some.inj hq]; simpa using h
      · simp at hq
    simp [set, get?, has, hv]

/-- What was there stays, since what is to be there is nothing else. -/
private theorem eq_or_iff {α : Type} {x y : Option α} : x = y.or x ↔ ∀ c, y = some c → x = some c := by
  cases y with
  | none => simp
  | some c => simp

/-! ### Merging -/

/-- The options of type definitions. -/
def OptionId.ofDefinition : OptionId → Bool
  | number _ | default | regex | entries | multiselect | filter | schema | uuid | config => true
  | _ => false

/-- The parameter `p'` has the options of `q` as `q` has them, and the others as `p` had them. -/
structure Parameter.Merged (q p p' : Parameter) : Prop where
  label : p'.label.plain = q.label.plain.or p.label.plain
  labelLanguage : ∀ code : Bytes, p'.label.languages[code]? = q.label.languages[code]?.or p.label.languages[code]?
  description : p'.description.plain = q.description.plain.or p.description.plain
  descriptionLanguage : ∀ code : Bytes,
    p'.description.languages[code]? = q.description.languages[code]?.or p.description.languages[code]?
  option : ∀ o, o ≠ .label → o ≠ .description → p'.observe o = (q.observe o).or (p.observe o)

/-- The cached parameter `p` has the texts of languages and the options of the definition that `q` has already, no
other value that its own is taken to equal, and no other parent with the same id. -/
structure Parameter.Mergeable (idOf : Ref → Id) (q p : Parameter) : Prop where
  labelLanguage : ∀ (code s : Bytes), q.label.languages[code]? = some s → p.label.languages[code]? = some s
  descriptionLanguage : ∀ (code s : Bytes),
    q.description.languages[code]? = some s → p.description.languages[code]? = some s
  definition : ∀ o, o.ofDefinition = true → ∀ c, q.observe o = some c → p.observe o = some c
  value : ∀ {τ : ValueType} {d d' : TypeDefinition τ} {c v : Slot τ.Val},
    p.kind = .value τ d c → q.kind = .value τ d' v →
    v.has = true → τ.eqv c.content v.content = true → c.content = v.content
  parent : ∀ g old, q.parent = some g → p.parent = some old → idOf g = idOf old → g = old

namespace Parameter

variable {idOf : Ref → Id} {q p p' : Parameter}

theorem observe_ofDefinition {o : OptionId} (ho : o.ofDefinition = true) (p : Parameter) :
    p.observe o = p.kind.observe o := by
  cases o <;> first | rfl | exact absurd ho Bool.false_ne_true

/-- Without a value there are no options of a kind. -/
theorem Updated.observe_plain (h : Updated idOf q p p') (hp : ∀ τ d c, p.kind ≠ .value τ d c) (o : OptionId) :
    p'.kind.observe o = p.kind.observe o := by
  have hgroup : ∀ x : Parameter, x.isGroup = true → x.kind.observe o = none := by
    intro x hx
    unfold Parameter.isGroup at hx
    split at hx
    · next hk => rw [hk]; rfl
    · exact absurd hx Bool.false_ne_true
  rcases h.plain hp with hk | ⟨hg, hg'⟩
  · rw [hk]
  · rw [hgroup p hg, hgroup p' hg']

/-- The options of the definition are not touched. -/
theorem Updated.observe_definition (h : Updated idOf q p p') (htype : q.kind.type = p.kind.type) {o : OptionId}
    (ho : o.ofDefinition = true) : p'.observe o = p.observe o := by
  rw [observe_ofDefinition ho, observe_ofDefinition ho]
  cases hp : p.kind with
  | value τ d c =>
    cases hq : q.kind with
    | value σ d' v =>
      rw [hp, hq] at htype
      obtain rfl : σ = τ := ParameterType.value.inj htype
      rw [h.value hp hq]
      cases o <;> first | rfl | exact absurd ho Bool.false_ne_true
    | _ => rw [hp, hq] at htype; exact absurd htype ParameterType.noConfusion
  | _ => rw [h.observe_plain (fun τ d c hk => by simp [hp] at hk), hp]

/-- The value is taken over unless the cached one is taken to equal it. -/
theorem Updated.observe_value (h : Updated idOf q p p') (htype : q.kind.type = p.kind.type) :
    p'.observe .value = (q.observe .value).or (p.observe .value) ↔
      ∀ {τ : ValueType} {d d' : TypeDefinition τ} {c v : Slot τ.Val}, p.kind = .value τ d c → q.kind = .value τ d' v →
        v.has = true → τ.eqv c.content v.content = true → c.content = v.content := by
  have hkind : ∀ x : Parameter, x.observe .value = x.kind.observe .value := fun _ => rfl
  rw [hkind, hkind, hkind]
  cases hp : p.kind with
  | value τ d c =>
    cases hq : q.kind with
    | value σ d' v =>
      rw [hp, hq] at htype
      obtain rfl : σ = τ := ParameterType.value.inj htype
      rw [h.value hp hq]
      have hslot : ∀ x : Slot σ.Val, ∀ e : TypeDefinition σ, (Kind.value σ e x).observe .value = x.get?.map (.value σ) :=
        fun _ _ => rfl
      rw [hslot, hslot, hslot, Slot.get?_takeOver]
      by_cases hhas : v.has = true
      · have hget : v.get? = some v.content := by rw [Slot.get?, if_pos hhas]
        rw [hget, Option.map_some, Option.some_or, Option.map_some, Option.map_some, Option.some_or, Option.some.injEq,
          Content.value_inj, ite_eq_right_iff]
        constructor
        · intro h τ d₁ d₂ c₁ v₁ hp' hq' _ heq
          cases hp'
          cases hq'
          exact h heq
        · intro h heq
          exact h rfl rfl hhas heq
      · have hget : v.get? = none := by rw [Slot.get?, if_neg hhas]
        rw [hget]
        refine iff_of_true rfl fun {τ d₁ d₂ c₁ v₁} hp' hq' hhas' => ?_
        cases hq'
        exact absurd hhas' hhas
    | _ => rw [hp, hq] at htype; exact absurd htype ParameterType.noConfusion
  | _ =>
    refine iff_of_true ?_ fun hp' => Kind.noConfusion hp'
    have hq : q.kind.observe .value = none := by
      cases hq : q.kind with
      | value => rw [hp, hq] at htype; exact absurd htype ParameterType.noConfusion
      | _ => rfl
    rw [h.observe_plain (fun τ d c hk => by simp [hp] at hk), hp, hq]
    rfl

/-- The parent is taken over unless the cached one has its id. -/
theorem Updated.observe_parent (h : Updated idOf q p p') :
    p'.observe .parentId = (q.observe .parentId).or (p.observe .parentId) ↔
      ∀ g old, q.parent = some g → p.parent = some old → idOf g = idOf old → g = old := by
  have hparent : ∀ x : Parameter, x.observe .parentId = x.parent.map .parent := fun _ => rfl
  rw [hparent, hparent, hparent, h.parent]
  cases q.parent with
  | none => simp
  | some g =>
    cases p.parent with
    | none => simp
    | some old =>
      dsimp only
      split
      · next hid => simp [hid, eq_comm]
      · next hid => simp [hid]

/-- The options that are always taken over. -/
theorem Updated.observe_slot (h : Updated idOf q p p') :
    p'.observe .tags = (q.observe .tags).or (p.observe .tags) ∧
      p'.observe .order = (q.observe .order).or (p.observe .order) ∧
      p'.observe .userdata = (q.observe .userdata).or (p.observe .userdata) ∧
      p'.observe .userid = (q.observe .userid).or (p.observe .userid) ∧
      p'.observe .readonly = (q.observe .readonly).or (p.observe .readonly) := by
  simp only [observe, h.tags, h.order, h.userdata, h.userid, h.readonly, Slot.get?_takeOver_beq, Block.get?_takeOver,
    Option.map_or, and_self]

theorem Updated.merged_iff (h : Updated idOf q p p') (htype : q.kind.type = p.kind.type) :
    Merged q p p' ↔ Mergeable idOf q p := by
  constructor
  · intro hm
    refine ⟨fun code s => ?_, fun code s => ?_, fun o ho => ?_, ?_, ?_⟩
    · have hl := hm.labelLanguage code
      rw [h.label, Text.languages_takeOver] at hl
      exact eq_or_iff.mp hl s
    · have hl := hm.descriptionLanguage code
      rw [h.description, Text.languages_takeOver] at hl
      exact eq_or_iff.mp hl s
    · have hd := hm.option o (by rintro rfl; exact Bool.false_ne_true ho) (by rintro rfl; exact Bool.false_ne_true ho)
      rw [h.observe_definition htype ho] at hd
      exact eq_or_iff.mp hd
    · exact (h.observe_value htype).mp (hm.option .value (by decide) (by decide))
    · exact h.observe_parent.mp (hm.option .parentId (by decide) (by decide))
  · intro hm
    obtain ⟨htags, horder, huserdata, huserid, hreadonly⟩ := h.observe_slot
    refine ⟨?_, fun code => ?_, ?_, fun code => ?_, fun o hlabel hdescription => ?_⟩
    · rw [h.label, Text.plain_takeOver]
    · rw [h.label, Text.languages_takeOver]
      exact eq_or_iff.mpr (hm.labelLanguage code)
    · rw [h.description, Text.plain_takeOver]
    · rw [h.description, Text.languages_takeOver]
      exact eq_or_iff.mpr (hm.descriptionLanguage code)
    · cases ho : o.ofDefinition with
      | true =>
        rw [h.observe_definition htype ho]
        exact eq_or_iff.mpr (hm.definition o ho)
      | false =>
        cases o with
        | label => exact absurd rfl hlabel
        | description => exact absurd rfl hdescription
        | value => exact (h.observe_value htype).mpr hm.value
        | parentId => exact h.observe_parent.mpr hm.parent
        | tags => exact htags
        | order => exact horder
        | userdata => exact huserdata
        | userid => exact huserid
        | readonly => exact hreadonly
        | _ => exact absurd ho Bool.noConfusion

end Parameter

namespace Store

variable {s : Store} {r other : Ref}

/-- When an update from a parameter of the same id and type merges all its options. -/
theorem merges_iff (hid : s.idOf other = s.idOf r) (htype : (s.heap other).kind.type = (s.heap r).kind.type) :
    Parameter.Merged (s.heap other) (s.heap r) ((s.update r other).1.heap r) ↔
      Parameter.Mergeable s.idOf (s.heap other) (s.heap r) := by
  by_cases hne : other = r
  · subst hne
    have hself : (s.update other other).1 = s := by rw [update, if_pos rfl]
    rw [hself]
    refine iff_of_true ⟨Option.or_self.symm, fun _ => Option.or_self.symm, Option.or_self.symm,
      fun _ => Option.or_self.symm, fun _ _ _ => Option.or_self.symm⟩ ⟨fun _ _ h => h, fun _ _ h => h, fun _ _ _ h => h,
        fun hp hq _ _ => ?_, fun g old hg hold _ => Option.some.inj (hg.symm.trans hold)⟩
    rw [hp] at hq
    cases hq
    rfl
  · exact (updated_update hne hid).1.merged_iff htype

/-- A store with a cached parameter and an incoming one. -/
def pairOf (p q : Parameter) : Store := { ((Store.empty {}).put 1 p).put 2 q with next := 3 }

/-- An integer with the value five. -/
def cachedFive : Parameter :=
  { Parameter.create {} 1 (.value (.number .int32)) with kind := .value (.number .int32) {} ⟨true, 5#32, false⟩ }

/-- The same integer with a label, an order and the value seven. -/
def incomingSeven : Parameter :=
  { cachedFive with
    kind := .value (.number .int32) {} ⟨true, 7#32, false⟩
    label := { has := true, content := [97] }
    order := ⟨true, 3#32, false⟩ }

theorem merges_seven :
    Parameter.Merged incomingSeven cachedFive (((pairOf cachedFive incomingSeven).update 1 2).1.heap 1) := by
  have hoption : ∀ o, o.ofDefinition = true → incomingSeven.observe o = none := by
    intro o ho
    cases o with
    | number o => cases o <;> rfl
    | _ => first | rfl | exact absurd ho Bool.false_ne_true
  refine (@merges_iff (pairOf cachedFive incomingSeven) 1 2 (by decide) rfl).mpr
    ⟨fun code x h => ?_, fun code x h => ?_, fun o ho c hc => ?_, fun hp hq _ heq => ?_, fun g old hg => ?_⟩
  · simp [pairOf, put, incomingSeven] at h
  · simp [pairOf, put, incomingSeven, cachedFive, Parameter.create] at h
  · exact absurd ((hoption o ho).symm.trans hc) (by simp)
  · cases hp
    cases hq
    exact absurd heq (by decide)
  · have hnone : (none : Option Ref) = some g := hg
    exact absurd hnone (by simp)

/-- The same integer with a label in another language. -/
def incomingLanguage : Parameter :=
  { cachedFive with label := { languages := (∅ : Std.ExtTreeMap Bytes Bytes).insert [100, 101, 117] [98] } }

/-- The label does not get into the cache. -/
theorem language_not_merged :
    ¬Parameter.Merged incomingLanguage cachedFive (((pairOf cachedFive incomingLanguage).update 1 2).1.heap 1) := by
  intro h
  exact absurd (h.labelLanguage [100, 101, 117]) (by decide)

end Store

end RabbitControl
