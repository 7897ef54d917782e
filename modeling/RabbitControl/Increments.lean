import RabbitControl.Copies
import RabbitControl.Merging
import RabbitControl.Reports

/-!
# What an update carries

A parameter of the server and the copy of it that a client keeps.  The copy *trails* the parameter if every option
that it shows differently is marked as changed.  Steps that mark what they change keep a copy trailing
(`Tracked.trails`), and an update write carries all that the copy lacks: in the short form and in the full one
(`sent_short`, `sent_full`), for a copy that is new and for one that is updated (`Sent.matches_new`,
`Sent.matches_updated`).

The texts of languages, the user data, `readonly` and the type definition are not looked at: an update of a cached
parameter does not take over the first and the last.
-/

namespace RabbitControl

open Lib

/-! ### Values -/

private theorem floatEq_trans {e m a b c : Nat} (h : NumberType.floatEq e m a b = true)
    (k : NumberType.floatEq e m b c = true) : NumberType.floatEq e m a c = true := by
  simp only [NumberType.floatEq, Bool.and_eq_true, Bool.or_eq_true, beq_iff_eq] at h k ⊢
  obtain ⟨⟨ha, -⟩, hab⟩ := h
  obtain ⟨⟨-, hc⟩, hbc⟩ := k
  refine ⟨⟨ha, hc⟩, ?_⟩
  rcases hab with rfl | ⟨hza, hzb⟩
  · exact hbc
  · rcases hbc with rfl | ⟨-, hzc⟩
    · exact Or.inr ⟨hza, hzb⟩
    · exact Or.inr ⟨hza, hzc⟩

theorem NumberType.eqv_trans {t : NumberType} {a b c : t.Val} (h : t.eqv a b = true) (k : t.eqv b c = true) :
    t.eqv a c = true := by
  cases t with
  | float32 | float64 => exact floatEq_trans h k
  | _ => exact beq_iff_eq.mpr ((beq_iff_eq.mp h).trans (beq_iff_eq.mp k))

namespace ValueType

theorem eqv_trans {τ : ValueType} {a b c : τ.Val} (h : τ.eqv a b = true) (k : τ.eqv b c = true) :
    τ.eqv a c = true := by
  cases τ with
  | number t => exact NumberType.eqv_trans h k
  | range t =>
    obtain ⟨h₁, h₂⟩ := Bool.and_eq_true_iff.mp h
    obtain ⟨k₁, k₂⟩ := Bool.and_eq_true_iff.mp k
    exact Bool.and_eq_true_iff.mpr ⟨NumberType.eqv_trans h₁ k₁, NumberType.eqv_trans h₂ k₂⟩
  | string | enum | uri | ipv6 => exact decide_eq_true ((of_decide_eq_true h).trans (of_decide_eq_true k))
  | boolean | rgb | rgba | ipv4 | custom n => exact beq_iff_eq.mpr ((beq_iff_eq.mp h).trans (beq_iff_eq.mp k))

/-- The values are the same, or a setter takes them for the same. -/
def Same (τ : ValueType) (a b : τ.Val) : Prop := a = b ∨ τ.eqv a b = true

/-- A value that is stored over one that it is taken for leaves that one. -/
theorem Same.stored {τ : ValueType} {a b : τ.Val} (h : τ.Same a b) (old : τ.Val) :
    τ.Same a (if τ.eqv old b then old else b) := by
  split
  · next hold =>
    have hb : τ.eqv b old = true := (eqv_symm τ b old).trans hold
    rcases h with rfl | hab
    · exact Or.inr hb
    · exact Or.inr (eqv_trans hab hb)
  · exact h

end ValueType

/-- The two kinds are of one type, and their values are the same or both missing. -/
inductive Kind.SameValue : Kind → Kind → Prop
  | value {τ : ValueType} {d d' : TypeDefinition τ} {v v' : Slot τ.Val} (h : Option.Rel τ.Same v.get? v'.get?) :
      SameValue (.value τ d v) (.value τ d' v')
  | bang : SameValue .bang .bang
  | group {c c' : Std.ExtTreeMap Int16 Ref} : SameValue (.group c) (.group c')

/-- The kind `w` has the value of `k` if that has changed, and none otherwise. -/
inductive Kind.Sends : Kind → Kind → Prop
  | value {τ : ValueType} {d d' : TypeDefinition τ} {v w : Slot τ.Val}
      (h : if v.changed then Option.Rel τ.Same v.get? w.get? else w.get? = none) :
      Sends (.value τ d v) (.value τ d' w)
  | bang : Sends .bang .bang
  | group {c : Std.ExtTreeMap Int16 Ref} : Sends (.group c) (.group ∅)

theorem Kind.Sends.type {k w : Kind} (h : k.Sends w) : w.type = k.type := by cases h <;> rfl

/-! ### Slots and texts -/

/-- What an update sends of a slot that was not cleared. -/
theorem Slot.sent_update {α : Type} {s : Slot α} (h : s.changed = true → s.has = true) (neutral : α) :
    s.sent false neutral = if s.changed then s.get? else none := by
  unfold Slot.sent Slot.get?
  cases hc : s.changed <;> cases hh : s.has <;> simp_all

/-- The plain text is read if the text has changed. -/
theorem Text.plain_receive {t : Text} {n : Nat} (h : t.Readable n) :
    (Text.receive (t.sent false) {}).plain = if t.changed then t.plain else none := by
  unfold Text.sent
  cases hc : t.changed with
  | false =>
    rw [if_neg (by simp)]
    rfl
  | true =>
    cases hp : t.present with
    | true =>
      rw [if_pos (by simp), if_pos rfl, Text.receive_entries h]
      unfold Text.plain
      cases t.has <;> rfl
    | false =>
      have hhas : t.has = false := (Bool.or_eq_false_iff.mp hp).1
      rw [if_neg (by simp), if_pos rfl]
      exact (if_neg (by simp [hhas])).symm

theorem Kind.type_childless (k : Kind) : k.childless.type = k.type := by cases k <;> rfl

theorem Kind.type_takeOver (w k : Kind) : (w.takeOver k).type = k.type := by
  unfold takeOver
  split
  · split <;> rfl
  · rfl

namespace Parameter

variable {p q w : Parameter} {named : Ref → Option Ref} {dirty : Bool}

/-! ### Copies -/

/-- The copy `q` shows the option as `p` does; `named` is the copy of a group. -/
def Matches (named : Ref → Option Ref) (p q : Parameter) : OptionId → Prop
  | .label => q.label.plain = p.label.plain
  | .description => q.description.plain = p.description.plain
  | .tags => q.tags.get? = p.tags.get?
  | .order => q.order.get? = p.order.get?
  | .parentId => q.parent = p.parent.bind named
  | .userid => q.userid.get? = p.userid.get?
  | .value => p.kind.SameValue q.kind
  | _ => True

/-- The copy `q` shows every option as `p` does but for those that have changed and are to be sent. -/
structure Trails (named : Ref → Option Ref) (dirty : Prop) (p q : Parameter) : Prop where
  type : q.kind.type = p.kind.type
  option : ∀ o, Matches named p q o ∨ p.changed o = true ∧ dirty
  label : q.label.has = true → p.label.has = true
  description : q.description.has = true → p.description.has = true

/-- No option that is sent has been cleared since. -/
structure Uncleared (p : Parameter) : Prop where
  tags : p.tags.changed = true → p.tags.has = true
  order : p.order.changed = true → p.order.has = true
  userid : p.userid.changed = true → p.userid.has = true
  value : p.kind.changed .value = true → (p.kind.observe .value).isSome = true
  parent : p.parentChanged = true → p.parent.isSome = true
  userdata : p.userdata.content = []

/-- What a reader makes of an update of `p`: the options that have changed. -/
structure Sent (named : Ref → Option Ref) (p w : Parameter) : Prop where
  id : w.parameterId = p.parameterId
  kind : p.kind.Sends w.kind
  label : w.label.plain = if p.label.changed then p.label.plain else none
  description : w.description.plain = if p.description.changed then p.description.plain else none
  tags : w.tags.get? = if p.tags.changed then p.tags.get? else none
  order : w.order.get? = if p.order.changed then p.order.get? else none
  parent : w.parent = if p.parentChanged then p.parent.bind named else none
  userid : w.userid.get? = if p.userid.changed then p.userid.get? else none
  uncleared : w.Uncleared

/-! ### Receiving -/

theorem Matches.congr {q' : Parameter} {o : OptionId} (h : Matches named p q o) (hq : q'.childless = q.childless) :
    Matches named p q' o := by
  have hlabel : q'.label = q.label := (congrArg label hq :)
  have hdescription : q'.description = q.description := (congrArg description hq :)
  have htags : q'.tags = q.tags := (congrArg tags hq :)
  have horder : q'.order = q.order := (congrArg order hq :)
  have hparent : q'.parent = q.parent := (congrArg parent hq :)
  have huserid : q'.userid = q.userid := (congrArg userid hq :)
  have hkind : q'.kind.childless = q.kind.childless := (congrArg kind hq :)
  cases o with
  | label => exact (congrArg Text.plain hlabel).trans h
  | description => exact (congrArg Text.plain hdescription).trans h
  | tags => exact (congrArg Slot.get? htags).trans h
  | order => exact (congrArg Slot.get? horder).trans h
  | parentId => exact hparent.trans h
  | userid => exact (congrArg Slot.get? huserid).trans h
  | value =>
    show p.kind.SameValue q'.kind
    have hvalue : p.kind.SameValue q.kind := h
    generalize q'.kind = k' at hkind ⊢
    generalize q.kind = k at hkind hvalue
    generalize p.kind = j at hvalue
    cases hvalue with
    | value hv =>
      cases k' with
      | value =>
        rw [show Kind.value _ _ _ = Kind.value _ _ _ from hkind]
        exact .value hv
      | bang | group | invalid => simp [Kind.childless] at hkind
    | bang => cases k' <;> simp_all [Kind.childless, Kind.SameValue.bang]
    | group => cases k' <;> simp_all [Kind.childless, Kind.SameValue.group]
  | _ => trivial

/-- Only the copy of the parent matters. -/
theorem Matches.congr_named {named' : Ref → Option Ref} {o : OptionId} (h : Matches named p q o)
    (hn : o = .parentId → p.parent.bind named' = p.parent.bind named) : Matches named' p q o := by
  cases o with
  | parentId => exact Eq.trans h (hn rfl).symm
  | _ => exact h

theorem Sent.congr_named {named' : Ref → Option Ref} (h : p.Sent named w)
    (hn : p.parent.bind named' = p.parent.bind named) : p.Sent named' w :=
  { h with parent := by rw [h.parent, hn] }

theorem Trails.congr {named' : Ref → Option Ref} {dirty dirty' : Prop} {q' : Parameter} (h : p.Trails named dirty q)
    (hq : q'.childless = q.childless)
    (ho : ∀ o, Matches named p q o ∨ p.changed o = true ∧ dirty → Matches named' p q o ∨ p.changed o = true ∧ dirty') :
    p.Trails named' dirty' q' where
  type := by
    have hkind : q'.kind.childless = q.kind.childless := (congrArg kind hq :)
    rw [← Kind.type_childless, hkind, Kind.type_childless, h.type]
  option o := (ho o (h.option o)).imp_left fun hm => hm.congr hq
  label hhas := by
    have hlabel : q'.label = q.label := (congrArg Parameter.label hq :)
    exact h.label (by rwa [← hlabel])
  description hhas := by
    have hdescription : q'.description = q.description := (congrArg Parameter.description hq :)
    exact h.description (by rwa [← hdescription])

namespace Sent

variable (h : p.Sent named w)

include h

/-- A copy that is new shows what was sent, if nothing else is there. -/
theorem matches_new {mem : Memory} {id : Id} {o : OptionId}
    (hq : Matches named p (.create mem id p.kind.type) o ∨ p.changed o = true) : Matches named p w o := by
  have hcases : ∀ {α : Type} {sent shown : Option α} {changed : Bool}, sent = (if changed then shown else none) →
      none = shown ∨ changed = true → sent = shown := by
    intro α sent shown changed hsent hq
    rw [hsent]
    rcases hq with rfl | hc
    · exact ite_self none
    · exact if_pos hc
  cases o with
  | label => exact hcases h.label hq
  | description => exact hcases h.description hq
  | tags => exact hcases h.tags hq
  | order => exact hcases h.order hq
  | parentId => exact hcases h.parent hq
  | userid => exact hcases h.userid hq
  | value =>
    have hkind := h.kind
    have hq' : p.kind.SameValue (.make mem p.kind.type) ∨ p.kind.changed .value = true := hq
    show p.kind.SameValue w.kind
    generalize w.kind = k at hkind
    generalize p.kind = j at hkind hq'
    cases hkind with
    | @value τ d d' v w' hv =>
      refine .value ?_
      by_cases hc : v.changed = true
      · rwa [if_pos hc] at hv
      · rw [if_neg hc] at hv
        rcases hq' with hq' | hc'
        · cases hq' with
          | value hrel =>
            rw [hv]
            exact hrel
        · exact absurd hc' hc
    | bang => exact .bang
    | group => exact .group
  | _ => trivial

/-- A copy that is updated with what was sent shows every option. -/
theorem matches_updated {idOf : Ref → Id} {dirty : Prop} (hp : p.Uncleared) (hq : p.Trails named dirty q)
    (hsame : ∀ g old, w.parent = some g → q.parent = some old → idOf g = idOf old → g = old)
    (htop : p.parent.bind named = none → q.parent = none) (o : OptionId) :
    Matches named p (w.updatedBy idOf q) o := by
  have hcases : ∀ {α : Type} {sent shown old : Option α} {changed : Bool}, sent = (if changed then shown else none) →
      (changed = true → shown.isSome = true ∨ old = shown) → old = shown ∨ changed = true ∧ dirty →
        sent.or old = shown := by
    intro α sent shown old changed hsent hkept hq
    rw [hsent]
    cases changed with
    | false =>
      rcases hq with rfl | hc
      · rfl
      · exact absurd hc.1 Bool.false_ne_true
    | true =>
      rw [if_pos rfl]
      cases hshown : shown with
      | some v => rfl
      | none =>
        rcases hkept rfl with hsome | hold
        · rw [hshown] at hsome
          exact absurd hsome Bool.false_ne_true
        · exact hold.trans hshown
  have htext : ∀ {t u : Text}, (u.has = true → t.has = true) → t.plain.isSome = true ∨ u.plain = t.plain := by
    intro t u hhas
    unfold Text.plain
    cases ht : t.has with
    | true => exact Or.inl rfl
    | false =>
      have hu : u.has = false := Bool.eq_false_iff.mpr fun hu => by simpa [ht] using hhas hu
      rw [hu]
      exact Or.inr rfl
  have hsome : ∀ {α : Type} {s : Slot α}, s.has = true → s.get?.isSome = true := fun hs => (Slot.isSome_get? _).trans hs
  cases o with
  | label =>
    refine (Text.plain_takeOver _ _).trans (hcases h.label (fun _ => htext hq.label) (hq.option .label))
  | description =>
    refine (Text.plain_takeOver _ _).trans
      (hcases h.description (fun _ => htext hq.description) (hq.option .description))
  | tags =>
    exact (Slot.get?_takeOver_beq _ _).trans (hcases h.tags (fun hc => Or.inl (hsome (hp.tags hc))) (hq.option .tags))
  | order =>
    exact (Slot.get?_takeOver_beq _ _).trans
      (hcases h.order (fun hc => Or.inl (hsome (hp.order hc))) (hq.option .order))
  | parentId =>
    refine (parent_updatedBy_eq hsame).trans (hcases h.parent (fun _ => ?_) (hq.option .parentId))
    cases hbind : p.parent.bind named with
    | none => exact Or.inr (htop hbind)
    | some g => exact Or.inl rfl
  | userid =>
    exact (Slot.get?_takeOver_beq _ _).trans
      (hcases h.userid (fun hc => Or.inl (hsome (hp.userid hc))) (hq.option .userid))
  | value =>
    have hkind := h.kind
    have htype := hq.type
    have hold : p.kind.SameValue q.kind ∨ p.kind.changed .value = true ∧ dirty := hq.option .value
    have hkept := hp.value
    show p.kind.SameValue (w.kind.takeOver q.kind)
    generalize w.kind = k at hkind
    generalize q.kind = c at htype hold
    generalize p.kind = j at hkind htype hold hkept
    cases hkind with
    | @value τ d d' v w' hv =>
      cases c with
      | value σ e u =>
        obtain rfl : σ = τ := ParameterType.value.inj htype
        have htake : Kind.takeOver (.value σ d' w') (.value σ e u) = .value σ e (w'.takeOver σ.eqv u) := by
          simp [Kind.takeOver]
        rw [htake]
        refine .value ?_
        by_cases hc : v.changed = true
        · rw [if_pos hc] at hv
          rw [Slot.get?_takeOver]
          have hsome : v.get?.isSome = true := by simpa [Kind.observe] using hkept hc
          obtain ⟨a, ha⟩ := Option.isSome_iff_exists.mp hsome
          rw [ha] at hv ⊢
          cases hw : w'.get? with
          | none => rw [hw] at hv; cases hv
          | some b =>
            rw [hw] at hv
            cases hv with
            | some hab => exact .some (hab.stored _)
        · rw [if_neg hc] at hv
          have hsame : w'.takeOver σ.eqv u = u := by rw [Slot.takeOver, hv]; rfl
          rw [hsame]
          rcases hold with hold | hc'
          · cases hold with
            | value hrel => exact hrel
          · exact absurd hc'.1 hc
      | bang | group | invalid => exact absurd htype ParameterType.noConfusion
    | bang =>
      cases c with
      | bang => exact .bang
      | value | group | invalid => exact absurd htype ParameterType.noConfusion
    | group =>
      cases c with
      | group => exact .group
      | value | bang | invalid => exact absurd htype ParameterType.noConfusion
  | _ => trivial

end Sent

/-! ### Sending -/

/-- What is read of the full form of an update. -/
theorem sent_full (hp : p.Readable) (hu : p.Uncleared) {mem : Memory} {k : Kind}
    (hk : Kind.Received mem false p.kind k) (named : Ref → Option Ref) :
    p.Sent named (p.receiveOptions false (if p.parentChanged then p.parent.bind named else none)
      (.proxy mem p.parameterId k)) where
  id := rfl
  kind := by
    have hvalue := hu.value
    show p.kind.Sends k
    generalize p.kind = j at hk hvalue
    cases hk with
    | @value τ d d' v hd =>
      have hv : v.changed = true → v.has = true := fun hc => by simpa [Kind.observe] using hvalue hc
      refine .value ?_
      rw [Slot.get?_receive rfl, Slot.sent_update hv]
      cases v.changed with
      | false => rfl
      | true =>
        show Option.Rel τ.Same v.get? v.get?
        cases v.get? with
        | none => exact .none
        | some a => exact .some (Or.inl rfl)
    | bang => exact .bang
    | group => exact .group
  label := Text.plain_receive hp.label
  description := Text.plain_receive hp.description
  tags := (Slot.get?_receive rfl _).trans (Slot.sent_update hu.tags _)
  order := (Slot.get?_receive rfl _).trans (Slot.sent_update hu.order _)
  parent := rfl
  userid := (Slot.get?_receive rfl _).trans (Slot.sent_update hu.userid _)
  uncleared := by
    -- a reader marks nothing
    have hslot : ∀ {α : Type} {s : Slot α} {v : Option α}, (s.receive v).changed = s.changed := by
      intro α s v
      cases v <;> rfl
    refine ⟨fun hc => ?_, fun hc => ?_, fun hc => ?_, fun hc => ?_, fun hc => absurd hc Bool.false_ne_true, rfl⟩
    · exact absurd (hslot.symm.trans hc) Bool.false_ne_true
    · exact absurd (hslot.symm.trans hc) Bool.false_ne_true
    · exact absurd (hslot.symm.trans hc) Bool.false_ne_true
    · have hc' : k.changed .value = true := hc
      generalize p.kind = j at hk
      cases hk with
      | value => exact absurd (hslot.symm.trans hc') Bool.false_ne_true
      | bang | group => exact absurd hc' Bool.false_ne_true

/-- What is read of the short form. -/
theorem sent_short (ho : p.onlyValueChanged = true) {τ : ValueType} {d : TypeDefinition τ} {v : Slot τ.Val}
    (hk : p.kind = .value τ d v) (hv : v.has = true) (mem : Memory) (named : Ref → Option Ref) :
    p.Sent named (shortProxy mem p.parameterId τ v.content) := by
  obtain ⟨b, hproxy⟩ := shortProxy_eq mem p.parameterId τ v.content
  have hunchanged : ∀ o, o ≠ .value → ¬p.changed o = true := fun o ho' hc =>
    ho' (changed_eq_of_onlyValueChanged ho hc)
  have hsame : τ.Same v.content v.content := Or.inl rfl
  have hvalue : v.changed = true := by
    simp only [onlyValueChanged, hk, Bool.and_eq_true] at ho
    exact ho.2
  rw [hproxy]
  refine ⟨rfl, ?_, ?_, ?_, ?_, ?_, ?_, ?_, ?_⟩
  · rw [hk]
    refine .value ?_
    rw [if_pos hvalue, Slot.get?, if_pos hv, Slot.get?, if_pos rfl]
    exact .some (hsame.stored _)
  · exact (if_neg (hunchanged .label (by simp))).symm
  · exact (if_neg (hunchanged .description (by simp))).symm
  · exact (if_neg (hunchanged .tags (by simp))).symm
  · exact (if_neg (hunchanged .order (by simp))).symm
  · exact (if_neg (hunchanged .parentId (by simp))).symm
  · exact (if_neg (hunchanged .userid (by simp))).symm
  · have hf : ∀ {P : Prop}, false = true → P := fun h => absurd h Bool.false_ne_true
    exact ⟨hf, hf, hf, fun _ => rfl, hf, rfl⟩

/-! ### Setters -/

theorem Text.plain_of_get? {t t' : Text} (h : t'.get? = t.get?) : t'.plain = t.plain := by
  have hplain : ∀ u : Text, u.plain = u.get?.bind Prod.fst := by
    intro u
    unfold Text.plain Text.get? Text.present
    cases u.has <;> cases u.languages.isEmpty <;> rfl
  rw [hplain, hplain, h]

/-- What a copy shows is compared with what is observed. -/
theorem Matches.of_observe {p' : Parameter} {o : OptionId} (ht : p'.kind.type = p.kind.type)
    (ho : p'.observe o = p.observe o) (h : Matches named p q o) : Matches named p' q o := by
  have hinj : ∀ {α : Type} {f : α → Content} {x y : Option α}, Function.Injective f → x.map f = y.map f → x = y :=
    fun hf hxy => Option.map_injective hf hxy
  have htext : Function.Injective fun c : Option Bytes × Std.ExtTreeMap Bytes Bytes => Content.text c.1 c.2 :=
    fun _ _ hc => Prod.ext (Content.text.inj hc).1 (Content.text.inj hc).2
  cases o with
  | label => exact h.trans (Text.plain_of_get? (hinj htext ho)).symm
  | description => exact h.trans (Text.plain_of_get? (hinj htext ho)).symm
  | tags => exact h.trans (hinj (fun _ _ hc => Content.string.inj hc) ho).symm
  | order => exact h.trans (hinj (fun _ _ hc => Content.order.inj hc) ho).symm
  | parentId =>
    have hparent : p'.parent = p.parent := hinj (fun _ _ hc => Content.parent.inj hc) ho
    exact h.trans (congrArg (Option.bind · named) hparent).symm
  | userid => exact h.trans (hinj (fun _ _ hc => Content.string.inj hc) ho).symm
  | value =>
    have ho' : p'.kind.observe .value = p.kind.observe .value := ho
    have h' : p.kind.SameValue q.kind := h
    show p'.kind.SameValue q.kind
    generalize p'.kind = k' at ht ho' ⊢
    generalize p.kind = k at ht ho' h'
    generalize q.kind = c at h' ⊢
    cases h' with
    | @value τ d e v u hv =>
      cases k' with
      | value σ d' v' =>
        obtain rfl : σ = τ := ParameterType.value.inj ht
        have hget : v'.get? = v.get? := hinj (fun _ _ hc => eq_of_heq (Content.value.inj hc).2) ho'
        refine .value ?_
        rw [hget]
        exact hv
      | bang | group | invalid => exact absurd ht ParameterType.noConfusion
    | bang =>
      cases k' with
      | bang => exact .bang
      | value | group | invalid => exact absurd ht ParameterType.noConfusion
    | group =>
      cases k' with
      | group => exact .group
      | value | bang | invalid => exact absurd ht ParameterType.noConfusion
  | _ => trivial

end Parameter

/-- The setters that take nothing away from what is sent. -/
def Setter.adds : Setter → Bool
  | .label .clear | .description .clear | .clearTags | .clearOrder | .clearUserid | .clearValue
  | .setUserdata _ => false
  | _ => true

theorem Slot.has_set {α : Type} (eqv : α → α → Bool) (v : α) (s : Slot α) : (s.set eqv v).1.has = true := by
  unfold Slot.set
  split <;> rfl

theorem Text.has_apply {t : Text} {b : TextSetter} (hb : b ≠ .clear) (ht : t.has = true) :
    (t.apply b).1.has = true := by
  cases b with
  | set s =>
    show (t.set s).1.has = true
    unfold Text.set
    split <;> rfl
  | clear => exact absurd rfl hb
  | setLanguage code s => exact ht
  | removeLanguage code =>
    show (t.removeLanguage code).1.has = true
    unfold Text.removeLanguage
    split <;> exact ht
  | clearLanguages => exact ht

theorem Kind.type_apply (k : Kind) (a : Setter) : (k.apply a).1.type = k.type := by
  cases k with
  | value τ d v =>
    cases a with
    | @setValue σ u =>
      unfold apply
      dsimp only
      split <;> rfl
    | @definition σ b =>
      unfold apply
      dsimp only
      split <;> rfl
    | _ => rfl
  | _ => cases a <;> rfl

/-- A value that has changed is still there after a setter. -/
theorem Kind.uncleared_apply {k : Kind} {a : Setter}
    (h : k.changed .value = true → (k.observe .value).isSome = true) (ha : a.adds = true) :
    (k.apply a).1.changed .value = true → ((k.apply a).1.observe .value).isSome = true := by
  cases k with
  | value τ d v =>
    cases a with
    | @setValue σ u =>
      unfold apply
      dsimp only
      split
      · next hσ =>
        intro _
        show ((Slot.set τ.eqv (hσ ▸ u) v).1.get?.map (Content.value τ)).isSome = true
        rw [Slot.get?_set]
        rfl
      · exact h
    | clearValue => exact absurd ha Bool.false_ne_true
    | @definition σ b =>
      unfold apply
      dsimp only
      split <;> exact h
    | _ => exact h
  | _ => cases a <;> exact h

theorem Kind.type_write (k : Kind) (all : Bool) : (k.write all).2.type = k.type := by cases k <;> rfl

namespace Parameter

variable {p q : Parameter} {named : Ref → Option Ref} {dirty : Bool} {a : Setter}

theorem type_write (p : Parameter) (idOf : Ref → Id) (all : Bool) : (p.write idOf all).2.kind.type = p.kind.type := by
  have hfull : (p.writeFull idOf all).2.kind.type = p.kind.type := Kind.type_write p.kind all
  unfold write
  split
  · next hk =>
    split
    · rw [hk]
      rfl
    · exact hfull
  · exact hfull

theorem type_apply (p : Parameter) (a : Setter) : (p.apply a).1.kind.type = p.kind.type := by
  cases a <;> first | rfl | exact Kind.type_apply _ _

theorem Uncleared.apply (h : p.Uncleared) (ha : a.adds = true) : (p.apply a).1.Uncleared := by
  cases a with
  | setTags s => exact { h with tags := fun _ => Slot.has_set _ s p.tags }
  | setOrder v => exact { h with order := fun _ => Slot.has_set _ v p.order }
  | setUserid s => exact { h with userid := fun _ => Slot.has_set _ s p.userid }
  | clearTags | clearOrder | clearUserid | clearValue | setUserdata => exact absurd ha Bool.false_ne_true
  | clearUserdata => exact { h with userdata := rfl }
  | label | description | setReadonly | clearReadonly => exact { h with }
  | bang | setValue | definition => exact { h with value := Kind.uncleared_apply h.value ha }

/-- A copy that shows every option trails, whatever is to be sent. -/
theorem trails_of_matches (h : ∀ o, Matches named p q o) (ht : q.kind.type = p.kind.type) (dirty : Prop) :
    p.Trails named dirty q := by
  have hplain : ∀ {t u : Text}, u.plain = t.plain → u.has = true → t.has = true := by
    intro t u hplain hu
    unfold Text.plain at hplain
    rw [if_pos hu] at hplain
    split at hplain
    · next ht => exact ht
    · simp at hplain
  exact ⟨ht, fun o => Or.inl (h o), hplain (h .label), hplain (h .description)⟩

/-! ### Steps -/

@[simp] theorem observe_childless (p : Parameter) (o : OptionId) : p.childless.observe o = p.observe o := by
  have hkind : p.kind.childless.observe o = p.kind.observe o := by cases p.kind <;> rfl
  cases o <;> first | rfl | exact hkind

@[simp] theorem changed_childless (p : Parameter) (o : OptionId) : p.childless.changed o = p.changed o := by
  have hkind : p.kind.childless.changed o = p.kind.changed o := by cases p.kind <;> rfl
  cases o <;> first | rfl | exact hkind

theorem childless_childless (p : Parameter) : p.childless.childless = p.childless := by
  have hkind : p.kind.childless.childless = p.kind.childless := by cases p.kind <;> rfl
  rw [childless, childless, hkind]

theorem type_of_childless {p' : Parameter} (h : p'.childless = p.childless) : p'.kind.type = p.kind.type := by
  have hkind : p'.kind.childless = p.kind.childless := (congrArg kind h :)
  rw [← Kind.type_childless, hkind, Kind.type_childless]

/-- A step that marks what it changes.  What is marked is to be sent if `dirty` holds. -/
structure Tracked (dirty : Prop) (p p' : Parameter) : Prop where
  type : p'.kind.type = p.kind.type
  option : ∀ o, p'.observe o = p.observe o ∨ p'.changed o = true ∧ dirty
  changed : ∀ o, p.changed o = true → p'.changed o = true
  label : p.label.has = true → p'.label.has = true
  description : p.description.has = true → p'.description.has = true

section Tracked

variable {dirty dirty' : Prop} {p' : Parameter}

/-- A setter that reports its change. -/
theorem tracked_apply {b : Bool} (ha : a.adds = true) (hr : p.reports b a = true) :
    p.Tracked (((p.apply a).2 || b) = true) (p.apply a).1 where
  type := type_apply p a
  option o := (noted_apply hr o).1
  changed o := (noted_apply hr o).2
  label hp := by
    cases a with
    | label t => exact Text.has_apply (fun ht => by simp [ht, Setter.adds] at ha) hp
    | _ => exact hp
  description hp := by
    cases a with
    | description t => exact Text.has_apply (fun ht => by simp [ht, Setter.adds] at ha) hp
    | _ => exact hp

theorem tracked_of_childless (h : p'.childless = p.childless) : p.Tracked dirty p' where
  type := type_of_childless h
  option o := Or.inl (by rw [← observe_childless, h, observe_childless])
  changed o hc := by rwa [← changed_childless, h, changed_childless]
  label hp := by
    have hlabel : p'.label = p.label := (congrArg Parameter.label h :)
    rwa [hlabel]
  description hp := by
    have hdescription : p'.description = p.description := (congrArg Parameter.description h :)
    rwa [hdescription]

/-- A copy that shows an option as before, or whose difference is to be sent. -/
theorem Tracked.matches (hm : p.Tracked dirty' p') (hd : dirty → dirty') {o : OptionId}
    (h : Matches named p q o ∨ p.changed o = true ∧ dirty) : Matches named p' q o ∨ p'.changed o = true ∧ dirty' := by
  rcases h with h | ⟨hc, hdirty⟩
  · exact (hm.option o).imp_left fun ho => h.of_observe hm.type ho
  · exact Or.inr ⟨hm.changed o hc, hd hdirty⟩

/-- A copy keeps trailing. -/
theorem Tracked.trails (hm : p.Tracked dirty' p') (hd : dirty → dirty') (h : p.Trails named dirty q) :
    p'.Trails named dirty' q where
  type := h.type.trans hm.type.symm
  option o := hm.matches hd (h.option o)
  label hq := hm.label (h.label hq)
  description hq := hm.description (h.description hq)

end Tracked

/-- Options that have not changed may have been cleared. -/
theorem Uncleared.congr {p' : Parameter} (h : p.Uncleared)
    (ho : ∀ o, p'.changed o = true → (p'.observe o).isSome = true ∨ p.changed o = true ∧ p'.observe o = p.observe o)
    (hdata : p'.observe .userdata = p.observe .userdata) : p'.Uncleared := by
  have hslot : ∀ {α : Type} {s : Slot α} {f : α → Content}, (s.get?.map f).isSome = true ↔ s.has = true := by
    intro α s f
    rw [Option.isSome_map, Slot.isSome_get?]
  have hsome : ∀ o, (p.changed o = true → (p.observe o).isSome = true) →
      p'.changed o = true → (p'.observe o).isSome = true := by
    intro o hp hc
    rcases ho o hc with hs | ⟨hc', heq⟩
    · exact hs
    · rw [heq]
      exact hp hc'
  have hnone : p'.userdata.content = [] := by
    have hp : p.observe .userdata = none := by simp [observe, Block.get?, Block.has, h.userdata]
    have hp' := hdata.trans hp
    simpa [observe, Block.get?, Block.has] using hp'
  refine ⟨fun hc => ?_, fun hc => ?_, fun hc => ?_, fun hc => hsome .value h.value hc, fun hc => ?_, hnone⟩
  · exact hslot.mp (hsome .tags (fun hc => hslot.mpr (h.tags hc)) hc)
  · exact hslot.mp (hsome .order (fun hc => hslot.mpr (h.order hc)) hc)
  · exact hslot.mp (hsome .userid (fun hc => hslot.mpr (h.userid hc)) hc)
  · have hs := hsome .parentId (fun hc => (Option.isSome_map.trans (h.parent hc) :)) hc
    rwa [show (p'.observe .parentId).isSome = p'.parent.isSome from Option.isSome_map] at hs

end Parameter

end RabbitControl
