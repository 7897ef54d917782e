import RabbitControl.UpdateLemmas

/-!
# The outcome of an update

The cached parameter after `update`, field by field, and the callbacks that were run (`updated_update`).  Everything is
read off the two parameters before the update, since the options of the cached one are set one after the other and do
not touch each other.
-/

namespace RabbitControl

open Lib

/-! ### The place in the tree -/

/-- Two states of a parameter that differ in its place in the tree only. -/
structure Parameter.Rehung (p p' : Parameter) : Prop where
  rest : p' = { p with kind := p'.kind, parent := p'.parent, parentChanged := p'.parentChanged }
  kind : p'.kind = p.kind ∨ p.isGroup = true ∧ p'.isGroup = true

namespace Parameter.Rehung

variable {p p' p'' : Parameter}

theorem refl (p : Parameter) : p.Rehung p := ⟨rfl, Or.inl rfl⟩

theorem trans (h : p.Rehung p') (k : p'.Rehung p'') : p.Rehung p'' := by
  refine ⟨k.rest.trans (by rw [h.rest]), ?_⟩
  rcases h.kind with hk | ⟨hg, hg'⟩
  · rcases k.kind with kk | ⟨kg, kg'⟩
    · exact Or.inl (kk.trans hk)
    · refine Or.inr ⟨?_, kg'⟩
      rw [Parameter.isGroup, ← hk]
      exact kg
  · rcases k.kind with kk | ⟨-, kg'⟩
    · refine Or.inr ⟨hg, ?_⟩
      rw [Parameter.isGroup, kk]
      exact hg'
    · exact Or.inr ⟨hg, kg'⟩

theorem modifyChildren (f : Std.ExtTreeMap Int16 Ref → Std.ExtTreeMap Int16 Ref) (p : Parameter) :
    p.Rehung (p.modifyChildren f) := by
  unfold Parameter.modifyChildren
  split
  · next hk =>
    refine ⟨rfl, Or.inr ⟨?_, rfl⟩⟩
    rw [Parameter.isGroup, hk]
  · exact refl p

end Parameter.Rehung

/-- A kind without the children of a group. -/
def Kind.childless : Kind → Kind
  | group _ => group ∅
  | k => k

namespace Parameter

variable {p p' q : Parameter}

/-- The record of a parameter without its children. -/
def childless (p : Parameter) : Parameter := { p with kind := p.kind.childless }

/-- Parameters that differ in their place in the tree only have the same record but for the parent. -/
theorem Rehung.childless (h : p.Rehung p') :
    p'.childless = { p.childless with parent := p'.parent, parentChanged := p'.parentChanged } := by
  have hkind : p'.kind.childless = p.kind.childless := by
    rcases h.kind with hk | ⟨hg, hg'⟩
    · rw [hk]
    · unfold isGroup at hg hg'
      split at hg
      · next hk =>
        split at hg'
        · next hk' => rw [hk, hk']; rfl
        · exact absurd hg' Bool.false_ne_true
      · exact absurd hg Bool.false_ne_true
  unfold Parameter.childless
  rw [hkind, h.rest]

@[simp] theorem childless_modifyChildren (f : Std.ExtTreeMap Int16 Ref → Std.ExtTreeMap Int16 Ref) :
    (p.modifyChildren f).childless = p.childless := by
  rw [(Rehung.modifyChildren f p).childless]
  unfold modifyChildren
  split <;> rfl

end Parameter

namespace Store

variable {s t u : Store} {r x g other : Ref}

/-- Every parameter differs in its place in the tree only. -/
def Rehung (s t : Store) : Prop := ∀ x, (s.heap x).Rehung (t.heap x)

theorem Rehung.trans (h : Rehung s t) (k : Rehung t u) : Rehung s u := fun x => (h x).trans (k x)

theorem rehung_modify {f : Parameter → Parameter} (hf : ∀ p : Parameter, p.Rehung (f p)) (s : Store) (r : Ref) :
    Rehung s (s.modify r f) := by
  intro x
  show (s.heap x).Rehung (if x = r then f (s.heap r) else s.heap x)
  split
  · next hx => rw [hx]; exact hf _
  · exact .refl _

theorem rehung_setDirty (s : Store) (r : Ref) : Rehung s (s.setDirty r) := by
  intro x
  rw [heap_setDirty]
  exact .refl _

theorem rehung_removeChild (s : Store) (g r : Ref) : Rehung s (s.removeChild g r) := by
  unfold removeChild clearParent
  split
  · refine ((rehung_modify (fun p => ?_) s r).trans (rehung_setDirty _ r)).trans
      (rehung_modify (Parameter.Rehung.modifyChildren _) _ g)
    exact ⟨rfl, Or.inl rfl⟩
  · exact fun x => .refl _

theorem rehung_addChild (s : Store) (g r : Ref) : Rehung s (s.addChild g r) := by
  have henter : Rehung s (s.enterChild g r) := by
    unfold enterChild
    split
    · exact fun x => .refl _
    · exact rehung_modify (Parameter.Rehung.modifyChildren _) s g
  have hfinish : ∀ t : Store,
      Rehung t ((t.modify r fun p => { p with parent := some g, parentChanged := true }).setDirty r) := by
    intro t
    refine (rehung_modify (fun p => ?_) t r).trans (rehung_setDirty _ r)
    exact ⟨rfl, Or.inl rfl⟩
  rw [addChild_eq]
  refine henter.trans ?_
  unfold setParent
  dsimp only
  split
  · split
    · exact fun x => .refl _
    · exact (rehung_removeChild _ _ _).trans (hfinish _)
  · exact hfinish _

/-- The parent that a parameter has after it was put into a group, and whether it got a new one. -/
theorem parentState_addChild (s : Store) (g r : Ref) :
    ((s.addChild g r).heap r).parent =
        (match (s.heap r).parent with
          | some p => if s.idOf g = s.idOf p then some p else some g
          | none => some g) ∧
      (((s.addChild g r).heap r).parentChanged = true ↔
        (s.heap r).parentChanged = true ∨ ∀ p, (s.heap r).parent = some p → s.idOf g ≠ s.idOf p) := by
  by_cases h : ∃ p, s.parent r = some p ∧ s.idOf g = s.idOf p
  · obtain ⟨p, hp, hid⟩ := h
    have hp' : (s.heap r).parent = some p := hp
    rw [addChild_of_same hp hid, parentChanged_enterChild, hp']
    dsimp only
    rw [if_pos hid]
    refine ⟨(parent_enterChild s g r r).trans hp, ?_⟩
    simp [hid]
  · have hne : ∀ p, s.parent r = some p → s.idOf g ≠ s.idOf p := fun p hp hid => h ⟨p, hp, hid⟩
    have hm := moved_addChild hne
    refine ⟨?_, ?_⟩
    · have hparent : ((s.addChild g r).heap r).parent = some g := by
        have hx := hm.parent r
        rwa [if_pos rfl] at hx
      rw [hparent]
      split
      · next p hp => rw [if_neg (hne p hp)]
      · rfl
    · rw [hm.parentChanged]
      exact iff_of_true (Or.inl rfl) (Or.inr hne)

end Store

/-! ### Options that are taken over -/

/-- The cached text after an update from another one; the texts of the languages are not looked at. -/
def Text.takeOver (other t : Text) : Text := if other.has then (t.set other.content).1 else t

/-- The cached content after an update from another one. -/
def Slot.takeOver {α : Type} (eqv : α → α → Bool) (other t : Slot α) : Slot α :=
  other.get?.elim t fun v => (t.set eqv v).1

def Block.takeOver {α : Type} (other t : Block α) : Block α := other.get?.elim t fun v => (t.set v).1

/-- The cached parameter `p` after an update from `q`. -/
structure Parameter.Updated (idOf : Ref → Id) (q p p' : Parameter) : Prop where
  label : p'.label = q.label.takeOver p.label
  description : p'.description = q.description.takeOver p.description
  tags : p'.tags = q.tags.takeOver (· == ·) p.tags
  order : p'.order = q.order.takeOver (· == ·) p.order
  parent : p'.parent = match q.parent, p.parent with
    | none, old => old
    | some g, none => some g
    | some g, some old => if idOf g = idOf old then some old else some g
  parentChanged : p'.parentChanged = true ↔ p.parentChanged = true ∨
    ∃ g, q.parent = some g ∧ ∀ old, p.parent = some old → idOf g ≠ idOf old
  userdata : p'.userdata = q.userdata.takeOver p.userdata
  userid : p'.userid = q.userid.takeOver (· == ·) p.userid
  readonly : p'.readonly = q.readonly.takeOver (· == ·) p.readonly
  value : ∀ {τ : ValueType} {d d' : TypeDefinition τ} {c v : Slot τ.Val}, p.kind = .value τ d c →
    q.kind = .value τ d' v → p'.kind = .value τ d (v.takeOver τ.eqv c)
  plain : (∀ τ d c, p.kind ≠ .value τ d c) → p'.kind = p.kind ∨ p.isGroup = true ∧ p'.isGroup = true

/-- The kind after an update: a value of the same type is taken over. -/
def Kind.takeOver (other k : Kind) : Kind :=
  match other, k with
  | .value σ _ v, .value τ d c => if h : σ = τ then .value τ d (Slot.takeOver τ.eqv (h ▸ v) c) else k
  | _, _ => k

/-- The parameter `p` after an update from a parameter without a parent. -/
def Parameter.takeOver (other p : Parameter) : Parameter :=
  { p with
    kind := other.kind.takeOver p.kind
    label := other.label.takeOver p.label
    description := other.description.takeOver p.description
    tags := other.tags.takeOver (· == ·) p.tags
    order := other.order.takeOver (· == ·) p.order
    userdata := other.userdata.takeOver p.userdata
    userid := other.userid.takeOver (· == ·) p.userid
    readonly := other.readonly.takeOver (· == ·) p.readonly }

/-- The parameter `p` after an update from `q`, but for its children. -/
def Parameter.updatedBy (idOf : Ref → Id) (q p : Parameter) : Parameter :=
  { q.takeOver p with
    parent := match q.parent, p.parent with
      | none, old => old
      | some g, none => some g
      | some g, some old => if idOf g = idOf old then some old else some g
    parentChanged := p.parentChanged || match q.parent, p.parent with
      | none, _ => false
      | some _, none => true
      | some g, some old => idOf g != idOf old }

/-- Groups with the same id are the same. -/
theorem Parameter.parent_updatedBy_eq {idOf : Ref → Id} {q p : Parameter}
    (hsame : ∀ g old, q.parent = some g → p.parent = some old → idOf g = idOf old → g = old) :
    (q.updatedBy idOf p).parent = q.parent.or p.parent := by
  unfold Parameter.updatedBy
  cases hg : q.parent with
  | none => rfl
  | some g =>
    cases hold : p.parent with
    | none => rfl
    | some old =>
      dsimp only
      split
      · next hid =>
        rw [hsame g old hg hold hid]
        rfl
      · rfl

/-- Whether one of the options that `q` has is marked as changed in `p`. -/
def Parameter.flagged (q p : Parameter) : Bool :=
  q.label.has && p.label.changed || q.description.has && p.description.changed || q.tags.has && p.tags.changed ||
    q.order.has && p.order.changed || q.parent.isSome && p.parentChanged || q.userdata.has && p.userdata.changed ||
    q.userid.has && p.userid.changed || q.readonly.has && p.readonly.changed

namespace Store

variable {s t u : Store} {r x g other : Ref}

theorem updateOption_spec {α : Type} (r : Ref) (o : Option α) (setter : α → Setter) (changed : Parameter → Bool)
    (w : Store × Bool) :
    (updateOption r o setter changed w).1.heap r = o.elim (w.1.heap r) (fun v => ((w.1.heap r).apply (setter v)).1) ∧
      (updateOption r o setter changed w).2 =
        (w.2 || o.isSome && changed ((updateOption r o setter changed w).1.heap r)) := by
  cases o with
  | none => simp [updateOption]
  | some v => simp [updateOption, heap_set]

/-- The options before the parent. -/
private theorem head_spec (q : Parameter) (r : Ref) (w : Store × Bool) :
    let w' := updateOption r q.order.get? .setOrder (·.order.changed)
      (updateOption r q.tags.get? .setTags (·.tags.changed)
        (updateOption r (if q.description.has then some q.description.content else none) (.description <| .set ·)
          (·.description.changed)
          (updateOption r (if q.label.has then some q.label.content else none) (.label <| .set ·)
            (·.label.changed) w)))
    Assigned r w.1 w'.1 ∧ w'.1.heap r = { w.1.heap r with
        label := q.label.takeOver (w.1.heap r).label
        description := q.description.takeOver (w.1.heap r).description
        tags := q.tags.takeOver (· == ·) (w.1.heap r).tags
        order := q.order.takeOver (· == ·) (w.1.heap r).order } ∧
      w'.2 = (w.2 || q.label.has && (w'.1.heap r).label.changed || q.description.has && (w'.1.heap r).description.changed ||
        q.tags.has && (w'.1.heap r).tags.changed || q.order.has && (w'.1.heap r).order.changed) := by
  dsimp only
  set w1 := updateOption r (if q.label.has then some q.label.content else none) (.label <| .set ·)
    (·.label.changed) w with e1
  set w2 := updateOption r (if q.description.has then some q.description.content else none) (.description <| .set ·)
    (·.description.changed) w1 with e2
  set w3 := updateOption r q.tags.get? .setTags (·.tags.changed) w2 with e3
  set w4 := updateOption r q.order.get? .setOrder (·.order.changed) w3 with e4
  have h1 : w1.1.heap r = { w.1.heap r with label := q.label.takeOver (w.1.heap r).label } := by
    rw [e1, (updateOption_spec ..).1]
    unfold Text.takeOver
    cases q.label.has <;> rfl
  have h2 : w2.1.heap r = { w1.1.heap r with description := q.description.takeOver (w1.1.heap r).description } := by
    rw [e2, (updateOption_spec ..).1]
    unfold Text.takeOver
    cases q.description.has <;> rfl
  have h3 : w3.1.heap r = { w2.1.heap r with tags := q.tags.takeOver (· == ·) (w2.1.heap r).tags } := by
    rw [e3, (updateOption_spec ..).1]
    unfold Slot.takeOver
    cases q.tags.get? <;> rfl
  have h4 : w4.1.heap r = { w3.1.heap r with order := q.order.takeOver (· == ·) (w3.1.heap r).order } := by
    rw [e4, (updateOption_spec ..).1]
    unfold Slot.takeOver
    cases q.order.get? <;> rfl
  have b1 := (updateOption_spec r (if q.label.has then some q.label.content else none) (.label <| .set ·)
    (·.label.changed) w).2
  have b2 := (updateOption_spec r (if q.description.has then some q.description.content else none)
    (.description <| .set ·) (·.description.changed) w1).2
  have b3 := (updateOption_spec r q.tags.get? .setTags (·.tags.changed) w2).2
  have b4 := (updateOption_spec r q.order.get? .setOrder (·.order.changed) w3).2
  rw [← e1] at b1
  rw [← e2, b1] at b2
  rw [← e3, b2] at b3
  rw [← e4, b3] at b4
  have hassigned : Assigned r w.1 w4.1 :=
    (assigned_updateOption ..).trans ((assigned_updateOption ..).trans ((assigned_updateOption ..).trans
      (assigned_updateOption ..)))
  refine ⟨hassigned, by rw [h4, h3, h2, h1], ?_⟩
  rw [b4, h4, h3, h2, h1]
  have hsome : ∀ (b : Bool) (x : Bytes), (if b then some x else none).isSome = b := by
    intro b x
    cases b <;> rfl
  simp only [hsome, Slot.isSome_get?, Bool.or_assoc]

/-- The options after the parent. -/
private theorem tail_spec (q : Parameter) (r : Ref) (w : Store × Bool) :
    let w' := updateOption r q.readonly.get? .setReadonly (·.readonly.changed)
      (updateOption r q.userid.get? .setUserid (·.userid.changed)
        (updateOption r q.userdata.get? .setUserdata (·.userdata.changed) w))
    w'.1.heap r = { w.1.heap r with
        userdata := q.userdata.takeOver (w.1.heap r).userdata
        userid := q.userid.takeOver (· == ·) (w.1.heap r).userid
        readonly := q.readonly.takeOver (· == ·) (w.1.heap r).readonly } ∧
      w'.2 = (w.2 || q.userdata.has && (w'.1.heap r).userdata.changed || q.userid.has && (w'.1.heap r).userid.changed ||
        q.readonly.has && (w'.1.heap r).readonly.changed) := by
  dsimp only
  set w1 := updateOption r q.userdata.get? .setUserdata (·.userdata.changed) w with e1
  set w2 := updateOption r q.userid.get? .setUserid (·.userid.changed) w1 with e2
  set w3 := updateOption r q.readonly.get? .setReadonly (·.readonly.changed) w2 with e3
  have h1 : w1.1.heap r = { w.1.heap r with userdata := q.userdata.takeOver (w.1.heap r).userdata } := by
    rw [e1, (updateOption_spec ..).1]
    unfold Block.takeOver
    cases q.userdata.get? <;> rfl
  have h2 : w2.1.heap r = { w1.1.heap r with userid := q.userid.takeOver (· == ·) (w1.1.heap r).userid } := by
    rw [e2, (updateOption_spec ..).1]
    unfold Slot.takeOver
    cases q.userid.get? <;> rfl
  have h3 : w3.1.heap r = { w2.1.heap r with readonly := q.readonly.takeOver (· == ·) (w2.1.heap r).readonly } := by
    rw [e3, (updateOption_spec ..).1]
    unfold Slot.takeOver
    cases q.readonly.get? <;> rfl
  have b1 := (updateOption_spec r q.userdata.get? .setUserdata (·.userdata.changed) w).2
  have b2 := (updateOption_spec r q.userid.get? .setUserid (·.userid.changed) w1).2
  have b3 := (updateOption_spec r q.readonly.get? .setReadonly (·.readonly.changed) w2).2
  rw [← e1] at b1
  rw [← e2, b1] at b2
  rw [← e3, b2] at b3
  refine ⟨by rw [h3, h2, h1], ?_⟩
  rw [b3, h3, h2, h1]
  simp only [Slot.isSome_get?, Block.isSome_get?]

/-- The parent in a row of options. -/
private def takeParent (r : Ref) (o : Option Ref) (w : Store × Bool) : Store × Bool :=
  match o with
  | none => w
  | some g => (w.1.addChild g r, w.2 || ((w.1.addChild g r).heap r).parentChanged)

private theorem parent_spec (o : Option Ref) (r : Ref) (w : Store × Bool) :
    let w' := takeParent r o w
    (w.1.heap r).Rehung (w'.1.heap r) ∧
      (w'.1.heap r).parent = (match o, (w.1.heap r).parent with
        | none, old => old
        | some g, none => some g
        | some g, some old => if w.1.idOf g = w.1.idOf old then some old else some g) ∧
      ((w'.1.heap r).parentChanged = true ↔ (w.1.heap r).parentChanged = true ∨
        ∃ g, o = some g ∧ ∀ old, (w.1.heap r).parent = some old → w.1.idOf g ≠ w.1.idOf old) ∧
      w'.2 = (w.2 || o.isSome && (w'.1.heap r).parentChanged) := by
  cases o with
  | none => simp [takeParent, Parameter.Rehung.refl]
  | some g =>
    dsimp only [takeParent]
    obtain ⟨hparent, hchanged⟩ := parentState_addChild w.1 g r
    refine ⟨rehung_addChild w.1 g r r, ?_, ?_, rfl⟩
    · rw [hparent]
      cases (w.1.heap r).parent <;> rfl
    · rw [hchanged]
      simp

/-- The value. -/
private theorem value_spec (hne : other ≠ r) :
    let p := s.heap r
    let p' := (s.updateValue r other).1.heap r
    p' = { p with kind := p'.kind } ∧ (s.updateValue r other).1.heap other = s.heap other ∧
      (∀ {τ : ValueType} {d d' : TypeDefinition τ} {c v : Slot τ.Val}, p.kind = .value τ d c →
        (s.heap other).kind = .value τ d' v → p'.kind = .value τ d (v.takeOver τ.eqv c) ∧
          (s.updateValue r other).2 = if v.has && (v.takeOver τ.eqv c).changed then [.valueUpdated] else []) ∧
      ((∀ τ d c, p.kind ≠ .value τ d c) → p'.kind = p.kind ∧ (s.updateValue r other).2 = []) := by
  dsimp only
  refine ⟨?_, (assigned_updateValue s r other).other hne, ?_, ?_⟩
  · unfold updateValue
    split
    · split
      · split
        · rfl
        · rw [heap_set, if_pos rfl]
          rfl
      · rfl
    · rfl
  · intro τ d d' c v hp hq
    cases hv : v.get? with
    | none =>
      have hupdate : s.updateValue r other = (s, []) := by
        unfold updateValue
        rw [hp, hq]
        simp [hv]
      have hhas : v.has = false := by rw [← Slot.isSome_get?, hv]; rfl
      rw [hupdate, hp, Slot.takeOver, hv, hhas]
      exact ⟨rfl, rfl⟩
    | some x =>
      have hhas : v.has = true := by rw [← Slot.isSome_get?, hv]; rfl
      have hheap : (s.set r (.setValue x)).heap r = { s.heap r with kind := .value τ d (Slot.set τ.eqv x c).1 } := by
        rw [heap_set, if_pos rfl, Parameter.apply_setValue hp]
      have hupdate : s.updateValue r other = (s.set r (.setValue x),
          if ((s.set r (.setValue x)).heap r).changed .value then [.valueUpdated] else []) := by
        unfold updateValue
        rw [hp, hq]
        simp [hv]
      rw [hupdate, Slot.takeOver, hv, hhas]
      refine ⟨by rw [hheap]; rfl, ?_⟩
      dsimp only
      rw [hheap]
      rfl
  · intro hplain
    have hupdate : s.updateValue r other = (s, []) := by
      unfold updateValue
      split
      · next h _ => exact absurd h (hplain _ _ _)
      · rfl
    rw [hupdate]
    exact ⟨rfl, rfl⟩

/-- What `updateBase` makes of the cached parameter, and whether it reports an update. -/
private theorem updateBase_spec (s : Store) (r other : Ref) :
    let q := s.heap other
    let p := s.heap r
    let p' := (s.updateBase r other).1.heap r
    (∃ p₅, Parameter.Rehung { p with
          label := q.label.takeOver p.label
          description := q.description.takeOver p.description
          tags := q.tags.takeOver (· == ·) p.tags
          order := q.order.takeOver (· == ·) p.order } p₅ ∧
        p' = { p₅ with
          userdata := q.userdata.takeOver p.userdata
          userid := q.userid.takeOver (· == ·) p.userid
          readonly := q.readonly.takeOver (· == ·) p.readonly }) ∧
      p'.parent = (match q.parent, p.parent with
        | none, old => old
        | some g, none => some g
        | some g, some old => if s.idOf g = s.idOf old then some old else some g) ∧
      (p'.parentChanged = true ↔ p.parentChanged = true ∨
        ∃ g, q.parent = some g ∧ ∀ old, p.parent = some old → s.idOf g ≠ s.idOf old) ∧
      (s.updateBase r other).2 = if q.flagged p' then [.updated] else [] := by
  dsimp only
  set q := s.heap other
  obtain ⟨hassigned, hhead, bhead⟩ := head_spec q r (s, false)
  set w4 := updateOption r q.order.get? .setOrder (·.order.changed)
    (updateOption r q.tags.get? .setTags (·.tags.changed)
      (updateOption r (if q.description.has then some q.description.content else none) (.description <| .set ·)
        (·.description.changed)
        (updateOption r (if q.label.has then some q.label.content else none) (.label <| .set ·)
          (·.label.changed) (s, false)))) with e4
  have hid : ∀ x, w4.1.idOf x = s.idOf x := hassigned.sameTree.idOf
  obtain ⟨hrehung, hparent, hchanged, bparent⟩ := parent_spec q.parent r w4
  set w5 := takeParent r q.parent w4 with e5
  obtain ⟨htail, btail⟩ := tail_spec q r w5
  set w8 := updateOption r q.readonly.get? .setReadonly (·.readonly.changed)
    (updateOption r q.userid.get? .setUserid (·.userid.changed)
      (updateOption r q.userdata.get? .setUserdata (·.userdata.changed) w5)) with e8
  have hbase : s.updateBase r other = (w8.1, if w8.2 then [.updated] else []) := by
    rw [e8, e5, e4]
    unfold updateBase takeParent
    rfl
  rw [hbase]
  rw [hhead] at hrehung
  have hrest := hrehung.rest
  have huserdata : (w5.1.heap r).userdata = (s.heap r).userdata := by rw [hrest]
  have huserid : (w5.1.heap r).userid = (s.heap r).userid := by rw [hrest]
  have hreadonly : (w5.1.heap r).readonly = (s.heap r).readonly := by rw [hrest]
  rw [huserdata, huserid, hreadonly] at htail
  refine ⟨⟨w5.1.heap r, hrehung, htail⟩, ?_, ?_, ?_⟩
  · rw [htail]
    dsimp only
    rw [hparent, hhead]
    simp only [hid]
  · rw [htail]
    dsimp only
    rw [hchanged, hhead]
    simp only [hid]
  · have hlabel : (w8.1.heap r).label = (w4.1.heap r).label := by rw [htail, hrest, hhead]
    have hdescription : (w8.1.heap r).description = (w4.1.heap r).description := by rw [htail, hrest, hhead]
    have htags : (w8.1.heap r).tags = (w4.1.heap r).tags := by rw [htail, hrest, hhead]
    have horder : (w8.1.heap r).order = (w4.1.heap r).order := by rw [htail, hrest, hhead]
    have hparent' : (w8.1.heap r).parentChanged = (w5.1.heap r).parentChanged := by rw [htail]
    have hflagged : w8.2 = q.flagged (w8.1.heap r) := by
      rw [btail, bparent, bhead, Bool.false_or, ← hlabel, ← hdescription, ← htags, ← horder, ← hparent']
      rfl
    rw [hflagged]

/-- The callback of a value is run if the value is marked as changed. -/
theorem callbacks_updateValue (hne : other ≠ r) {τ : ValueType} {d d' : TypeDefinition τ} {c v : Slot τ.Val}
    (hp : (s.heap r).kind = .value τ d c) (hq : (s.heap other).kind = .value τ d' v) :
    (s.updateValue r other).2 = if v.has && (v.takeOver τ.eqv c).changed then [.valueUpdated] else [] :=
  ((value_spec hne).2.2.1 hp hq).2

theorem callbacks_updateValue_plain (hne : other ≠ r) (hp : ∀ τ d c, (s.heap r).kind ≠ .value τ d c) :
    (s.updateValue r other).2 = [] :=
  ((value_spec hne).2.2.2 hp).2

/-- An update takes the options of the other parameter over, and reports those that are marked as changed. -/
theorem updated_update (hne : other ≠ r) (hid : s.idOf other = s.idOf r) :
    Parameter.Updated s.idOf (s.heap other) (s.heap r) ((s.update r other).1.heap r) ∧
      (s.update r other).2 = (s.updateValue r other).2 ++
        if (s.heap other).flagged ((s.update r other).1.heap r) then [.updated] else [] := by
  obtain ⟨hvalue, hother, hkind, hplain⟩ := value_spec (s := s) hne
  have hsame : ∀ x, (s.updateValue r other).1.idOf x = s.idOf x := (assigned_updateValue s r other).sameTree.idOf
  have hupdate : s.update r other =
      (((s.updateValue r other).1.updateBase r other).1,
        (s.updateValue r other).2 ++ ((s.updateValue r other).1.updateBase r other).2) := by
    unfold update
    rw [if_neg hne, if_pos hid]
  obtain ⟨⟨p, hrehung, hp'⟩, hparent, hchanged, hreport⟩ := updateBase_spec (s.updateValue r other).1 r other
  rw [hother] at hrehung hp' hparent hchanged hreport
  rw [hupdate]
  dsimp only
  set p' := ((s.updateValue r other).1.updateBase r other).1.heap r
  refine ⟨?_, by rw [hreport]⟩
  rw [hvalue] at hrehung hp' hparent hchanged
  have hrest := hrehung.rest
  constructor
  · rw [hp', hrest]
  · rw [hp', hrest]
  · rw [hp', hrest]
  · rw [hp', hrest]
  · rw [hparent]
    simp only [hsame]
  · rw [hchanged]
    simp only [hsame]
  · rw [hp']
  · rw [hp']
  · rw [hp']
  · intro τ d d' c v hp hq
    have hk := (hkind hp hq).1
    rcases hrehung.kind with h | ⟨h, -⟩
    · rw [hp']
      exact h.trans hk
    · rw [Parameter.isGroup] at h
      dsimp only at h
      rw [hk] at h
      exact absurd h Bool.false_ne_true
  · intro hno
    have hk := (hplain hno).1
    rw [hp']
    rcases hrehung.kind with h | ⟨h, h'⟩
    · exact Or.inl (h.trans hk)
    · refine Or.inr ⟨?_, h'⟩
      rw [Parameter.isGroup] at h ⊢
      dsimp only at h
      rwa [hk] at h

/-- A value is taken over from a parameter of the same type only. -/
theorem kind_updateValue (hne : other ≠ r) :
    ((s.updateValue r other).1.heap r).kind = (s.heap other).kind.takeOver (s.heap r).kind := by
  obtain ⟨-, -, hsame, -⟩ := value_spec (s := s) hne
  cases hq : (s.heap other).kind with
  | value σ d' v =>
    cases hp : (s.heap r).kind with
    | value τ d c =>
      by_cases h : σ = τ
      · subst h
        rw [(hsame hp hq).1, Kind.takeOver, dif_pos rfl]
      · have hupdate : s.updateValue r other = (s, []) := by
          unfold updateValue
          rw [hp, hq]
          exact if_neg h
        rw [hupdate, hp, Kind.takeOver, dif_neg h]
    | _ => rw [updateValue, hp]; exact hp
  | _ =>
    rw [updateValue, hq]
    cases hp : (s.heap r).kind <;> exact hp

/-- The record of the updated parameter. -/
theorem childless_update (hne : other ≠ r) (hid : s.idOf other = s.idOf r) :
    ((s.update r other).1.heap r).childless = (Parameter.updatedBy s.idOf (s.heap other) (s.heap r)).childless := by
  obtain ⟨hvalue, hother, -, -⟩ := value_spec (s := s) hne
  rw [kind_updateValue hne] at hvalue
  have hsame : ∀ x, (s.updateValue r other).1.idOf x = s.idOf x := (assigned_updateValue s r other).sameTree.idOf
  have hupdate : (s.update r other).1 = ((s.updateValue r other).1.updateBase r other).1 := by
    unfold update
    rw [if_neg hne, if_pos hid]
  obtain ⟨⟨p, hrehung, hp'⟩, hparent, hchanged, -⟩ := updateBase_spec (s.updateValue r other).1 r other
  rw [hother] at hrehung hp' hparent hchanged
  rw [hvalue] at hrehung hp' hparent hchanged
  rw [hupdate]
  set p' := ((s.updateValue r other).1.updateBase r other).1.heap r
  have hover : ((s.heap other).takeOver (s.heap r)).Rehung p' := by
    refine ⟨?_, ?_⟩
    · rw [hp', hrehung.rest]
      rfl
    · rw [hp']
      exact hrehung.kind
  have hmoved : p'.parentChanged = (Parameter.updatedBy s.idOf (s.heap other) (s.heap r)).parentChanged := by
    rw [Bool.eq_iff_iff, hchanged]
    unfold Parameter.updatedBy
    simp only [hsame, Bool.or_eq_true]
    refine or_congr_right ?_
    cases (s.heap other).parent <;> cases (s.heap r).parent <;> simp
  rw [hover.childless, hparent, hmoved]
  simp only [hsame]
  rfl

theorem heap_update_of_ne (hparent : (s.heap other).parent = none) (hx : x ≠ r) :
    (s.update r other).1.heap x = s.heap x := by
  by_cases hne : other = r
  · rw [update, if_pos hne]
  by_cases hid : s.idOf other = s.idOf r
  · obtain ⟨u, v, hu, hv, ht⟩ := update_cases hne hid
    rw [show s.parent other = none from hparent] at hv
    rw [ht.other hx, hv]
    exact hu.other hx
  · rw [update, if_neg hne, if_neg hid]

theorem heap_update_of_parentless (hne : other ≠ r) (hid : s.idOf other = s.idOf r)
    (hparent : (s.heap other).parent = none) :
    (s.update r other).1.heap r = (s.heap other).takeOver (s.heap r) := by
  obtain ⟨hvalue, hother, -, -⟩ := value_spec (s := s) hne
  rw [kind_updateValue hne] at hvalue
  unfold update
  rw [if_neg hne, if_pos hid]
  dsimp only
  unfold updateBase
  dsimp only
  rw [hother, hparent]
  dsimp only
  rw [(tail_spec ..).1, (head_spec ..).2.1, hvalue]
  rfl

end Store

end RabbitControl
