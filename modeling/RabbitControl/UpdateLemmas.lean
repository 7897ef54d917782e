import RabbitControl.Links

/-!
# What an update does to the store

`update` takes over the options of a parsed parameter one by one.  All but the parent are setters, so the tree is
changed by one `addChild` at most (`tree_update`), and nothing but the updated parameter gets onto the dirty list
(`touched_update`).
-/

namespace RabbitControl

open Lib

namespace Store

variable {s t u : Store} {r x g other : Ref}

/-- Only the parameter `r` has been worked on, and neither added nor removed. -/
structure Touched (r : Ref) (s t : Store) : Prop where
  frame : Frame s t
  dirty : DirtyStep s t r
  params : t.params = s.params
  ids : t.ids = s.ids

theorem Touched.refl (s : Store) : Touched r s s := ⟨.refl s, Or.inl rfl, rfl, rfl⟩

theorem Touched.trans (h : Touched r s t) (k : Touched r t u) : Touched r s u :=
  ⟨h.frame.trans k.frame, h.dirty.trans h.frame k.dirty, k.params.trans h.params, k.ids.trans h.ids⟩

theorem touched_set (s : Store) (r : Ref) (a : Setter) : Touched r s (s.set r a) :=
  ⟨frame_set s r a, dirtyStep_set s r a, params_set s r a, ids_set s r a⟩

theorem touched_addChild (s : Store) (g r : Ref) : Touched r s (s.addChild g r) := by
  have he := frame_enterChild s g r
  by_cases h : ∃ p, s.parent r = some p ∧ s.idOf g = s.idOf p
  · obtain ⟨p, hp, hid⟩ := h
    rw [addChild_of_same hp hid]
    exact ⟨he, Or.inl (dirty_enterChild s g r), params_enterChild s g r, ids_enterChild s g r⟩
  · have hm := moved_addChild (s := s) (g := g) (r := r) fun p hp hid => h ⟨p, hp, hid⟩
    exact ⟨hm.frame, hm.dirty, hm.params, hm.ids⟩

/-! ### The options one by one -/

/-- Setters of the parameter `r`. -/
structure Assigned (r : Ref) (s t : Store) : Prop where
  touched : Touched r s t
  sameTree : SameTree s t
  other : ∀ {x}, x ≠ r → t.heap x = s.heap x

theorem Assigned.refl (s : Store) : Assigned r s s :=
  ⟨.refl s, ⟨fun _ => rfl, fun _ => rfl, fun _ => rfl, fun _ => rfl, fun _ => rfl, fun _ => rfl, rfl, rfl, rfl⟩,
    fun _ => rfl⟩

theorem Assigned.trans (h : Assigned r s t) (k : Assigned r t u) : Assigned r s u :=
  ⟨h.touched.trans k.touched, h.sameTree.trans k.sameTree, fun hx => (k.other hx).trans (h.other hx)⟩

theorem assigned_set (s : Store) (r : Ref) (a : Setter) : Assigned r s (s.set r a) :=
  ⟨touched_set s r a, sameTree_set s r a, fun hx => by rw [heap_set, if_neg hx]⟩

theorem assigned_updateOption {α : Type} (o : Option α) (setter : α → Setter) (changed : Parameter → Bool)
    (w : Store × Bool) : Assigned r w.1 (updateOption r o setter changed w).1 := by
  unfold updateOption
  split
  · exact .refl _
  · exact assigned_set ..

theorem assigned_updateValue (s : Store) (r other : Ref) : Assigned r s (s.updateValue r other).1 := by
  unfold updateValue
  split
  · split
    · split
      · exact .refl _
      · exact assigned_set ..
    · exact .refl _
  · exact .refl _

/-- Before the parent, the parent, and after the parent. -/
theorem update_cases (hne : other ≠ r) (hid : s.idOf other = s.idOf r) :
    ∃ u v, Assigned r s u ∧ v = (match s.parent other with | none => u | some g => u.addChild g r) ∧
      Assigned r v (s.update r other).1 := by
  unfold update
  rw [if_neg hne, if_pos hid]
  dsimp only
  have h0 := assigned_updateValue s r other
  set w := (s.updateValue r other).1 with hw
  have hpar : (w.heap other).parent = s.parent other := h0.sameTree.parent other
  unfold updateBase
  dsimp only
  rw [hpar]
  set q := w.heap other
  set w1 := updateOption r (if q.label.has then some q.label.content else none) (.label <| .set ·)
    (·.label.changed) (w, false) with h1
  set w2 := updateOption r (if q.description.has then some q.description.content else none)
    (.description <| .set ·) (·.description.changed) w1 with h2
  set w3 := updateOption r q.tags.get? .setTags (·.tags.changed) w2 with h3
  set w4 := updateOption r q.order.get? .setOrder (·.order.changed) w3 with h4
  have ha : Assigned r s w4.1 := by
    refine h0.trans (Assigned.trans (t := w1.1) ?_ (Assigned.trans (t := w2.1) ?_ (Assigned.trans (t := w3.1) ?_ ?_)))
    · exact assigned_updateOption _ _ _ (w, false)
    · exact assigned_updateOption ..
    · exact assigned_updateOption ..
    · exact assigned_updateOption ..
  have hb : ∀ w : Store × Bool, Assigned r w.1 (updateOption r q.readonly.get? .setReadonly (·.readonly.changed)
      (updateOption r q.userid.get? .setUserid (·.userid.changed)
        (updateOption r q.userdata.get? .setUserdata (·.userdata.changed) w))).1 := fun w =>
    (assigned_updateOption ..).trans ((assigned_updateOption ..).trans (assigned_updateOption ..))
  cases s.parent other with
  | none => exact ⟨w4.1, w4.1, ha, rfl, hb w4⟩
  | some g => exact ⟨w4.1, w4.1.addChild g r, ha, rfl, hb (w4.1.addChild g r, _)⟩

theorem touched_update (s : Store) (r other : Ref) : Touched r s (s.update r other).1 := by
  by_cases hne : other = r
  · rw [update, if_pos hne]; exact .refl s
  by_cases hid : s.idOf other = s.idOf r
  · obtain ⟨u, v, h1, hv, h2⟩ := update_cases hne hid
    refine h1.touched.trans (.trans ?_ h2.touched)
    rw [hv]
    split
    · exact .refl u
    · exact touched_addChild ..
  · rw [update, if_neg hne, if_neg hid]; exact .refl s

end Store

/-! ### Updates of a value alone -/

theorem Content.value_inj {τ : ValueType} {v w : τ.Val} : Content.value τ v = Content.value τ w ↔ v = w := by
  constructor
  · intro h
    cases h
    rfl
  · exact fun h => h ▸ rfl

/-- A parameter that has no option, unless it is `readonly`, which its constructor leaves unset. -/
structure Parameter.Bare (p : Parameter) : Prop where
  label : p.label.has = false
  description : p.description.has = false
  tags : p.tags.has = false
  order : p.order.has = false
  parent : p.parent = none
  userdata : p.userdata.has = false
  userid : p.userid.has = false

/-- `setValue` at a value parameter of the type. -/
theorem Parameter.apply_setValue {p : Parameter} {τ : ValueType} {d : TypeDefinition τ} {c : Slot τ.Val}
    (hp : p.kind = .value τ d c) (v : τ.Val) :
    p.apply (.setValue v) = ({ p with kind := .value τ d (Slot.set τ.eqv v c).1 }, (Slot.set τ.eqv v c).2) := by
  simp [Parameter.apply, onPart, Kind.apply, hp]

/-- An update from a bare parameter sets the value, and `readonly` if it is there. -/
theorem Store.update_of_bare {s : Store} {r other : Ref} {τ : ValueType} {d d' : TypeDefinition τ} {c : Slot τ.Val}
    {v : τ.Val} {b : Bool} (hne : other ≠ r) (hid : s.idOf other = s.idOf r) (hr : (s.heap r).kind = .value τ d c)
    (hother : (s.heap other).kind = .value τ d' ⟨true, v, b⟩) (hbare : (s.heap other).Bare) :
    (s.update r other).1 =
      if (s.heap other).readonly.has then
        (s.set r (.setValue v)).set r (.setReadonly (s.heap other).readonly.content)
      else s.set r (.setValue v) := by
  have hvalue : (s.updateValue r other).1 = s.set r (.setValue v) := by
    unfold updateValue
    rw [hr, hother]
    simp [Slot.get?]
  have hsame : (s.set r (.setValue v)).heap other = s.heap other := by rw [heap_set, if_neg hne]
  have hbase : ((s.set r (.setValue v)).updateBase r other).1 =
      if (s.heap other).readonly.has then
        (s.set r (.setValue v)).set r (.setReadonly (s.heap other).readonly.content)
      else s.set r (.setValue v) := by
    unfold updateBase
    dsimp only
    rw [hsame]
    cases hm : (s.heap other).readonly.has <;>
      simp [updateOption, Slot.get?, Block.get?, hm, hbare.label, hbare.description, hbare.tags, hbare.order,
        hbare.parent, hbare.userdata, hbare.userid]
  unfold update
  rw [if_neg hne, if_pos hid]
  dsimp only
  rw [hvalue, hbase]

end RabbitControl
