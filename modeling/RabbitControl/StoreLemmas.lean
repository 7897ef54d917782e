import RabbitControl.Lib.TreeMap
import RabbitControl.Reports
import RabbitControl.Store

/-!
# What the store operations change

The shape of a parameter is what the group tree is made of: its id, datatype, parent, children and manager.  Setters
and writers keep it (`shape_apply`, `shape_write`).  The operations on the tree change the parent of one parameter
and the children of one or two groups, and every operation leaves the ids of all parameters as they are.
-/

namespace RabbitControl

open Lib

/-! ### Shapes -/

structure Shape where
  id : Id
  datatype : UInt8
  isGroup : Bool
  parent : Option Ref
  children : Std.ExtTreeMap Int16 Ref
  managed : Bool

def Parameter.shape (p : Parameter) : Shape :=
  ⟨p.parameterId, p.getDatatype, p.isGroup, p.parent, p.children, p.managed⟩

/-- The type is one that a parser knows. -/
def Parameter.known (p : Parameter) : Bool := p.getDatatype != 1 && p.getDatatype != datatypeMax

theorem Parameter.isGroup_eq (p : Parameter) : p.isGroup = (p.getDatatype == datatypeGroup) := by
  rcases hk : p.kind with ⟨τ, d, s⟩ | _ | _ | _
  · have hτ : (τ.datatype == datatypeGroup) = false := by
      cases τ with
      | number t => cases t <;> rfl
      | _ => rfl
    simp [isGroup, getDatatype, Kind.datatype, hk, hτ]
  all_goals simp [isGroup, getDatatype, Kind.datatype, hk, datatypeBang, datatypeMax, datatypeGroup]

private theorem Kind.shape_apply (k : Kind) (a : Setter) (p : Parameter) :
    { p with kind := (k.apply a).1 }.shape = { p with kind := k }.shape := by
  rcases k with ⟨τ, d, s⟩ | _ | _ | _
  · cases a with
    | setValue v => simp only [apply]; split <;> rfl
    | definition a => simp only [apply]; split <;> rfl
    | _ => rfl
  all_goals cases a <;> rfl

/-- A setter keeps the shape. -/
@[simp] theorem Parameter.shape_apply (p : Parameter) (a : Setter) : (p.apply a).1.shape = p.shape := by
  cases a with
  | setValue v => exact Kind.shape_apply p.kind (.setValue v) p
  | clearValue => exact Kind.shape_apply p.kind .clearValue p
  | definition a => exact Kind.shape_apply p.kind (.definition a) p
  | bang => exact Kind.shape_apply p.kind .bang p
  | _ => rfl

/-- A writer keeps the shape. -/
@[simp] theorem Parameter.shape_write (p : Parameter) (idOf : Ref → Id) (all : Bool) :
    (p.write idOf all).2.shape = p.shape := by
  have hfull : (p.writeFull idOf all).2.shape = p.shape := by
    rcases hk : p.kind with ⟨τ, d, s⟩ | _ | _ | _ <;>
      simp [writeFull, writeOptions, Kind.write, shape, getDatatype, isGroup, children, Kind.datatype, hk]
  rcases hk : p.kind with ⟨τ, d, s⟩ | _ | _ | _ <;> simp only [write, hk]
  · split
    · simp [shape, getDatatype, isGroup, children, Kind.datatype, hk]
    · exact hfull
  all_goals exact hfull

@[simp] theorem Parameter.parentChanged_apply (p : Parameter) (a : Setter) :
    (p.apply a).1.parentChanged = p.parentChanged := by
  cases a <;> rfl

namespace Parameter

variable {p : Parameter} {id : Id}

@[simp] theorem isGroup_modifyChildren (f : Std.ExtTreeMap Int16 Ref → Std.ExtTreeMap Int16 Ref) :
    (p.modifyChildren f).isGroup = p.isGroup := by
  unfold modifyChildren
  split
  · next hk => simp [isGroup, hk]
  · rfl

@[simp] theorem parameterId_modifyChildren (f : Std.ExtTreeMap Int16 Ref → Std.ExtTreeMap Int16 Ref) :
    (p.modifyChildren f).parameterId = p.parameterId := by
  unfold modifyChildren
  split <;> rfl

@[simp] theorem managed_modifyChildren (f : Std.ExtTreeMap Int16 Ref → Std.ExtTreeMap Int16 Ref) :
    (p.modifyChildren f).managed = p.managed := by
  unfold modifyChildren
  split <;> rfl

@[simp] theorem getDatatype_modifyChildren (f : Std.ExtTreeMap Int16 Ref → Std.ExtTreeMap Int16 Ref) :
    (p.modifyChildren f).getDatatype = p.getDatatype := by
  unfold modifyChildren
  split
  · next hk => simp [getDatatype, hk, Kind.datatype]
  · rfl

theorem modifyChildren_erase_of_notMem (h : id ∉ p.children) : p.modifyChildren (·.erase id) = p := by
  unfold modifyChildren
  split
  · next c hk =>
    have hc : p.children = c := by simp [children, hk]
    show { p with kind := .group (c.erase id) } = p
    rw [erase_of_notMem (hc ▸ h), ← hk]
  · rfl

theorem children_modifyChildren_erase :
    (p.modifyChildren (·.erase id)).children = p.children.erase id := by
  unfold modifyChildren
  split
  · next hk => simp [children, hk]
  · next hk =>
    have hc : p.children = ∅ := by
      unfold children
      split
      · next c hc => exact absurd hc (hk c)
      · rfl
    rw [hc, erase_of_notMem Std.ExtTreeMap.not_mem_empty]

theorem shape_modifyChildren_erase :
    (p.modifyChildren (·.erase id)).shape = { p.shape with children := p.children.erase id } := by
  rw [← children_modifyChildren_erase]
  unfold modifyChildren
  split
  · next hk => simp [shape, getDatatype, isGroup, Kind.datatype, hk]
  · rfl

theorem modifyChildren_erase_erase :
    (p.modifyChildren (·.erase id)).modifyChildren (·.erase id) = p.modifyChildren (·.erase id) := by
  refine modifyChildren_erase_of_notMem ?_
  rw [children_modifyChildren_erase]
  simp

end Parameter

/-! ### Frames -/

namespace Store

variable {s t u : Store} {r x g p : Ref} {id : Id}

def parent (s : Store) (r : Ref) : Option Ref := (s.heap r).parent

theorem modify_put (s : Store) (r : Ref) (q : Parameter) (f : Parameter → Parameter) :
    (s.put r q).modify r f = s.put r (f q) := by
  simp only [modify, put, if_true]
  congr 1
  funext x
  split <;> rfl

/-- What no operation on the tree or on the options touches. -/
structure Frame (s t : Store) : Prop where
  idOf : ∀ r, t.idOf r = s.idOf r
  datatype : ∀ r, (t.heap r).getDatatype = (s.heap r).getDatatype
  isGroup : ∀ r, (t.heap r).isGroup = (s.heap r).isGroup
  managed : ∀ r, (t.heap r).managed = (s.heap r).managed
  next : t.next = s.next
  removed : t.removedParameter = s.removedParameter

namespace Frame

theorem refl (s : Store) : Frame s s := ⟨fun _ => rfl, fun _ => rfl, fun _ => rfl, fun _ => rfl, rfl, rfl⟩

theorem trans (h : Frame s t) (k : Frame t u) : Frame s u :=
  ⟨fun r => (k.idOf r).trans (h.idOf r), fun r => (k.datatype r).trans (h.datatype r),
    fun r => (k.isGroup r).trans (h.isGroup r), fun r => (k.managed r).trans (h.managed r),
    k.next.trans h.next, k.removed.trans h.removed⟩

theorem isValid (h : Frame s t) (r : Ref) : (t.heap r).isValid = (s.heap r).isValid := by
  have hi : (t.heap r).parameterId = (s.heap r).parameterId := h.idOf r
  simp [Parameter.isValid, h.datatype r, hi]

end Frame

/-- Two stores that differ in the heap at most, where a parameter keeps its identity. -/
theorem frame_put {q : Parameter} (hi : q.parameterId = s.idOf r) (hd : q.getDatatype = (s.heap r).getDatatype)
    (hg : q.isGroup = (s.heap r).isGroup) (hm : q.managed = (s.heap r).managed) : Frame s (s.put r q) := by
  refine ⟨fun x => ?_, fun x => ?_, fun x => ?_, fun x => ?_, rfl, rfl⟩ <;> by_cases hx : x = r <;>
    simp_all [put, Store.idOf]

theorem frame_setDirty (s : Store) (r : Ref) : Frame s (s.setDirty r) := by
  unfold setDirty setParameterDirty
  split
  · split
    · exact .refl s
    · exact ⟨fun _ => rfl, fun _ => rfl, fun _ => rfl, fun _ => rfl, rfl, rfl⟩
  · exact .refl s

@[simp] theorem heap_setDirty (s : Store) (r : Ref) : (s.setDirty r).heap = s.heap := by
  unfold setDirty setParameterDirty
  repeat' split
  all_goals rfl

@[simp] theorem ids_setDirty (s : Store) (r : Ref) : (s.setDirty r).ids = s.ids := by
  unfold setDirty setParameterDirty
  repeat' split
  all_goals rfl

@[simp] theorem params_setDirty (s : Store) (r : Ref) : (s.setDirty r).params = s.params := by
  unfold setDirty setParameterDirty
  repeat' split
  all_goals rfl

/-- A managed parameter that is not about to be removed gets onto the dirty list. -/
theorem dirty_setDirty (s : Store) (r : Ref) :
    (s.setDirty r).dirtyParameter =
      if (s.heap r).managed = true ∧ s.idOf r ∉ s.removedParameter then s.dirtyParameter.insert (s.idOf r) r
      else s.dirtyParameter := by
  unfold setDirty setParameterDirty
  by_cases hm : (s.heap r).managed = true <;> by_cases hr : s.idOf r ∈ s.removedParameter <;> simp [hm, hr]

/-- What becomes dirty when the one parameter `r` is touched. -/
def DirtyStep (s t : Store) (r : Ref) : Prop :=
  t.dirtyParameter = s.dirtyParameter ∨ t.dirtyParameter = s.dirtyParameter.insert (s.idOf r) r

theorem DirtyStep.getElem? (h : DirtyStep s t r) (hid : id ≠ s.idOf r) :
    t.dirtyParameter[id]? = s.dirtyParameter[id]? := by
  rcases h with h | h <;> rw [h]
  rw [getElem?_insert_iff, if_neg hid]

theorem DirtyStep.cases (h : DirtyStep s t r) (hx : t.dirtyParameter[id]? = some x) :
    s.dirtyParameter[id]? = some x ∨ id = s.idOf r ∧ x = r := by
  rcases h with h | h <;> rw [h] at hx
  · exact Or.inl hx
  · rw [getElem?_insert_iff] at hx
    split at hx
    · next hi => exact Or.inr ⟨hi, (Option.some.inj hx).symm⟩
    · exact Or.inl hx

theorem DirtyStep.trans (hf : Frame s t) (h : DirtyStep s t r) (k : DirtyStep t u r) : DirtyStep s u r := by
  rcases h with h | h <;> rcases k with k | k
  · exact Or.inl (k.trans h)
  · exact Or.inr (by rw [k, h, hf.idOf])
  · exact Or.inr (k.trans h)
  · exact Or.inr (by rw [k, h, hf.idOf, insert_insert_self])

theorem dirtyStep_setDirty (s : Store) (r : Ref) : DirtyStep s (s.setDirty r) r := by
  rw [DirtyStep, dirty_setDirty]
  split
  · exact Or.inr rfl
  · exact Or.inl rfl

/-! ### Setters -/

section Set

variable (s : Store) (r : Ref) (a : Setter)

theorem shape_set (x : Ref) : ((s.set r a).heap x).shape = (s.heap x).shape := by
  have hput : ((s.put r ((s.heap r).apply a).1).heap x).shape = (s.heap x).shape := by
    by_cases hx : x = r
    · subst hx; simp [put]
    · simp [put, hx]
  unfold set
  dsimp only
  split
  · rw [heap_setDirty]; exact hput
  · exact hput

theorem frame_set : Frame s (s.set r a) := by
  have h := shape_set s r a
  refine ⟨fun x => ?_, fun x => ?_, fun x => ?_, fun x => ?_, ?_, ?_⟩
  · exact congrArg Shape.id (h x)
  · exact congrArg Shape.datatype (h x)
  · exact congrArg Shape.isGroup (h x)
  · exact congrArg Shape.managed (h x)
  · unfold set; dsimp only; split
    · exact (frame_setDirty _ r).next
    · rfl
  · unfold set; dsimp only; split
    · exact (frame_setDirty _ r).removed
    · rfl

@[simp] theorem children_set (x : Ref) : (s.set r a).children x = s.children x :=
  congrArg Shape.children (shape_set s r a x)

@[simp] theorem parent_set (x : Ref) : (s.set r a).parent x = s.parent x :=
  congrArg Shape.parent (shape_set s r a x)

@[simp] theorem params_set : (s.set r a).params = s.params := by
  unfold set; dsimp only; split
  · rw [params_setDirty]; rfl
  · rfl

@[simp] theorem ids_set : (s.set r a).ids = s.ids := by
  unfold set; dsimp only; split
  · rw [ids_setDirty]; rfl
  · rfl

theorem heap_set (x : Ref) : (s.set r a).heap x = if x = r then ((s.heap r).apply a).1 else s.heap x := by
  unfold set; dsimp only; split
  · rw [heap_setDirty]; rfl
  · rfl

/-- The dirty list after a setter. -/
theorem dirty_set :
    (s.set r a).dirtyParameter =
      if ((s.heap r).apply a).2 = true ∧ (s.heap r).managed = true ∧ s.idOf r ∉ s.removedParameter then
        s.dirtyParameter.insert (s.idOf r) r
      else s.dirtyParameter := by
  have hsh := Parameter.shape_apply (s.heap r) a
  have hm : ((s.heap r).apply a).1.managed = (s.heap r).managed := congrArg Shape.managed hsh
  have hi : ((s.heap r).apply a).1.parameterId = (s.heap r).parameterId := congrArg Shape.id hsh
  unfold set; dsimp only
  by_cases hd : ((s.heap r).apply a).2 = true
  · rw [if_pos hd, dirty_setDirty]
    simp [put, Store.idOf, hm, hi, hd]
  · simp [hd, put]

theorem dirtyStep_set : DirtyStep s (s.set r a) r := by
  rw [DirtyStep, dirty_set]
  split
  · exact Or.inr rfl
  · exact Or.inl rfl

end Set

/-! ### Parents and children -/

theorem frame_modifyChildren (s : Store) (g : Ref) (f : Std.ExtTreeMap Int16 Ref → Std.ExtTreeMap Int16 Ref) :
    Frame s (s.modify g (Parameter.modifyChildren f)) := by
  apply frame_put <;> (unfold Parameter.modifyChildren; split <;> rename_i h <;>
    simp [Parameter.getDatatype, Parameter.isGroup, Kind.datatype, Store.idOf, h])

@[simp] theorem parent_modifyChildren (s : Store) (g : Ref)
    (f : Std.ExtTreeMap Int16 Ref → Std.ExtTreeMap Int16 Ref) (x : Ref) :
    (s.modify g (Parameter.modifyChildren f)).parent x = s.parent x := by
  by_cases hx : x = g
  · subst hx; simp only [modify, put, Store.parent, if_true, Parameter.modifyChildren]; split <;> rfl
  · simp [modify, put, Store.parent, hx]

theorem children_modifyChildren (s : Store) {g : Ref} (hg : (s.heap g).isGroup = true)
    (f : Std.ExtTreeMap Int16 Ref → Std.ExtTreeMap Int16 Ref) (x : Ref) :
    (s.modify g (Parameter.modifyChildren f)).children x = if x = g then f (s.children g) else s.children x := by
  by_cases hx : x = g
  · subst hx
    simp only [modify, put, Store.children, if_true, Parameter.modifyChildren]
    rcases hk : (s.heap x).kind with _ | _ | c | _ <;> simp [Parameter.isGroup, hk] at hg
    simp [Parameter.children, hk]
  · simp [modify, put, Store.children, hx]

/-- Only groups have children. -/
theorem isGroup_of_mem_children {q : Parameter} (h : id ∈ q.children) : q.isGroup = true := by
  unfold Parameter.children at h
  unfold Parameter.isGroup
  split at h <;> simp_all

theorem frame_clearParent (s : Store) (r : Ref) : Frame s (s.clearParent r) := by
  refine Frame.trans (t := s.modify r fun p => { p with parent := none, parentChanged := true }) ?_ ?_
  · exact frame_put rfl rfl rfl rfl
  · exact frame_setDirty _ r

@[simp] theorem parent_clearParent (s : Store) (r x : Ref) :
    (s.clearParent r).parent x = if x = r then none else s.parent x := by
  by_cases hx : x = r <;> simp [clearParent, Store.parent, modify, put, hx]

@[simp] theorem children_clearParent (s : Store) (r x : Ref) : (s.clearParent r).children x = s.children x := by
  by_cases hx : x = r <;> simp [clearParent, Store.children, modify, put, hx, Parameter.children]

@[simp] theorem params_clearParent (s : Store) (r : Ref) : (s.clearParent r).params = s.params := by
  simp [clearParent, modify, put]

@[simp] theorem ids_clearParent (s : Store) (r : Ref) : (s.clearParent r).ids = s.ids := by
  simp [clearParent, modify, put]

theorem dirty_clearParent (s : Store) (r : Ref) :
    (s.clearParent r).dirtyParameter =
      if (s.heap r).managed = true ∧ s.idOf r ∉ s.removedParameter then s.dirtyParameter.insert (s.idOf r) r
      else s.dirtyParameter := by
  rw [clearParent, dirty_setDirty]
  by_cases h : (s.heap r).managed = true ∧ s.idOf r ∉ s.removedParameter
  · rw [if_pos h, if_pos (by simpa [modify, put, Store.idOf] using h)]
    simp [modify, put, Store.idOf]
  · rw [if_neg h, if_neg (by simpa [modify, put, Store.idOf] using h)]
    simp [modify, put]

theorem dirtyStep_clearParent (s : Store) (r : Ref) : DirtyStep s (s.clearParent r) r := by
  rw [DirtyStep, dirty_clearParent]
  split
  · exact Or.inr rfl
  · exact Or.inl rfl

@[simp] theorem params_modify (s : Store) (r : Ref) (f : Parameter → Parameter) :
    (s.modify r f).params = s.params := rfl

@[simp] theorem ids_modify (s : Store) (r : Ref) (f : Parameter → Parameter) : (s.modify r f).ids = s.ids := rfl

@[simp] theorem dirty_modify (s : Store) (r : Ref) (f : Parameter → Parameter) :
    (s.modify r f).dirtyParameter = s.dirtyParameter := rfl

/-! ### Removing a child -/

theorem frame_removeChild (s : Store) (g r : Ref) : Frame s (s.removeChild g r) := by
  unfold removeChild
  split
  · exact (frame_clearParent s r).trans (frame_modifyChildren _ g _)
  · exact .refl s

@[simp] theorem params_removeChild (s : Store) (g r : Ref) : (s.removeChild g r).params = s.params := by
  unfold removeChild; split <;> simp

@[simp] theorem ids_removeChild (s : Store) (g r : Ref) : (s.removeChild g r).ids = s.ids := by
  unfold removeChild; split <;> simp

theorem parent_removeChild (s : Store) (g r x : Ref) :
    (s.removeChild g r).parent x = if x = r ∧ s.idOf r ∈ s.children g then none else s.parent x := by
  unfold removeChild
  by_cases h : s.idOf r ∈ s.children g
  · by_cases hx : x = r <;> simp [h, hx]
  · simp [h]

/-- Whether or not the child is there, afterwards it is not. -/
@[simp] theorem children_removeChild (s : Store) (g r x : Ref) :
    (s.removeChild g r).children x = if x = g then (s.children g).erase (s.idOf r) else s.children x := by
  unfold removeChild
  split
  · next h =>
    have hg : ((s.clearParent r).heap g).isGroup = true :=
      ((frame_clearParent s r).isGroup g).trans (isGroup_of_mem_children h)
    rw [children_modifyChildren _ hg]
    simp
  · next h =>
    split
    · next hx => subst hx; rw [erase_of_notMem h]
    · rfl

theorem dirtyStep_removeChild (s : Store) (g r : Ref) : DirtyStep s (s.removeChild g r) r := by
  unfold removeChild
  split
  · exact dirtyStep_clearParent s r
  · exact Or.inl rfl

/-- A child that is removed from its group gets onto the dirty list. -/
theorem dirty_removeChild {s : Store} {g r : Ref} (h : s.idOf r ∈ s.children g)
    (hm : (s.heap r).managed = true) (hr : s.idOf r ∉ s.removedParameter) :
    (s.removeChild g r).dirtyParameter[s.idOf r]? = some r := by
  rw [removeChild, if_pos h, dirty_modify, dirty_clearParent, if_pos ⟨hm, hr⟩, getElem?_insert_iff, if_pos rfl]

theorem parentChanged_modifyChildren (s : Store) (g : Ref)
    (f : Std.ExtTreeMap Int16 Ref → Std.ExtTreeMap Int16 Ref) (x : Ref) :
    ((s.modify g (Parameter.modifyChildren f)).heap x).parentChanged = (s.heap x).parentChanged := by
  by_cases hx : x = g
  · subst hx; simp only [modify, put, if_true, Parameter.modifyChildren]; split <;> rfl
  · simp [modify, put, hx]

theorem parentChanged_removeChild {s : Store} {g r x : Ref} (hx : x ≠ r) :
    ((s.removeChild g r).heap x).parentChanged = (s.heap x).parentChanged := by
  unfold removeChild
  split
  · rw [parentChanged_modifyChildren]
    simp [clearParent, modify, put, hx]
  · rfl

/-- The other parameters: the group loses the child. -/
theorem heap_removeChild {s : Store} {g r x : Ref} (hx : x ≠ r) :
    (s.removeChild g r).heap x =
      if x = g then (s.heap g).modifyChildren (·.erase (s.idOf r)) else s.heap x := by
  unfold removeChild
  by_cases h : s.idOf r ∈ s.children g
  · by_cases hg : x = g
    · subst hg; simp [h, modify, put, clearParent, hx]
    · simp [h, hg, modify, put, clearParent, hx]
  · rw [if_neg h]
    split
    · next hg => subst hg; rw [Parameter.modifyChildren_erase_of_notMem h]
    · rfl

/-- The child itself. -/
theorem heap_removeChild_self {s : Store} {g r : Ref} (hg : g ≠ r) :
    (s.removeChild g r).heap r =
      if s.idOf r ∈ s.children g then { s.heap r with parent := none, parentChanged := true } else s.heap r := by
  unfold removeChild
  split
  · simp [modify, put, clearParent, Ne.symm hg]
  · rfl

/-! ### Setting a parent -/

/-- The parent is set already: nothing happens. -/
theorem setParent_of_same {s : Store} {r g p : Ref} (hp : s.parent r = some p) (hi : s.idOf g = s.idOf p) :
    s.setParent r g = s := by
  simp only [Store.parent] at hp
  simp [setParent, hp, hi]

/-- The group that `r` leaves when it gets a new parent. -/
def leaveParent (r : Ref) (s : Store) : Store :=
  match s.parent r with
  | some p => s.removeChild p r
  | none => s

theorem setParent_of_other {s : Store} {r g : Ref} (h : ∀ p, s.parent r = some p → s.idOf g ≠ s.idOf p) :
    s.setParent r g =
      ((s.leaveParent r).modify r fun p => { p with parent := some g, parentChanged := true }).setDirty r := by
  unfold setParent leaveParent
  dsimp only
  simp only [Store.parent] at h ⊢
  cases hp : (s.heap r).parent with
  | none => rfl
  | some p => simp [h p hp]

theorem frame_leaveParent (s : Store) (r : Ref) : Frame s (s.leaveParent r) := by
  unfold leaveParent
  split
  · exact frame_removeChild s _ r
  · exact .refl s

theorem dirtyStep_leaveParent (s : Store) (r : Ref) : DirtyStep s (s.leaveParent r) r := by
  unfold leaveParent
  split
  · exact dirtyStep_removeChild s _ r
  · exact Or.inl rfl

@[simp] theorem params_leaveParent (s : Store) (r : Ref) : (s.leaveParent r).params = s.params := by
  unfold leaveParent; split <;> simp

@[simp] theorem ids_leaveParent (s : Store) (r : Ref) : (s.leaveParent r).ids = s.ids := by
  unfold leaveParent; split <;> simp

@[simp] theorem children_leaveParent (s : Store) (r x : Ref) :
    (s.leaveParent r).children x = if s.parent r = some x then (s.children x).erase (s.idOf r) else s.children x := by
  unfold leaveParent
  cases hp : s.parent r with
  | none => simp
  | some p =>
    simp only [children_removeChild, Option.some.injEq]
    by_cases hx : x = p
    · subst hx; simp
    · simp [hx, Ne.symm hx]

theorem parent_leaveParent {s : Store} {r x : Ref} (hx : x ≠ r) : (s.leaveParent r).parent x = s.parent x := by
  unfold leaveParent
  split
  · rw [parent_removeChild, if_neg fun h => hx h.1]
  · rfl

theorem parentChanged_leaveParent {s : Store} {r x : Ref} (hx : x ≠ r) :
    ((s.leaveParent r).heap x).parentChanged = (s.heap x).parentChanged := by
  unfold leaveParent
  split
  · exact parentChanged_removeChild hx
  · rfl

/-- What `setParent` and `addChild` do to a parameter that changes its group. -/
structure Moved (s t : Store) (r g : Ref) : Prop where
  frame : Frame s t
  params : t.params = s.params
  ids : t.ids = s.ids
  parent : ∀ x, t.parent x = if x = r then some g else s.parent x
  parentChanged : ∀ x, (t.heap x).parentChanged = true ↔ x = r ∨ (s.heap x).parentChanged = true
  dirty : DirtyStep s t r
  marked : (s.heap r).managed = true → s.idOf r ∉ s.removedParameter → t.dirtyParameter[s.idOf r]? = some r

theorem moved_setParent {s : Store} {r g : Ref} (h : ∀ p, s.parent r = some p → s.idOf g ≠ s.idOf p) :
    Moved s (s.setParent r g) r g := by
  have hl := frame_leaveParent s r
  have hm : Frame (s.leaveParent r)
      ((s.leaveParent r).modify r fun p => { p with parent := some g, parentChanged := true }) :=
    frame_put rfl rfl rfl rfl
  have hf : Frame s (s.setParent r g) := by
    rw [setParent_of_other h]
    exact (hl.trans hm).trans (frame_setDirty _ r)
  refine ⟨hf, ?_, ?_, fun x => ?_, fun x => ?_, ?_, fun hman hrem => ?_⟩ <;> rw [setParent_of_other h]
  · simp
  · simp
  · by_cases hx : x = r
    · simp [Store.parent, modify, put, hx]
    · have hp := parent_leaveParent (s := s) hx
      simpa [Store.parent, modify, put, hx] using hp
  · by_cases hx : x = r
    · simp [modify, put, hx]
    · have hp := parentChanged_leaveParent (s := s) hx
      simp [modify, put, hx, hp]
  · refine (dirtyStep_leaveParent s r).trans hl ?_
    have hd := dirtyStep_setDirty
      ((s.leaveParent r).modify r fun p => { p with parent := some g, parentChanged := true }) r
    rw [DirtyStep, hm.idOf, dirty_modify] at hd
    exact hd
  · rw [dirty_setDirty, if_pos, getElem?_insert_iff, if_pos]
    · rw [hm.idOf, hl.idOf]
    · exact ⟨by rw [hm.managed, hl.managed, hman], by rwa [hm.idOf, hl.idOf, hm.removed, hl.removed]⟩

theorem children_setParent {s : Store} {r g : Ref} (h : ∀ p, s.parent r = some p → s.idOf g ≠ s.idOf p) (x : Ref) :
    (s.setParent r g).children x =
      if s.parent r = some x then (s.children x).erase (s.idOf r) else s.children x := by
  rw [setParent_of_other h]
  have hc : ∀ t : Store, ((t.modify r fun p => { p with parent := some g, parentChanged := true }).setDirty r).children x
      = t.children x := by
    intro t
    by_cases hx : x = r <;> simp [Store.children, modify, put, hx, Parameter.children]
  rw [hc, children_leaveParent]

/-! ### Adding a child -/

/-- The children of `g` with `r` among them, unless its id is taken. -/
def enterChild (g r : Ref) (s : Store) : Store :=
  if s.idOf r ∈ s.children g then s else s.modify g (Parameter.modifyChildren (·.insert (s.idOf r) r))

theorem addChild_eq (s : Store) (g r : Ref) : s.addChild g r = (s.enterChild g r).setParent r g := rfl

section Enter

variable (s : Store) (g r : Ref)

theorem frame_enterChild : Frame s (s.enterChild g r) := by
  unfold enterChild
  split
  · exact .refl s
  · exact frame_modifyChildren s g _

@[simp] theorem parent_enterChild (x : Ref) : (s.enterChild g r).parent x = s.parent x := by
  unfold enterChild; split <;> simp

@[simp] theorem params_enterChild : (s.enterChild g r).params = s.params := by unfold enterChild; split <;> rfl

@[simp] theorem ids_enterChild : (s.enterChild g r).ids = s.ids := by unfold enterChild; split <;> rfl

@[simp] theorem dirty_enterChild : (s.enterChild g r).dirtyParameter = s.dirtyParameter := by
  unfold enterChild; split <;> rfl

@[simp] theorem parentChanged_enterChild (x : Ref) :
    ((s.enterChild g r).heap x).parentChanged = (s.heap x).parentChanged := by
  unfold enterChild
  split
  · rfl
  · exact parentChanged_modifyChildren s g _ x

theorem getElem?_children_enterChild {s : Store} {g : Ref} (hg : (s.heap g).isGroup = true) (r x : Ref) (id : Id) :
    ((s.enterChild g r).children x)[id]? =
      if x = g ∧ id = s.idOf r ∧ s.idOf r ∉ s.children g then some r else (s.children x)[id]? := by
  unfold enterChild
  by_cases h : s.idOf r ∈ s.children g
  · simp [h]
  · rw [if_neg h, children_modifyChildren s hg]
    by_cases hx : x = g
    · subst hx; simp [getElem?_insert_iff, h]
    · simp [hx]

end Enter

/-- Adding a child to another group. -/
theorem moved_addChild {s : Store} {g r : Ref} (h : ∀ p, s.parent r = some p → s.idOf g ≠ s.idOf p) :
    Moved s (s.addChild g r) r g := by
  have he := frame_enterChild s g r
  have hm := moved_setParent (s := s.enterChild g r) (r := r) (g := g) fun p hp => by
    rw [he.idOf, he.idOf]
    exact h p (by simpa using hp)
  rw [addChild_eq]
  refine ⟨he.trans hm.frame, ?_, ?_, fun x => ?_, fun x => ?_, ?_, fun hman hrem => ?_⟩
  · rw [hm.params, params_enterChild]
  · rw [hm.ids, ids_enterChild]
  · rw [hm.parent, parent_enterChild]
  · rw [hm.parentChanged, parentChanged_enterChild]
  · have hd := hm.dirty
    rwa [DirtyStep, dirty_enterChild, he.idOf] at hd
  · have hk := hm.marked (by rwa [he.managed]) (by rwa [he.idOf, he.removed])
    rwa [he.idOf] at hk

/-- Adding a child to the group that is its parent already only fills a gap among the children. -/
theorem addChild_of_same {s : Store} {g r p : Ref} (hp : s.parent r = some p) (hi : s.idOf g = s.idOf p) :
    s.addChild g r = s.enterChild g r := by
  have he := frame_enterChild s g r
  rw [addChild_eq]
  exact setParent_of_same (by simpa using hp) (by rw [he.idOf, he.idOf, hi])

theorem params_addChild (s : Store) (g r : Ref) : (s.addChild g r).params = s.params := by
  by_cases h : ∃ p, s.parent r = some p ∧ s.idOf g = s.idOf p
  · obtain ⟨p, hp, hid⟩ := h
    rw [addChild_of_same hp hid, params_enterChild]
  · exact (moved_addChild fun p hp hid => h ⟨p, hp, hid⟩).params

theorem getElem?_children_addChild {s : Store} {g r : Ref} (hg : (s.heap g).isGroup = true)
    (h : ∀ p, s.parent r = some p → s.idOf g ≠ s.idOf p) (x : Ref) (id : Id) :
    ((s.addChild g r).children x)[id]? =
      if x = g ∧ id = s.idOf r ∧ s.idOf r ∉ s.children g then some r
      else if s.parent r = some x ∧ id = s.idOf r then none else (s.children x)[id]? := by
  have he := frame_enterChild s g r
  rw [addChild_eq, children_setParent fun p hp => by rw [he.idOf, he.idOf]; exact h p (by simpa using hp)]
  simp only [parent_enterChild, he.idOf]
  by_cases hp : s.parent r = some x
  · have hx : x ≠ g := fun hx => h x hp (by rw [hx])
    rw [if_pos hp, getElem?_erase_iff, getElem?_children_enterChild hg]
    simp [hx, hp]
  · rw [if_neg hp, getElem?_children_enterChild hg]
    simp [hp]

theorem child_enterChild {s : Store} {g r x c : Ref} {id : Id} (hc : ((s.enterChild g r).children x)[id]? = some c) :
    (s.children x)[id]? = some c ∨ x = g ∧ id = s.idOf r ∧ c = r := by
  by_cases hg : (s.heap g).isGroup = true
  · rw [getElem?_children_enterChild hg] at hc
    split at hc
    · next h => exact Or.inr ⟨h.1, h.2.1, (Option.some.inj hc).symm⟩
    · exact Or.inl hc
  · -- only groups take children
    refine Or.inl ?_
    unfold enterChild at hc
    split at hc
    · exact hc
    · by_cases hx : x = g
      · subst hx
        have hno : id ∈ (s.modify x (Parameter.modifyChildren (·.insert (s.idOf r) r))).children x := mem_of_getElem? hc
        have hgroup := isGroup_of_mem_children hno
        rw [(frame_modifyChildren ..).isGroup] at hgroup
        exact absurd hgroup hg
      · simpa [Store.children, modify, put, hx] using hc

/-- A child after `addChild` was one before, or it is the one that was added. -/
theorem child_of_addChild {s : Store} {g r x c : Ref} {id : Id} (hc : ((s.addChild g r).children x)[id]? = some c) :
    (s.children x)[id]? = some c ∨ x = g ∧ id = s.idOf r ∧ c = r := by
  by_cases h : ∃ p, s.parent r = some p ∧ s.idOf g = s.idOf p
  · obtain ⟨p, hp, hid⟩ := h
    rw [addChild_of_same hp hid] at hc
    exact child_enterChild hc
  · have he := frame_enterChild s g r
    have hp : ∀ p, (s.enterChild g r).parent r = some p → (s.enterChild g r).idOf g ≠ (s.enterChild g r).idOf p := by
      intro p hp hid
      rw [parent_enterChild] at hp
      rw [he.idOf, he.idOf] at hid
      exact h ⟨p, hp, hid⟩
    rw [addChild_eq, children_setParent hp] at hc
    split at hc
    · rw [getElem?_erase_iff] at hc
      split at hc
      · simp at hc
      · exact child_enterChild hc
    · exact child_enterChild hc

end Store

end RabbitControl
