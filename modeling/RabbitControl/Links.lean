import RabbitControl.StoreLemmas

/-!
# Parents and children

In a linked store the parameters in `params` are exactly the children of groups, each under its id and in the group
that is its parent.  A group that holds a parameter need not be in `params` itself: an application may create below
a group that it has removed.

* `linked_create`, `linked_addChild`: creating and moving parameters keeps a store linked;
* `pruned_removeParameterDirect`: a removal takes a parameter away only with its parent, and leaves the rest of the
  tree and of the dirty list alone.
-/

namespace RabbitControl

open Lib

namespace Store

variable {s t u : Store} {r x y g c : Ref} {id : Id}

/-- The parameter is in `params`. -/
def Live (s : Store) (r : Ref) : Prop := s.params[s.idOf r]? = some r

/-- Two live parameters have different ids. -/
theorem Live.eq_of_idOf (hr : s.Live r) (hx : s.Live x) (h : s.idOf x = s.idOf r) : x = r := by
  rw [Live, h] at hx
  exact Option.some.inj (hx.symm.trans hr)

/-- What `params` and the children of groups say about a parameter fits together. -/
structure Cached (s : Store) : Prop where
  idOf : ∀ {id : Id} {r : Ref}, s.params[id]? = some r → s.idOf r = id
  built : ∀ {id : Id} {r : Ref}, s.params[id]? = some r → r < s.next
  managed : ∀ {id : Id} {r : Ref}, s.params[id]? = some r → (s.heap r).managed = true
  valid : ∀ {id : Id} {r : Ref}, s.params[id]? = some r → (s.heap r).isValid = true
  taken : ∀ {id : Id} {r : Ref}, s.params[id]? = some r → id ∈ s.ids
  child : ∀ {g : Ref} {id : Id} {c : Ref}, (s.children g)[id]? = some c →
    s.params[id]? = some c ∧ s.parent c = some g ∧ g < s.next

/-- Every parameter is found among the children of its parent. -/
structure Linked (s : Store) : Prop extends Cached s where
  parent : ∀ {id : Id} {c : Ref}, s.params[id]? = some c → ∃ g, s.parent c = some g ∧ (s.children g)[id]? = some c

/-- Two stores that agree on all that makes a store linked. -/
structure SameTree (s t : Store) : Prop where
  idOf : ∀ r, t.idOf r = s.idOf r
  datatype : ∀ r, (t.heap r).getDatatype = (s.heap r).getDatatype
  isGroup : ∀ r, (t.heap r).isGroup = (s.heap r).isGroup
  managed : ∀ r, (t.heap r).managed = (s.heap r).managed
  parent : ∀ r, t.parent r = s.parent r
  children : ∀ r, t.children r = s.children r
  params : t.params = s.params
  ids : t.ids = s.ids
  next : t.next = s.next

theorem SameTree.trans (h : SameTree s t) (k : SameTree t u) : SameTree s u :=
  ⟨fun r => (k.idOf r).trans (h.idOf r), fun r => (k.datatype r).trans (h.datatype r),
    fun r => (k.isGroup r).trans (h.isGroup r), fun r => (k.managed r).trans (h.managed r),
    fun r => (k.parent r).trans (h.parent r), fun r => (k.children r).trans (h.children r),
    k.params.trans h.params, k.ids.trans h.ids, k.next.trans h.next⟩

theorem sameTree_of_shape (hs : ∀ r, (t.heap r).shape = (s.heap r).shape) (hp : t.params = s.params)
    (hi : t.ids = s.ids) (hn : t.next = s.next) : SameTree s t := by
  exact ⟨fun r => congrArg Shape.id (hs r), fun r => congrArg Shape.datatype (hs r),
    fun r => congrArg Shape.isGroup (hs r), fun r => congrArg Shape.managed (hs r),
    fun r => congrArg Shape.parent (hs r), fun r => congrArg Shape.children (hs r), hp, hi, hn⟩

theorem SameTree.valid (h : SameTree s t) (r : Ref) : (t.heap r).isValid = (s.heap r).isValid := by
  have hi : (t.heap r).parameterId = (s.heap r).parameterId := h.idOf r
  simp [Parameter.isValid, h.datatype r, hi]

theorem sameTree_set (s : Store) (r : Ref) (a : Setter) : SameTree s (s.set r a) :=
  sameTree_of_shape (shape_set s r a) (params_set s r a) (ids_set s r a) (frame_set s r a).next

theorem SameTree.live (h : SameTree s t) : t.Live r ↔ s.Live r := by
  rw [Live, Live, h.params, h.idOf]

theorem Cached.congr (hs : Cached s) (h : SameTree s t) : Cached t where
  idOf hr := by rw [h.params] at hr; rw [h.idOf, hs.idOf hr]
  built hr := by rw [h.params] at hr; rw [h.next]; exact hs.built hr
  managed hr := by rw [h.params] at hr; rw [h.managed]; exact hs.managed hr
  valid hr := by rw [h.params] at hr; rw [h.valid]; exact hs.valid hr
  taken hr := by rw [h.params] at hr; rw [h.ids]; exact hs.taken hr
  child hc := by
    rw [h.children] at hc
    rw [h.params, h.parent, h.next]
    exact hs.child hc

theorem Linked.congr (hs : Linked s) (h : SameTree s t) : Linked t where
  toCached := hs.toCached.congr h
  parent hc := by
    rw [h.params] at hc
    obtain ⟨g, hg⟩ := hs.parent hc
    exact ⟨g, by rw [h.parent, h.children]; exact hg⟩

namespace Cached

variable (hs : Cached s)

include hs

theorem live (h : s.params[id]? = some r) : s.Live r := by rw [Live, hs.idOf h, h]

theorem live_iff : s.Live r ↔ ∃ id : Id, s.params[id]? = some r :=
  ⟨fun h => ⟨_, h⟩, fun ⟨_, h⟩ => hs.live h⟩

theorem child_live (h : (s.children g)[id]? = some c) : s.Live c := hs.live (hs.child h).1

/-- The id of a parameter in `params` is not `0`. -/
theorem idOf_ne_zero (h : s.Live r) : s.idOf r ≠ 0 := by
  have hv := hs.valid h
  simp only [Parameter.isValid, Bool.and_eq_true, bne_iff_ne] at hv
  exact hv.2

end Cached

/-- A parameter that has a parent is found among the children of it, and nowhere else. -/
structure Paired (s : Store) : Prop extends Cached s where
  parent : ∀ {id : Id} {c g : Ref}, s.params[id]? = some c → s.parent c = some g → (s.children g)[id]? = some c

/-- A group has a child under the id of a live parameter only if it is its parent. -/
theorem Paired.mem_children_iff (hs : Paired s) (h : s.Live r) : s.idOf r ∈ s.children g ↔ s.parent r = some g := by
  constructor
  · intro hm
    obtain ⟨c, hc⟩ := mem_iff_exists.mp hm
    obtain ⟨hp, hpar, -⟩ := hs.child hc
    rw [show c = r from Option.some.inj (hp.symm.trans h)] at hpar
    exact hpar
  · intro hp
    exact mem_of_getElem? (hs.parent h hp)

/-- A store is linked if every parameter has a parent besides. -/
theorem Paired.linked (hs : Paired s) (h : ∀ {id : Id} {c : Ref}, s.params[id]? = some c → ∃ g, s.parent c = some g) :
    Linked s where
  toCached := hs.toCached
  parent hc := by
    obtain ⟨g, hg⟩ := h hc
    exact ⟨g, hg, hs.parent hc hg⟩

namespace Linked

variable (hs : Linked s)

include hs

theorem paired : Paired s where
  toCached := hs.toCached
  parent hc hp := by
    obtain ⟨g', hg', hch⟩ := hs.parent hc
    rw [show _ = g' from Option.some.inj (hp.symm.trans hg'), hch]

theorem mem_children_iff (h : s.Live r) : s.idOf r ∈ s.children g ↔ s.parent r = some g := hs.paired.mem_children_iff h

end Linked

/-! ### Removal -/

/-- The first half of `removeParameterDirect`: the parameter leaves `ids`, its parent and `params`. -/
def unlink (r : Ref) (s : Store) : Store :=
  let t := ({ s with ids := s.ids.erase (s.idOf r) } : Store).leaveParent r
  { t with params := t.params.erase (t.idOf r) }

theorem removeParameterDirect_succ (n : Nat) (r : Ref) (s : Store) :
    removeParameterDirect (n + 1) r s =
      if (s.heap r).isValid then
        ((s.unlink r).children r).toList.foldl (fun s c => removeParameterDirect n c.2 s) (s.unlink r)
      else s :=
  rfl

section Unlink

variable (s : Store) (r : Ref)

theorem frame_unlink : Frame s (s.unlink r) := by
  have h := frame_leaveParent ({ s with ids := s.ids.erase (s.idOf r) } : Store) r
  exact ⟨h.idOf, h.datatype, h.isGroup, h.managed, h.next, h.removed⟩

@[simp] theorem ids_unlink : (s.unlink r).ids = s.ids.erase (s.idOf r) := by simp [unlink]

theorem params_unlink : (s.unlink r).params = s.params.erase (s.idOf r) := by
  have hid := (frame_leaveParent ({ s with ids := s.ids.erase (s.idOf r) } : Store) r).idOf r
  have hp := params_leaveParent ({ s with ids := s.ids.erase (s.idOf r) } : Store) r
  simp only [unlink, hid, hp]
  rfl

theorem children_unlink (x : Ref) :
    (s.unlink r).children x = if s.parent r = some x then (s.children x).erase (s.idOf r) else s.children x :=
  children_leaveParent ({ s with ids := s.ids.erase (s.idOf r) } : Store) r x

theorem parent_unlink {s : Store} {r x : Ref} (hx : x ≠ r) : (s.unlink r).parent x = s.parent x :=
  parent_leaveParent (s := { s with ids := s.ids.erase (s.idOf r) }) hx

theorem parentChanged_unlink {s : Store} {r x : Ref} (hx : x ≠ r) :
    ((s.unlink r).heap x).parentChanged = (s.heap x).parentChanged :=
  parentChanged_leaveParent (s := { s with ids := s.ids.erase (s.idOf r) }) hx

theorem dirtyStep_unlink : DirtyStep s (s.unlink r) r :=
  dirtyStep_leaveParent ({ s with ids := s.ids.erase (s.idOf r) } : Store) r

theorem getElem?_params_unlink (id : Id) :
    (s.unlink r).params[id]? = if id = s.idOf r then none else s.params[id]? := by
  rw [params_unlink, getElem?_erase_iff]

end Unlink

/-- What every step of a removal preserves is preserved by the removal.  The removed parameters are the first one and
children of removed ones that are found on the way, as far as they are valid. -/
theorem removeParameterDirect_invariant {P : Store → Prop} {Q : Ref → Prop}
    (hunlink : ∀ {s : Store} {r : Ref}, P s → Q r → (s.heap r).isValid = true → P (s.unlink r))
    (hchild : ∀ {s : Store} {g c : Ref} {i : Id}, P s → Q g → (s.heap g).isValid = true →
      (s.children g)[i]? = some c → Q c) (n : Nat) {s : Store} {r : Ref}
    (hs : P s) (hr : Q r) : P (removeParameterDirect n r s) := by
  induction n generalizing s r with
  | zero => exact hs
  | succ n ih =>
    rw [removeParameterDirect_succ]
    split
    · next hv =>
      have hu := hunlink hs hr hv
      have hfold : ∀ (l : List (Int16 × Ref)) {t : Store}, P t → (∀ c ∈ l, Q c.2) →
          P (l.foldl (fun s c => removeParameterDirect n c.2 s) t) := by
        intro l
        induction l with
        | nil => exact fun ht _ => ht
        | cons c l ihl =>
          intro t ht hl
          rw [List.forall_mem_cons] at hl
          exact ihl (ih ht hl.1) hl.2
      refine hfold _ hu fun c hc => ?_
      exact hchild hu hr (((frame_unlink s r).isValid r).trans hv) (Std.ExtTreeMap.mem_toList_iff_getElem?_eq_some.mp hc)
    · exact hs

/-- What waits for its removal to be sent does not get onto the dirty list. -/
theorem dirty_unlink_of_removed {s : Store} {r : Ref} (hr : s.idOf r ∈ s.removedParameter) :
    (s.unlink r).dirtyParameter = s.dirtyParameter := by
  show (leaveParent r { s with ids := s.ids.erase (s.idOf r) }).dirtyParameter = _
  unfold leaveParent removeChild
  split
  · split
    · rw [dirty_modify, dirty_clearParent, if_neg fun h => h.2 hr]
    · rfl
  · rfl

/-- Any other parameter does, when it leaves its group. -/
theorem mem_dirty_unlink (hs : Linked s) (hr : s.Live r) (hrem : s.idOf r ∉ s.removedParameter) :
    s.idOf r ∈ (s.unlink r).dirtyParameter := by
  obtain ⟨g, hg, hc⟩ := hs.parent hr
  show s.idOf r ∈ (leaveParent r { s with ids := s.ids.erase (s.idOf r) }).dirtyParameter
  rw [leaveParent, show Store.parent { s with ids := s.ids.erase (s.idOf r) } r = some g from hg]
  exact mem_of_getElem? (dirty_removeChild (s := { s with ids := s.ids.erase (s.idOf r) }) (mem_of_getElem? hc)
    (hs.managed hr) hrem)

/-- What a removal leaves behind.  Only parameters with the property `Q`, and those whose parent is removed as well,
are gone; the others keep their parent and their place on the dirty list. -/
structure Thinned (Q : Ref → Prop) (s t : Store) : Prop where
  paired : Paired t
  frame : Frame s t
  ids : t.ids ⊆ s.ids
  kept : ∀ {id : Id} {x : Ref}, t.params[id]? = some x → s.params[id]? = some x
  parent : ∀ {x : Ref}, t.Live x → t.parent x = s.parent x
  parentChanged : ∀ {x : Ref}, t.Live x → (t.heap x).parentChanged = (s.heap x).parentChanged
  dirty : ∀ {x : Ref}, t.Live x → t.dirtyParameter[s.idOf x]? = s.dirtyParameter[s.idOf x]?
  cascade : ∀ {x : Ref}, s.Live x → ¬t.Live x → Q x ∨ ∃ y, s.parent x = some y ∧ s.Live y ∧ ¬t.Live y
  noted : ∀ {id : Id}, id ∈ s.dirtyParameter → id ∈ t.dirtyParameter
  named : ∀ {id : Id} {x : Ref}, t.dirtyParameter[id]? = some x →
    s.dirtyParameter[id]? = some x ∨ s.Live x ∧ id = s.idOf x

namespace Thinned

variable {P Q : Ref → Prop}

theorem refl (hs : Paired s) : Thinned Q s s :=
  ⟨hs, .refl s, fun _ h => h, id, fun _ => rfl, fun _ => rfl, fun _ => rfl, fun h hn => absurd h hn, id, Or.inl⟩

theorem live (h : Thinned Q s t) (hx : t.Live x) : s.Live x := by
  have hk := h.kept hx
  rwa [h.frame.idOf] at hk

theorem trans (h : Thinned P s t) (k : Thinned Q t u)
    (hQ : ∀ x, t.Live x → Q x → P x ∨ ∃ y, s.parent x = some y ∧ s.Live y ∧ ¬u.Live y) : Thinned P s u where
  paired := k.paired
  frame := h.frame.trans k.frame
  ids := k.ids.trans h.ids
  kept hx := h.kept (k.kept hx)
  parent hx := (k.parent hx).trans (h.parent (k.live hx))
  parentChanged hx := (k.parentChanged hx).trans (h.parentChanged (k.live hx))
  dirty {x} hx := by
    have hk := k.dirty hx
    rw [h.frame.idOf] at hk
    exact hk.trans (h.dirty (k.live hx))
  cascade {x} hx hn := by
    by_cases ht : t.Live x
    · rcases k.cascade ht hn with hq | ⟨y, hp, hy, hny⟩
      · exact hQ x ht hq
      · exact Or.inr ⟨y, (h.parent ht).symm.trans hp, h.live hy, hny⟩
    · rcases h.cascade hx ht with hq | ⟨y, hp, hy, hny⟩
      · exact Or.inl hq
      · exact Or.inr ⟨y, hp, hy, fun hu => hny (k.live hu)⟩
  noted hi := k.noted (h.noted hi)
  named {id x} hx := by
    rcases k.named hx with ht | ⟨hl, hi⟩
    · exact h.named ht
    · exact Or.inr ⟨h.live hl, by rw [hi, h.frame.idOf]⟩

theorem imp (h : Thinned P s t) (hPQ : ∀ x, s.Live x → P x → Q x) : Thinned Q s t :=
  { h with cascade := fun hx hn => (h.cascade hx hn).imp_left (hPQ _ hx) }

theorem linked (hs : Linked s) (h : Thinned Q s t) : Linked t := by
  refine h.paired.linked fun {id c} hc => ?_
  have hlive : t.Live c := h.paired.live hc
  obtain ⟨g, hg, -⟩ := hs.parent (h.live hlive)
  exact ⟨g, (h.parent hlive).trans hg⟩

end Thinned

/-- What a removal leaves of a linked store. -/
structure Pruned (Q : Ref → Prop) (s t : Store) : Prop where
  linked : Linked t
  frame : Frame s t
  kept : ∀ {id : Id} {x : Ref}, t.params[id]? = some x → s.params[id]? = some x
  parent : ∀ {x : Ref}, t.Live x → t.parent x = s.parent x
  parentChanged : ∀ {x : Ref}, t.Live x → (t.heap x).parentChanged = (s.heap x).parentChanged
  dirty : ∀ {x : Ref}, t.Live x → t.dirtyParameter[s.idOf x]? = s.dirtyParameter[s.idOf x]?
  cascade : ∀ {x : Ref}, s.Live x → ¬t.Live x → Q x ∨ ∃ y, s.parent x = some y ∧ s.Live y ∧ ¬t.Live y
  noted : ∀ {id : Id}, id ∈ s.dirtyParameter → id ∈ t.dirtyParameter
  named : ∀ {id : Id} {x : Ref}, t.dirtyParameter[id]? = some x →
    s.dirtyParameter[id]? = some x ∨ s.Live x ∧ id = s.idOf x

namespace Pruned

variable {Q : Ref → Prop}

theorem live (h : Pruned Q s t) (hx : t.Live x) : s.Live x := by
  have hk := h.kept hx
  rwa [h.frame.idOf] at hk

end Pruned

theorem live_unlink_iff : (s.unlink r).Live x ↔ s.Live x ∧ s.idOf x ≠ s.idOf r := by
  rw [Live, Live, getElem?_params_unlink, (frame_unlink s r).idOf]
  split
  · next h => simp [h]
  · next h => simp [h]

theorem paired_unlink (hs : Paired s) (hr : s.Live r) : Paired (s.unlink r) := by
  have hf := frame_unlink s r
  -- a parameter left in `params` is another one, under another id
  have hp : ∀ {id : Id} {x : Ref}, (s.unlink r).params[id]? = some x → s.params[id]? = some x ∧ x ≠ r := by
    intro id x hx
    rw [getElem?_params_unlink] at hx
    split at hx
    · simp at hx
    · next hne => exact ⟨hx, fun hxr => hne (by rw [← hxr]; exact (hs.idOf hx).symm)⟩
  refine ⟨⟨fun hx => ?_, fun hx => ?_, fun hx => ?_, fun hx => ?_, fun {id x} hx => ?_, fun {g' id c} hc => ?_⟩,
    fun {id c g'} hc hg => ?_⟩
  · rw [hf.idOf]; exact hs.idOf (hp hx).1
  · rw [hf.next]; exact hs.built (hp hx).1
  · rw [hf.managed]; exact hs.managed (hp hx).1
  · rw [hf.isValid]; exact hs.valid (hp hx).1
  · rw [ids_unlink, Finset.mem_erase]
    refine ⟨fun hid => (hp hx).2 ?_, hs.taken (hp hx).1⟩
    have := (hp hx).1
    rw [hid] at this
    exact Option.some.inj (this.symm.trans hr)
  · rw [children_unlink] at hc
    have hid : (s.children g')[id]? = some c ∧ c ≠ r := by
      split at hc
      · rw [getElem?_erase_iff] at hc
        split at hc
        · simp at hc
        · next hne => exact ⟨hc, fun hcr => hne (by rw [← hcr]; exact (hs.idOf (hs.child hc).1).symm)⟩
      · next hne => exact ⟨hc, fun hcr => hne (by rw [← hcr]; exact (hs.child hc).2.1)⟩
    obtain ⟨h1, h2, h3⟩ := hs.child hid.1
    refine ⟨?_, by rw [parent_unlink hid.2, h2], by rw [hf.next]; exact h3⟩
    rw [getElem?_params_unlink, if_neg, h1]
    intro hi
    rw [hi] at h1
    exact hid.2 (Option.some.inj (h1.symm.trans hr))
  · obtain ⟨h1, h2⟩ := hp hc
    rw [parent_unlink h2] at hg
    have hch := hs.parent h1 hg
    rw [children_unlink]
    split
    · rw [getElem?_erase_iff, if_neg, hch]
      intro hi
      rw [hi] at h1
      exact h2 (Option.some.inj (h1.symm.trans hr))
    · exact hch

theorem thinned_unlink (hs : Paired s) (hr : s.Live r) : Thinned (· = r) s (s.unlink r) := by
  have hf := frame_unlink s r
  have hl := paired_unlink hs hr
  have hother : ∀ {x : Ref}, (s.unlink r).Live x → x ≠ r ∧ s.idOf x ≠ s.idOf r := fun hx =>
    have hne := (live_unlink_iff.mp hx).2
    ⟨fun hxr => hne (by rw [hxr]), hne⟩
  have hids : (s.unlink r).ids ⊆ s.ids := by
    rw [ids_unlink]
    exact Finset.erase_subset _ _
  refine ⟨hl, hf, hids, fun {id x} hx => ?_, fun hx => parent_unlink (hother hx).1,
    fun hx => parentChanged_unlink (hother hx).1, fun hx => (dirtyStep_unlink s r).getElem? (hother hx).2,
    fun {x} hx hn => Or.inl ?_, fun {id} hi => ?_, fun {id x} hx => ?_⟩
  · rw [getElem?_params_unlink] at hx
    split at hx
    · simp at hx
    · exact hx
  · by_contra hne
    exact hn (live_unlink_iff.mpr ⟨hx, fun hi => hne (hr.eq_of_idOf hx hi)⟩)
  · rcases dirtyStep_unlink s r with h | h <;> rw [h]
    · exact hi
    · exact Std.ExtTreeMap.mem_insert.mpr (Or.inr hi)
  · rcases (dirtyStep_unlink s r).cases hx with h | ⟨hi, rfl⟩
    · exact Or.inl h
    · exact Or.inr ⟨hr, hi⟩

theorem linked_unlink (hs : Linked s) (hr : s.Live r) : Linked (s.unlink r) :=
  (thinned_unlink hs.paired hr).linked hs

theorem not_live_unlink (s : Store) (r : Ref) : ¬(s.unlink r).Live r := fun h => (live_unlink_iff.mp h).2 rfl

/-- No child of a removed group is left. -/
def Closed (s t : Store) : Prop := ∀ {x y : Ref}, t.Live x → s.parent x = some y → s.Live y → t.Live y

theorem Closed.trans {P Q : Ref → Prop} (h : Closed s t) (hst : Thinned P s t) (htu : Thinned Q t u) (k : Closed t u) :
    Closed s u := fun hx hp hy =>
  k hx ((hst.parent (htu.live hx)).trans hp) (h (htu.live hx) hp hy)

/-- What the removal of a parameter with a bound `n` on the depth comes to.  If the bound exceeds the number of ids, it
is not hit, and nothing below the parameter is left. -/
structure Removed (n : Nat) (r : Ref) (s t : Store) : Prop where
  thinned : Thinned (· = r) s t
  gone : 0 < n → ¬t.Live r
  closed : s.ids.card < n → Closed s t

/-- The loop over the children that a removed parameter has when the loop starts.  What is left of this snapshot are
children still, since their parent is gone already; each of them is removed from a store that holds it. -/
private theorem thinned_foldl {n : Nat}
    (ih : ∀ {t : Store} {c : Ref}, Paired t → t.Live c → Removed n c t (removeParameterDirect n c t))
    (l : List (Int16 × Ref)) (hs : Paired s) (hr : ¬s.Live r) (hl : l.Pairwise fun a b => a.1 ≠ b.1)
    (hc : ∀ e ∈ l, (s.children r)[e.1]? = some e.2) :
    Thinned (fun x => s.parent x = some r) s (l.foldl (fun s c => removeParameterDirect n c.2 s) s) ∧
      (s.ids.card < n → Closed s (l.foldl (fun s c => removeParameterDirect n c.2 s) s)) ∧
      ∀ e ∈ l, ∃ u, Thinned (fun _ => True) s u ∧ u.Live e.2 ∧
        Thinned (fun _ => True) (removeParameterDirect n e.2 u) (l.foldl (fun s c => removeParameterDirect n c.2 s) s) := by
  induction l generalizing s with
  | nil => exact ⟨.refl hs, fun _ _ _ _ _ hy => hy, by simp⟩
  | cons e l ihl =>
    rw [List.foldl_cons]
    have he := hc e (List.mem_cons_self ..)
    obtain ⟨hfirst, -, hclosed⟩ := ih hs (hs.child_live he)
    rw [List.pairwise_cons] at hl
    obtain ⟨hrest, hclosed', hparts⟩ := ihl hfirst.paired (fun h => hr (hfirst.live h)) hl.2 fun e' he' => by
      have hce := hc e' (List.mem_cons_of_mem _ he')
      have hlive : (removeParameterDirect n e.2 s).Live e'.2 := by
        by_contra hn
        rcases hfirst.cascade (hs.child_live hce) hn with heq | ⟨y, hy, hly, -⟩
        · refine hl.1 e' he' ?_
          rw [← hs.idOf (hs.child he).1, ← hs.idOf (hs.child hce).1, heq]
        · rw [(hs.child hce).2.1] at hy
          exact hr (Option.some.inj hy ▸ hly)
      have hch := hfirst.paired.parent hlive ((hfirst.parent hlive).trans (hs.child hce).2.1)
      rw [hfirst.frame.idOf, hs.idOf (hs.child hce).1] at hch
      exact hch
    have hany : Thinned (fun _ => True) s (removeParameterDirect n e.2 s) := hfirst.imp fun _ _ _ => trivial
    refine ⟨(hfirst.imp fun x _ hx => ?_).trans hrest fun x hx hp => ?_, fun hcard => ?_, fun e' he' => ?_⟩
    · rw [hx]; exact (hs.child he).2.1
    · exact Or.inl ((hfirst.parent hx).symm.trans hp)
    · exact Closed.trans (hclosed hcard) hfirst hrest (hclosed' ((Finset.card_le_card hfirst.ids).trans_lt hcard))
    · rcases List.mem_cons.mp he' with rfl | he'
      · exact ⟨s, .refl hs, hs.child_live he, hrest.imp fun _ _ _ => trivial⟩
      · obtain ⟨u, h1, h2, h3⟩ := hparts e' he'
        exact ⟨u, hany.trans h1 fun _ _ _ => Or.inl trivial, h2, h3⟩

/-- After the parameter itself its children are removed. -/
private theorem thinned_children {n : Nat}
    (ih : ∀ {t : Store} {c : Ref}, Paired t → t.Live c → Removed n c t (removeParameterDirect n c t))
    (hs : Paired s) (hr : s.Live r) :
    Thinned (fun x => (s.unlink r).parent x = some r) (s.unlink r) (removeParameterDirect (n + 1) r s) ∧
      ((s.unlink r).ids.card < n → Closed (s.unlink r) (removeParameterDirect (n + 1) r s)) ∧
      ∀ {i : Id} {c : Ref}, ((s.unlink r).children r)[i]? = some c → ∃ u, Thinned (fun _ => True) (s.unlink r) u ∧
        u.Live c ∧ Thinned (fun _ => True) (removeParameterDirect n c u) (removeParameterDirect (n + 1) r s) := by
  rw [removeParameterDirect_succ, if_pos (hs.valid hr)]
  obtain ⟨h1, h2, h3⟩ := thinned_foldl ih _ (paired_unlink hs hr) (not_live_unlink s r)
    (Std.ExtTreeMap.distinct_keys_toList.imp fun {a b} h => by simpa using h)
    fun e he => Std.ExtTreeMap.mem_toList_iff_getElem?_eq_some.mp he
  exact ⟨h1, h2, fun {i c} hc => h3 (i, c) (Std.ExtTreeMap.mem_toList_iff_getElem?_eq_some.mpr hc)⟩

/-- The removal of a live parameter thins out its subtree. -/
theorem removed_removeParameterDirect (n : Nat) (hs : Paired s) (hr : s.Live r) :
    Removed n r s (removeParameterDirect n r s) := by
  induction n generalizing s r with
  | zero => exact ⟨.refl hs, fun h => absurd h (Nat.lt_irrefl _), fun h => absurd h (Nat.not_lt_zero _)⟩
  | succ n ih =>
    have hu := thinned_unlink hs hr
    obtain ⟨hc, hclosed, hparts⟩ := thinned_children ih hs hr
    have hgone : ¬(removeParameterDirect (n + 1) r s).Live r := fun h => not_live_unlink s r (hc.live h)
    refine ⟨hu.trans hc fun x hx hp => Or.inr ⟨r, (hu.parent hx).symm.trans hp, hr, hgone⟩, fun _ => hgone,
      fun hcard x y hx hp hy => ?_⟩
    have hcard' : (s.unlink r).ids.card < n := by
      have hlt : (s.unlink r).ids.card < s.ids.card := by
        rw [ids_unlink]
        exact Finset.card_erase_lt_of_mem (hs.taken hr)
      omega
    have hxu := hc.live hx
    by_cases hyr : y = r
    · -- a child of the removed parameter has been removed in its turn
      subst hyr
      obtain ⟨v, hv, hxv, hrest⟩ := hparts (hu.paired.parent hxu ((hu.parent hxu).trans hp))
      exact absurd (hrest.live hx) ((ih hv.paired hxv).gone (Nat.zero_lt_of_lt hcard'))
    · refine hclosed hcard' hx ((hu.parent hxu).trans hp) (live_unlink_iff.mpr ⟨hy, fun hi => hyr ?_⟩)
      exact hr.eq_of_idOf hy hi

/-- In a linked store every parameter that is left keeps a parent. -/
theorem pruned_removeParameterDirect (n : Nat) (hs : Linked s) (hr : s.Live r) :
    Pruned (· = r) s (removeParameterDirect n r s) := by
  have h := (removed_removeParameterDirect n hs.paired hr).thinned
  exact ⟨h.linked hs, h.frame, h.kept, h.parent, h.parentChanged, h.dirty, h.cascade, h.noted, h.named⟩

/-- What is removed is gone. -/
theorem not_live_removeParameterDirect (n : Nat) (hs : Linked s) (hr : s.Live r) :
    ¬(removeParameterDirect (n + 1) r s).Live r :=
  (removed_removeParameterDirect (n + 1) hs.paired hr).gone n.succ_pos

/-- A removed parameter gets onto the dirty list, unless it is the one whose removal is sent. -/
theorem mem_dirty_removeParameterDirect (n : Nat) (hs : Linked s) (hr : s.Live r)
    (hrem : s.idOf r ∉ s.removedParameter) :
    s.idOf r ∈ (removeParameterDirect (n + 1) r s).dirtyParameter :=
  (thinned_children (removed_removeParameterDirect n) hs.paired hr).1.noted (mem_dirty_unlink hs hr hrem)

/-- So do the children of a removed parameter. -/
theorem child_mem_dirty (n : Nat) (hs : Linked s) (hr : s.Live r) (hc : (s.children r)[id]? = some c) (hcr : c ≠ r)
    (hrem : id ∉ s.removedParameter) : id ∈ (removeParameterDirect (n + 2) r s).dirtyParameter := by
  have hidc := hs.idOf (hs.child hc).1
  have hne : id ≠ s.idOf r := fun h => hcr (hr.eq_of_idOf (hs.child_live hc) (hidc.trans h))
  have hcu : ((s.unlink r).children r)[id]? = some c := by
    rw [children_unlink]
    split
    · rw [getElem?_erase_iff, if_neg hne, hc]
    · exact hc
  obtain ⟨u, hu, hlu, hrest⟩ := (thinned_children (removed_removeParameterDirect (n + 1)) hs.paired hr).2.2 hcu
  have hf := (frame_unlink s r).trans hu.frame
  have hcd := mem_dirty_removeParameterDirect n (hu.linked (linked_unlink hs hr)) hlu
    (by rw [hf.idOf, hf.removed, hidc]; exact hrem)
  rw [hf.idOf, hidc] at hcd
  exact hrest.noted hcd

/-- A parameter without other children than itself is removed alone. -/
theorem removeParameterDirect_of_leaf (n : Nat) (hs : Cached s) (hr : s.Live r)
    (hleaf : ∀ {i : Id} {c : Ref}, (s.children r)[i]? = some c → c = r) :
    removeParameterDirect (n + 1) r s = s.unlink r := by
  have hnone : ∀ e ∈ ((s.unlink r).children r).toList, False := by
    intro e he
    have hc := Std.ExtTreeMap.mem_toList_iff_getElem?_eq_some.mp he
    rw [children_unlink] at hc
    split at hc
    · rw [getElem?_erase_iff] at hc
      split at hc
      · simp at hc
      · next hne =>
        refine hne ?_
        rw [← hleaf hc]
        exact (hs.idOf (hs.child hc).1).symm
    · next hp =>
      have hpc := (hs.child hc).2.1
      rw [hleaf hc] at hpc
      exact hp hpc
  rw [removeParameterDirect_succ, if_pos (hs.valid hr), List.eq_nil_iff_forall_not_mem.mpr hnone]
  rfl

/-! ### Creation -/

private theorem firstFree_spec {ids : Finset Int16} {n i : Nat} {id : Id} (h : firstFree ids n i = some id) :
    id ∉ ids ∧ ∃ j, i ≤ j ∧ j < i + n ∧ id = Int16.ofNat j := by
  induction n generalizing i with
  | zero => simp [firstFree] at h
  | succ n ih =>
    rw [firstFree] at h
    split at h
    · obtain ⟨h1, j, hj, hj', hid⟩ := ih h
      exact ⟨h1, j, by omega, by omega, hid⟩
    · next hn =>
      rw [← Option.some.inj h]
      exact ⟨hn, i, le_rfl, by omega, rfl⟩

/-- The next id is free and not the invalid id `0`. -/
theorem nextId_spec (h : s.nextId = some id) : id ∉ s.ids ∧ id ≠ 0 := by
  obtain ⟨h1, j, hj, hj', rfl⟩ := firstFree_spec h
  refine ⟨h1, fun h0 => ?_⟩
  have h2 : (BitVec.ofNat 16 j).toNat = 0 := congrArg (fun i : Int16 => i.toBitVec.toNat) h0
  rw [BitVec.toNat_ofNat] at h2
  omega

/-- Creation that does not throw has found an id. -/
theorem exists_nextId {mem : Memory} {f : CreateFunction} {label : Bytes} (h : s.create mem f label g = some (r, t)) :
    ∃ id, s.nextId = some id := by
  cases hid : s.nextId with
  | none => simp [create, hid] at h
  | some id => exact ⟨id, rfl⟩

/-- What `create` adds to a store: the parameter `r`, under a free id, in the group `g`. -/
structure Born (s t : Store) (r g : Ref) (id : Id) : Prop where
  ref : r = s.next
  free : id ∉ s.ids
  nonzero : id ≠ 0
  next : t.next = r + 1
  idOf_new : t.idOf r = id
  idOf : ∀ {x : Ref}, x ≠ r → t.idOf x = s.idOf x
  isGroup : ∀ {x : Ref}, x ≠ r → (t.heap x).isGroup = (s.heap x).isGroup
  managed_new : (t.heap r).managed = true
  managed : ∀ {x : Ref}, x ≠ r → (t.heap x).managed = (s.heap x).managed
  valid_new : (t.heap r).isValid = true
  known_new : (t.heap r).known = true
  valid : ∀ {x : Ref}, x ≠ r → (t.heap x).isValid = (s.heap x).isValid
  known : ∀ {x : Ref}, x ≠ r → (t.heap x).known = (s.heap x).known
  params : t.params = s.params.insert id r
  ids : t.ids = insert id s.ids
  removed : t.removedParameter = s.removedParameter
  parent : ∀ x, t.parent x = if x = r then some g else s.parent x
  parentChanged : ∀ x, (t.heap x).parentChanged = true ↔ x = r ∨ (s.heap x).parentChanged = true ∧ x ≠ r
  dirty : t.dirtyParameter = s.dirtyParameter ∨ t.dirtyParameter = s.dirtyParameter.insert id r
  marked : id ∉ s.removedParameter → t.dirtyParameter[id]? = some r

/-- The new parameter before it is added to its group. -/
private def newborn (mem : Memory) (f : CreateFunction) (label : Bytes) (id : Id) (s : Store) : Store :=
  let t := ({ s with ids := insert id s.ids, next := s.next + 1 } : Store).put s.next (.create mem id f.type)
  ((t.modify s.next fun p => { p with managed := true }).set s.next (.label (.set label))).setDirty s.next

section Newborn

variable (mem : Memory) (f : CreateFunction) (label : Bytes) (id : Id) (s : Store)

private theorem shape_newborn (x : Ref) :
    ((newborn mem f label id s).heap x).shape =
      if x = s.next then { (Parameter.create mem id f.type).shape with managed := true } else (s.heap x).shape := by
  unfold newborn
  dsimp only
  rw [heap_setDirty, shape_set]
  by_cases hx : x = s.next
  · subst hx; simp only [modify, put, if_true]; rfl
  · simp [modify, put, hx]

private theorem heap_newborn {x : Ref} (hx : x ≠ s.next) : (newborn mem f label id s).heap x = s.heap x := by
  unfold newborn
  dsimp only
  rw [heap_setDirty, heap_set, if_neg hx]
  simp [modify, put, hx]

private theorem frame_newborn_aux :
    Frame (({ s with ids := insert id s.ids, next := s.next + 1 } : Store).put s.next
        { Parameter.create mem id f.type with managed := true }) (newborn mem f label id s) ∧
      DirtyStep (({ s with ids := insert id s.ids, next := s.next + 1 } : Store).put s.next
        { Parameter.create mem id f.type with managed := true }) (newborn mem f label id s) s.next := by
  set t := (({ s with ids := insert id s.ids, next := s.next + 1 } : Store).put s.next
        { Parameter.create mem id f.type with managed := true }) with ht
  have hn : newborn mem f label id s = (t.set s.next (.label (.set label))).setDirty s.next := by
    unfold newborn
    dsimp only
    rw [modify_put, ht]
  rw [hn]
  have h1 := frame_set t s.next (.label (.set label))
  exact ⟨h1.trans (frame_setDirty _ _), (dirtyStep_set t s.next _).trans h1 (dirtyStep_setDirty _ _)⟩

private theorem create_eq (group : Ref) (h : s.nextId = some id) :
    s.create mem f label group =
      some (s.next, { (newborn mem f label id s).addChild group s.next with
        params := ((newborn mem f label id s).addChild group s.next).params.insert
          (((newborn mem f label id s).addChild group s.next).idOf s.next) s.next }) := by
  rw [create, h]
  rfl

end Newborn

/-- Creation below a group. -/
theorem born_create (mem : Memory) (f : CreateFunction) (label : Bytes) (hid : s.nextId = some id) :
    ∃ t, s.create mem f label g = some (s.next, t) ∧ Born s t s.next g id := by
  refine ⟨_, create_eq mem f label id s g hid, ?_⟩
  obtain ⟨hfree, hzero⟩ := nextId_spec hid
  obtain ⟨hf, hd⟩ := frame_newborn_aux mem f label id s
  set n := newborn mem f label id s with hn
  have hnew : (n.heap s.next).shape = { (Parameter.create mem id f.type).shape with managed := true } := by
    rw [shape_newborn, if_pos rfl]
  have hidn : n.idOf s.next = id := congrArg Shape.id hnew
  have hman : (n.heap s.next).managed = true := congrArg Shape.managed hnew
  have hpar : n.parent s.next = none := congrArg Shape.parent hnew
  have hremoved : n.removedParameter = s.removedParameter := hf.removed
  have hparams : n.params = s.params := by simp [hn, newborn, modify, put]
  have hids : n.ids = insert id s.ids := by simp [hn, newborn, modify, put]
  have hm : Moved n (n.addChild g s.next) s.next g := moved_addChild fun p hp => by simp [hpar] at hp
  have hheap : ∀ {x : Ref}, x ≠ s.next → n.heap x = s.heap x := fun hx => heap_newborn mem f label id s hx
  refine ⟨rfl, hfree, hzero, ?_, ?_, fun {x} hx => ?_, fun {x} hx => ?_, ?_, fun {x} hx => ?_, ?_, ?_, fun {x} hx => ?_,
    fun {x} hx => ?_, ?_, ?_, ?_, fun x => ?_, fun x => ?_, ?_, fun hrem => ?_⟩
  · exact hm.frame.next.trans hf.next
  · exact (hm.frame.idOf _).trans hidn
  · exact (hm.frame.idOf x).trans (by rw [Store.idOf, hheap hx]; rfl)
  · exact (hm.frame.isGroup x).trans (by rw [hheap hx])
  · exact (hm.frame.managed _).trans hman
  · exact (hm.frame.managed x).trans (by rw [hheap hx])
  · refine (hm.frame.isValid _).trans ?_
    have hdt : (n.heap s.next).getDatatype = (Parameter.create mem id f.type).getDatatype :=
      congrArg Shape.datatype hnew
    have hin : (n.heap s.next).parameterId = id := hidn
    rw [Parameter.isValid, hdt, hin, Bool.and_eq_true]
    exact ⟨by cases f <;> rfl, by simpa using hzero⟩
  · have hdt : (n.heap s.next).getDatatype = (Parameter.create mem id f.type).getDatatype :=
      congrArg Shape.datatype hnew
    rw [Parameter.known, hm.frame.datatype, hdt]
    cases f <;> rfl
  · exact (hm.frame.isValid x).trans (by rw [hheap hx])
  · rw [Parameter.known, Parameter.known]
    exact congrArg (fun d : UInt8 => d != 1 && d != datatypeMax) ((hm.frame.datatype x).trans (by rw [hheap hx]))
  · show ((n.addChild g s.next).params.insert ((n.addChild g s.next).idOf s.next) s.next) = _
    rw [hm.params, hm.frame.idOf, hidn, hparams]
  · exact hm.ids.trans hids
  · exact hm.frame.removed.trans hremoved
  · refine (hm.parent x).trans ?_
    split
    · rfl
    · next hx => rw [Store.parent, hheap hx]; rfl
  · refine (hm.parentChanged x).trans ?_
    by_cases hx : x = s.next
    · simp [hx]
    · simp [hx, hheap hx]
  · have hd' := hd.trans hf hm.dirty
    rw [DirtyStep] at hd'
    have hi : (({ s with ids := insert id s.ids, next := s.next + 1 } : Store).put s.next
        { Parameter.create mem id f.type with managed := true }).idOf s.next = id := (hf.idOf s.next).symm.trans hidn
    rw [hi] at hd'
    exact hd'
  · have hk := hm.marked hman (by rwa [hidn, hremoved])
    rwa [hidn] at hk

/-- What a creation that succeeds has added. -/
theorem born_of_create {mem : Memory} {f : CreateFunction} {label : Bytes} (hid : s.nextId = some id)
    (hc : s.create mem f label g = some (r, t)) : r = s.next ∧ Born s t s.next g id := by
  obtain ⟨t', ht', hb⟩ := born_create (g := g) mem f label hid
  rw [hc] at ht'
  obtain ⟨rfl, rfl⟩ := Prod.mk.inj (Option.some.inj ht')
  exact ⟨rfl, hb⟩

/-- The new parameter has the datatype of its type, and the others keep theirs. -/
theorem datatype_create {mem : Memory} {f : CreateFunction} {label : Bytes} (hid : s.nextId = some id)
    (hc : s.create mem f label g = some (r, t)) :
    (t.heap r).getDatatype = (Kind.make mem f.type).datatype ∧
      ∀ {x}, x ≠ r → (t.heap x).getDatatype = (s.heap x).getDatatype := by
  rw [create_eq mem f label id s g hid] at hc
  obtain ⟨rfl, rfl⟩ := Prod.mk.inj (Option.some.inj hc)
  have hnew := shape_newborn mem f label id s
  set n := newborn mem f label id s
  have hpar : n.parent s.next = none := (congrArg Shape.parent (hnew s.next)).trans (by rw [if_pos rfl]; rfl)
  have hm : Moved n (n.addChild g s.next) s.next g := moved_addChild fun p hp => by simp [hpar] at hp
  refine ⟨(hm.frame.datatype s.next).trans ?_, fun {x} hx => (hm.frame.datatype x).trans ?_⟩
  · exact (congrArg Shape.datatype (hnew s.next)).trans (by rw [if_pos rfl]; rfl)
  · exact (congrArg Shape.datatype (hnew x)).trans (by rw [if_neg hx]; rfl)

/-- The new parameter is a child of its group unless its id is taken there, and the other children stay. -/
theorem getElem?_children_create (hg : (s.heap g).isGroup = true) (hgn : g < s.next)
    {mem : Memory} {f : CreateFunction} {label : Bytes} (hid : s.nextId = some id)
    (ht : s.create mem f label g = some (r, t)) (x : Ref) (i : Id) :
    (t.children x)[i]? =
      if x = g ∧ i = id ∧ id ∉ s.children g then some s.next else if x = s.next then none else (s.children x)[i]? := by
  rw [create_eq mem f label id s g hid] at ht
  obtain ⟨-, rfl⟩ := Prod.mk.inj (Option.some.inj ht)
  set n := newborn mem f label id s with hn
  have hnew : (n.heap s.next).shape = { (Parameter.create mem id f.type).shape with managed := true } := by
    rw [hn, shape_newborn, if_pos rfl]
  have hidn : n.idOf s.next = id := congrArg Shape.id hnew
  have hpar : n.parent s.next = none := congrArg Shape.parent hnew
  have hchild : n.children s.next = ∅ := by
    refine (congrArg Shape.children hnew).trans ?_
    cases f <;> rfl
  have hheap : ∀ {x : Ref}, x ≠ s.next → n.heap x = s.heap x := fun hx => heap_newborn mem f label id s hx
  have hgne : g ≠ s.next := Nat.ne_of_lt hgn
  have key := getElem?_children_addChild (s := n) (g := g) (r := s.next) (by rw [hheap hgne, hg])
    (fun p hp => by simp [hpar] at hp) x i
  refine Eq.trans ?_ (key.trans ?_)
  · rfl
  · have hng : n.children g = s.children g := by rw [Store.children, hheap hgne]; rfl
    rw [hidn, hng]
    by_cases hx : x = s.next
    · subst hx
      simp [Ne.symm hgne, hpar, hchild]
    · have hnx : n.children x = s.children x := by rw [Store.children, hheap hx]; rfl
      simp [hx, hpar, hnx]

/-- Where the parameters have their ids the id is not taken. -/
theorem children_create (hs : Cached s) (hg : (s.heap g).isGroup = true) (hgn : g < s.next)
    {mem : Memory} {f : CreateFunction} {label : Bytes} (hid : s.nextId = some id)
    (ht : s.create mem f label g = some (r, t)) (x : Ref) (i : Id) :
    (t.children x)[i]? =
      if x = g ∧ i = id then some s.next else if x = s.next then none else (s.children x)[i]? := by
  have hfresh : id ∉ s.children g := by
    intro hm
    obtain ⟨c, hc⟩ := mem_iff_exists.mp hm
    exact (nextId_spec hid).1 (hs.taken (hs.child hc).1)
  rw [getElem?_children_create hg hgn hid ht]
  simp only [hfresh, not_false_eq_true, and_true]

theorem paired_create (hs : Paired s) (hg : (s.heap g).isGroup = true) (hgn : g < s.next) {mem : Memory}
    {f : CreateFunction} {label : Bytes}
    (ht : s.create mem f label g = some (r, t)) : Paired t := by
  obtain ⟨id, hid⟩ := exists_nextId ht
  obtain ⟨rfl, hb⟩ := born_of_create hid ht
  have hch := children_create hs.toCached hg hgn hid ht
  -- an entry of `params` is the new one or an old one, and the old ones are below `next`
  have hp : ∀ {i : Id} {x : Ref}, t.params[i]? = some x →
      i = id ∧ x = s.next ∨ s.params[i]? = some x ∧ x ≠ s.next ∧ i ≠ id := by
    intro i x hx
    rw [hb.params, getElem?_insert_iff] at hx
    split at hx
    · next h => exact Or.inl ⟨h, (Option.some.inj hx).symm⟩
    · next h => exact Or.inr ⟨hx, Nat.ne_of_lt (hs.built hx), h⟩
  refine ⟨⟨fun {i x} hx => ?_, fun {i x} hx => ?_, fun {i x} hx => ?_, fun {i x} hx => ?_, fun {i x} hx => ?_,
    fun {g' i c} hc => ?_⟩, fun {i c g'} hc hp' => ?_⟩
  · rcases hp hx with ⟨rfl, rfl⟩ | ⟨h, hne, -⟩
    · exact hb.idOf_new
    · rw [hb.idOf hne]; exact hs.idOf h
  · rcases hp hx with ⟨-, rfl⟩ | ⟨h, -, -⟩
    · rw [hb.next]; exact Nat.lt_succ_self _
    · rw [hb.next]; exact Nat.lt_succ_of_lt (hs.built h)
  · rcases hp hx with ⟨-, rfl⟩ | ⟨h, hne, -⟩
    · exact hb.managed_new
    · rw [hb.managed hne]; exact hs.managed h
  · rcases hp hx with ⟨rfl, rfl⟩ | ⟨h, hne, -⟩
    · exact hb.valid_new
    · rw [hb.valid hne]; exact hs.valid h
  · rw [hb.ids]
    rcases hp hx with ⟨rfl, -⟩ | ⟨h, -, -⟩
    · exact Finset.mem_insert_self _ _
    · exact Finset.mem_insert_of_mem (hs.taken h)
  · rw [hch] at hc
    rw [hb.params, hb.parent, hb.next, getElem?_insert_iff]
    split at hc
    · next h =>
      have hcn := (Option.some.inj hc).symm
      rw [if_pos h.2, if_pos hcn, hcn, h.1]
      exact ⟨rfl, rfl, Nat.lt_succ_of_lt hgn⟩
    · split at hc
      · simp at hc
      · obtain ⟨h1, h2, h3⟩ := hs.child hc
        have hcn : c ≠ s.next := Nat.ne_of_lt (hs.built h1)
        have hin : i ≠ id := fun h => (nextId_spec hid).1 (h ▸ hs.taken h1)
        rw [if_neg hcn, if_neg hin]
        exact ⟨h1, h2, Nat.lt_succ_of_lt h3⟩
  · rw [hb.parent] at hp'
    rcases hp hc with ⟨rfl, rfl⟩ | ⟨h, hne, hin⟩
    · rw [if_pos rfl] at hp'
      rw [hch, if_pos ⟨(Option.some.inj hp').symm, rfl⟩]
    · rw [if_neg hne] at hp'
      have hc' := hs.parent h hp'
      have hgn' : g' ≠ s.next := Nat.ne_of_lt (hs.child hc').2.2
      rw [hch, if_neg fun h => hin h.2, if_neg hgn', hc']

theorem linked_create (hs : Linked s) (hg : (s.heap g).isGroup = true) (hgn : g < s.next) {mem : Memory}
    {f : CreateFunction} {label : Bytes}
    (ht : s.create mem f label g = some (r, t)) : Linked t := by
  refine (paired_create hs.paired hg hgn ht).linked fun {i c} hc => ?_
  obtain ⟨id, hid⟩ := exists_nextId ht
  obtain ⟨rfl, hb⟩ := born_of_create hid ht
  rw [hb.params, getElem?_insert_iff] at hc
  rw [hb.parent]
  split at hc
  · exact ⟨g, if_pos (Option.some.inj hc).symm⟩
  · obtain ⟨g', hg', -⟩ := hs.parent hc
    exact ⟨g', by rw [if_neg (Nat.ne_of_lt (hs.built hc)), hg']⟩

/-! ### Moving -/

/-- The group is the root group or a live one. -/
def Held (s : Store) (g : Ref) : Prop := g = root ∨ s.Live g

/-- Every parameter lies below a group that the server holds. -/
structure Anchored (s : Store) : Prop where
  rootId : s.idOf root = 0
  held : ∀ {c g : Ref}, s.Live c → s.parent c = some g → s.Held g

/-- A held group is known by its id. -/
theorem Held.eq_of_idOf (hs : Cached s) (h0 : s.idOf root = 0) (hg : s.Held g) (hx : s.Held x)
    (h : s.idOf x = s.idOf g) : x = g := by
  rcases hg with rfl | hg <;> rcases hx with rfl | hx
  · rfl
  · exact absurd (h.trans h0) (hs.idOf_ne_zero hx)
  · exact absurd (h.symm.trans h0) (hs.idOf_ne_zero hg)
  · exact hg.eq_of_idOf hx h

/-- A store in which the children of groups may lack the parameter under the id. -/
structure LinkedBut (id : Id) (s : Store) : Prop extends Cached s where
  parent : ∀ {i : Id} {c : Ref}, i ≠ id → s.params[i]? = some c →
    ∃ g, s.parent c = some g ∧ (s.children g)[i]? = some c

theorem LinkedBut.congr (hs : LinkedBut id s) (h : SameTree s t) : LinkedBut id t where
  toCached := hs.toCached.congr h
  parent hi hc := by
    rw [h.params] at hc
    obtain ⟨g, hg⟩ := hs.parent hi hc
    exact ⟨g, by rw [h.parent, h.children]; exact hg⟩

theorem Linked.but (hs : Linked s) (id : Id) : LinkedBut id s := ⟨hs.toCached, fun _ h => hs.parent h⟩

/-- Without a parameter under the id nothing lacks. -/
theorem LinkedBut.linked (hs : LinkedBut id s) (hid : s.params[id]? = none) : Linked s :=
  ⟨hs.toCached, fun {i c} hc => hs.parent (fun h => by rw [h, hid] at hc; simp at hc) hc⟩

/-- A store in which the parameter under the id may lack among the children of its parent. -/
structure PairedBut (id : Id) (s : Store) : Prop extends Cached s where
  parent : ∀ {i : Id} {c g : Ref}, i ≠ id → s.params[i]? = some c → s.parent c = some g → (s.children g)[i]? = some c

theorem Paired.but (hs : Paired s) (id : Id) : PairedBut id s := ⟨hs.toCached, fun _ h => hs.parent h⟩

theorem LinkedBut.paired (hs : LinkedBut id s) : PairedBut id s := by
  refine ⟨hs.toCached, fun {i c g} hi hc hp => ?_⟩
  obtain ⟨g', hg', hch⟩ := hs.parent hi hc
  rw [show g = g' from Option.some.inj (hp.symm.trans hg'), hch]

/-- A parameter that is added to the group that is its parent is found there, even if it lacked before. -/
private theorem paired_addChild_of_same (hs : PairedBut (s.idOf x) s) (hx : s.Live x) (hg : (s.heap g).isGroup = true)
    (hgn : g < s.next) (hp : s.parent x = some g) : Paired (s.addChild g x) := by
  have hf := frame_enterChild s g x
  rw [addChild_of_same hp rfl]
  have hch := getElem?_children_enterChild hg x
  refine ⟨⟨fun h => ?_, fun h => ?_, fun h => ?_, fun h => ?_, fun h => ?_, fun {g' i c} hc => ?_⟩,
    fun {i c g'} hc hpar => ?_⟩
  · rw [params_enterChild] at h; rw [hf.idOf, hs.idOf h]
  · rw [params_enterChild] at h; rw [hf.next]; exact hs.built h
  · rw [params_enterChild] at h; rw [hf.managed]; exact hs.managed h
  · rw [params_enterChild] at h; rw [hf.isValid]; exact hs.valid h
  · rw [params_enterChild] at h; rw [ids_enterChild]; exact hs.taken h
  · rw [hch] at hc
    rw [params_enterChild, parent_enterChild, hf.next]
    split at hc
    · next h =>
      obtain ⟨rfl, rfl, -⟩ := h
      rw [← Option.some.inj hc]
      exact ⟨hx, hp, hgn⟩
    · exact hs.child hc
  · rw [params_enterChild] at hc
    rw [parent_enterChild] at hpar
    rw [hch]
    by_cases hi : i = s.idOf x
    · subst hi
      obtain rfl : x = c := Option.some.inj (hx.symm.trans hc)
      obtain rfl : g = g' := Option.some.inj (hp.symm.trans hpar)
      split
      · rfl
      · next hno =>
        obtain ⟨c', hc'⟩ := mem_iff_exists.mp (not_not.mp fun hm => hno ⟨rfl, rfl, hm⟩)
        rw [hc', ← hc, (hs.child hc').1]
    · rw [if_neg fun h => hi h.2.1, hs.parent hi hc hpar]

private theorem paired_addChild_of_other (hs : PairedBut (s.idOf x) s) (hx : s.Live x)
    (hg : (s.heap g).isGroup = true) (hgn : g < s.next) (hp : ∀ p, s.parent x = some p → s.idOf g ≠ s.idOf p) :
    Paired (s.addChild g x) := by
  have hm := moved_addChild hp
  have hf := hm.frame
  have hch := getElem?_children_addChild hg hp
  -- the new group has no child under the id: such a child would be `x`
  have hfree : s.idOf x ∉ s.children g := by
    intro hmem
    obtain ⟨c, hc⟩ := mem_iff_exists.mp hmem
    obtain ⟨h1, h2, -⟩ := hs.child hc
    obtain rfl : x = c := Option.some.inj (hx.symm.trans h1)
    exact hp g h2 rfl
  refine ⟨⟨fun h => ?_, fun h => ?_, fun h => ?_, fun h => ?_, fun h => ?_, fun {g' i c} hc => ?_⟩,
    fun {i c g'} hc hpar => ?_⟩
  · rw [hm.params] at h; rw [hf.idOf, hs.idOf h]
  · rw [hm.params] at h; rw [hf.next]; exact hs.built h
  · rw [hm.params] at h; rw [hf.managed]; exact hs.managed h
  · rw [hm.params] at h; rw [hf.isValid]; exact hs.valid h
  · rw [hm.params] at h; rw [hm.ids]; exact hs.taken h
  · rw [hch] at hc
    rw [hm.params, hm.parent, hf.next]
    split at hc
    · next h =>
      obtain ⟨rfl, rfl, -⟩ := h
      rw [← Option.some.inj hc, if_pos rfl]
      exact ⟨hx, rfl, hgn⟩
    · split at hc
      · simp at hc
      · next hno =>
        obtain ⟨h1, h2, h3⟩ := hs.child hc
        have hcx : c ≠ x := fun h => by
          subst h
          exact hno ⟨h2, (hs.idOf h1).symm⟩
        rw [if_neg hcx]
        exact ⟨h1, h2, h3⟩
  · rw [hm.params] at hc
    rw [hm.parent] at hpar
    rw [hch]
    by_cases hi : i = s.idOf x
    · subst hi
      obtain rfl : x = c := Option.some.inj (hx.symm.trans hc)
      rw [if_pos rfl] at hpar
      rw [if_pos ⟨(Option.some.inj hpar).symm, rfl, hfree⟩]
    · have hcx : c ≠ x := fun h => hi (by rw [← h, hs.idOf hc])
      rw [if_neg hcx] at hpar
      rw [if_neg fun h => hi h.2.1, if_neg fun h => hi h.2, hs.parent hi hc hpar]

/-- A parameter that is added to a group is found there, even if it lacked before. -/
theorem paired_addChild (hs : PairedBut (s.idOf x) s) (ha : Anchored s) (hx : s.Live x)
    (hg : (s.heap g).isGroup = true) (hgn : g < s.next) (hh : s.Held g) :
    Paired (s.addChild g x) ∧ ∀ y, (s.addChild g x).parent y = if y = x then some g else s.parent y := by
  by_cases h : ∃ p, s.parent x = some p ∧ s.idOf g = s.idOf p
  · obtain ⟨p, hp, hid⟩ := h
    obtain rfl : g = p := Held.eq_of_idOf hs.toCached ha.rootId (ha.held hx hp) hh hid
    refine ⟨paired_addChild_of_same hs hx hg hgn hp, fun y => ?_⟩
    rw [addChild_of_same hp rfl, parent_enterChild]
    split
    · next hy => rw [hy, hp]
    · rfl
  · have hp : ∀ p, s.parent x = some p → s.idOf g ≠ s.idOf p := fun p hp hid => h ⟨p, hp, hid⟩
    exact ⟨paired_addChild_of_other hs hx hg hgn hp, (moved_addChild hp).parent⟩

/-- If every other parameter has a parent, every parameter has one afterwards. -/
theorem linked_addChild (hs : LinkedBut (s.idOf x) s) (ha : Anchored s) (hx : s.Live x)
    (hg : (s.heap g).isGroup = true) (hgn : g < s.next) (hh : s.Held g) :
    Linked (s.addChild g x) ∧ ∀ y, (s.addChild g x).parent y = if y = x then some g else s.parent y := by
  obtain ⟨hl, hp⟩ := paired_addChild hs.paired ha hx hg hgn hh
  refine ⟨hl.linked fun {i c} hc => ?_, hp⟩
  rw [hp]
  split
  · exact ⟨g, rfl⟩
  · next hcx =>
    have hparams : s.params[i]? = some c := by
      rw [← params_addChild s g x]
      exact hc
    have hi : i ≠ s.idOf x := fun hi => hcx (Option.some.inj ((hi ▸ hparams).symm.trans hx))
    obtain ⟨g', hg', -⟩ := hs.parent hi hparams
    exact ⟨g', hg'⟩

end Store

end RabbitControl
