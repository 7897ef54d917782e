import RabbitControl.ParseFrame
import RabbitControl.UpdateLemmas

/-!
# The group tree

A store holds a tree if it is linked and every parameter hangs below the root group.  Creation keeps the tree.  A
received packet keeps it as long as an accepted update does not put a parameter below itself, and a packet that is
not accepted does not make its proxy leave the group of the parameter.  In a tree the answer to `INITIALIZE` ends,
and it visits every parameter once and after its parent.
-/

namespace RabbitControl

open Lib

namespace Store

variable {s t u : Store} {r x g c y : Ref} {id : Id} {l : List Ref} {q : Parameter}

/-- Every parameter hangs below the root group. -/
structure Hanging (s : Store) : Prop extends Anchored s where
  top : s.parent root = none
  base : root < s.next
  rooted : ∀ {c : Ref}, s.Live c → Rooted s.parent root c

structure GroupTree (s : Store) : Prop extends Linked s, Hanging s

/-! ### Ancestors -/

namespace Hanging

variable (hs : Hanging s)

include hs

theorem held_parent (hx : s.Held x) (hp : s.parent x = some g) : s.Held g := by
  rcases hx with rfl | hx
  · rw [hs.top] at hp; simp at hp
  · exact hs.held hx hp

/-- The ancestors of what the server holds are held. -/
theorem held_up {n : Nat} (hx : s.Held x) (hy : up s.parent n x = some y) : s.Held y := by
  induction n generalizing x with
  | zero => rw [← Option.some.inj hy]; exact hx
  | succ n ih =>
    cases hp : s.parent x with
    | none => rw [up, hp] at hy; simp at hy
    | some g => exact ih (hs.held_parent hx hp) (by rw [← up_succ_of_parent hp, hy])

theorem rooted_held (hx : s.Held x) : Rooted s.parent root x := by
  rcases hx with rfl | hx
  · exact rooted_root
  · exact hs.rooted hx

/-- The parents of the held parameters decide. -/
theorem rooted_congr {parent : Ref → Option Ref} (hp : ∀ y, s.Held y → parent y = s.parent y) (hx : s.Held x) :
    Rooted parent root x := by
  obtain ⟨n, hn⟩ := hs.rooted_held hx
  exact ⟨n, (up_congr fun k y hk => hp y (hs.held_up hx hk)).trans hn⟩

end Hanging

theorem Cached.held_lt (hc : Cached s) (h0 : root < s.next) (hx : s.Held x) : x < s.next := by
  rcases hx with rfl | hx
  · exact h0
  · exact hc.built hx

/-- The root group is not among the parameters. -/
theorem Cached.ne_root (hc : Cached s) (h0 : s.idOf root = 0) (hx : s.Live x) : x ≠ root := fun h =>
  hc.idOf_ne_zero hx (by rw [h, h0])

theorem SameTree.held (h : SameTree s t) : t.Held x ↔ s.Held x := or_congr_right h.live

theorem Hanging.congr (hs : Hanging s) (h : SameTree s t) : Hanging t := by
  have hp : t.parent = s.parent := funext h.parent
  refine ⟨⟨(h.idOf root).trans hs.rootId, fun hc hg => ?_⟩, by rw [hp, hs.top], by rw [h.next]; exact hs.base,
    fun hc => ?_⟩
  · rw [h.held]
    rw [hp] at hg
    exact hs.held (h.live.mp hc) hg
  · rw [hp]
    exact hs.rooted (h.live.mp hc)

theorem GroupTree.congr (hs : GroupTree s) (h : SameTree s t) : GroupTree t := ⟨hs.toLinked.congr h, hs.toHanging.congr h⟩

/-! ### Creation -/

theorem tree_create (hs : GroupTree s) (hg : (s.heap g).isGroup = true) (hh : s.Held g) {mem : Memory}
    {f : CreateFunction}
    {label : Bytes} (hc : s.create mem f label g = some (r, t)) : GroupTree t := by
  obtain ⟨id, hid⟩ := exists_nextId hc
  obtain ⟨rfl, hb⟩ := born_of_create hid hc
  have hlt : ∀ {y : Ref}, s.Held y → y ≠ s.next := fun hy => Nat.ne_of_lt (hs.toCached.held_lt hs.base hy)
  have hold : ∀ y, s.Held y → t.parent y = s.parent y := fun y hy => by rw [hb.parent, if_neg (hlt hy)]
  -- a live parameter is the new one or was live before
  have hlive : ∀ {c : Ref}, t.Live c → c = s.next ∨ s.Live c := by
    intro c hc
    by_cases hcn : c = s.next
    · exact Or.inl hcn
    · rw [Live, hb.params, getElem?_insert_iff, hb.idOf hcn] at hc
      split at hc
      · exact absurd (Option.some.inj hc).symm hcn
      · exact Or.inr hc
  have hheld : ∀ {y : Ref}, s.Held y → t.Held y := by
    intro y hy
    rcases hy with rfl | hy
    · exact Or.inl rfl
    · refine Or.inr ?_
      rw [Live, hb.params, hb.idOf (hlt (Or.inr hy)), getElem?_insert_iff, if_neg]
      · exact hy
      · exact fun h => hb.free (h ▸ hs.taken hy)
  refine ⟨linked_create hs.toLinked hg (hs.toCached.held_lt hs.base hh) hc, ⟨⟨?_, fun {c g'} hl hp => ?_⟩, ?_, ?_,
    fun {c} hl => ?_⟩⟩
  · rw [hb.idOf (hlt (Or.inl rfl)), hs.rootId]
  · rw [hb.parent] at hp
    split at hp
    · rw [← Option.some.inj hp]; exact hheld hh
    · next hcn => exact hheld (hs.held ((hlive hl).resolve_left hcn) hp)
  · rw [hold root (Or.inl rfl), hs.top]
  · rw [hb.next]; exact Nat.lt_succ_of_lt hs.base
  · rcases hlive hl with rfl | hl
    · exact Rooted.of_parent (by rw [hb.parent, if_pos rfl]) (hs.rooted_congr hold hh)
    · exact hs.rooted_congr hold (Or.inr hl)

/-! ### Moving -/

/-- A parameter is moved to a group that does not lie below it. -/
theorem hanging_addChild (hc : Cached s) (hs : Hanging s) (hx : s.Live x) (hh : s.Held g)
    (hno : ¬IsAncestor s.parent x g) (hf : Touched x s t)
    (hp : ∀ y, t.parent y = if y = x then some g else s.parent y) : Hanging t := by
  have hlive : ∀ {c : Ref}, t.Live c ↔ s.Live c := by
    intro c
    rw [Live, Live, hf.params, hf.frame.idOf]
  have hup : t.parent = Function.update s.parent x (some g) := by
    funext y
    rw [hp, Function.update_apply]
  have hroot := hc.ne_root hs.rootId hx
  refine ⟨⟨(hf.frame.idOf root).trans hs.rootId, fun {c g'} hl hpar => ?_⟩, ?_, by rw [hf.frame.next]; exact hs.base,
    fun {c} hl => ?_⟩
  · refine (or_congr_right hlive).mpr ?_
    rw [hp] at hpar
    split at hpar
    · rw [← Option.some.inj hpar]; exact hh
    · exact hs.held (hlive.mp hl) hpar
  · rw [hp, if_neg (Ne.symm hroot), hs.top]
  · rw [hup]
    exact rooted_update hno (hs.rooted_held hh) (hs.rooted (hlive.mp hl))

theorem tree_addChild (hb : LinkedBut (s.idOf x) s) (hs : Hanging s) (hx : s.Live x)
    (hg : (s.heap g).isGroup = true) (hh : s.Held g) (hno : ¬IsAncestor s.parent x g) : GroupTree (s.addChild g x) := by
  obtain ⟨hl, hp⟩ := linked_addChild hb hs.toAnchored hx hg (hb.toCached.held_lt hs.base hh) hh
  exact ⟨hl, hanging_addChild hb.toCached hs hx hh hno (touched_addChild s g x) hp⟩

/-! ### Parsed packets -/

namespace Proxied

variable (h : Proxied s t l q)

include h

/-- A group that was left has one child less; all else stays. -/
theorem shape (hx : x ≠ s.next) :
    (t.heap x).shape =
      { (s.heap x).shape with
        children := if x ∈ l then (s.children x).erase q.parameterId else s.children x } := by
  rw [h.heap x hx]
  split
  · exact Parameter.shape_modifyChildren_erase
  · rfl

theorem idOf_proxy : t.idOf s.next = q.parameterId := by
  obtain ⟨b, hb⟩ := h.proxy
  rw [Store.idOf, hb]

theorem parent_proxy : t.parent s.next = q.parent := by
  obtain ⟨b, hb⟩ := h.proxy
  rw [Store.parent, hb]

theorem children_proxy : t.children s.next = ∅ := by
  obtain ⟨b, hb⟩ := h.proxy
  rw [Store.children, hb]
  exact h.childless

theorem idOf (hx : x ≠ s.next) : t.idOf x = s.idOf x := congrArg Shape.id (h.shape hx)

theorem parent_eq (hx : x ≠ s.next) : t.parent x = s.parent x := congrArg Shape.parent (h.shape hx)

theorem children_eq (hx : x ≠ s.next) :
    t.children x = if x ∈ l then (s.children x).erase q.parameterId else s.children x :=
  congrArg Shape.children (h.shape hx)

theorem getElem?_children {i : Id} (hx : x ≠ s.next) :
    (t.children x)[i]? = if x ∈ l ∧ i = q.parameterId then none else (s.children x)[i]? := by
  rw [h.children_eq hx]
  by_cases hl : x ∈ l
  · simp [hl, getElem?_erase_iff]
  · simp [hl]

theorem live (hc : Cached s) : t.Live x ↔ s.Live x := by
  rw [Live, Live, h.params]
  constructor
  · intro hx
    rwa [h.idOf (Nat.ne_of_lt (hc.built hx))] at hx
  · intro hx
    rwa [h.idOf (Nat.ne_of_lt (hc.built hx))]

theorem held (hc : Cached s) : t.Held x ↔ s.Held x := or_congr_right (h.live hc)

theorem cached (hc : Cached s) : Cached t := by
  have hne : ∀ {i : Id} {x : Ref}, s.params[i]? = some x → x ≠ s.next := fun hx => Nat.ne_of_lt (hc.built hx)
  refine ⟨fun {i x} hx => ?_, fun {i x} hx => ?_, fun {i x} hx => ?_, fun {i x} hx => ?_, fun {i x} hx => ?_,
    fun {g i c} hx => ?_⟩
  · rw [h.params] at hx; rw [h.idOf (hne hx), hc.idOf hx]
  · rw [h.params] at hx; rw [h.next]; exact Nat.lt_succ_of_lt (hc.built hx)
  · rw [h.params] at hx
    exact (congrArg Shape.managed (h.shape (hne hx))).trans (hc.managed hx)
  · rw [h.params] at hx
    have hd : (t.heap x).getDatatype = (s.heap x).getDatatype := congrArg Shape.datatype (h.shape (hne hx))
    have hi : (t.heap x).parameterId = (s.heap x).parameterId := h.idOf (hne hx)
    have hv := hc.valid hx
    rw [Parameter.isValid] at hv ⊢
    rwa [hd, hi]
  · rw [h.params] at hx; rw [h.ids]; exact hc.taken hx
  · by_cases hg : g = s.next
    · rw [hg, h.children_proxy] at hx
      simp at hx
    · rw [h.getElem?_children hg] at hx
      split at hx
      · simp at hx
      · obtain ⟨h1, h2, h3⟩ := hc.child hx
        rw [h.params, h.parent_eq (hne h1), h.next]
        exact ⟨h1, h2, Nat.lt_succ_of_lt h3⟩

/-- The groups that were left may lack the child the proxy stands for. -/
theorem linkedBut (hs : Linked s) : LinkedBut q.parameterId t := by
  refine ⟨h.cached hs.toCached, fun {i c} hi hc => ?_⟩
  rw [h.params] at hc
  obtain ⟨g, hg, hch⟩ := hs.parent hc
  refine ⟨g, by rw [h.parent_eq (Nat.ne_of_lt (hs.built hc)), hg], ?_⟩
  rw [h.getElem?_children (Nat.ne_of_lt (hs.child hch).2.2), if_neg fun hq => hi hq.2, hch]

/-- Nothing lacks if no group was left that had the child. -/
theorem linked (hs : Linked s) (hno : ∀ g ∈ l, q.parameterId ∉ s.children g) : Linked t := by
  refine ⟨h.cached hs.toCached, fun {i c} hc => ?_⟩
  rw [h.params] at hc
  obtain ⟨g, hg, hch⟩ := hs.parent hc
  refine ⟨g, by rw [h.parent_eq (Nat.ne_of_lt (hs.built hc)), hg], ?_⟩
  rw [h.getElem?_children (Nat.ne_of_lt (hs.child hch).2.2), if_neg, hch]
  rintro ⟨hl, rfl⟩
  exact hno g hl (mem_of_getElem? hch)

theorem hanging (hc : Cached s) (hs : Hanging s) : Hanging t := by
  have hne : ∀ {y : Ref}, s.Held y → y ≠ s.next := fun hy => Nat.ne_of_lt (hc.held_lt hs.base hy)
  have hp : ∀ y, s.Held y → t.parent y = s.parent y := fun y hy => h.parent_eq (hne hy)
  refine ⟨⟨(h.idOf (hne (Or.inl rfl))).trans hs.rootId, fun {c g} hl hg => ?_⟩, (hp root (Or.inl rfl)).trans hs.top, ?_,
    fun {c} hl => ?_⟩
  · rw [h.live hc] at hl
    rw [hp c (Or.inr hl)] at hg
    exact (h.held hc).mpr (hs.held hl hg)
  · rw [h.next]; exact Nat.lt_succ_of_lt hs.base
  · exact hs.rooted_congr hp (Or.inr ((h.live hc).mp hl))

/-- What is above a held parameter stays above it. -/
theorem isAncestor (hc : Cached s) (hs : Hanging s) (hx : s.Held x) :
    IsAncestor t.parent y x ↔ IsAncestor s.parent y x := by
  have hup : ∀ n, up t.parent n x = up s.parent n x := fun n =>
    up_congr fun k z hk => h.parent_eq (Nat.ne_of_lt (hc.held_lt hs.base (hs.held_up hx hk)))
  unfold IsAncestor
  simp only [hup]

end Proxied

/-- An accepted update keeps the tree if it does not put the parameter below itself, whatever groups its proxy has
left. -/
theorem tree_applyUpdate (hs : GroupTree s) (h : Proxied s t l q)
    (hno : ∀ x g, s.params[q.parameterId]? = some x → q.parent = some g → ¬IsAncestor s.parent x g) :
    GroupTree (Server.applyUpdate s.next t) := by
  have hb := h.linkedBut hs.toLinked
  have hh := h.hanging hs.toCached hs.toHanging
  unfold Server.applyUpdate
  rw [h.idOf_proxy, h.params]
  cases hx : s.params[q.parameterId]? with
  | none => exact ⟨hb.linked (by rw [h.params, hx]), hh⟩
  | some x =>
    have hxt : t.params[q.parameterId]? = some x := by rw [h.params, hx]
    have hid : t.idOf x = q.parameterId := hb.idOf hxt
    have hxl : t.Live x := hb.live hxt
    dsimp only
    rw [if_pos (hb.valid hxt)]
    have hne : s.next ≠ x := Ne.symm (Nat.ne_of_lt (hs.built hx))
    obtain ⟨u, v, hu, hv, hw⟩ := update_cases hne (by rw [h.idOf_proxy, hid])
    rw [h.parent_proxy] at hv
    refine GroupTree.congr ?_ hw.sameTree
    rw [hv]
    cases hp : q.parent with
    | none =>
      have ht : GroupTree t := ⟨h.linked hs.toLinked (by simp [h.stayed hp]), hh⟩
      exact ht.congr hu.sameTree
    | some g =>
      obtain ⟨⟨i, hi⟩, hgr⟩ := (h.parent g hp).params
      have hgl : s.Live g := hs.live hi
      have hgt : (t.heap g).isGroup = true :=
        (congrArg Shape.isGroup (h.shape (Nat.ne_of_lt (hs.built hi)))).trans hgr
      refine tree_addChild ?_ (hh.congr hu.sameTree) (hu.sameTree.live.mpr hxl)
        ((hu.sameTree.isGroup g).trans hgt) (hu.sameTree.held.mpr ((h.held hs.toCached).mpr (Or.inr hgl))) ?_
      · rw [hu.sameTree.idOf, hid]
        exact hb.congr hu.sameTree
      · rw [show u.parent = t.parent from funext hu.sameTree.parent, h.isAncestor hs.toCached hs.toHanging (Or.inr hgl)]
        exact hno x g hx hp

end Store

end RabbitControl
