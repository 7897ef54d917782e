import RabbitControl.CacheCallbacks
import RabbitControl.Insensitive
import RabbitControl.Rebuilding

/-!
# The store of a client

In the store of a client that starts empty parents and children fit together, and every group that holds a parameter is
held itself (`Kempt`).  A packet that is taken over sets one copy or adds one (`Absorbed`), and a removal takes away a
copy with all that lies below it (`Dropped`).
-/

namespace RabbitControl

open Lib

/-! ### Records without children -/

theorem Parameter.isValid_of_childless {p p' : Parameter} (h : p'.childless = p.childless) :
    p'.isValid = p.isValid := by
  have hkind : p'.kind.childless = p.kind.childless := (congrArg Parameter.kind h :)
  have hid : p'.parameterId = p.parameterId := (congrArg Parameter.parameterId h :)
  have hdatatype : p'.kind.datatype = p.kind.datatype := by
    have hsame : ∀ k : Kind, k.childless.datatype = k.datatype := fun k => by cases k <;> rfl
    rw [← hsame, hkind, hsame]
  rw [Parameter.isValid, Parameter.isValid, Parameter.getDatatype, Parameter.getDatatype, hdatatype, hid]

namespace Store

variable {s t c : Store} {r x y g : Ref} {i j : Id}

/-! ### What a client holds -/

/-- Parents and children fit together, and so do the groups that a client holds. -/
structure Kempt (c : Store) : Prop extends Paired c where
  held : ∀ {i : Id} {x g : Ref}, c.params[i]? = some x → c.parent x = some g → c.Live g
  booked : Booked c

theorem kempt_empty (mem : Memory) : Kempt (empty mem) := by
  have hnone : ∀ {i : Id} {x : Ref}, (empty mem).params[i]? ≠ some x := fun {i x} hx => by simp [empty] at hx
  have hchild : ∀ {g : Ref} {i : Id} {x : Ref}, ((empty mem).children g)[i]? ≠ some x := fun {g i x} hx => by
    simp [empty, Store.children, Parameter.children, Parameter.create, Kind.make] at hx
  exact ⟨⟨⟨fun hx => absurd hx hnone, fun hx => absurd hx hnone, fun hx => absurd hx hnone, fun hx => absurd hx hnone,
    fun hx => absurd hx hnone, fun hx => absurd hx hchild⟩, fun hx => absurd hx hnone⟩, fun hx => absurd hx hnone,
    ⟨fun id => by simp [empty], fun hx => absurd hx hnone⟩⟩

namespace Kempt

variable (hc : Kempt c)

include hc

theorem children_iff (g : Ref) (j : Id) (y : Ref) :
    (c.children g)[j]? = some y ↔ c.params[j]? = some y ∧ c.parent y = some g :=
  ⟨fun h => ⟨(hc.child h).1, (hc.child h).2.1⟩, fun h => hc.toPaired.parent h.1 h.2⟩

theorem zero : c.params[(0 : Id)]? = none := by
  cases hx : c.params[(0 : Id)]? with
  | none => rfl
  | some x => exact absurd (hc.idOf hx) (hc.idOf_ne_zero (hc.live hx))

end Kempt

/-- What a client makes of an update: the copy `x` of the parameter `i` has been set, or is there now. -/
structure Absorbed (c : Store) (i : Id) (x : Ref) (t : Store) : Prop where
  copy : c.params[i]? = some x ∨ c.params[i]? = none ∧ x = c.next
  params : ∀ j : Id, t.params[j]? = if j = i then some x else c.params[j]?
  next : c.next ≤ t.next
  built : x < t.next
  idOf : t.idOf x = i
  valid : (t.heap x).isValid = true
  managed : (t.heap x).managed = true
  record : ∀ {j : Id} {y : Ref}, c.params[j]? = some y → y ≠ x → (t.heap y).childless = (c.heap y).childless
  children : ∀ (y : Ref) (k : Id), (t.children y)[k]? =
    if k = i then if t.parent x = some y then some x else none
    else if y = c.next then none else (c.children y)[k]?

namespace Absorbed

variable (h : Absorbed c i x t)

include h

theorem known (hy : c.params[j]? = some y) : t.params[j]? = some y := by
  rw [h.params]
  split
  · next hj =>
    subst hj
    rcases h.copy with hcopy | ⟨hnone, -⟩
    · exact hcopy.symm.trans hy
    · exact absurd (hnone.symm.trans hy) (by simp)
  · exact hy

private theorem same_parent (hy : c.params[j]? = some y) (hyx : y ≠ x) : t.parent y = c.parent y :=
  parent_of_record (h.record hy hyx)

variable (hc : Kempt c)

include hc

/-- The other parameters are where they were. -/
private theorem other (hj : j ≠ i) (hy : c.params[j]? = some y) : y ≠ x := by
  rintro rfl
  rcases h.copy with hcopy | ⟨-, hnew⟩
  · exact hj ((hc.idOf hy).symm.trans (hc.idOf hcopy))
  · exact absurd (hc.built hy) (by rw [hnew]; exact lt_irrefl _)

theorem cases (hy : t.params[j]? = some y) : j = i ∧ y = x ∨ j ≠ i ∧ c.params[j]? = some y ∧ y ≠ x := by
  rw [h.params] at hy
  split at hy
  · next hj => exact Or.inl ⟨hj, (Option.some.inj hy).symm⟩
  · next hj => exact Or.inr ⟨hj, hy, h.other hc hj hy⟩

theorem idOf_known (hy : c.params[j]? = some y) : t.idOf y = c.idOf y := by
  by_cases hyx : y = x
  · rw [hyx, h.idOf]
    rcases h.copy with hcopy | ⟨-, hnew⟩
    · exact (hc.idOf hcopy).symm
    · exact absurd (hc.built hy) (by rw [hyx, hnew]; exact lt_irrefl _)
  · exact (congrArg Parameter.parameterId (h.record hy hyx) :)

/-- A copy that was held is found as before. -/
private theorem live (hg : c.Live g) : t.Live g := by
  rw [Live, h.idOf_known hc hg]
  exact h.known hg

/-- Parents and children still fit together if the parent of the copy is a group that the client holds. -/
theorem kempt (hb : Booked t) (hparent : ∀ g, t.parent x = some g → c.Live g) : Kempt t := by
  refine ⟨⟨⟨fun {k y} hy => ?_, fun {k y} hy => ?_, fun {k y} hy => ?_, fun {k y} hy => ?_, fun {k y} hy => ?_,
    fun {g k y} hchild => ?_⟩, fun {k y g} hy hg => ?_⟩, fun {k y g} hy hg => ?_, hb⟩
  · rcases h.cases hc hy with ⟨rfl, rfl⟩ | ⟨-, hy, -⟩
    · exact h.idOf
    · exact (h.idOf_known hc hy).trans (hc.idOf hy)
  · rcases h.cases hc hy with ⟨rfl, rfl⟩ | ⟨-, hy, -⟩
    · exact h.built
    · exact (hc.built hy).trans_le h.next
  · rcases h.cases hc hy with ⟨rfl, rfl⟩ | ⟨-, hy, hyx⟩
    · exact h.managed
    · exact ((congrArg Parameter.managed (h.record hy hyx) :) : _ = _).trans (hc.managed hy)
  · rcases h.cases hc hy with ⟨rfl, rfl⟩ | ⟨-, hy, hyx⟩
    · exact h.valid
    · exact (Parameter.isValid_of_childless (h.record hy hyx)).trans (hc.valid hy)
  · exact (hb.keys k).mpr (mem_of_getElem? hy)
  · rw [h.children] at hchild
    split at hchild
    · next hk =>
      split at hchild
      · next hp =>
        obtain rfl := Option.some.inj hchild
        refine ⟨by rw [h.params, if_pos hk], hp, ?_⟩
        exact (hc.built (hparent g hp)).trans_le h.next
      · simp at hchild
    · next hk =>
      split at hchild
      · simp at hchild
      · obtain ⟨hy, hp, hlt⟩ := hc.child hchild
        refine ⟨h.known hy, ?_, hlt.trans_le h.next⟩
        rw [h.same_parent hy (h.other hc hk hy), hp]
  · rw [h.children]
    rcases h.cases hc hy with ⟨rfl, rfl⟩ | ⟨hk, hy, hyx⟩
    · rw [if_pos rfl, if_pos hg]
    · rw [h.same_parent hy hyx] at hg
      rw [if_neg hk, if_neg (Nat.ne_of_lt (hc.built (hc.held hy hg)))]
      exact hc.toPaired.parent hy hg
  · rcases h.cases hc hy with ⟨rfl, rfl⟩ | ⟨-, hy, hyx⟩
    · exact h.live hc (hparent g hg)
    · rw [h.same_parent hy hyx] at hg
      exact h.live hc (hc.held hy hg)

end Absorbed

/-! ### Taking a packet over -/

theorem Kempt.adopted {w : Parameter} (hc : Kempt c) (hnone : c.params[w.parameterId]? = none)
    (hgroup : ∀ g, w.parent = some g → c.Live g) : Adopted c w ((c.withProxy w).addParameter c.next) := by
  refine adopted_addParameter (fun hm => ?_) fun g hg => ⟨Nat.ne_of_lt (hc.built (hgroup g hg)), fun hm => ?_⟩
  · obtain ⟨x, hx⟩ := mem_iff_exists.mp hm
    rw [hnone] at hx
    simp at hx
  · obtain ⟨y, hy⟩ := mem_iff_exists.mp hm
    rw [hc.children_iff, hnone] at hy
    simp at hy

section Absorb

variable {w : Parameter} (hc : Kempt c) (hgroup : ∀ g, w.parent = some g → c.Live g ∧ (c.heap g).isGroup = true)

include hc hgroup

/-- A parameter that the client does not hold. -/
theorem absorbed_adopted (h : Adopted c w t) (hnone : c.params[w.parameterId]? = none) (hvalid : w.isValid = true)
    (hempty : w.children = ∅) : Absorbed c w.parameterId c.next t where
  copy := Or.inr ⟨hnone, rfl⟩
  params j := by rw [h.params, getElem?_insert_iff]
  next := by rw [h.next]; exact Nat.le_succ _
  built := by rw [h.next]; exact Nat.lt_succ_self _
  idOf := by rw [Store.idOf, h.proxy]
  valid := by rw [h.proxy]; exact hvalid
  managed := by rw [h.proxy]
  record {j y} hy hyx := by
    rw [h.heap y hyx]
    split
    · exact Parameter.childless_modifyChildren _
    · rfl
  children y k := by
    have hparent : t.parent c.next = w.parent := by rw [Store.parent, h.proxy]
    have hself : w.parent ≠ some c.next := fun hp => absurd (hc.built (hgroup _ hp).1) (lt_irrefl _)
    rw [hparent]
    by_cases hy : y = c.next
    · -- the new copy is a group without children, and in no group of its own
      have hchildren : t.children c.next = ∅ := by
        rw [Store.children, h.proxy]
        exact hempty
      rw [hy, hchildren, if_neg hself, if_pos rfl, ite_self]
      simp
    · rw [if_neg hy, Store.children, h.heap y hy]
      by_cases hp : w.parent = some y
      · rw [if_pos hp, if_pos hp, Parameter.children_modifyChildren (hgroup y hp).2, getElem?_insert_iff]
        rfl
      · rw [if_neg hp, if_neg hp]
        split
        · next hk =>
          cases hchild : (c.children y)[k]? with
          | none => exact hchild
          | some z =>
            have hz := (hc.child hchild).1
            rw [hk, hnone] at hz
            simp at hz
        · rfl

/-- The parent of a copy after an update. -/
private theorem parent_updated (hx : c.params[w.parameterId]? = some x) :
    ((c.withProxy w).update x c.next).1.parent x = w.parent.or (c.parent x) := by
  have hlt := hc.built hx
  have hproxy : (c.withProxy w).heap c.next = w := if_pos rfl
  have hheap : ∀ {y : Ref}, y < c.next → (c.withProxy w).heap y = c.heap y := fun hy =>
    heap_withProxy w (Nat.ne_of_lt hy)
  have hid : (c.withProxy w).idOf c.next = (c.withProxy w).idOf x := by
    rw [Store.idOf, Store.idOf, hproxy, hheap hlt]
    exact (hc.idOf hx).symm
  have hrecord := childless_update (Nat.ne_of_gt hlt) hid
  rw [hproxy, hheap hlt] at hrecord
  have hparent := (congrArg Parameter.parent hrecord :)
  refine hparent.trans (Parameter.parent_updatedBy_eq fun g old hw hold hsame => ?_)
  have hg := (hgroup g hw).1
  have hlive := hc.held hx hold
  rw [Store.idOf, Store.idOf, hheap (hc.built hg), hheap (hc.built hlive)] at hsame
  exact hlive.eq_of_idOf hg hsame

/-- A parameter that the client holds. -/
theorem absorbed_updated (hempty : w.children = ∅) (hx : c.params[w.parameterId]? = some x) :
    Absorbed c w.parameterId x ((c.withProxy w).update x c.next).1 := by
  have hlt := hc.built hx
  have hproxy : (c.withProxy w).heap c.next = w := if_pos rfl
  have hheap : ∀ {y : Ref}, y ≠ c.next → (c.withProxy w).heap y = c.heap y := fun hy => heap_withProxy w hy
  have hxid : (c.withProxy w).idOf x = w.parameterId := by
    rw [Store.idOf, hheap (Nat.ne_of_lt hlt)]
    exact hc.idOf hx
  have hid : (c.withProxy w).idOf c.next = (c.withProxy w).idOf x := by
    rw [hxid, Store.idOf, hproxy]
  have ht := touched_update (c.withProxy w) x c.next
  refine ⟨Or.inl hx, fun j => ?_, ?_, ?_, ?_, ?_, ?_, fun {j y} hy hyx => ?_, fun y k => ?_⟩
  · rw [ht.params]
    split
    · next hj => rw [hj]; exact hx
    · rfl
  · rw [ht.frame.next]
    exact Nat.le_succ _
  · rw [ht.frame.next]
    exact Nat.lt_succ_of_lt hlt
  · rw [ht.frame.idOf, hxid]
  · rw [ht.frame.isValid, hheap (Nat.ne_of_lt hlt)]
    exact hc.valid hx
  · rw [ht.frame.managed, hheap (Nat.ne_of_lt hlt)]
    exact hc.managed hx
  · rw [childless_update_of_ne hyx, hheap (Nat.ne_of_lt (hc.built hy))]
  · have hgroup' : ∀ g, (c.withProxy w).parent c.next = some g → ((c.withProxy w).heap g).isGroup = true := by
      intro g hg
      rw [Store.parent, hproxy] at hg
      rw [hheap (Nat.ne_of_lt (hc.built (hgroup g hg).1))]
      exact (hgroup g hg).2
    have hchildren : (c.withProxy w).children y = if y = c.next then ∅ else c.children y := by
      rw [Store.children]
      split
      · next hy => rw [hy, hproxy, hempty]
      · next hy => rw [hheap hy]; rfl
    have hchild : ((c.withProxy w).children y)[w.parameterId]? = if c.parent x = some y then some x else none := by
      rw [hchildren]
      by_cases hp : c.parent x = some y
      · rw [if_neg (Nat.ne_of_lt (hc.built (hc.held hx hp))), if_pos hp]
        exact hc.toPaired.parent hx hp
      · rw [if_neg hp]
        split
        · simp
        · cases hz : (c.children y)[w.parameterId]? with
          | none => rfl
          | some z =>
            obtain ⟨hz, hzp, -⟩ := hc.child hz
            rw [hx] at hz
            exact absurd (by rw [Option.some.inj hz]; exact hzp) hp
    rw [children_update_eq (Nat.ne_of_gt hlt) hid hgroup' y k, parent_updated hc hgroup hx, hxid]
    by_cases hk : k = w.parameterId
    · rw [if_pos hk, if_pos hk, hk, hchild, Store.parent, hproxy, Store.parent, hheap (Nat.ne_of_lt hlt)]
      cases hw : w.parent with
      | none => rfl
      | some g =>
        obtain ⟨hg, -⟩ := hgroup g hw
        show (if y = g then _ else _) = if some g = some y then _ else _
        by_cases hyg : y = g
        · refine (if_pos hyg).trans (Eq.trans ?_ (if_pos (congrArg some hyg.symm)).symm)
          split <;> rfl
        · rw [if_neg hyg, if_neg fun hsome => hyg (Option.some.inj hsome).symm]
          by_cases hold : (c.heap x).parent = some y
          · have hy : c.Live y := hc.held hx hold
            refine if_pos ⟨hold, fun hsame => hyg ?_⟩
            rw [Store.idOf, Store.idOf, hheap (Nat.ne_of_lt (hc.built hg)), hheap (Nat.ne_of_lt (hc.built hy))] at hsame
            exact hg.eq_of_idOf hy hsame.symm
          · rw [if_neg fun hboth => hold hboth.1]
            exact if_neg hold
    · rw [if_neg hk, if_neg hk, hchildren]
      split
      · simp
      · rfl

end Absorb

/-! ### Removal -/

/-- What a client makes of a removal: the copy `x` and what lies below it are gone,
  the other copies are as they were. -/
structure Dropped (c : Store) (x : Ref) (t : Store) : Prop where
  kempt : Kempt t
  params : ∀ (j : Id) (y : Ref), t.params[j]? = some y ↔ c.params[j]? = some y ∧ ¬Below c.childRefs x y
  record : ∀ {j : Id} {y : Ref}, t.params[j]? = some y → (t.heap y).childless = (c.heap y).childless

/-- What lies below a copy is held. -/
private theorem live_of_below (hc : Kempt c) (hx : c.Live x) (h : Below c.childRefs x y) : c.Live y := by
  induction h with
  | refl => exact hx
  | tail _ hz _ =>
    obtain ⟨k, hk⟩ := mem_childRefs_iff.mp hz
    exact hc.child_live hk

theorem dropped_removeParameterDirect (hc : Kempt c) (hx : c.Live x) :
    Dropped c x (removeParameterDirect (c.next + 1) x c) := by
  have hremoved := removed_removeParameterDirect (c.next + 1) hc.toPaired hx
  have hbooked := clientKept_booked.removeParameterDirect (c.next + 1) ⟨hc.booked, hc.built⟩ (r := x) trivial
  have hrehung : Rehung c (removeParameterDirect (c.next + 1) x c) :=
    removeParameterDirect_invariant (P := Rehung c) (Q := fun _ => True) (fun ht _ _ => ht.trans (rehung_unlink _ _))
      (fun _ _ _ _ => trivial) _ (fun _ => .refl _) trivial
  set t := removeParameterDirect (c.next + 1) x c with ht
  have hthinned := hremoved.thinned
  have hclosed : Closed c t := hremoved.closed (Nat.lt_succ_of_le (card_ids_le hc.booked hc.built))
  refine ⟨⟨hthinned.paired, fun {k y g} hy hg => ?_, hbooked.1⟩,
    fun k y => ⟨fun hy => ⟨hthinned.kept hy, fun hbelow => ?_⟩,
    fun hy => ?_⟩, fun {k y} hy => ?_⟩
  · have hlive := hthinned.paired.live hy
    rw [hthinned.parent hlive] at hg
    exact hclosed hlive hg (hc.held (hthinned.kept hy) hg)
  · -- nothing is left of what lies below a parameter that is gone
    have hgone : ∀ {z : Ref}, Below c.childRefs x z → ¬t.Live z := by
      intro z hz
      induction hz with
      | refl => exact hremoved.gone (Nat.succ_pos _)
      | tail hb hz ih =>
        obtain ⟨k, hk⟩ := mem_childRefs_iff.mp hz
        exact fun hlive => ih (hclosed hlive (hc.child hk).2.1 (live_of_below hc hx hb))
    exact hgone hbelow (hthinned.paired.live hy)
  · have hmem : k ∈ t.params := by
      refine kept_removeParameterDirect _ (mem_of_getElem? hy.1) fun z hz hid => hy.2 ?_
      have hz' : Below c.childRefs x z :=
        Relation.ReflTransGen.mono (fun _ _ hm => (List.mem_filter.mp hm).1) _ _ hz
      have hlive := live_of_below hc hx hz'
      rw [Live, hid, hy.1] at hlive
      rw [Option.some.inj hlive]
      exact hz'
    obtain ⟨z, hz⟩ := mem_iff_exists.mp hmem
    rw [hz, ← hthinned.kept hz, hy.1]
  · have hlive := hthinned.paired.live hy
    rw [(hrehung y).childless, show (t.heap y).parent = (c.heap y).parent from hthinned.parent hlive,
      hthinned.parentChanged hlive]
    rfl

end Store

end RabbitControl
