import RabbitControl.Bookkeeping

/-!
# Parents and children in every run

As long as an application works on parameters and groups that the server holds, a parameter is among the children of
a group exactly if the group is its parent (`children_iff_parent`).  A parameter may be without a parent, after
`removeChild`, and a group may be moved into itself or into a group below it.
-/

namespace RabbitControl

open Lib

namespace Store

variable {s t : Store} {r x g c : Ref} {id : Id}

/-- What holds between two calls. -/
structure Tied (s : Store) : Prop extends Paired s, Anchored s where
  base : root < s.next
  booked : Booked s

theorem Tied.held_lt (hs : Tied s) (hg : s.Held g) : g < s.next := by
  rcases hg with rfl | hg
  · exact hs.base
  · exact hs.built hg

/-- There are no more ids than references, so the bound of `removeParameter` is not hit. -/
theorem card_ids_le (hs : Booked s) (ha : s.Allocated) : s.ids.card ≤ s.next := by
  have hparams : ∀ id ∈ s.ids, ∃ r, s.params[id]? = some r := fun id hid => mem_iff_exists.mp ((hs.keys id).mp hid)
  have hcard := Finset.card_le_card_of_injOn (s := s.ids) (t := Finset.range s.next)
    (fun id => (s.params[id]?).getD 0) (fun id hid => ?_) (fun i hi j hj h => ?_)
  · rwa [Finset.card_range] at hcard
  · obtain ⟨r, hr⟩ := hparams id hid
    simp only [hr, Option.getD_some]
    exact Finset.mem_coe.mpr (Finset.mem_range.mpr (ha hr))
  · obtain ⟨r, hr⟩ := hparams i hi
    obtain ⟨r', hr'⟩ := hparams j hj
    simp only [hr, hr', Option.getD_some] at h
    rw [← hs.idOf hr, ← hs.idOf hr', h]

/-! ### Operations -/

theorem Paired.congr (hs : Paired s) (h : SameTree s t) : Paired t where
  toCached := hs.toCached.congr h
  parent hc hp := by
    rw [h.params] at hc
    rw [h.parent] at hp
    rw [h.children, hs.parent hc hp]

theorem Anchored.congr (hs : Anchored s) (h : SameTree s t) : Anchored t := by
  refine ⟨(h.idOf root).trans hs.rootId, fun hc hp => ?_⟩
  rw [h.parent] at hp
  exact (or_congr_right h.live).mpr (hs.held (h.live.mp hc) hp)

theorem Tied.congr (hs : Tied s) (h : SameTree s t) (hb : Booked t) : Tied t :=
  ⟨hs.toPaired.congr h, hs.toAnchored.congr h, by rw [h.next]; exact hs.base, hb⟩

theorem tied_create (hs : Tied s) (hg : (s.heap g).isGroup = true) (hh : s.Held g) {mem : Memory} {f : CreateFunction}
    {label : Bytes} (hc : s.create mem f label g = some (r, t)) : Tied t := by
  have hbooked := (booked_create hs.booked hs.built hc).1
  have hpaired := paired_create hs.toPaired hg (hs.held_lt hh) hc
  obtain ⟨id, hid⟩ := exists_nextId hc
  obtain ⟨rfl, hb⟩ := born_of_create hid hc
  have hold : ∀ {y : Ref}, s.Held y → t.Held y := by
    intro y hy
    rcases hy with rfl | hy
    · exact Or.inl rfl
    · refine Or.inr ?_
      rw [Live, hb.params, hb.idOf (Nat.ne_of_lt (hs.built hy)), getElem?_insert_iff, if_neg]
      · exact hy
      · exact fun h => hb.free (h ▸ hs.taken hy)
  refine ⟨hpaired, ⟨?_, fun {c g'} hl hp => ?_⟩, ?_, hbooked⟩
  · rw [hb.idOf (Nat.ne_of_lt hs.base), hs.rootId]
  · rw [hb.parent] at hp
    split at hp
    · rw [← Option.some.inj hp]
      exact hold hh
    · next hcn =>
      refine hold (hs.held ?_ hp)
      rw [Live, hb.params, getElem?_insert_iff, hb.idOf hcn] at hl
      split at hl
      · exact absurd (Option.some.inj hl).symm hcn
      · exact hl
  · rw [hb.next]
    exact Nat.lt_succ_of_lt hs.base

theorem tied_addChild (hs : Tied s) (hg : (s.heap g).isGroup = true) (hh : s.Held g) (hx : s.Live x) :
    Tied (s.addChild g x) := by
  obtain ⟨hpaired, hpar⟩ := paired_addChild (hs.toPaired.but _) hs.toAnchored hx hg (hs.held_lt hh) hh
  have ht := touched_addChild s g x
  have hlive : ∀ {y : Ref}, (s.addChild g x).Live y ↔ s.Live y := by
    intro y
    rw [Live, Live, ht.params, ht.frame.idOf]
  refine ⟨hpaired, ⟨(ht.frame.idOf root).trans hs.rootId, fun {c g'} hc hp => ?_⟩, by rw [ht.frame.next]; exact hs.base,
    booked_touched hs.booked ht⟩
  refine (or_congr_right hlive).mpr ?_
  rw [hpar] at hp
  split at hp
  · rw [← Option.some.inj hp]; exact hh
  · exact hs.held (hlive.mp hc) hp

/-- `removeChild` leaves a parameter without a parent if the group is its parent, else it does nothing. -/
theorem tied_removeChild (hs : Tied s) (hx : s.Live x) : Tied (s.removeChild g x) := by
  have ht := touched_removeChild s g x
  have hbooked := booked_touched hs.booked ht
  by_cases hp : s.parent x = some g
  · have hmem := (hs.toPaired.mem_children_iff hx).mpr hp
    have hpar : ∀ y, (s.removeChild g x).parent y = if y = x then none else s.parent y := by
      intro y
      rw [parent_removeChild]
      simp [hmem]
    have hlive : ∀ {y : Ref}, (s.removeChild g x).Live y ↔ s.Live y := by
      intro y
      rw [Live, Live, ht.params, ht.frame.idOf]
    refine ⟨⟨⟨fun h => ?_, fun h => ?_, fun h => ?_, fun h => ?_, fun h => ?_, fun {g' i c} hc => ?_⟩,
      fun {i c g'} hc hq => ?_⟩, ⟨(ht.frame.idOf root).trans hs.rootId, fun {c g'} hc hq => ?_⟩, ?_, hbooked⟩
    · rw [ht.params] at h; rw [ht.frame.idOf, hs.idOf h]
    · rw [ht.params] at h; rw [ht.frame.next]; exact hs.built h
    · rw [ht.params] at h; rw [ht.frame.managed]; exact hs.managed h
    · rw [ht.params] at h; rw [ht.frame.isValid]; exact hs.valid h
    · rw [ht.params] at h; rw [ht.ids]; exact hs.taken h
    · have hchild : (s.children g')[i]? = some c ∧ c ≠ x := by
        rw [children_removeChild] at hc
        split at hc
        · next hg' =>
          rw [getElem?_erase_iff] at hc
          split at hc
          · simp at hc
          · next hne =>
            subst hg'
            exact ⟨hc, fun hcx => hne (by rw [← hcx, hs.idOf (hs.child hc).1])⟩
        · next hg' =>
          refine ⟨hc, fun hcx => hg' ?_⟩
          have hpc := (hs.child hc).2.1
          rw [hcx, hp] at hpc
          exact (Option.some.inj hpc).symm
      obtain ⟨h1, h2, h3⟩ := hs.child hchild.1
      rw [ht.params, hpar, if_neg hchild.2, ht.frame.next]
      exact ⟨h1, h2, h3⟩
    · rw [ht.params] at hc
      rw [hpar] at hq
      split at hq
      · simp at hq
      · next hcx =>
        have hch := hs.parent hc hq
        rw [children_removeChild]
        split
        · next hg' =>
          rw [getElem?_erase_iff, if_neg, ← hg', hch]
          exact fun hi => hcx (Option.some.inj ((hi ▸ hc).symm.trans hx))
        · exact hch
    · refine (or_congr_right hlive).mpr ?_
      rw [hpar] at hq
      split at hq
      · simp at hq
      · exact hs.held (hlive.mp hc) hq
    · rw [ht.frame.next]; exact hs.base
  · rw [removeChild, if_neg fun hm => hp ((hs.toPaired.mem_children_iff hx).mp hm)]
    exact hs

/-- A removal takes the whole subtree, so what is left has its parent left. -/
theorem tied_removeParameter (hs : Tied s) (id : Id) : Tied (s.removeParameter id) := by
  have hbooked : Booked (s.removeParameter id) :=
    (serverKept_booked.removeParameter id ⟨hs.booked, hs.built⟩).1
  revert hbooked
  unfold removeParameter
  split
  · exact fun _ => hs
  split
  · exact fun _ => hs
  next r hr =>
  intro hbooked
  have hst := sameTree_setParameterRemoved s r
  set u := s.setParameterRemoved r with hu
  have hup : Paired u := hs.toPaired.congr hst
  have hur : u.Live r := hst.live.mpr (hs.live hr)
  obtain ⟨h, -, hclosed⟩ := removed_removeParameterDirect (s.next + 1) hup hur
  have hcard : u.ids.card < s.next + 1 := Nat.lt_succ_of_le (card_ids_le (s := s) hs.booked hs.built)
  refine ⟨h.paired, ⟨?_, fun {c g'} hc hp => ?_⟩, ?_, hbooked⟩
  · rw [h.frame.idOf, hst.idOf, hs.rootId]
  · rw [h.parent hc] at hp
    rcases (hs.toAnchored.congr hst).held (h.live hc) hp with hg | hg
    · exact Or.inl hg
    · exact Or.inr (hclosed hcard hc hp hg)
  · rw [h.frame.next, hst.next]
    exact hs.base

theorem tied_new (mem : Memory) : Tied (Server.new mem).store := by
  have hl := linked_new mem
  refine ⟨hl.paired, ⟨?_, fun hc _ => ?_⟩, ?_, ⟨fun id => ?_, hl.idOf⟩⟩
  · exact (frame_set (Store.empty mem) root (.label (.set rootLabel))).idOf root
  · obtain ⟨g, hg, -⟩ := hl.parent hc
    rw [Live] at hc
    simp [Server.new, Store.empty] at hc
  · rw [next_new]; exact Nat.one_pos
  · simp [Server.new, Store.empty]

end Store

/-! ### Runs -/

namespace Server

variable {s : Server} {c g : Ref}

/-- Calls of an application on groups and parameters that the server holds, without `clear`. -/
def WorksOnHeld (s : Server) : ServerOp → Prop
  | .call (.create _ _ _ g) => (s.store.heap g).isGroup = true ∧ s.store.Held g
  | .call (.addChild g x) | .removeChild g x => (s.store.heap g).isGroup = true ∧ s.store.Held g ∧ s.store.Live x
  | .call (.removeParameter _) | .call (.set ..) | .call .update | .addTransporter _ | .removeTransporter _ => True
  | .call (.receive ..) | .clear => False

instance (s : Server) : DecidablePred s.WorksOnHeld
  | .call (.create _ _ _ g) => inferInstanceAs (Decidable (_ ∧ (g = root ∨ _ = some g)))
  | .call (.addChild g x) | .removeChild g x =>
    inferInstanceAs (Decidable (_ ∧ (g = root ∨ _ = some g) ∧ _ = some x))
  | .call (.removeParameter _) | .call (.set ..) | .call .update | .addTransporter _ | .removeTransporter _ =>
    inferInstanceAs (Decidable True)
  | .call (.receive ..) | .clear => inferInstanceAs (Decidable False)

theorem tied_operate (s : Server) (op : ServerOp) (hop : s.WorksOnHeld op) (hs : s.store.Tied) :
    (s.operate op).store.Tied := by
  have hbooked : (s.operate op).store.Booked :=
    (Store.serverKept_booked.operate s op (op.handles_any s) ⟨hs.booked, hs.built⟩).1
  cases op with
  | clear => exact hop.elim
  | removeChild g x => exact Store.tied_removeChild hs hop.2.2
  | addTransporter t =>
    rw [operate, addTransporter]
    split <;> exact hs
  | removeTransporter t => exact hs
  | call c =>
    cases c with
    | create mem f label g =>
      show (s.call (.create mem f label g)).store.Tied
      rw [Server.call]
      split
      · next hc => exact Store.tied_create hs hop.1 hop.2 hc
      · exact hs
    | set r a => exact hs.congr (Store.sameTree_set _ r a) hbooked
    | addChild g x => exact Store.tied_addChild hs hop.1 hop.2.1 hop.2.2
    | removeParameter id => exact Store.tied_removeParameter hs id
    | update => exact hs.congr (sameTree_update s) hbooked
    | receive => exact hop.elim

/-- In every run of calls on what the server holds, a parameter of the server is among the children of a group exactly
if the group is its parent; so it is among the children of one group at most, and there are no other children. -/
theorem children_iff_parent (mem : Memory) (ts : List Nat) (ops : List ServerOp)
    (h : Along operate WorksOnHeld (start mem ts) ops) :
    (∀ c g, (run operate (start mem ts) ops).store.Live c → (run operate (start mem ts) ops).store.Held g →
      (((run operate (start mem ts) ops).store.children g)[(run operate (start mem ts) ops).store.idOf c]? = some c ↔
        (run operate (start mem ts) ops).store.parent c = some g)) ∧
    (∀ g g' (i j : Id) c, ((run operate (start mem ts) ops).store.children g)[i]? = some c →
      ((run operate (start mem ts) ops).store.children g')[j]? = some c → g = g') ∧
    ∀ g (i : Id) c, ((run operate (start mem ts) ops).store.children g)[i]? = some c →
      (run operate (start mem ts) ops).store.params[i]? = some c := by
  have hstart : (start mem ts).store.Tied := by
    rw [store_start]
    exact Store.tied_new mem
  have hs : (run operate (start mem ts) ops).store.Tied :=
    along_invariant (I := fun s => s.store.Tied) tied_operate h hstart
  refine ⟨fun c g hc _ => ⟨fun hch => (hs.child hch).2.1, hs.parent hc⟩, fun g g' i j c hi hj => ?_,
    fun g i c hi => (hs.child hi).1⟩
  exact Option.some.inj ((hs.child hi).2.1.symm.trans (hs.child hj).2.1)

/-- Two groups that lie below each other, of which one is removed after parameters have been moved. -/
def moves : List ServerOp :=
  [.call (.create {} .createGroupParameter [97] root), .call (.create {} .createBooleanParameter [98] root),
    .call (.addChild 1 2), .call (.create {} .createGroupParameter [99] 1), .call (.addChild 3 1), .removeChild 1 2,
    .call (.addChild 3 3), .call (.create {} .createBangParameter [100] 3), .call (.removeParameter 3),
    .call (.create {} .createGroupParameter [101] root), .call (.addChild 5 2)]

theorem children_iff_parent_moves :
    ((run operate (start {} [0]) moves).store.children 5)[(2 : Id)]? = some 2 ∧
      ∀ g (i : Id), ((run operate (start {} [0]) moves).store.children g)[i]? = some 2 → g = 5 := by
  obtain ⟨h1, h2, -⟩ := children_iff_parent {} [0] moves (by decide)
  have hchild := (h1 2 5 (by decide : _ = _) (Or.inr (by decide : _ = _))).mpr (by decide)
  exact ⟨hchild, fun g i hi => h2 g 5 i 2 2 hi hchild⟩

end Server

end RabbitControl
