import RabbitControl.GroupTree
import RabbitControl.Lib.Confined
import RabbitControl.Rereading
import RabbitControl.Restart
import RabbitControl.UpdateSpec

/-!
# Updates that come twice, or in another order

What an `UPDATE` or `UPDATEVALUE` packet does to a server stays at the id of the packet: at the record of the parameter
under this id, and at the entry for this id among the children of every group.  The packet is parsed in the same way
whatever other packets have been processed before, so packets for different ids can be swapped, and a packet that is
repeated changes nothing more (`process_insensitive`).
-/

namespace RabbitControl

open Lib

/-! ### Options that are taken over twice -/

theorem Text.takeOver_takeOver (q t : Text) : q.takeOver (q.takeOver t) = q.takeOver t := by
  unfold takeOver
  split
  · unfold set
    split
    · next h => simp [h]
    · simp
  · rfl

theorem Slot.takeOver_takeOver {α : Type} (eqv : α → α → Bool) (q t : Slot α) :
    q.takeOver eqv (q.takeOver eqv t) = q.takeOver eqv t := by
  unfold takeOver
  cases q.get? with
  | none => rfl
  | some v =>
    dsimp only [Option.elim]
    unfold set
    by_cases h : eqv t.content v = true
    · rw [if_pos h]
      dsimp only
      rw [if_pos h]
    · -- a value that is not equal to itself is stored once more
      rw [if_neg h]
      dsimp only
      split <;> rfl

theorem Block.takeOver_takeOver {α : Type} (q t : Block α) : q.takeOver (q.takeOver t) = q.takeOver t := by
  unfold takeOver
  cases q.get? <;> rfl

theorem Kind.takeOver_takeOver (q k : Kind) : q.takeOver (q.takeOver k) = q.takeOver k := by
  cases q with
  | value σ d' v =>
    cases k with
    | value τ d c =>
      by_cases h : σ = τ
      · subst h
        simp only [Kind.takeOver, dif_pos, Slot.takeOver_takeOver]
      · simp only [Kind.takeOver, dif_neg h]
    | _ => rfl
  | _ => rfl

theorem Kind.childless_takeOver (q k : Kind) : (q.takeOver k).childless = q.takeOver k.childless := by
  cases q with
  | value σ d' v =>
    cases k with
    | value τ d c =>
      by_cases h : σ = τ
      · subst h
        simp only [Kind.takeOver, dif_pos, Kind.childless]
      · simp only [Kind.takeOver, dif_neg h, Kind.childless]
    | _ => rfl
  | _ => cases k <;> rfl

namespace Parameter

variable {idOf : Ref → Id}

/-- A parameter consists of its record and its children. -/
theorem eq_of_childless {p p' : Parameter} (h : p'.childless = p.childless)
    (hc : p'.children = p.children) : p' = p := by
  have hkind : p'.kind = p.kind := by
    have hk : p'.kind.childless = p.kind.childless := congrArg Parameter.kind h
    unfold children at hc
    cases hp' : p'.kind <;> cases hp : p.kind <;> rw [hp', hp] at hk hc <;>
      first | exact hk | exact congrArg Kind.group hc | exact absurd hk (by simp [Kind.childless])
  have hrest : p' = { p'.childless with kind := p'.kind } := rfl
  rw [hrest, h, hkind]
  rfl

theorem takeOver_takeOver (q p : Parameter) : q.takeOver (q.takeOver p) = q.takeOver p := by
  unfold takeOver
  simp only [Kind.takeOver_takeOver, Text.takeOver_takeOver, Slot.takeOver_takeOver, Block.takeOver_takeOver]

theorem childless_updatedBy (q p : Parameter) : (q.updatedBy idOf p).childless = q.updatedBy idOf p.childless := by
  unfold updatedBy takeOver childless
  simp only [Kind.childless_takeOver]

theorem updatedBy_congr {idOf' : Ref → Id} {q p : Parameter} (hq : ∀ g, q.parent = some g → idOf g = idOf' g)
    (hp : ∀ g, p.parent = some g → idOf g = idOf' g) : q.updatedBy idOf p = q.updatedBy idOf' p := by
  unfold updatedBy
  cases hg : q.parent with
  | none => rfl
  | some g =>
    cases ho : p.parent with
    | none => rfl
    | some old => simp only [hq g hg, hp old ho]

theorem parent_updatedBy {q p : Parameter} {g : Ref} (h : (q.updatedBy idOf p).parent = some g) :
    q.parent = some g ∨ p.parent = some g := by
  unfold updatedBy at h
  dsimp only at h
  split at h
  · exact Or.inr h
  · next hq _ => exact Or.inl (hq.trans h)
  · next hq hp =>
    split at h
    · exact Or.inr (hp.trans h)
    · exact Or.inl (hq.trans h)

/-- The parent after an update has the id of the group that the packet names. -/
theorem idOf_parent_updatedBy {q p : Parameter} {g x : Ref} (hq : q.parent = some g)
    (h : (q.updatedBy idOf p).parent = some x) : idOf g = idOf x := by
  unfold updatedBy at h
  rw [hq] at h
  dsimp only at h
  split at h
  · exact absurd ‹some g = none› (by simp)
  · next hg _ => rw [Option.some.inj (hg.trans h)]
  · next hg _ =>
    obtain rfl := Option.some.inj hg
    split at h
    · next hid => rw [hid, Option.some.inj h]
    · rw [Option.some.inj h]

theorem updatedBy_updatedBy (q p : Parameter) : updatedBy idOf q (updatedBy idOf q p) = updatedBy idOf q p := by
  have hrest : q.takeOver (updatedBy idOf q p) =
      { q.takeOver (q.takeOver p) with
        parent := (updatedBy idOf q p).parent
        parentChanged := (updatedBy idOf q p).parentChanged } := rfl
  rw [updatedBy, hrest, takeOver_takeOver]
  unfold updatedBy
  cases hq : q.parent with
  | none => simp
  | some g =>
    cases hp : p.parent with
    | none => simp
    | some old => by_cases h : idOf g = idOf old <;> simp [h]

end Parameter

namespace Store

variable {s t u : Store} {r g x y other : Ref} {id : Id}

/-! ### The tree after an update -/

/-- The child of `y` under the id of `r`, after `r` has been put into the group `new`; `c` is the child before, and
`old` the parent before. -/
def childAfter (idOf : Ref → Id) (new : Option Ref) (r : Ref) (old : Option Ref) (y : Ref) (c : Option Ref) :
    Option Ref :=
  match new with
  | none => c
  | some g => if y = g then c.or (some r) else if old = some y ∧ idOf g ≠ idOf y then none else c

theorem childAfter_congr {idOf idOf' : Ref → Id} {new old c : Option Ref} (hnew : ∀ g, new = some g → idOf g = idOf' g)
    (hy : idOf y = idOf' y) : childAfter idOf new r old y c = childAfter idOf' new r old y c := by
  cases new with
  | none => rfl
  | some g => rw [childAfter, childAfter, hnew g rfl, hy]

/-- Entering a group again changes nothing, even if the groups in `l` are left before. -/
theorem childAfter_again {idOf : Ref → Id} {l : List Ref} {new old old' c : Option Ref}
    (hold : ∀ g p, new = some g → old' = some p → idOf g = idOf p) :
    childAfter idOf new r old' y (if y ∈ l then none else childAfter idOf new r old y (if y ∈ l then none else c)) =
      childAfter idOf new r old y (if y ∈ l then none else c) := by
  cases new with
  | none =>
    simp only [childAfter]
    split <;> rfl
  | some g =>
    simp only [childAfter]
    by_cases hy : y = g
    · simp only [if_pos hy]
      split
      · rfl
      · cases c <;> rfl
    · have hstay : ¬(old' = some y ∧ idOf g ≠ idOf y) := fun h => h.2 (hold g y rfl h.1)
      simp only [if_neg hy, if_neg hstay]
      split
      · split <;> rfl
      · rfl

theorem children_addChild_eq (hg : (s.heap g).isGroup = true) (y : Ref) (id : Id) :
    ((s.addChild g r).children y)[id]? =
      if id = s.idOf r then childAfter s.idOf (some g) r (s.parent r) y (s.children y)[id]? else (s.children y)[id]? := by
  have hfill : ∀ {c : Option Ref}, c = (s.children g)[s.idOf r]? →
      (if s.idOf r ∉ s.children g then some r else c) = c.or (some r) := by
    rintro c rfl
    split
    · next h => rw [getElem?_eq_none_of_notMem h]; rfl
    · next h =>
      obtain ⟨c, hc⟩ := mem_iff_exists.mp (not_not.mp h)
      rw [hc]
      rfl
  by_cases hid : id = s.idOf r
  · subst hid
    rw [if_pos rfl, childAfter]
    by_cases h : ∃ p, s.parent r = some p ∧ s.idOf g = s.idOf p
    · obtain ⟨p, hp, hpid⟩ := h
      rw [addChild_of_same hp hpid, getElem?_children_enterChild hg]
      by_cases hy : y = g
      · subst hy
        simpa using hfill rfl
      · have hstay : ¬(s.parent r = some y ∧ s.idOf g ≠ s.idOf y) := by
          rintro ⟨hpy, hne⟩
          rw [hp] at hpy
          exact hne (Option.some.inj hpy ▸ hpid)
        rw [if_neg fun h => hy h.1, if_neg hy, if_neg hstay]
    · have hne : ∀ p, s.parent r = some p → s.idOf g ≠ s.idOf p := fun p hp hpid => h ⟨p, hp, hpid⟩
      rw [getElem?_children_addChild hg hne]
      by_cases hy : y = g
      · subst hy
        have hleft : ¬s.parent r = some y := fun hp => hne y hp rfl
        simpa [hleft] using hfill rfl
      · rw [if_neg fun h => hy h.1, if_neg hy]
        simp only [and_true]
        by_cases hp : s.parent r = some y
        · rw [if_pos hp, if_pos ⟨hp, hne y hp⟩]
        · rw [if_neg hp, if_neg fun h => hp h.1]
  · rw [if_neg hid]
    by_cases h : ∃ p, s.parent r = some p ∧ s.idOf g = s.idOf p
    · obtain ⟨p, hp, hpid⟩ := h
      rw [addChild_of_same hp hpid, getElem?_children_enterChild hg, if_neg fun h => hid h.2.1]
    · rw [getElem?_children_addChild hg fun p hp hpid => h ⟨p, hp, hpid⟩, if_neg fun h => hid h.2.1,
        if_neg fun h => hid h.2]

theorem childless_addChild (hx : x ≠ r) : ((s.addChild g r).heap x).childless = (s.heap x).childless := by
  have hplace : ((s.addChild g r).heap x).parent = (s.heap x).parent ∧
      ((s.addChild g r).heap x).parentChanged = (s.heap x).parentChanged := by
    by_cases h : ∃ p, s.parent r = some p ∧ s.idOf g = s.idOf p
    · obtain ⟨p, hp, hid⟩ := h
      rw [addChild_of_same hp hid]
      exact ⟨parent_enterChild s g r x, parentChanged_enterChild s g r x⟩
    · have hm := moved_addChild (s := s) (g := g) (r := r) fun p hp hid => h ⟨p, hp, hid⟩
      refine ⟨(hm.parent x).trans (if_neg hx), ?_⟩
      rw [Bool.eq_iff_iff, hm.parentChanged]
      simp [hx]
  rw [(rehung_addChild s g r x).childless, hplace.1, hplace.2]
  rfl

/-- No record but that of the updated parameter is touched. -/
theorem childless_update_of_ne (hx : x ≠ r) : ((s.update r other).1.heap x).childless = (s.heap x).childless := by
  by_cases hne : other = r
  · rw [update, if_pos hne]
  by_cases hid : s.idOf other = s.idOf r
  · obtain ⟨u, v, hu, hv, ht⟩ := update_cases hne hid
    rw [ht.other hx, hv, ← hu.other hx]
    split
    · rfl
    · exact childless_addChild hx
  · rw [update, if_neg hne, if_neg hid]

theorem children_update_eq (hne : other ≠ r) (hid : s.idOf other = s.idOf r)
    (hg : ∀ g, s.parent other = some g → (s.heap g).isGroup = true) (y : Ref) (id : Id) :
    ((s.update r other).1.children y)[id]? =
      if id = s.idOf r then childAfter s.idOf (s.parent other) r (s.parent r) y (s.children y)[id]?
      else (s.children y)[id]? := by
  obtain ⟨u, v, hu, hv, ht⟩ := update_cases hne hid
  rw [ht.sameTree.children, hv]
  cases hp : s.parent other with
  | none =>
    rw [hu.sameTree.children, childAfter]
    simp
  | some g =>
    have hgroup : (u.heap g).isGroup = true := (hu.touched.frame.isGroup g).trans (hg g hp)
    have hids : u.idOf = s.idOf := funext hu.sameTree.idOf
    rw [children_addChild_eq hgroup, hids, hu.sameTree.children, hu.sameTree.parent]

/-! ### What a packet does to a later store -/

/-- The parameter that a packet for an id is applied to. -/
def target (s : Store) (id : Id) : Option Ref := s.params[id]?.filter fun r => (s.heap r).isValid

/-- A store with the same cache as `s`, in which the parameters of `s` may have been updated. -/
structure Later (s t : Store) : Prop where
  params : t.params = s.params
  next : s.next ≤ t.next
  idOf : ∀ {r}, r < s.next → t.idOf r = s.idOf r
  datatype : ∀ {r}, r < s.next → (t.heap r).getDatatype = (s.heap r).getDatatype
  parent : ∀ {r g}, r < s.next → t.parent r = some g → g < s.next

/-- The two stores have the same under an id: the record of the parameter, and the child of every group. -/
structure SameAt (s : Store) (id : Id) (t u : Store) : Prop where
  children : ∀ {g}, g < s.next → (u.children g)[id]? = (t.children g)[id]?
  record : ∀ {r}, r < s.next → s.idOf r = id → (u.heap r).childless = (t.heap r).childless

theorem sameAt_equivalence (s : Store) (id : Id) : Equivalence (SameAt s id) where
  refl _ := ⟨fun _ => rfl, fun _ _ => rfl⟩
  symm h := ⟨fun hg => (h.children hg).symm, fun hr hid => (h.record hr hid).symm⟩
  trans h k := ⟨fun hg => (k.children hg).trans (h.children hg),
    fun hr hid => (k.record hr hid).trans (h.record hr hid)⟩

/-- The child of `y` under the id of the packet `q` after it has been processed, where `l` are the groups that were
left while it was read. -/
def childOf (s : Store) (l : List Ref) (q : Parameter) (old : Ref → Option Ref) (y : Ref)
    (c : Option Ref) : Option Ref :=
  let c := if y ∈ l then none else c
  match s.target q.parameterId with
  | some r => childAfter s.idOf q.parent r (old r) y c
  | none => c

/-- The store `u` after the packet `q` has been processed in a later store `t` of `s`. -/
structure Processed (s : Store) (l : List Ref) (q : Parameter) (t u : Store) : Prop where
  params : u.params = t.params
  next : t.next ≤ u.next
  idOf : ∀ {r}, r < s.next → u.idOf r = t.idOf r
  datatype : ∀ {r}, r < s.next → (u.heap r).getDatatype = (t.heap r).getDatatype
  children : ∀ {y}, y < s.next → ∀ id,
    (u.children y)[id]? = if id = q.parameterId then s.childOf l q t.parent y (t.children y)[id]? else (t.children y)[id]?
  record : ∀ {y}, y < s.next → (u.heap y).childless =
    if s.target q.parameterId = some y then q.updatedBy s.idOf (t.heap y).childless else (t.heap y).childless

theorem target_eq_some_iff : s.target id = some r ↔ s.params[id]? = some r ∧ (s.heap r).isValid = true := by
  unfold target
  rw [Option.filter_eq_some_iff]

namespace Later

theorem refl (hs : Built s) : Later s s :=
  ⟨rfl, le_rfl, fun _ => rfl, fun _ => rfl, fun _ hp => hs.parent hp⟩

variable (hs : Built s) (h : Later s t)

include h in
theorem isGroup (hr : r < s.next) : (t.heap r).isGroup = (s.heap r).isGroup := by
  rw [Parameter.isGroup_eq, Parameter.isGroup_eq, h.datatype hr]

include h in
theorem isValid (hr : r < s.next) : (t.heap r).isValid = (s.heap r).isValid := by
  have hid : (t.heap r).parameterId = (s.heap r).parameterId := h.idOf hr
  unfold Parameter.isValid
  rw [h.datatype hr, hid]

include hs h

theorem allocated : t.Allocated := by
  intro id r hr
  rw [h.params] at hr
  exact (hs.allocated hr).trans_le h.next

theorem getGroup (id : Id) : t.getGroup id = s.getGroup id := by
  unfold Store.getGroup
  rw [h.params]
  cases hr : s.params[id]? with
  | none => rfl
  | some r =>
    dsimp only
    rw [h.isGroup (hs.allocated hr)]

theorem answers : Answers s t :=
  ⟨h.getGroup hs, fun _ hg => h.idOf (hg.lt hs.allocated)⟩

theorem hasGroup (hg : t.HasGroup g) : s.HasGroup g := by
  obtain ⟨id, hg⟩ := hg
  exact ⟨id, by rwa [h.getGroup hs] at hg⟩

end Later

theorem Proxied.childless_eq {l : List Ref} {q : Parameter} (h : Proxied t u l q) (hx : x ≠ t.next) :
    (u.heap x).childless = (t.heap x).childless := by
  rw [h.heap x hx]
  split
  · exact Parameter.childless_modifyChildren _
  · rfl

theorem Later.parsed (h : Later s t) {l : List Ref} {q : Parameter} (hp : Proxied t u l q) : Later s u := by
  have hne : ∀ {r : Ref}, r < s.next → r ≠ t.next := fun hr => Nat.ne_of_lt (hr.trans_le h.next)
  refine ⟨hp.params.trans h.params, ?_, fun hr => ?_, fun hr => ?_, fun hr hg => ?_⟩
  · rw [hp.next]
    exact h.next.trans (Nat.le_succ _)
  · rw [hp.idOf (hne hr), h.idOf hr]
  · rw [← h.datatype hr]
    exact congrArg Shape.datatype (hp.shape (hne hr))
  · rw [hp.parent_eq (hne hr)] at hg
    exact h.parent hr hg

/-- A packet that is not applied has only been read. -/
private theorem processed_of_no_target (h : Later s t) {l : List Ref} {q : Parameter} (hp : Proxied t u l q)
    (hno : s.target q.parameterId = none) : Processed s l q t u := by
  have hne : ∀ {r : Ref}, r < s.next → r ≠ t.next := fun hr => Nat.ne_of_lt (hr.trans_le h.next)
  have hu := h.parsed hp
  refine ⟨hp.params, ?_, fun hx => ?_, fun hx => ?_, fun {y} hy id => ?_, fun {y} hy => ?_⟩
  · rw [hp.next]
    exact Nat.le_succ _
  · rw [hu.idOf hx, h.idOf hx]
  · rw [hu.datatype hx, h.datatype hx]
  · rw [hp.getElem?_children (hne hy), childOf, hno]
    by_cases hid : id = q.parameterId <;> simp [hid]
  · rw [hp.childless_eq (hne hy), hno]
    simp

theorem processed_applyUpdate (hs : Built s) (hb : Booked s) (h : Later s t) {l : List Ref} {q : Parameter}
    (hp : Proxied t u l q) : Processed s l q t (Server.applyUpdate t.next u) := by
  have hne : ∀ {r : Ref}, r < s.next → r ≠ t.next := fun hr => Nat.ne_of_lt (hr.trans_le h.next)
  have hu := h.parsed hp
  unfold Server.applyUpdate
  rw [hp.idOf_proxy, hu.params]
  cases hr : s.params[q.parameterId]? with
  | none =>
    refine processed_of_no_target h hp ?_
    rw [target, hr]
    rfl
  | some r =>
    have hlt := hs.allocated hr
    dsimp only
    rw [hu.isValid hlt]
    split
    · next hvalid =>
      have htarget : s.target q.parameterId = some r := target_eq_some_iff.mpr ⟨hr, hvalid⟩
      have hrid : u.idOf r = q.parameterId := by rw [hu.idOf hlt, hb.idOf hr]
      have hid : u.idOf t.next = u.idOf r := hp.idOf_proxy.trans hrid.symm
      have hgroup : ∀ g, u.parent t.next = some g → (u.heap g).isGroup = true := by
        intro g hg
        rw [hp.parent_proxy] at hg
        have hgs := h.hasGroup hs (hp.parent g hg)
        rw [hu.isGroup (hgs.lt hs.allocated)]
        exact hgs.params.2
      have hparent : ∀ {g}, q.parent = some g → g < s.next := fun hg => (h.hasGroup hs (hp.parent _ hg)).lt hs.allocated
      have ht := touched_update u r t.next
      refine ⟨ht.params.trans hp.params, ?_, fun hx => ?_, fun hx => ?_, fun {y} hy id => ?_, fun {y} hy => ?_⟩
      · rw [ht.frame.next, hp.next]
        exact Nat.le_succ _
      · rw [ht.frame.idOf, hu.idOf hx, h.idOf hx]
      · rw [ht.frame.datatype, hu.datatype hx, h.datatype hx]
      · rw [children_update_eq (hne hlt).symm hid hgroup, hrid, hp.getElem?_children (hne hy)]
        by_cases hk : id = q.parameterId
        · rw [if_pos hk, if_pos hk, childOf, htarget, hp.parent_proxy, hp.parent_eq (hne hlt)]
          simp only [hk, and_true]
          exact childAfter_congr (fun g hg => hu.idOf (hparent hg)) (hu.idOf hy)
        · rw [if_neg hk, if_neg hk, if_neg fun h => hk h.2]
      · by_cases hry : y = r
        · subst hry
          obtain ⟨b, hproxy⟩ := hp.proxy
          have hbefore : (u.heap t.next).updatedBy u.idOf (u.heap y) = q.updatedBy s.idOf (u.heap y) := by
            rw [hproxy]
            exact Parameter.updatedBy_congr (fun g hg => hu.idOf (hparent hg)) fun g hg => hu.idOf (hu.parent hy hg)
          rw [if_pos htarget, childless_update (hne hy).symm hid, hbefore, Parameter.childless_updatedBy,
            hp.childless_eq (hne hy)]
        · rw [if_neg fun h => hry (Option.some.inj (htarget.symm.trans h)).symm, childless_update_of_ne hry,
            hp.childless_eq (hne hy)]
    · next hvalid =>
      refine processed_of_no_target h hp ?_
      rw [target, hr, Option.filter_some, if_neg hvalid]

/-- The parent belongs to the record. -/
theorem parent_of_record {p : Parameter} (h : (t.heap r).childless = p.childless) : t.parent r = p.parent := by
  show (t.heap r).childless.parent = p.childless.parent
  rw [h]

namespace Processed

variable {t' u' : Store} {l : List Ref} {q : Parameter}

theorem later (hs : Built s) (ht : Later s t) (h : Processed s l q t u)
    (hq : ∀ g, q.parent = some g → s.HasGroup g) : Later s u := by
  refine ⟨h.params.trans ht.params, ht.next.trans h.next, fun hr => (h.idOf hr).trans (ht.idOf hr),
    fun hr => (h.datatype hr).trans (ht.datatype hr), fun {r g} hr hg => ?_⟩
  have hrecord := h.record hr
  split at hrecord
  · rw [← Parameter.childless_updatedBy] at hrecord
    rw [parent_of_record hrecord] at hg
    rcases Parameter.parent_updatedBy hg with hg | hg
    · exact (hq g hg).lt hs.allocated
    · exact ht.parent hr hg
  · rw [parent_of_record hrecord] at hg
    exact ht.parent hr hg

/-- Nothing happens under another id. -/
theorem frame (hb : Booked s) (h : Processed s l q t u) (hid : id ≠ q.parameterId) : SameAt s id t u := by
  refine ⟨fun hg => ?_, fun {r} hr hrid => ?_⟩
  · rw [h.children hg, if_neg hid]
  · rw [h.record hr, if_neg]
    intro htarget
    exact hid (hrid.symm.trans (hb.idOf (target_eq_some_iff.mp htarget).1))

/-- What happens depends on what was there under the id. -/
theorem congr (hs : Built s) (hb : Booked s) (h : Processed s l q t u) (h' : Processed s l q t' u')
    (hsame : SameAt s q.parameterId t t') : SameAt s q.parameterId u u' := by
  refine ⟨fun {y} hy => ?_, fun {r} hr hrid => ?_⟩
  · rw [h.children hy, h'.children hy, if_pos rfl, if_pos rfl, hsame.children hy]
    unfold childOf
    cases htarget : s.target q.parameterId with
    | none => rfl
    | some r =>
      have hr := (target_eq_some_iff.mp htarget).1
      have hparent : t'.parent r = t.parent r := parent_of_record (hsame.record (hs.allocated hr) (hb.idOf hr))
      dsimp only
      rw [hparent]
  · rw [h.record hr, h'.record hr, hsame.record hr hrid]

/-- A packet that is processed again changes nothing under its id. -/
theorem again (hs : Built s) (h : Processed s l q t u) (h' : Processed s l q u u') :
    SameAt s q.parameterId u u' := by
  refine ⟨fun {y} hy => ?_, fun {r} hr hrid => ?_⟩
  · rw [h'.children hy, h.children hy, if_pos rfl, if_pos rfl]
    unfold childOf
    cases htarget : s.target q.parameterId with
    | none =>
      dsimp only
      split <;> rfl
    | some r =>
      have hrecord := h.record (hs.allocated (target_eq_some_iff.mp htarget).1)
      rw [if_pos htarget, ← Parameter.childless_updatedBy] at hrecord
      dsimp only
      refine childAfter_again fun g p hg hp => ?_
      rw [parent_of_record hrecord] at hp
      exact Parameter.idOf_parent_updatedBy hg hp
  · rw [h'.record hr, h.record hr]
    split
    · exact Parameter.updatedBy_updatedBy q _
    · rfl

end Processed

/-- The cached parameters and the root group are the same in both stores. -/
structure SameCached (s t : Store) : Prop where
  params : t.params = s.params
  cached : ∀ {id : Id} {r : Ref}, s.params[id]? = some r → t.heap r = s.heap r
  root : t.heap root = s.heap root

/-- Stores that have the same under every id have the same cached parameters. -/
theorem sameCached_of_sameAt (hs : Built s) (ht : Later s t) (hu : Later s u) (h : ∀ id, SameAt s id t u) :
    SameCached t u := by
  have hheap : ∀ {r}, r < s.next → u.heap r = t.heap r := by
    intro r hr
    refine Parameter.eq_of_childless ((h (s.idOf r)).record hr rfl) ?_
    exact Std.ExtTreeMap.ext_getElem? fun {id} => (h id).children hr
  refine ⟨hu.params.trans ht.params.symm, fun hr => hheap ?_, hheap hs.base⟩
  rw [ht.params] at hr
  exact hs.allocated hr

end Store

/-! ### Messages -/

/-- What a reception finds: a bound for the depth of a full transmission, and the memory behind the buffer. -/
structure Surroundings where
  depth : Nat
  junk : Nat → UInt8

namespace Server

variable {s : Server} {data data₁ data₂ : Bytes} {id id₁ id₂ : Id}

/-- The server after a message.  What a constructor leaves unset is false or zero. -/
def process (e : Surroundings) (data : Bytes) (s : Server) : Server := (s.received e.depth ⟨{}, e.junk⟩ data).server

/-- The message is a packet with a parameter for the id, and is not read past its end. -/
def Delivers (s : Server) (data : Bytes) (id : Id) : Prop :=
  ∃ junk p, (s.store.parse ⟨{}, junk⟩ data).verdict = .accepted ∧
    (s.store.parse ⟨{}, junk⟩ data).packet.bind Packet.parameter = some p ∧ p.parameterId = id ∧
      (s.store.left ⟨{}, junk⟩ data).eof = false

/-- In every later store, the message is read as the same packet, and the same groups are left. -/
theorem Delivers.processed (hs : s.store.Built) (hb : s.store.Booked) (h : s.Delivers data id) :
    ∃ l q, q.parameterId = id ∧ (∀ g, q.parent = some g → s.store.HasGroup g) ∧
      ∀ (e : Surroundings) (t : Server), s.store.Later t.store →
        s.store.Processed l q t.store (t.process e data).store := by
  obtain ⟨junk, p, hv, hp, rfl, heof⟩ := h
  obtain ⟨hverdict, hcases⟩ := Store.parse_cases hs.allocated ⟨{}, junk⟩ data
  rcases hcases with ⟨-, -, -, hnone⟩ | ⟨c, time, p', q, hpacket, hdry, hheap, hproxied⟩
  · rw [hnone] at hp
    exact absurd hp (by simp)
  rw [hpacket] at hp
  obtain rfl : p' = p := Option.some.inj hp
  obtain ⟨b, hb'⟩ := hproxied.proxy
  refine ⟨(s.store.dryParse ⟨{}, junk⟩ data).state, q, by rw [← hheap, hb'], hproxied.parent, fun e t ht => ?_⟩
  have hagain : t.store.dryParse ⟨{}, e.junk⟩ data = s.store.dryParse ⟨{}, junk⟩ data :=
    (Store.dryParse_congr hs.allocated (ht.answers hs) _ data).trans
      (Store.dryParse_of_junk hs.allocated hv heof e.junk)
  obtain ⟨hverdict', hcases'⟩ := Store.parse_cases (ht.allocated hs) ⟨{}, e.junk⟩ data
  rw [hagain] at hverdict' hcases'
  rcases hcases' with ⟨-, -, hsame, hnone⟩ | ⟨c', time', p'', q', hpacket', hdry', -, hproxied'⟩
  · rw [hsame, hdry] at hnone
    exact absurd hnone (by simp [Packet.parameter])
  rw [hdry] at hdry'
  obtain ⟨-, -, rfl⟩ : c = c' ∧ time = time' ∧ q = q' := by simpa using hdry'
  unfold process
  rw [received_of_parameter (p := p'') (by rw [hverdict', ← hverdict, hv]) (by rw [hpacket']; rfl)]
  exact Store.processed_applyUpdate hs hb ht hproxied'

/-- Later servers, and what they have under an id. -/
private def Ahead (s t : Server) : Prop := s.store.Later t.store

private def SameAt (s : Server) (id : Id) (t u : Server) : Prop := s.store.SameAt id t.store u.store

private theorem sameAt_equivalence (s : Server) (id : Id) : Equivalence (SameAt s id) where
  refl t := (Store.sameAt_equivalence s.store id).refl t.store
  symm h := (Store.sameAt_equivalence s.store id).symm h
  trans h k := (Store.sameAt_equivalence s.store id).trans h k

private theorem confined_process (hs : s.store.Built) (hb : s.store.Booked) (h : s.Delivers data id) :
    Confined (Ahead s) (SameAt s) id (fun e => process e data) := by
  obtain ⟨l, q, rfl, hq, hprocess⟩ := h.processed hs hb
  refine ⟨fun e ht => ?_, fun e ht hid => ?_, fun e e' ht ht' hsame => ?_⟩
  · exact (hprocess e _ ht).later hs ht hq
  · exact (hprocess e _ ht).frame hb hid
  · exact (hprocess e _ ht).congr hs hb (hprocess e' _ ht') hsame

/-- A message that is processed again changes no cached parameter. -/
theorem sameCached_twice (hs : s.store.Built) (hb : s.store.Booked) (h : s.Delivers data id) (e e' e'' : Surroundings) :
    (s.process e data).store.SameCached ((s.process e' data).process e'' data).store := by
  have hstart : Ahead s s := Store.Later.refl hs
  have hconf := confined_process hs hb h
  obtain ⟨l, q, rfl, hq, hprocess⟩ := h.processed hs hb
  have hfirst := hconf.keeps e' hstart
  refine Store.sameCached_of_sameAt hs (hconf.keeps e hstart) (hconf.keeps e'' hfirst) fun id => ?_
  refine hconf.twice (sameAt_equivalence s) hstart e e' e'' ?_ id
  -- the first two runs agree, and the second of a row adds nothing
  refine (sameAt_equivalence s q.parameterId).trans
    (hconf.congr e e' hstart hstart ((sameAt_equivalence s q.parameterId).refl s)) ?_
  exact (hprocess e' s hstart).again hs (hprocess e'' _ hfirst)

/-- Messages for different ids can be swapped. -/
theorem sameCached_swap (hs : s.store.Built) (hb : s.store.Booked) (h₁ : s.Delivers data₁ id₁)
    (h₂ : s.Delivers data₂ id₂) (hid : id₁ ≠ id₂) (e₁ e₁' e₂ e₂' : Surroundings) :
    ((s.process e₁ data₁).process e₂ data₂).store.SameCached ((s.process e₂' data₂).process e₁' data₁).store := by
  have hstart : Ahead s s := Store.Later.refl hs
  have hconf₁ := confined_process hs hb h₁
  have hconf₂ := confined_process hs hb h₂
  refine Store.sameCached_of_sameAt hs (hconf₂.keeps e₂ (hconf₁.keeps e₁ hstart))
    (hconf₁.keeps e₁' (hconf₂.keeps e₂' hstart)) fun id => ?_
  exact hconf₁.commute (sameAt_equivalence s) hconf₂ hid hstart e₁ e₁' e₂ e₂' id

end Server

/-- A server is insensitive to messages that come twice, and to the order of messages for different parameters. -/
theorem process_insensitive (mem : Memory) (ts : List Nat) (ops : List ServerOp)
    (hops : Along Server.operate (fun s op => op.Handles Store.builtHandle s) (Server.start mem ts) ops)
    {data₁ data₂ : Bytes} {id₁ id₂ : Id} (h₁ : (run Server.operate (Server.start mem ts) ops).Delivers data₁ id₁)
    (h₂ : (run Server.operate (Server.start mem ts) ops).Delivers data₂ id₂) (hid : id₁ ≠ id₂) :
    let s := run Server.operate (Server.start mem ts) ops
    (∀ e e' e'', (s.process e data₁).store.SameCached ((s.process e' data₁).process e'' data₁).store) ∧
      ∀ e₁ e₁' e₂ e₂', ((s.process e₁ data₁).process e₂ data₂).store.SameCached
        ((s.process e₂' data₂).process e₁' data₁).store := by
  have hstart : (Server.start mem ts).store.Built := by
    rw [Server.store_start]
    exact Store.built_new mem
  have hs := Store.serverKept_built.run ops hops hstart
  have hb := Server.booked_of_run mem ts ops
  exact ⟨Server.sameCached_twice hs hb h₁, Server.sameCached_swap hs hb h₁ h₂ hid⟩

/-- A server with two groups. -/
def groupsOnly : List ServerOp :=
  [.call (.create {} .createGroupParameter [] root), .call (.create {} .createGroupParameter [] root)]

/-- An update of one group that names the other as its parent. -/
def intoGroup (group parent : UInt8) : Bytes := [4, 18, 0, group, 40, 0, 37, 0, parent, 0, 0]

/-- Two groups that are moved into each other. -/
theorem process_insensitive_groupsOnly :
    let s := run Server.operate (Server.start {} [0]) groupsOnly
    (∀ e e' e'', (s.process e (intoGroup 1 2)).store.SameCached
        ((s.process e' (intoGroup 1 2)).process e'' (intoGroup 1 2)).store) ∧
      ∀ e₁ e₁' e₂ e₂', ((s.process e₁ (intoGroup 1 2)).process e₂ (intoGroup 2 1)).store.SameCached
        ((s.process e₂' (intoGroup 2 1)).process e₁' (intoGroup 1 2)).store := by
  refine process_insensitive {} [0] groupsOnly ?_ ?_ ?_ (by decide : (1 : Id) ≠ 2)
  · refine ⟨?_, ?_, trivial⟩
    · show root < (Server.start {} [0]).store.next
      decide
    · show root < ((Server.start {} [0]).operate (.call (.create {} .createGroupParameter [] root))).store.next
      decide
  · have hid : (((run Server.operate (Server.start {} [0]) groupsOnly).store.parse ⟨{}, fun _ => 0⟩
        (intoGroup 1 2)).packet.bind Packet.parameter).map Parameter.parameterId = some 1 := by decide
    obtain ⟨p, hp, hid⟩ := Option.map_eq_some_iff.mp hid
    exact ⟨fun _ => 0, p, by decide, hp, hid, by decide⟩
  · have hid : (((run Server.operate (Server.start {} [0]) groupsOnly).store.parse ⟨{}, fun _ => 0⟩
        (intoGroup 2 1)).packet.bind Packet.parameter).map Parameter.parameterId = some 2 := by decide
    obtain ⟨p, hp, hid⟩ := Option.map_eq_some_iff.mp hid
    exact ⟨fun _ => 0, p, by decide, hp, hid, by decide⟩

end RabbitControl
