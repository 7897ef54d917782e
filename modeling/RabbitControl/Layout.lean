import RabbitControl.Replication
import RabbitControl.Shown

/-!
# Stores of one layout

Server and clients that hold the same parameters, of the same types and in the same groups.  As long as nobody creates,
moves or removes a parameter, each of their stores follows this layout (`Store.Follows`), and what a store shows and has
marked of an option is a cell at the end of a link: setters move it, `update()` flushes it, and an update that arrives
is heard by the options that it carries.
-/

namespace RabbitControl

open Lib

/-- The types of the parameters by their ids, and the groups that they are in if this is not the root group. -/
structure Layout where
  type : Id → Option ParameterType
  parent : Id → Option Id

namespace Store

variable {l : Layout} {s t c : Store} {r x g : Ref} {id i j : Id} {o : OptionId}

/-- The store holds the parameters of the layout; nothing has been removed, and nothing that is marked was cleared. -/
structure Follows (l : Layout) (s : Store) : Prop extends Paired s where
  type : ∀ id : Id, (s.params[id]?.map fun r => (s.heap r).kind.type) = l.type id
  created : ∀ {id : Id} {τ : ParameterType}, l.type id = some τ → ∃ f : CreateFunction, τ = f.type
  uncleared : ∀ {id : Id} {r : Ref}, s.params[id]? = some r → (s.heap r).Uncleared
  above : ∀ {id : Id} {r g : Ref}, s.params[id]? = some r → s.parent r = some g →
    s.idOf g = 0 ∨ l.parent id = some (s.idOf g)
  named : ∀ {id j : Id} {r : Ref}, s.params[id]? = some r → l.parent id = some j →
    ∃ g, s.parent r = some g ∧ s.named j = some g
  dirty : ∀ {id : Id} {r : Ref}, s.dirtyParameter[id]? = some r → s.params[id]? = some r
  removed : s.removedParameter = ∅

/-- What the store shows of an option, and whether it is to send it. -/
def cell (s : Store) (id : Id) (o : OptionId) : Cell (Option Shown) :=
  match s.params[id]? with
  | some r => (s.heap r).cell (decide (id ∈ s.dirtyParameter)) o
  | none => ⟨none, false⟩

/-- What the store shows of an option. -/
def shown (s : Store) (id : Id) (o : OptionId) : Option Shown := s.params[id]?.bind fun r => (s.heap r).shown o

theorem value_cell (s : Store) (id : Id) (o : OptionId) : (s.cell id o).value = s.shown id o := by
  rw [cell, shown]
  cases s.params[id]? <;> rfl

theorem changed_cell_of_notMem (h : id ∉ s.dirtyParameter) (o : OptionId) : (s.cell id o).changed = false := by
  rw [cell]
  cases s.params[id]? with
  | none => rfl
  | some r => simp [Parameter.cell, h]

theorem cell_of_params (hr : s.params[id]? = some r) :
    s.cell id o = (s.heap r).cell (decide (id ∈ s.dirtyParameter)) o := by
  rw [cell, hr]

/-- Nothing that the cell is made of has changed. -/
theorem cell_congr (hp : t.params[id]? = s.params[id]?) (hd : id ∈ t.dirtyParameter ↔ id ∈ s.dirtyParameter)
    (hh : ∀ r, s.params[id]? = some r → t.heap r = s.heap r) : t.cell id o = s.cell id o := by
  rw [cell, cell, hp]
  cases hr : s.params[id]? with
  | none => rfl
  | some r =>
    dsimp only
    rw [hh r hr, decide_eq_decide.mpr hd]

theorem named_congr (hp : t.params = s.params)
    (hg : ∀ {id : Id} {r : Ref}, s.params[id]? = some r → (t.heap r).isGroup = (s.heap r).isGroup) (j : Id) :
    t.named j = s.named j := by
  unfold Store.named getGroup
  rw [hp]
  cases hx : s.params[j]? with
  | none => rfl
  | some x =>
    dsimp only
    rw [hg hx]

namespace Follows

theorem congr (hs : Follows l s) (h : SameTree s t)
    (ht : ∀ {r}, (t.heap r).kind.type = (s.heap r).kind.type)
    (hu : ∀ {id : Id} {r : Ref}, s.params[id]? = some r → (t.heap r).Uncleared)
    (hd : ∀ {id : Id} {r : Ref}, t.dirtyParameter[id]? = some r → s.params[id]? = some r)
    (hr : t.removedParameter = ∅) : Follows l t := by
  refine ⟨hs.toPaired.congr h, fun id => ?_, hs.created, fun hx => ?_, fun hx hg => ?_, fun hx hj => ?_, fun hx => ?_,
    hr⟩
  · rw [h.params, ← hs.type id]
    exact congrArg (Option.map · _) (funext fun r => ht)
  · rw [h.params] at hx
    exact hu hx
  · rw [h.params] at hx
    rw [h.parent] at hg
    rw [h.idOf]
    exact hs.above hx hg
  · rw [h.params] at hx
    rw [named_congr h.params fun _ => h.isGroup _, h.parent]
    exact hs.named hx hj
  · rw [h.params]
    exact hd hx

variable (hs : Follows l s)

include hs

theorem keyed : s.Keyed := fun hx => hs.idOf (hs.dirty hx)

theorem type_of_params (hr : s.params[id]? = some r) : l.type id = some (s.heap r).kind.type := by
  rw [← hs.type, hr]
  rfl

theorem exists_params {τ : ParameterType} (h : l.type id = some τ) :
    ∃ r, s.params[id]? = some r ∧ (s.heap r).kind.type = τ := by
  rw [← hs.type] at h
  exact Option.map_eq_some_iff.mp h

theorem created_of_params (hr : s.params[id]? = some r) : ∃ f : CreateFunction, (s.heap r).kind.type = f.type :=
  hs.created (hs.type_of_params hr)

theorem mem_dirty_iff (hr : s.params[id]? = some r) : r ∈ s.dirtyRefs ↔ id ∈ s.dirtyParameter := by
  rw [mem_dirtyRefs, mem_iff_exists]
  constructor
  · rintro ⟨j, hj⟩
    obtain rfl : j = id := (hs.idOf (hs.dirty hj)).symm.trans (hs.idOf hr)
    exact ⟨r, hj⟩
  · rintro ⟨x, hx⟩
    obtain rfl : x = r := Option.some.inj ((hs.dirty hx).symm.trans hr)
    exact ⟨id, hx⟩

/-! ### Setters -/

theorem set (hr : s.params[id]? = some r) {a : Setter} (ha : a.adds = true) : Follows l (s.set r a) := by
  refine hs.congr (sameTree_set s r a) (fun {x} => ?_) (fun {i x} hx => ?_) (fun {i x} hx => ?_) ?_
  · rw [heap_set]
    split
    · next hxr => rw [hxr, Parameter.type_apply]
    · rfl
  · rw [heap_set]
    split
    · next hxr => exact (hs.uncleared hr).apply ha
    · exact hs.uncleared hx
  · rcases (dirtyStep_set s r a).cases hx with hx | ⟨rfl, rfl⟩
    · exact hs.dirty hx
    · rw [hs.idOf hr, hr]
  · rw [(frame_set s r a).removed, hs.removed]

theorem cell_set_of_ne (hr : s.params[id]? = some r) (hi : i ≠ id) (a : Setter) :
    (s.set r a).cell i o = s.cell i o := by
  have hid := hs.idOf hr
  refine cell_congr (by rw [params_set]) ?_ fun x hx => ?_
  · rw [mem_iff_exists, mem_iff_exists, (dirtyStep_set s r a).getElem? (by rw [hid]; exact hi)]
  · have hxr : x ≠ r := fun hxr => hi (by rw [← hs.idOf hx, hxr, hid])
    rw [heap_set, if_neg hxr]

theorem cell_set (hr : s.params[id]? = some r) (a : Setter) : (s.set r a).cell id o =
    ((s.heap r).apply a).1.cell (((s.heap r).apply a).2 || decide (id ∈ s.dirtyParameter)) o := by
  have hid := hs.idOf hr
  have hdirty : id ∈ (s.set r a).dirtyParameter ↔ ((s.heap r).apply a).2 = true ∨ id ∈ s.dirtyParameter := by
    have hfree : s.idOf r ∉ s.removedParameter := by
      rw [hs.removed]
      exact Std.ExtTreeMap.not_mem_empty
    rw [dirty_set]
    split
    · next h => simp [h.1, hid]
    · next h => simp [Bool.eq_false_iff.mpr fun hb => h ⟨hb, hs.managed hr, hfree⟩]
  rw [cell_of_params ((congrArg (·[id]?) (params_set s r a)).trans hr), heap_set, if_pos rfl]
  congr 1
  rw [Bool.eq_iff_iff]
  simpa using hdirty

/-- A setter of the application. -/
theorem moves_set (hr : s.params[id]? = some r) {a : Setter} (ha : a.adds = true)
    (hrep : (s.heap r).reports (decide (r ∈ s.dirtyRefs)) a = true) (i : Id) (o : OptionId) :
    (s.cell i o).Moves ((s.set r a).cell i o) := by
  by_cases hi : i = id
  · subst hi
    rw [decide_eq_decide.mpr (hs.mem_dirty_iff hr)] at hrep
    rw [hs.cell_set hr, cell_of_params hr]
    exact Parameter.moves_apply (hs.uncleared hr) ha hrep o
  · rw [hs.cell_set_of_ne hr hi]
    exact (Cell.Keeps.refl _).moves

end Follows

/-- Setters one after the other. -/
def setAll (r : Ref) (as : List Setter) (s : Store) : Store := as.foldl (fun s a => s.set r a) s

theorem setAll_append (r : Ref) (as bs : List Setter) (s : Store) :
    s.setAll r (as ++ bs) = (s.setAll r as).setAll r bs := List.foldl_append

/-- The setters that an update calls are heard one after the other. -/
theorem Follows.setAll (hs : Follows l s) (hr : s.params[id]? = some r) {as : List Setter}
    (has : ∀ a ∈ as, a.Plain (s.heap r).kind.type) : Follows l (s.setAll r as) ∧
      ∀ i o, Cell.Hears (if i = id then told o as else none) (s.cell i o) ((s.setAll r as).cell i o) := by
  induction as generalizing s with
  | nil =>
    refine ⟨hs, fun i o => ?_⟩
    rw [show told o [] = none from rfl, ite_self]
    exact Cell.Keeps.refl _
  | cons a as ih =>
    have ha := has a List.mem_cons_self
    have htype : ((s.set r a).heap r).kind.type = (s.heap r).kind.type := by
      rw [heap_set, if_pos rfl, Parameter.type_apply]
    obtain ⟨hfollows, hhears⟩ := ih (hs.set hr (Setter.Plain.adds ha)) (by rw [params_set]; exact hr) fun b hb => by
      rw [htype]
      exact has b (List.mem_cons_of_mem _ hb)
    refine ⟨hfollows, fun i o => ?_⟩
    have hfirst : Cell.Hears (if i = id then a.tells o else none) (s.cell i o) ((s.set r a).cell i o) := by
      split
      · next hi =>
        subst hi
        rw [hs.cell_set hr, cell_of_params hr]
        exact Parameter.hears_apply ha o
      · next hi =>
        rw [hs.cell_set_of_ne hr hi]
        exact Cell.Keeps.refl _
    have hboth := hfirst.trans (hhears i o)
    split at hboth
    · next hi => rwa [if_pos hi]
    · next hi => rwa [if_neg hi]

/-! ### Updates that arrive -/

theorem fst_updateOption {α : Type} (r : Ref) (v : Option α) (setter : α → Setter) (changed : Parameter → Bool)
    (w : Store × Bool) : (updateOption r v setter changed w).1 = w.1.setAll r (v.toList.map setter) := by
  cases v <;> rfl

theorem sameTree_setAll (s : Store) (r : Ref) (as : List Setter) : SameTree s (s.setAll r as) := by
  induction as generalizing s with
  | nil => exact .refl s
  | cons a as ih => exact (sameTree_set s r a).trans (ih _)

theorem heap_setAll_of_ne (hx : x ≠ r) (as : List Setter) : (s.setAll r as).heap x = s.heap x := by
  induction as generalizing s with
  | nil => rfl
  | cons a as ih =>
    refine (ih (s := s.set r a)).trans ?_
    rw [heap_set, if_neg hx]

/-- An update without user data that leaves the parameter in its group calls its setters and no more. -/
theorem update_eq_setAll {other : Ref} (hne : other ≠ r) (hid : s.idOf other = s.idOf r)
    (htype : (s.heap other).kind.type = (s.heap r).kind.type) (hdata : (s.heap other).userdata.content = [])
    (hparent : ∀ g, s.parent other = some g → s.parent r = some g ∧ s.idOf r ∈ s.children g) :
    (s.update r other).1 = s.setAll r (s.heap other).tellings := by
  have hvalue : (s.updateValue r other).1 = s.setAll r (s.heap other).kind.tellings := by
    unfold updateValue
    cases hk : (s.heap r).kind <;> cases hq : (s.heap other).kind <;> rw [hk, hq] at htype <;>
      first | rfl | exact absurd htype ParameterType.noConfusion | skip
    next τ d c σ d' v =>
      obtain rfl : σ = τ := ParameterType.value.inj htype
      dsimp only
      rw [if_pos rfl, Kind.tellings]
      cases v.get? <;> rfl
  have hbase : ∀ t : Store, SameTree s t → t.heap other = s.heap other →
      (t.updateBase r other).1 = t.setAll r ((s.heap other).label.plain.toList.map (.label <| .set ·) ++
        (s.heap other).description.plain.toList.map (.description <| .set ·) ++
        (s.heap other).tags.get?.toList.map .setTags ++ (s.heap other).order.get?.toList.map .setOrder ++
        (s.heap other).userid.get?.toList.map .setUserid ++ (s.heap other).readonly.get?.toList.map .setReadonly) := by
    intro t hst hheap
    have hstay : ∀ u : Store, SameTree s u → ∀ g, (s.heap other).parent = some g → u.addChild g r = u := by
      intro u hu g hg
      obtain ⟨hp, hc⟩ := hparent g hg
      rw [addChild_of_same ((hu.parent r).trans hp) rfl, enterChild, if_pos]
      rw [hu.idOf, hu.children]
      exact hc
    have hnone : (s.heap other).userdata.get? = none := by simp [Block.get?, Block.has, hdata]
    unfold updateBase
    dsimp only
    rw [hheap, hnone]
    simp only [fst_updateOption, setAll_append]
    cases hg : (s.heap other).parent with
    | none =>
      dsimp only
      simp only [fst_updateOption]
      rfl
    | some g =>
      dsimp only
      rw [hstay _ ?_ g hg]
      · rfl
      · exact (((hst.trans (sameTree_setAll ..)).trans (sameTree_setAll ..)).trans (sameTree_setAll ..)).trans
          (sameTree_setAll ..)
  rw [update, if_neg hne, if_pos hid]
  dsimp only
  rw [hvalue, hbase _ (sameTree_setAll s r _) (heap_setAll_of_ne hne _), ← setAll_append, Parameter.tellings]
  simp only [setAll_append]

namespace Follows

variable (hs : Follows l s) {w : Parameter}

include hs

theorem withProxy (hw : w.children = ∅) : Follows l (s.withProxy w) := by
  have hheap : ∀ {x : Ref}, x < s.next → (s.withProxy w).heap x = s.heap x := fun hx =>
    heap_withProxy w (Nat.ne_of_lt hx)
  have hbuilt : ∀ {id : Id} {x : Ref}, s.params[id]? = some x → (s.withProxy w).heap x = s.heap x := fun hx =>
    hheap (hs.built hx)
  have hchildren : ∀ {g c : Ref} {id : Id}, ((s.withProxy w).children g)[id]? = some c →
      (s.children g)[id]? = some c := by
    intro g c id hc
    rw [Store.children] at hc
    by_cases hg : g = s.next
    · rw [hg, show (s.withProxy w).heap s.next = w from if_pos rfl, hw] at hc
      simp at hc
    · rwa [heap_withProxy w hg] at hc
  have hpaired : Paired (s.withProxy w) := by
    refine ⟨⟨fun hx => ?_, fun hx => Nat.lt_succ_of_lt (hs.built hx), fun hx => ?_, fun hx => ?_, fun hx => hs.taken hx,
      fun {g id c} hc => ?_⟩, fun {id c g} hx hg => ?_⟩
    · rw [idOf, hbuilt hx]; exact hs.idOf hx
    · rw [hbuilt hx]; exact hs.managed hx
    · rw [hbuilt hx]; exact hs.valid hx
    · obtain ⟨hx, hp, hlt⟩ := hs.child (hchildren hc)
      exact ⟨hx, by rw [Store.parent, hbuilt hx]; exact hp, Nat.lt_succ_of_lt hlt⟩
    · rw [Store.parent, hbuilt hx] at hg
      have hchild := hs.toPaired.parent hx hg
      rw [Store.children, hheap (hs.child hchild).2.2]
      exact hchild
  refine ⟨hpaired, fun id => ?_, hs.created, fun hx => ?_, fun {id x g} hx hg => ?_, fun {id j x} hx hj => ?_,
    fun hx => hs.dirty hx, hs.removed⟩
  · rw [← hs.type id]
    show Option.map _ s.params[id]? = _
    cases hx : s.params[id]? with
    | none => rfl
    | some x => rw [Option.map_some, Option.map_some, hbuilt hx]
  · rw [hbuilt hx]; exact hs.uncleared hx
  · rw [Store.parent, hbuilt hx] at hg
    rw [idOf, hheap (hs.child (hs.toPaired.parent hx hg)).2.2]
    exact hs.above hx hg
  · obtain ⟨g, hg, hn⟩ := hs.named hx hj
    have hsame := named_congr (s := s) (t := s.withProxy w) rfl (fun hy => by rw [hbuilt hy]) j
    exact ⟨g, by rw [Store.parent, hbuilt hx]; exact hg, hsame.trans hn⟩

theorem cell_withProxy (w : Parameter) (i : Id) (o : OptionId) : (s.withProxy w).cell i o = s.cell i o :=
  cell_congr rfl Iff.rfl fun _ hx => heap_withProxy w (Nat.ne_of_lt (hs.built hx))

/-- An update of a parameter that is held is heard by the options that it carries. -/
theorem updated (hempty : w.children = ∅) (htype : l.type w.parameterId = some w.kind.type)
    (hdata : w.userdata.content = [])
    (hparent : w.parent = none ∨ ∃ j, l.parent w.parameterId = some j ∧ w.parent = s.named j) :
    ∃ r, s.params[w.parameterId]? = some r ∧ Follows l ((s.withProxy w).update r s.next).1 ∧
      ∀ i o, Cell.Hears (if i = w.parameterId then w.shown o else none) (s.cell i o)
        (((s.withProxy w).update r s.next).1.cell i o) := by
  obtain ⟨r, hr, hkind⟩ := hs.exists_params htype
  have hlt := hs.built hr
  have hproxy : (s.withProxy w).heap s.next = w := if_pos rfl
  have hheap : (s.withProxy w).heap r = s.heap r := heap_withProxy w (Nat.ne_of_lt hlt)
  have hid : (s.withProxy w).idOf r = w.parameterId := by
    rw [idOf, hheap]
    exact hs.idOf hr
  have hupdate : ((s.withProxy w).update r s.next).1 = (s.withProxy w).setAll r w.tellings := by
    have h := update_eq_setAll (s := s.withProxy w) (Nat.ne_of_gt hlt) (by rw [hid, idOf, hproxy])
      (by rw [hproxy, hheap, hkind]) (by rw [hproxy, hdata]) fun g hg => ?_
    · rwa [hproxy] at h
    · rw [Store.parent, hproxy] at hg
      rcases hparent with hnone | ⟨j, hj, hn⟩
      · rw [hnone] at hg
        simp at hg
      · obtain ⟨g', hg', hn'⟩ := hs.named hr hj
        obtain rfl : g' = g := Option.some.inj ((hn'.symm.trans hn.symm).trans hg)
        have hchild := hs.toPaired.parent hr hg'
        rw [Store.parent, hheap, hid, Store.children, heap_withProxy w (Nat.ne_of_lt (hs.child hchild).2.2)]
        exact ⟨hg', mem_of_getElem? hchild⟩
  have hr' : (s.withProxy w).params[w.parameterId]? = some r := hr
  have hplain : ∀ a ∈ w.tellings, a.Plain ((s.withProxy w).heap r).kind.type := by
    rw [hheap, hkind]
    exact w.plain_tellings
  obtain ⟨hfollows, hhears⟩ := (hs.withProxy hempty).setAll hr' hplain
  refine ⟨r, hr, by rwa [hupdate], fun i o => ?_⟩
  have h := hhears i o
  rwa [hs.cell_withProxy, told_tellings, ← hupdate] at h

end Follows

/-! ### Updates that are sent -/

/-- What `update()` of a server or of a client leaves. -/
def flushed (s : Store) : Store :=
  { (writeDirty s.dirtyRefs s).2 with removedParameter := ∅, dirtyParameter := ∅ }

/-- What is marked and to be sent can be read. -/
def Writable (s : Store) : Prop :=
  ∀ r ∈ s.dirtyRefs, (s.heap r).Readable ∧ (s.heap r).kind.Readable false

namespace Follows

variable (hs : Follows l s)

include hs

private theorem heap_flushed (x : Ref) : s.flushed.heap x =
    if x ∈ s.dirtyRefs then ((s.heap x).write s.idOf false).2 else s.heap x := by
  show (writeDirty s.dirtyRefs s).2.heap x = _
  split
  · next hx => exact heap_writeDirty (nodup_dirtyRefs hs.keyed) hx
  · next hx => exact heap_writeDirty_of_notMem hx

theorem flushed : Follows l s.flushed := by
  have hst := sameTree_writeDirty s.dirtyRefs s
  have hsame : SameTree s s.flushed :=
    ⟨hst.idOf, hst.datatype, hst.isGroup, hst.managed, hst.parent, hst.children, hst.params, hst.ids, hst.next⟩
  refine hs.congr hsame (fun {x} => ?_) (fun {i x} hx => ?_) (fun hx => ?_) rfl
  · rw [hs.heap_flushed]
    split
    · exact Parameter.type_write _ _ _
    · rfl
  · rw [hs.heap_flushed]
    split
    · refine (hs.uncleared hx).congr (fun o hc => ?_) (Parameter.observe_write _ _)
      rw [Parameter.changed_write_update] at hc
      exact absurd hc Bool.false_ne_true
    · exact hs.uncleared hx
  · simp [Store.flushed] at hx

theorem cell_flushed (i : Id) (o : OptionId) : s.flushed.cell i o = ⟨(s.cell i o).value, false⟩ := by
  have hparams : s.flushed.params = s.params := (sameTree_writeDirty s.dirtyRefs s).params
  rw [cell, cell, hparams]
  cases s.params[i]? with
  | none => rfl
  | some x =>
    have hshown : (s.flushed.heap x).shown o = (s.heap x).shown o := by
      rw [hs.heap_flushed]
      split
      · exact Parameter.shown_of_observe (Parameter.observe_write _ _)
      · rfl
    show (⟨_, _⟩ : Cell (Option Shown)) = ⟨_, _⟩
    rw [hshown]
    rfl

theorem params_of_dirty (hr : r ∈ s.dirtyRefs) : s.params[s.idOf r]? = some r := by
  obtain ⟨j, hj⟩ := mem_dirtyRefs.mp hr
  rw [hs.keyed hj]
  exact hs.dirty hj

/-- Of all that is sent, an option is carried by the packet of its parameter alone. -/
theorem filterMap_dirtyRefs {f : Ref → Option Shown} {i : Id} {o : OptionId}
    (hf : ∀ r ∈ s.dirtyRefs, f r = if s.idOf r = i ∧ (s.heap r).changed o = true then (s.heap r).shown o else none) :
    s.dirtyRefs.filterMap f = if (s.cell i o).changed then (s.cell i o).value.toList else [] := by
  have hone : ∀ (k : List Ref) (x : Ref), k.Nodup → (∀ r ∈ k, r ≠ x → f r = none) →
      k.filterMap f = if x ∈ k then (f x).toList else [] := by
    intro k x hk hother
    induction k with
    | nil => rfl
    | cons y k ih =>
      rw [List.nodup_cons] at hk
      have hrest := ih hk.2 fun r hr => hother r (List.mem_cons_of_mem _ hr)
      by_cases hyx : y = x
      · subst hyx
        rw [if_neg hk.1] at hrest
        rw [if_pos List.mem_cons_self, List.filterMap_cons, hrest]
        cases f y <;> rfl
      · rw [List.filterMap_cons_none (hother y List.mem_cons_self hyx), hrest]
        simp [Ne.symm hyx]
  rw [cell]
  cases hx : s.params[i]? with
  | none =>
    refine List.filterMap_eq_nil_iff.mpr fun r hr => ?_
    have hp := hs.params_of_dirty hr
    rw [hf r hr, if_neg]
    rintro ⟨rfl, -⟩
    rw [hx] at hp
    simp at hp
  | some x =>
    have hid := hs.idOf hx
    rw [hone _ x (nodup_dirtyRefs hs.keyed) fun r hr hrx => ?_]
    · have hdirty : decide (i ∈ s.dirtyParameter) = decide (x ∈ s.dirtyRefs) :=
        decide_eq_decide.mpr (hs.mem_dirty_iff hx).symm
      show _ = if (decide (i ∈ s.dirtyParameter) && (s.heap x).changed o) = true then ((s.heap x).shown o).toList else []
      rw [hdirty]
      by_cases hdirty : x ∈ s.dirtyRefs
      · rw [if_pos hdirty, hf x hdirty, hid]
        cases (s.heap x).changed o <;> simp [hdirty]
      · simp [hdirty]
    · rw [hf r hr, if_neg]
      rintro ⟨hri, -⟩
      have hp := hs.params_of_dirty hr
      rw [hri, hx] at hp
      exact hrx (Option.some.inj hp).symm

end Follows

end Store

end RabbitControl
