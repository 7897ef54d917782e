import RabbitControl.Removal
import RabbitControl.Replication

/-!
# Calls and copies

What the calls of an application do to the copies that a client holds.  A call marks what it changes and puts it on the
dirty list (`Tracked`), so the copies keep trailing (`trailed_set`, `trailed_addChild`, `trailed_create`,
`trailed_removeParameter`).  Once `update()` has taken the marks down they show everything (`trailed_update`).
-/

namespace RabbitControl

open Lib

namespace Store

variable {s t c : Store} {r x y g : Ref} {i : Id} {k k' : List Id} {l l' : List Ref}

/-! ### One parameter -/

/-- A step of the server that marks what it changes, and that puts the parameter in another group at most. -/
theorem TrailedAt.step (h : TrailedAt s l c r) (hm : (s.heap r).Tracked (r ∈ l') (t.heap r)) (hl : r ∈ l → r ∈ l')
    (hid : t.idOf r = s.idOf r) (hids : ∀ g, t.parent r = some g → t.idOf g = s.idOf g)
    (hp : ∀ g, t.parent r = some g → s.parent r = some g ∨
      g ≠ root ∧ (s.idOf g ∈ c.params ∨ r ∈ l' ∧ (t.heap r).parentChanged = true ∧ s.idOf g < s.idOf r)) :
    TrailedAt t l' c r := by
  have hbind : ((t.heap r).parent.bind fun g => c.params[t.idOf g]?) =
      (t.heap r).parent.bind fun g => c.params[s.idOf g]? :=
    Option.bind_congr fun g hg => by rw [hids g hg]
  refine ⟨fun {x} hx => ?_, fun hnone => ?_, fun {g} hg hroot => ?_, fun {x} hg hx => ?_⟩
  · rw [hid] at hx
    exact (hm.trails hl (h.known hx)).congr rfl fun o ho => ho.imp_left fun ho => ho.congr_named fun _ => hbind
  · rw [hid] at hnone
    obtain ⟨hr, hc, ho⟩ := h.fresh hnone
    refine ⟨hl hr, hm.changed .parentId hc, fun o => ?_⟩
    rw [hm.type]
    have hmatches := hm.matches (fun _ : True => hl hr) ((ho o).imp_right fun hc => ⟨hc, trivial⟩)
    exact hmatches.imp (fun ho => ho.congr_named fun _ => hbind) And.left
  · rw [hids g hg, hid]
    rcases hp g hg with hg | ⟨-, hg⟩
    · exact (h.parent hg hroot).imp_right fun ⟨hr, hc, hlt⟩ => ⟨hl hr, hm.changed .parentId hc, hlt⟩
    · exact hg
  · rw [hid] at hx
    exact h.top ((hp root hg).resolve_right fun hroot => hroot.1 rfl) hx

/-- A step that leaves the record of the parameter as it is. -/
theorem TrailedAt.congr (h : TrailedAt s l c r) (hrec : (t.heap r).childless = (s.heap r).childless)
    (hl : r ∈ l → r ∈ l') (hids : ∀ g, s.parent r = some g → t.idOf g = s.idOf g) : TrailedAt t l' c r := by
  have hparent : t.parent r = s.parent r := (congrArg Parameter.parent hrec :)
  have hid : t.idOf r = s.idOf r := (congrArg Parameter.parameterId hrec :)
  exact h.step (Parameter.tracked_of_childless hrec) hl hid (fun g hg => hids g (hparent ▸ hg)) fun g hg =>
    Or.inl (hparent ▸ hg)

theorem uncleared_of_childless {p p' : Parameter} (h : p.Uncleared) (hrec : p'.childless = p.childless) :
    p'.Uncleared := by
  have hobserve : ∀ o, p'.observe o = p.observe o := fun o => by
    rw [← Parameter.observe_childless, hrec, Parameter.observe_childless]
  refine h.congr (fun o hc => Or.inr ⟨?_, hobserve o⟩) (hobserve _)
  rwa [← Parameter.changed_childless, ← hrec, Parameter.changed_childless]

theorem type_of_rehung {p p' : Parameter} (h : p.Rehung p') : p'.kind.type = p.kind.type := by
  have hkind : p'.kind.childless = p.kind.childless := (congrArg Parameter.kind h.childless :)
  rw [← Kind.type_childless, hkind, Kind.type_childless]

/-- A parameter that is put in another group, which is to be sent. -/
theorem tracked_of_rehung {dirty : Prop} {p p' : Parameter} (h : p.Rehung p') (hc : p'.parentChanged = true)
    (hd : dirty) : p.Tracked dirty p' where
  type := type_of_rehung h
  option o := by
    rw [← Parameter.observe_childless, h.childless, ← Parameter.observe_childless p]
    cases o with
    | parentId => exact Or.inr ⟨hc, hd⟩
    | _ => exact Or.inl rfl
  changed o := by
    rw [← Parameter.changed_childless, ← Parameter.changed_childless p', h.childless]
    cases o with
    | parentId => exact fun _ => hc
    | _ => exact id
  label := by
    have hlabel : p'.label = p.label := (congrArg Parameter.label h.childless :)
    rw [hlabel]
    exact id
  description := by
    have hdescription : p'.description = p.description := (congrArg Parameter.description h.childless :)
    rw [hdescription]
    exact id

theorem uncleared_of_rehung {p p' : Parameter} (h : p.Uncleared) (hr : p.Rehung p') (hp : p'.parent.isSome = true) :
    p'.Uncleared := by
  refine h.congr (fun o => ?_) (by rw [← Parameter.observe_childless, hr.childless]; rfl)
  rw [← Parameter.changed_childless, ← Parameter.observe_childless, hr.childless, ← Parameter.changed_childless p,
    ← Parameter.observe_childless p]
  cases o with
  | parentId => exact fun _ => Or.inl (Option.isSome_map.trans hp)
  | _ => exact fun hc => Or.inr ⟨hc, rfl⟩

/-! ### The dirty list -/

theorem Settled.mem_dirtyRefs (hs : Settled s) : r ∈ s.dirtyRefs ↔ s.dirtyParameter[s.idOf r]? = some r := by
  rw [Store.mem_dirtyRefs]
  refine ⟨fun ⟨id, h⟩ => ?_, fun h => ⟨_, h⟩⟩
  rwa [hs.keyed h]

theorem Settled.live_of_dirty (hs : Settled s) (h : r ∈ s.dirtyRefs) : s.Live r :=
  hs.dirtyLive (hs.mem_dirtyRefs.mp h)

theorem Settled.notMem_removed (hs : Settled s) (hr : s.Live r) : s.idOf r ∉ s.removedParameter := by
  intro hm
  have hnone := hs.apart hm
  rw [hr] at hnone
  simp at hnone

/-- What is dirty stays dirty when another parameter is put on the list. -/
theorem dirtyRefs_of_dirtyStep (hs : Settled s) (hr : s.Held r) (h : DirtyStep s t r) (hy : y ∈ s.dirtyRefs) :
    y ∈ t.dirtyRefs := by
  have hdirty := hs.mem_dirtyRefs.mp hy
  refine Store.mem_dirtyRefs.mpr ⟨s.idOf y, ?_⟩
  rcases h with h | h
  · rw [h, hdirty]
  · rw [h, getElem?_insert_iff]
    split
    · next hid => rw [Held.eq_of_idOf hs.toCached hs.rootId (Or.inr (hs.dirtyLive hdirty)) hr hid.symm]
    · exact hdirty

/-- The dirty list is in the order of the ids. -/
theorem pairwise_dirtyRefs (hs : Settled s) : s.dirtyRefs.Pairwise fun r x => s.idOf r < s.idOf x := by
  rw [dirtyRefs, List.pairwise_map]
  refine Std.ExtTreeMap.ordered_keys_toList.imp_of_mem fun {a b} ha hb hab => ?_
  rw [Std.ExtTreeMap.mem_toList_iff_getElem?_eq_some] at ha hb
  rw [hs.keyed ha, hs.keyed hb]
  exact Std.compare_eq_lt.mp hab

/-! ### Setters -/

private theorem additive_step (hs : Additive s) (ht : Settled t) (hlive : ∀ {r : Ref}, t.Live r → s.Live r)
    (hrec : ∀ {r : Ref}, t.Live r → (t.heap r).childless = (s.heap r).childless ∨
      (t.heap r).kind.type = (s.heap r).kind.type ∧ (t.heap r).Uncleared) : Additive t := by
  refine ⟨ht, fun {r} hr => ?_, fun {r} hr => ?_⟩
  · obtain ⟨f, hf⟩ := hs.created (hlive hr)
    refine ⟨f, ?_⟩
    rcases hrec hr with h | ⟨h, -⟩
    · rw [Parameter.type_of_childless h, hf]
    · rw [h, hf]
  · rcases hrec hr with h | ⟨-, h⟩
    · exact uncleared_of_childless (hs.uncleared (hlive hr)) h
    · exact h

section Set

variable {a : Setter} (hs : Additive s) (hr : s.Held r) (ha : a.adds = true)

include hs hr ha

theorem additive_set : Additive (s.set r a) := by
  refine additive_step hs (settled_set hs.toSettled hr a) (sameTree_set s r a).live.mp fun {x} hx => ?_
  rw [(sameTree_set s r a).live] at hx
  rw [heap_set]
  split
  · next hxr => exact Or.inr ⟨hxr ▸ Parameter.type_apply _ a, (hxr ▸ hs.uncleared hx).apply ha⟩
  · exact Or.inl rfl

/-- A setter that reports its change. -/
theorem trailed_set (hrep : (s.heap r).reports (decide (r ∈ s.dirtyRefs)) a = true)
    (h : Trailed s k s.dirtyRefs c) : Trailed (s.set r a) k (s.set r a).dirtyRefs c := by
  have hst := sameTree_set s r a
  have hmono : ∀ {y : Ref}, y ∈ s.dirtyRefs → y ∈ (s.set r a).dirtyRefs :=
    dirtyRefs_of_dirtyStep hs.toSettled hr (dirtyStep_set s r a)
  refine ⟨h.kempt, fun i hi => ?_, fun {y x z} hy hx hz => ?_, fun {y} hy => ?_⟩
  · rw [hst.params]
    exact h.ids i hi
  · rw [hst.params]
    rw [hst.idOf] at hx
    exact h.above (hst.live.mp hy) hx hz
  · rw [hst.live] at hy
    refine (h.copies hy).step ?_ hmono (hst.idOf y) (fun g _ => hst.idOf g) fun g hg => Or.inl (hst.parent y ▸ hg)
    rw [heap_set]
    split
    · next hyr =>
      subst hyr
      have hdirty : ((s.heap y).apply a).2 = true → y ∈ (s.set y a).dirtyRefs := by
        intro hset
        refine mem_dirtyRefs.mpr ⟨s.idOf y, ?_⟩
        rw [dirty_set, if_pos ⟨hset, hs.managed hy, hs.notMem_removed hy⟩, getElem?_insert_iff, if_pos rfl]
      have htracked := Parameter.tracked_apply ha hrep
      refine { htracked with option := fun o => (htracked.option o).imp_right fun hm => ⟨hm.1, ?_⟩ }
      rcases Bool.or_eq_true_iff.mp hm.2 with hset | hold
      · exact hdirty hset
      · exact hmono (of_decide_eq_true hold)
    · exact Parameter.tracked_of_childless rfl

end Set

/-! ### Groups -/

/-- A parameter that is put in the group it is in. -/
private theorem addChild_of_parent (hs : Settled s) (hx : s.Live x)
    (hg : s.parent x = some g) : s.addChild g x = s := by
  rw [addChild_of_same hg rfl, enterChild, if_pos ((hs.toLinked.mem_children_iff hx).mpr hg)]

private theorem moved_of_other (hs : Settled s) (hx : s.Live x) (hh : s.Held g) (hg : s.parent x ≠ some g) :
    Moved s (s.addChild g x) x g :=
  moved_addChild fun p hp hid => hg (by rw [hp, Held.eq_of_idOf hs.toCached hs.rootId hh (hs.held hx hp) hid.symm])

section AddChild

variable (hs : Additive s) (hgl : s.Live g) (hx : s.Live x)

include hs hgl hx

theorem additive_addChild (hg : (s.heap g).isGroup = true) : Additive (s.addChild g x) := by
  have ht := touched_addChild s g x
  have hlive : ∀ {y : Ref}, (s.addChild g x).Live y ↔ s.Live y := fun {y} => by
    rw [Live, Live, ht.params, ht.frame.idOf]
  refine additive_step hs (settled_addChild hs.toSettled hg (Or.inr hgl) hx) hlive.mp fun {y} hy => ?_
  by_cases hyx : y = x
  · subst hyx
    have hparent : (s.addChild g y).parent y = some g := by
      by_cases hsame : s.parent y = some g
      · rwa [addChild_of_parent hs.toSettled hx hsame]
      · rw [(moved_of_other hs.toSettled hx (Or.inr hgl) hsame).parent, if_pos rfl]
    exact Or.inr ⟨type_of_rehung (rehung_addChild s g y y),
      uncleared_of_rehung (hs.uncleared hx) (rehung_addChild s g y y) (Option.isSome_of_eq_some hparent)⟩
  · exact Or.inl (childless_addChild hyx)

/-- A parameter is put in a group that the client knows or hears of first. -/
theorem trailed_addChild (hfirst : s.idOf g ∈ c.params ∨ s.idOf g < s.idOf x) (h : Trailed s k s.dirtyRefs c) :
    Trailed (s.addChild g x) k (s.addChild g x).dirtyRefs c := by
  by_cases hsame : s.parent x = some g
  · rwa [addChild_of_parent hs.toSettled hx hsame]
  have hm := moved_of_other hs.toSettled hx (Or.inr hgl) hsame
  have hlive : ∀ {y : Ref}, (s.addChild g x).Live y ↔ s.Live y := fun {y} => by
    rw [Live, Live, hm.params, hm.frame.idOf]
  have hmono : ∀ {y : Ref}, y ∈ s.dirtyRefs → y ∈ (s.addChild g x).dirtyRefs :=
    dirtyRefs_of_dirtyStep hs.toSettled (Or.inr hx) hm.dirty
  have hdirty : x ∈ (s.addChild g x).dirtyRefs := mem_dirtyRefs.mpr ⟨_,
    hm.marked (hs.managed hx) (hs.notMem_removed hx)⟩
  have hchanged : ((s.addChild g x).heap x).parentChanged = true := (hm.parentChanged x).mpr (Or.inl rfl)
  refine ⟨h.kempt, fun i hi => ?_, fun {y z v} hy hz hv => ?_, fun {y} hy => ?_⟩
  · rw [hm.params]
    exact h.ids i hi
  · rw [hm.params]
    rw [hm.frame.idOf] at hz
    exact h.above (hlive.mp hy) hz hv
  · rw [hlive] at hy
    by_cases hyx : y = x
    · subst hyx
      refine (h.copies hy).step (tracked_of_rehung (rehung_addChild s g y y) hchanged hdirty) hmono (hm.frame.idOf y)
        (fun g' _ => hm.frame.idOf g') fun g' hg' => Or.inr ?_
      rw [hm.parent, if_pos rfl] at hg'
      obtain rfl := Option.some.inj hg'
      refine ⟨fun hroot => ?_, hfirst.imp_right fun hlt => ⟨hdirty, hchanged, hlt⟩⟩
      exact hs.idOf_ne_zero hgl (by rw [hroot, hs.rootId])
    · exact (h.copies hy).congr (childless_addChild hyx) hmono fun g' _ => hm.frame.idOf g'

end AddChild

/-! ### New parameters -/

/-- The record of a new parameter. -/
theorem childless_create {mem : Memory} {f : CreateFunction} {label : Bytes} (hid : s.nextId = some i)
    (hc : s.create mem f label g = some (r, t)) : (t.heap r).childless =
      { Parameter.create mem i f.type with
        label := { has := true, content := label, changed := label != [] }, parent := some g, parentChanged := true,
        managed := true } := by
  obtain ⟨rfl, hb⟩ := born_of_create hid hc
  have hparent : (t.heap s.next).parent = some g := (hb.parent s.next).trans (if_pos rfl)
  have hchanged : (t.heap s.next).parentChanged = true := (hb.parentChanged s.next).mpr (Or.inl rfl)
  have hset : ({} : Text).set label = ({ has := true, content := label, changed := label != [] }, label != []) := by
    unfold Text.set
    cases label <;> rfl
  rw [create, hid] at hc
  obtain ⟨-, ht⟩ := Prod.mk.inj (Option.some.inj hc)
  set u := ({ s with ids := insert i s.ids, next := s.next + 1 } : Store).put s.next (.create mem i f.type) with hu
  set v := ((u.modify s.next fun p => { p with managed := true }).set s.next (.label (.set label))).setDirty
    s.next with hv
  have hnew : v.heap s.next = { Parameter.create mem i f.type with
      label := { has := true, content := label, changed := label != [] }, managed := true } := by
    rw [hv, heap_setDirty, heap_set, if_pos rfl, hu, modify_put]
    simp only [put, if_true]
    show ({ Parameter.create mem i f.type with managed := true, label := (({} : Text).set label).1 } : Parameter) = _
    rw [hset]
  have hrehung : (v.heap s.next).Rehung (t.heap s.next) := by
    rw [← ht]
    exact rehung_addChild v g s.next s.next
  rw [hrehung.childless, hparent, hchanged, hnew]
  have hkind : (Parameter.create mem i f.type).kind.childless = (Parameter.create mem i f.type).kind := by
    cases f <;> rfl
  simp only [Parameter.childless, hkind]

/-- A client that makes a copy of a new parameter shows all but what has changed. -/
private theorem shown_or_changed {mem : Memory} {label : Bytes} {named : Ref → Option Ref} (f : CreateFunction)
    (hlabel : label ≠ []) (o : OptionId) :
    let p : Parameter := { Parameter.create mem i f.type with
      label := { has := true, content := label, changed := label != [] }, parent := some g, parentChanged := true,
      managed := true }
    p.Matches named (.create {} 0 p.kind.type) o ∨ p.changed o = true ∧ True := by
  cases o with
  | label => exact Or.inr ⟨bne_iff_ne.mpr hlabel, trivial⟩
  | parentId => exact Or.inr ⟨rfl, trivial⟩
  | value =>
    refine Or.inl (show Kind.SameValue _ _ from ?_)
    cases f <;> first | exact .value .none | exact .bang | exact .group
  | description | tags | order | userid => exact Or.inl rfl
  | _ => exact Or.inl trivial

theorem childless_create_of_ne {mem : Memory} {f : CreateFunction} {label : Bytes}
    (hc : s.create mem f label g = some (r, t)) (hx : x ≠ r) : (t.heap x).childless = (s.heap x).childless := by
  obtain ⟨id, hid⟩ := exists_nextId hc
  rw [create, hid] at hc
  obtain ⟨rfl, rfl⟩ := Prod.mk.inj (Option.some.inj hc)
  unfold addParameterDirect
  dsimp only
  rw [childless_addChild hx, heap_setDirty, heap_set, if_neg hx]
  simp [modify, put, hx]

section Create

variable {mem : Memory} {f : CreateFunction} {label : Bytes} (hid : s.nextId = some i)
  (hc : s.create mem f label g = some (r, t))

include hid hc

theorem live_create (hx : t.Live x) : x = r ∨ x ≠ r ∧ s.Live x := by
  obtain ⟨rfl, hb⟩ := born_of_create hid hc
  by_cases hxr : x = s.next
  · exact Or.inl hxr
  · refine Or.inr ⟨hxr, ?_⟩
    rw [Live, hb.params, hb.idOf hxr, getElem?_insert_iff] at hx
    split at hx
    · exact absurd (Option.some.inj hx).symm hxr
    · exact hx

variable (hs : Additive s) (hfree : i ∉ s.removedParameter)

include hs hfree

theorem additive_create (hg : (s.heap g).isGroup = true) (hh : s.Held g) : Additive t := by
  have hrec := childless_create hid hc
  refine ⟨settled_create hs.toSettled hg hh hid hfree hc, fun {x} hx => ?_, fun {x} hx => ?_⟩
  · rcases live_create hid hc hx with rfl | ⟨hxr, hx⟩
    · refine ⟨f, ?_⟩
      have hkind := (congrArg (fun p => Kind.type (Parameter.kind p)) hrec :)
      rw [← Kind.type_childless]
      exact hkind.trans (by cases f <;> rfl)
    · obtain ⟨f', hf⟩ := hs.created hx
      exact ⟨f', (Parameter.type_of_childless (childless_create_of_ne hc hxr)).trans hf⟩
  · rcases live_create hid hc hx with rfl | ⟨hxr, hx⟩
    · refine uncleared_of_childless (p := (t.heap x).childless) ?_ ?_
      · rw [hrec]
        exact ⟨fun hc => absurd hc Bool.false_ne_true, fun hc => absurd hc Bool.false_ne_true,
          fun hc => absurd hc Bool.false_ne_true, fun hc => by cases f <;> exact absurd hc Bool.false_ne_true,
            fun _ => rfl, rfl⟩
      · exact (Parameter.childless_childless _).symm
    · exact uncleared_of_childless (hs.uncleared hx) (childless_create_of_ne hc hxr)

/-- A parameter that is created with a label, in a group that the client knows or hears of first. -/
theorem trailed_create (hh : s.Held g) (hlabel : label ≠ []) (hk : i ∉ k)
    (hfirst : g = root ∨ s.idOf g ∈ c.params ∨ s.idOf g < i) (h : Trailed s k s.dirtyRefs c) :
    Trailed t k t.dirtyRefs c := by
  obtain ⟨rfl, hb⟩ := born_of_create hid hc
  have hrec := childless_create hid hc
  have hnew : i ∉ c.params := fun hm => by
    rcases h.ids i hm with hm | hm
    · obtain ⟨x, hx⟩ := mem_iff_exists.mp hm
      exact hb.free (hs.taken hx)
    · exact hk hm
  have hids : ∀ {x : Ref}, s.Held x → t.idOf x = s.idOf x := fun hx => hb.idOf (Nat.ne_of_lt (hs.held_lt hs.base hx))
  have hdirty : s.next ∈ t.dirtyRefs := mem_dirtyRefs.mpr ⟨i, hb.marked hfree⟩
  have hmono : ∀ {y : Ref}, y ∈ s.dirtyRefs → y ∈ t.dirtyRefs := by
    intro y hy
    have hold := hs.mem_dirtyRefs.mp hy
    refine mem_dirtyRefs.mpr ⟨s.idOf y, ?_⟩
    rcases hb.dirty with hd | hd <;> rw [hd]
    · exact hold
    · rw [getElem?_insert_iff, if_neg, hold]
      intro heq
      exact hb.free (heq ▸ hs.taken (hs.dirtyLive hold))
  refine ⟨h.kempt, fun j hj => (h.ids j hj).imp_left fun hm => ?_, fun {y z v} hy hz hv => ?_, fun {y} hy => ?_⟩
  · rw [hb.params]
    exact Std.ExtTreeMap.mem_insert.mpr (Or.inr hm)
  · rcases live_create hid hc hy with rfl | ⟨hne, hy⟩
    · rw [hb.idOf_new] at hz
      exact absurd (mem_of_getElem? hz) hnew
    · rw [hids (Or.inr hy)] at hz
      rw [hb.params]
      exact Std.ExtTreeMap.mem_insert.mpr (Or.inr (h.above hy hz hv))
  · rcases live_create hid hc hy with rfl | ⟨hne, hy⟩
    · refine ⟨fun {x} hx => ?_, fun _ => ⟨hdirty, (hb.parentChanged _).mpr (Or.inl rfl), fun o => ?_⟩,
        fun {g'} hg hroot => ?_, fun {x} _ hx => ?_⟩
      · rw [hb.idOf_new] at hx
        exact absurd (mem_of_getElem? hx) hnew
      · have hm : (t.heap s.next).childless.Tracked True (t.heap s.next) :=
          Parameter.tracked_of_childless (Parameter.childless_childless _).symm
        refine (hm.matches (fun h : True => h) (o := o) ?_).imp_right And.left
        rw [hm.type, hrec]
        exact shown_or_changed f hlabel o
      · rw [hb.parent, if_pos rfl] at hg
        obtain rfl := Option.some.inj hg
        rw [hids hh, hb.idOf_new]
        exact (hfirst.resolve_left hroot).imp_right fun hlt => ⟨hdirty, (hb.parentChanged _).mpr (Or.inl rfl), hlt⟩
      · rw [hb.idOf_new] at hx
        exact absurd (mem_of_getElem? hx) hnew
    · exact (h.copies hy).congr (childless_create_of_ne hc hne) hmono fun g' hg' => hids (hs.held hy hg')

end Create

/-! ### Removed parameters -/

section Remove

variable (hs : Additive s) (hr : s.params[i]? = some r) (hleaf : s.IsLeaf r)

include hs hr hleaf

theorem live_removeParameter : (s.removeParameter i).Live x ↔ s.Live x ∧ x ≠ r := by
  have hst := sameTree_setParameterRemoved s r
  have hl := hs.live hr
  rw [removeParameter_of_leaf hs.toSettled hr hleaf, live_unlink_iff, hst.live, hst.idOf, hst.idOf]
  exact and_congr_right fun hx => not_congr ⟨fun hid => hl.eq_of_idOf hx hid, fun hxr => by rw [hxr]⟩

theorem idOf_removeParameter : (s.removeParameter i).idOf = s.idOf := by
  rw [removeParameter_of_leaf hs.toSettled hr hleaf]
  exact funext fun x => ((frame_unlink _ r).idOf x).trans ((sameTree_setParameterRemoved s r).idOf x)

private theorem childless_removeParameter (hx : x ≠ r) :
    ((s.removeParameter i).heap x).childless = (s.heap x).childless := by
  rw [removeParameter_of_leaf hs.toSettled hr hleaf]
  set u := s.setParameterRemoved r with hu
  have hparent : ((u.unlink r).heap x).parent = (u.heap x).parent := parent_unlink hx
  rw [(rehung_unlink u r x).childless, hparent, parentChanged_unlink hx]
  rfl

theorem additive_removeParameter : Additive (s.removeParameter i) :=
  additive_step hs (settled_removeParameter hs.toSettled hr hleaf)
    (fun hx => ((live_removeParameter hs hr hleaf).mp hx).1)
    fun hx => Or.inl (childless_removeParameter hs hr hleaf ((live_removeParameter hs hr hleaf).mp hx).2)

/-- A parameter is removed whose copy holds no copy of another parameter. -/
theorem trailed_removeParameter (hk : ∀ j : Id, j = i ∨ j ∈ k → j ∈ k')
    (hempty : ∀ {y x z : Ref}, s.Live y → y ≠ r → c.params[s.idOf y]? = some x → c.parent x = some z → c.idOf z ≠ i)
    (h : Trailed s k s.dirtyRefs c) : Trailed (s.removeParameter i) k' (s.removeParameter i).dirtyRefs c := by
  have hlive : ∀ {x : Ref}, _ ↔ _ := fun {x} => live_removeParameter (x := x) hs hr hleaf
  have hrec := fun {x} => childless_removeParameter (x := x) hs hr hleaf
  have hst := sameTree_setParameterRemoved s r
  have hparams : (s.removeParameter i).params = s.params.erase i := by
    rw [removeParameter_of_leaf hs.toSettled hr hleaf, params_unlink, hst.idOf, hs.idOf hr, hst.params]
  have hids := idOf_removeParameter hs hr hleaf
  have hmono : ∀ {y : Ref}, y ≠ r → y ∈ s.dirtyRefs → y ∈ (s.removeParameter i).dirtyRefs := by
    intro y hy hdirty
    have hold := hs.mem_dirtyRefs.mp hdirty
    have hne : s.idOf y ≠ s.idOf r := fun heq => hy ((hs.live hr).eq_of_idOf (hs.dirtyLive hold) heq)
    refine mem_dirtyRefs.mpr ⟨s.idOf y, ?_⟩
    rw [removeParameter_of_leaf hs.toSettled hr hleaf, dirty_unlink_of_removed]
    · exact getElem?_erase_iff.trans ((if_neg hne).trans hold)
    · rw [hst.idOf]
      exact Std.ExtTreeMap.mem_insert_self
  refine ⟨h.kempt, fun j hj => ?_, fun {y x z} hy hx hz => ?_, fun {y} hy => ?_⟩
  · rw [hparams, Std.ExtTreeMap.mem_erase]
    by_cases hji : j = i
    · exact Or.inr (hk j (Or.inl hji))
    · exact (h.ids j hj).imp (fun hm => ⟨by simpa using Ne.symm hji, hm⟩) fun hm => hk j (Or.inr hm)
  · obtain ⟨hy, hyr⟩ := hlive.mp hy
    rw [hids] at hx
    rw [hparams, Std.ExtTreeMap.mem_erase]
    exact ⟨by simpa using (hempty hy hyr hx hz).symm, h.above hy hx hz⟩
  · obtain ⟨hy, hyr⟩ := hlive.mp hy
    exact (h.copies hy).congr (hrec hyr) (hmono hyr) fun g _ => congrFun hids g

end Remove

end Store

/-! ### Changes that have been sent -/

namespace Server

open Store

variable {s : Server} {c : Store} {r : Ref}

section Update

variable (hs : Additive s.store) (ht : s.transporterList ≠ [])

include hs ht

private theorem heap_update (r : Ref) : s.update.2.store.heap r =
    if r ∈ s.store.dirtyRefs then ((s.store.heap r).write s.store.idOf false).2 else s.store.heap r := by
  rw [update, if_neg ht]
  dsimp only
  split
  · next hr => exact heap_writeDirty (nodup_dirtyRefs hs.keyed) hr
  · next hr => exact heap_writeDirty_of_notMem hr

private theorem observe_update (r : Ref) (o : OptionId) :
    (s.update.2.store.heap r).observe o = (s.store.heap r).observe o := by
  rw [heap_update hs ht]
  split
  · exact Parameter.observe_write _ o
  · rfl

private theorem type_update (r : Ref) : (s.update.2.store.heap r).kind.type = (s.store.heap r).kind.type := by
  rw [heap_update hs ht]
  split
  · exact Parameter.type_write _ _ _
  · rfl

theorem additive_update : Additive s.update.2.store := by
  have hst := sameTree_update s
  obtain ⟨hd, hr⟩ := lists_update ht
  refine ⟨hs.toSettled.congr hst (fun hx => ?_) fun hx => ?_, fun {r} hl => ?_, fun {r} hl => ?_⟩
  · rw [hd] at hx; simp at hx
  · rw [hr] at hx; simp at hx
  · obtain ⟨f, hf⟩ := hs.created (hst.live.mp hl)
    exact ⟨f, (type_update hs ht r).trans hf⟩
  · rw [heap_update hs ht]
    split
    · refine (hs.uncleared (hst.live.mp hl)).congr (fun o hc => ?_) (Parameter.observe_write _ _)
      rw [Parameter.changed_write_update] at hc
      exact absurd hc Bool.false_ne_true
    · exact hs.uncleared (hst.live.mp hl)

/-- Copies that show everything still do after the changes are no longer marked. -/
theorem trailed_update (h : Trailed s.store [] [] c) : Trailed s.update.2.store [] [] c := by
  have hst := sameTree_update s
  have hids : s.update.2.store.idOf = s.store.idOf := funext hst.idOf
  refine ⟨h.kempt, fun i hi => ?_, fun {r x y} hr hx hy => ?_, fun {r} hr => ?_⟩
  · rw [hst.params]
    exact h.ids i hi
  · rw [hids] at hx
    rw [hst.params]
    exact h.above (hst.live.mp hr) hx hy
  · have hold := h.copies (hst.live.mp hr)
    refine ⟨fun {x} hx => ?_, fun hnone => ?_, fun {g} hg hroot => ?_, fun {x} hg hx => ?_⟩
    · rw [hids] at hx
      have htrails := hold.known hx
      rw [hids]
      refine Parameter.trails_of_matches (fun o => ?_) (htrails.type.trans (type_update hs ht r).symm) _
      rcases htrails.option o with hm | ⟨-, hm⟩
      · exact hm.of_observe (type_update hs ht r) (observe_update hs ht r o)
      · exact absurd hm List.not_mem_nil
    · rw [hids] at hnone
      exact absurd (hold.fresh hnone).1 List.not_mem_nil
    · rw [hst.parent] at hg
      rw [hids]
      exact (hold.parent hg hroot).imp_right fun hm => absurd hm.1 List.not_mem_nil
    · rw [hst.parent] at hg
      rw [hids] at hx
      exact hold.top hg hx

end Update

end Server

end RabbitControl
