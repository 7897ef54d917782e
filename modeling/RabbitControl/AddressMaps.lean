import RabbitControl.OfxServer

/-!
# The address maps of the addon

`intact_iff` says in which runs of `expose` and `remove` the maps from addresses to ids stay valid: as long as no group
is removed while something that has been exposed below it is still in the maps.
-/

namespace RabbitControl

open Lib

namespace Store

variable {s t : Store} {r x y : Ref} {id : Id}

/-! ### Removal of a subtree -/

/-- A removal takes what lies below the parameter, if every parameter is newer than its parent. -/
theorem live_removeParameter_iff (hs : Paired s) (hb : Booked s)
    (hup : ∀ {x y : Ref}, s.Live x → s.parent x = some y → y < x) (hid : id ≠ 0) (hr : s.params[id]? = some r)
    (hx : s.Live x) : (s.removeParameter id).Live x ↔ ¬Below s.childRefs r x := by
  have hst := sameTree_setParameterRemoved s r
  have hlive : ∀ {x : Ref}, (s.setParameterRemoved r).Live x ↔ s.Live x := hst.live
  have hcard : (s.setParameterRemoved r).ids.card < s.next + 1 := Nat.lt_succ_of_le (card_ids_le (s := s) hb hs.built)
  have hrl : s.Live r := hs.live hr
  obtain ⟨hthin, hgone, hclosed⟩ :=
    removed_removeParameterDirect (s.next + 1) (hs.congr hst) (hlive.mpr hrl)
  have hrem : s.removeParameter id = (s.setParameterRemoved r).removeParameterDirect (s.next + 1) r := by
    rw [removeParameter, if_neg hid, hr]
  rw [hrem]
  constructor
  · intro ht hbelow
    revert ht
    induction hbelow with
    | refl => exact hgone (Nat.succ_pos _)
    | @tail p c hp hc ih =>
      -- a child whose group is gone is gone as well
      intro ht
      obtain ⟨i, hc⟩ := mem_childRefs_iff.mp hc
      have hpl : s.Live p := by
        rcases Relation.ReflTransGen.cases_tail hp with rfl | ⟨q, -, hq⟩
        · exact hrl
        · obtain ⟨j, hq⟩ := mem_childRefs_iff.mp hq
          exact hs.child_live hq
      refine ih hpl (hclosed hcard ht ?_ (hlive.mpr hpl))
      rw [hst.parent]
      exact (hs.child hc).2.1
  · intro hbelow
    by_contra ht
    apply hbelow
    -- up to the removed parameter
    induction x using Nat.strong_induction_on with
    | _ x ih =>
      rcases hthin.cascade (hlive.mpr hx) ht with rfl | ⟨y, hp, hy, hny⟩
      · exact .refl
      · rw [hst.parent] at hp
        have hyl := hlive.mp hy
        have hb := ih y (hup hx hp) hyl (fun h => hbelow (.tail h (mem_childRefs_iff.mpr ⟨_, hs.parent hx hp⟩))) hny
        exact .tail hb (mem_childRefs_iff.mpr ⟨_, hs.parent hx hp⟩)

/-- What is left by a removal keeps its place. -/
theorem thinned_removeParameter (hs : Paired s) (id : Id) :
    Paired (s.removeParameter id) ∧ (∀ x, (s.removeParameter id).idOf x = s.idOf x) ∧
      (∀ x, ((s.removeParameter id).heap x).getDatatype = (s.heap x).getDatatype) ∧
      (s.removeParameter id).next = s.next ∧
      ∀ {x}, (s.removeParameter id).Live x → s.Live x ∧ (s.removeParameter id).parent x = s.parent x := by
  unfold removeParameter
  split
  · exact ⟨hs, fun _ => rfl, fun _ => rfl, rfl, fun hx => ⟨hx, rfl⟩⟩
  split
  · exact ⟨hs, fun _ => rfl, fun _ => rfl, rfl, fun hx => ⟨hx, rfl⟩⟩
  · next r hr =>
    have hst := sameTree_setParameterRemoved s r
    have h := (removed_removeParameterDirect (s.next + 1) (hs.congr hst) (hst.live.mpr (hs.live hr))).thinned
    refine ⟨h.paired, fun x => (h.frame.idOf x).trans (hst.idOf x),
      fun x => (h.frame.datatype x).trans (hst.datatype x),
      h.frame.next.trans hst.next, fun hx => ⟨hst.live.mp (h.live hx), ?_⟩⟩
    rw [h.parent hx, hst.parent]

end Store

namespace OfxServer

open Store

variable {type : Nat → OfType} {s t u : OfxServer type} {a : Nat} {id : Id} {r x y g : Ref} {o : Origin}

/-! ### What holds in every run -/

/-- Parameters are newer than their parents, and they have the type that they were created for. -/
structure Sound (s : OfxServer type) : Prop where
  paired : Paired s.store
  booked : Booked s.store
  base : root < s.store.next
  upward : ∀ {x y : Ref}, s.store.Live x → s.store.parent x = some y → y < x
  built : ∀ {r : Ref} {o : Origin}, s.origin r = some o → r < s.store.next
  parameter : ∀ {r : Ref} {a : Nat}, s.origin r = some (.parameter a) →
    (s.store.heap r).getDatatype = (type a).valueType.datatype
  group : ∀ {r : Ref} {a : Nat}, s.origin r = some (.group a) → (s.store.heap r).isGroup = true

/-- Every entry of the maps names a parameter that the manager holds and that was created for the very address. -/
structure Valid (s : OfxServer type) : Prop where
  param : ∀ {a : Nat} {id : Id}, s.paramIdMap[a]? = some id →
    ∃ r, s.store.params[id]? = some r ∧ s.origin r = some (.parameter a)
  group : ∀ {a : Nat} {id : Id}, s.groupIdMap[a]? = some id →
    ∃ r, s.store.params[id]? = some r ∧ s.origin r = some (.group a)

/-- A later state that holds all that was held. -/
structure Extends (s t : OfxServer type) : Prop where
  next : s.store.next ≤ t.store.next
  params : ∀ {id : Id} {r : Ref}, s.store.params[id]? = some r → t.store.params[id]? = some r
  origin : ∀ {r : Ref}, r < s.store.next → t.origin r = s.origin r
  idOf : ∀ {r : Ref}, r < s.store.next → t.store.idOf r = s.store.idOf r
  isGroup : ∀ {r : Ref}, r < s.store.next → (t.store.heap r).isGroup = (s.store.heap r).isGroup

theorem Extends.refl (s : OfxServer type) : Extends s s :=
  ⟨le_rfl, fun h => h, fun _ => rfl, fun _ => rfl, fun _ => rfl⟩

theorem Extends.trans (h : Extends s t) (k : Extends t u) : Extends s u where
  next := h.next.trans k.next
  params hr := k.params (h.params hr)
  origin hr := (k.origin (Nat.lt_of_lt_of_le hr h.next)).trans (h.origin hr)
  idOf hr := (k.idOf (Nat.lt_of_lt_of_le hr h.next)).trans (h.idOf hr)
  isGroup hr := (k.isGroup (Nat.lt_of_lt_of_le hr h.next)).trans (h.isGroup hr)

/-- An entry of a map stays valid. -/
theorem Extends.entry (h : Extends s t) (hs : Sound s)
    (he : ∃ r, s.store.params[id]? = some r ∧ s.origin r = some o) :
    ∃ r, t.store.params[id]? = some r ∧ t.origin r = some o := by
  obtain ⟨r, hr, ho⟩ := he
  exact ⟨r, h.params hr, (h.origin (hs.built ho)).trans ho⟩

/-- An operation that keeps the tree of the store. -/
theorem Sound.congr (hs : Sound s) (h : SameTree s.store t.store) (hb : Booked t.store) (ho : t.origin = s.origin) :
    Sound t where
  paired := hs.paired.congr h
  booked := hb
  base := by rw [h.next]; exact hs.base
  upward hx hp := by
    rw [h.parent] at hp
    exact hs.upward (h.live.mp hx) hp
  built hr := by
    rw [ho] at hr
    rw [h.next]
    exact hs.built hr
  parameter hr := by
    rw [ho] at hr
    rw [h.datatype]
    exact hs.parameter hr
  group hr := by
    rw [ho] at hr
    rw [h.isGroup]
    exact hs.group hr

/-- The datatype tells the type of a value parameter, unless it is a range or a custom type. -/
theorem kind_of_parameterType {k : Kind} {τ : ValueType} (h : parameterType k.datatype = some (.value τ)) :
    ∃ d v, k = .value τ d v := by
  rcases k with ⟨σ, d, v⟩ | _ | _ | _
  · have hσ : parameterType σ.datatype = some (.value σ) ∨ parameterType σ.datatype = none := by
      cases σ with
      | number t => cases t <;> exact Or.inl rfl
      | range t => exact Or.inr rfl
      | custom n => exact Or.inr rfl
      | _ => exact Or.inl rfl
    have hk : parameterType σ.datatype = some (.value τ) := h
    rcases hσ with hσ | hσ
    · rw [hσ, Option.some.injEq, ParameterType.value.injEq] at hk
      subst hk
      exact ⟨d, v, rfl⟩
    · rw [hσ] at hk
      simp at hk
  · exact ParameterType.noConfusion (Option.some.inj (h : some ParameterType.bang = _))
  · exact ParameterType.noConfusion (Option.some.inj (h : some ParameterType.group = _))
  · exact absurd (h : none = some (ParameterType.value τ)).symm (Option.some_ne_none _)

/-- A cast succeeds on the type that a parameter was created for. -/
theorem getValueParameter_of_datatype {s : Store} {t : OfType} (hr : s.params[id]? = some r)
    (h : (s.heap r).getDatatype = t.valueType.datatype) : s.getValueParameter id t.valueType = some r := by
  have htype : parameterType t.valueType.datatype = some (.value t.valueType) := by cases t <;> rfl
  obtain ⟨d, v, hk⟩ := kind_of_parameterType (k := (s.heap r).kind) (τ := t.valueType) (by
    rw [← htype, ← h]
    rfl)
  rw [getValueParameter, hr]
  simp only [hk, if_true]

/-! ### Exposure -/

/-- A new parameter with what it was created for. -/
structure Created (s t : OfxServer type) (r : Ref) (o : Origin) : Prop where
  sound : Sound t
  extension : Extends s t
  held : t.store.params[t.store.idOf r]? = some r
  origin : t.origin r = some o
  built : r < t.store.next
  paramIdMap : t.paramIdMap = s.paramIdMap
  groupIdMap : t.groupIdMap = s.groupIdMap

/-- The parameter has the type of what it is created for. -/
def Fits (type : Nat → OfType) (f : CreateFunction) : Origin → Prop
  | .parameter a => f = (type a).createFunction
  | .group _ => f = .createGroupParameter

theorem created_create (hs : Sound s) {mem : Memory} {f : CreateFunction} {label : Bytes}
    (hg : (s.store.heap g).isGroup = true) (hgn : g < s.store.next) (hf : Fits type f o)
    (hc : s.create mem f label g o = some (r, t)) : Created s t r o := by
  obtain ⟨⟨r', st⟩, hst, heq⟩ := Option.map_eq_some_iff.mp hc
  obtain ⟨rfl, rfl⟩ := Prod.mk.inj heq
  obtain ⟨id, hid⟩ := exists_nextId hst
  have hkind := datatype_create hid hst
  have hpaired := paired_create hs.paired hg hgn hst
  have hbooked := (booked_create hs.booked hs.paired.built hst).1
  obtain ⟨rfl, hb⟩ := born_of_create hid hst
  have hne : ∀ {x}, x < s.store.next → x ≠ s.store.next := fun hx => Nat.ne_of_lt hx
  have hlive : ∀ {x}, st.Live x → x = s.store.next ∨ s.store.Live x ∧ x ≠ s.store.next := by
    intro x hx
    by_cases hxn : x = s.store.next
    · exact Or.inl hxn
    · rw [Live, hb.params, hb.idOf hxn, getElem?_insert_iff] at hx
      split at hx
      · exact Or.inl (Option.some.inj hx).symm
      · exact Or.inr ⟨hx, hxn⟩
  have horigin : ∀ {x o'}, (if x = s.store.next then some o else s.origin x) = some o' →
      x = s.store.next ∧ o = o' ∨ x ≠ s.store.next ∧ s.origin x = some o' := by
    intro x o' hx
    split at hx
    · next h => exact Or.inl ⟨h, Option.some.inj hx⟩
    · next h => exact Or.inr ⟨h, hx⟩
  refine ⟨⟨hpaired, hbooked, ?_, fun {x y} hx hp => ?_, fun {x o'} hx => ?_, fun {x a} hx => ?_, fun {x a} hx => ?_⟩,
    ⟨?_, fun {i x} hx => ?_, fun hx => if_neg (hne hx), fun hx => hb.idOf (hne hx), fun hx => hb.isGroup (hne hx)⟩, ?_,
    if_pos rfl, ?_, rfl, rfl⟩
  · exact hb.next ▸ Nat.lt_succ_of_lt hs.base
  · change st.parent x = some y at hp
    rw [hb.parent] at hp
    split at hp
    · next hxn => rw [← Option.some.inj hp, hxn]; exact hgn
    · next hxn => exact hs.upward ((hlive hx).resolve_left hxn).1 hp
  · show x < st.next
    rw [hb.next]
    rcases horigin hx with ⟨rfl, -⟩ | ⟨-, hx⟩
    · exact Nat.lt_succ_self _
    · exact Nat.lt_succ_of_lt (hs.built hx)
  · show (st.heap x).getDatatype = _
    rcases horigin hx with ⟨rfl, rfl⟩ | ⟨hxn, hx⟩
    · rw [hkind.1, show f = (type a).createFunction from hf]
      cases type a <;> rfl
    · rw [hkind.2 hxn]
      exact hs.parameter hx
  · show (st.heap x).isGroup = true
    rcases horigin hx with ⟨rfl, rfl⟩ | ⟨hxn, hx⟩
    · rw [Parameter.isGroup_eq, hkind.1, show f = .createGroupParameter from hf]
      rfl
    · rw [hb.isGroup hxn]
      exact hs.group hx
  · exact hb.next ▸ Nat.le_succ _
  · show st.params[i]? = some x
    rw [hb.params, getElem?_insert_iff, if_neg]
    · exact hx
    · exact fun h => hb.free (h ▸ hs.paired.taken hx)
  · show st.params[st.idOf s.store.next]? = some s.store.next
    rw [hb.idOf_new, hb.params, getElem?_insert_iff, if_pos rfl]
  · exact hb.next ▸ Nat.lt_succ_self _

/-- What `expose` makes of a server. -/
structure Exposes (s t : OfxServer type) : Prop where
  sound : Sound t
  extension : Extends s t
  valid : Valid s → Valid t

theorem Exposes.refl (hs : Sound s) : Exposes s s := ⟨hs, .refl s, id⟩

theorem Exposes.trans (h : Exposes s t) (k : Exposes t u) : Exposes s u :=
  ⟨k.sound, h.extension.trans k.extension, fun hv => k.valid (h.valid hv)⟩

/-- Creation alone leaves the maps as they are. -/
theorem Created.exposes (h : Created s t r o) (hs : Sound s) : Exposes s t where
  sound := h.sound
  extension := h.extension
  valid hv := by
    refine ⟨fun he => ?_, fun he => ?_⟩
    · rw [h.paramIdMap] at he
      exact h.extension.entry hs (hv.param he)
    · rw [h.groupIdMap] at he
      exact h.extension.entry hs (hv.group he)

/-- A row of setters. -/
private theorem sameTree_setters (as : List Setter) (r : Ref) (s : Store) :
    SameTree s (as.foldl (fun t a => t.set r a) s) ∧ (Booked s → Booked (as.foldl (fun t a => t.set r a) s)) := by
  induction as generalizing s with
  | nil => exact ⟨.refl s, id⟩
  | cons a as ih =>
    obtain ⟨h1, h2⟩ := ih (s.set r a)
    exact ⟨(sameTree_set s r a).trans h1, fun hb => h2 (booked_touched hb (touched_set s r a))⟩

/-- A state with the same tree, and one more entry for a parameter that was created for it. -/
private theorem exposes_congr (hs : Sound s) (h : SameTree s.store t.store) (hb : Booked t.store)
    (ho : t.origin = s.origin)
    (hp : ∀ {a : Nat} {id : Id}, t.paramIdMap[a]? = some id → s.paramIdMap[a]? = some id ∨
      ∃ r, s.store.params[id]? = some r ∧ s.origin r = some (.parameter a))
    (hg : ∀ {a : Nat} {id : Id}, t.groupIdMap[a]? = some id → s.groupIdMap[a]? = some id ∨
      ∃ r, s.store.params[id]? = some r ∧ s.origin r = some (.group a)) : Exposes s t where
  sound := hs.congr h hb ho
  extension := ⟨le_of_eq h.next.symm, fun hr => by rw [h.params]; exact hr, fun _ => by rw [ho], fun _ => h.idOf _,
    fun _ => h.isGroup _⟩
  valid hv := by
    refine ⟨fun he => ?_, fun he => ?_⟩ <;> rw [ho, h.params]
    · exact (hp he).elim hv.param id
    · exact (hg he).elim hv.group id

theorem exposes_exposeParameter (hs : Sound s) (mem : Memory) (p : OfParameter (type a))
    (hg : (s.store.heap g).isGroup = true) (hgn : g < s.store.next) :
    Exposes s (s.exposeParameter mem a p g).2 := by
  unfold exposeParameter
  split
  · exact .refl hs
  split
  · exact .refl hs
  · next r t hc =>
    have h := created_create (o := .parameter a) hs hg hgn rfl hc
    obtain ⟨htree, hbooked⟩ := sameTree_setters p.setters r t.store
    refine (h.exposes hs).trans (exposes_congr h.sound htree (hbooked h.sound.booked) rfl (fun {b id} he => ?_) Or.inl)
    change (t.paramIdMap.insert a _)[b]? = some id at he
    rw [getElem?_insert_iff, htree.idOf] at he
    split at he
    · next hb =>
      rw [hb, ← Option.some.inj he]
      exact Or.inr ⟨r, h.held, h.origin⟩
    · exact Or.inl he

mutual

/-- Over the items of nested groups. -/
theorem exposes_expose (mem : Memory) (item : OfItem type) {g : Ref} {s : OfxServer type} (hs : Sound s)
    (hg : (s.store.heap g).isGroup = true) (hgn : g < s.store.next) : Exposes s (s.expose mem item g).2 := by
  cases item with
  | parameter a p =>
    rw [expose]
    exact exposes_exposeParameter hs mem p hg hgn
  | unhandled =>
    rw [expose]
    exact .refl hs
  | group a name items =>
    rw [expose]
    split
    · exact .refl hs
    split
    · exact .refl hs
    · next gp t hc =>
      have h := created_create (o := .group a) hs hg hgn rfl hc
      have hall := exposes_exposeAll mem items h.sound (h.sound.group h.origin) h.built
      split
      · next u hu =>
        rw [hu] at hall
        refine (h.exposes hs).trans (hall.trans (exposes_congr hall.sound (.refl _) hall.sound.booked rfl Or.inl
          fun {b id} he => ?_))
        change (u.groupIdMap.insert a _)[b]? = some id at he
        rw [getElem?_insert_iff] at he
        split at he
        · next hb =>
          rw [hb, ← Option.some.inj he, hall.extension.idOf h.built]
          exact Or.inr ⟨gp, hall.extension.params h.held, (hall.extension.origin h.built).trans h.origin⟩
        · exact Or.inl he
      · next u hu =>
        rw [hu] at hall
        exact (h.exposes hs).trans hall

theorem exposes_exposeAll (mem : Memory) (items : List (OfItem type)) {g : Ref} {s : OfxServer type} (hs : Sound s)
    (hg : (s.store.heap g).isGroup = true) (hgn : g < s.store.next) : Exposes s (s.exposeAll mem items g).2 := by
  cases items with
  | nil =>
    rw [exposeAll]
    exact .refl hs
  | cons item items =>
    have h := exposes_expose mem item hs hg hgn
    rw [exposeAll]
    split
    · next u hu =>
      rw [hu] at h
      exact h
    · next q u hu =>
      rw [hu] at h
      refine h.trans (exposes_exposeAll mem items h.sound ?_ (Nat.lt_of_lt_of_le hgn h.extension.next))
      rw [h.extension.isGroup hgn]
      exact hg

end

/-! ### Removal -/

theorem sound_removed (hs : Sound s) {id : Id} (hst : t.store = s.store.removeParameter id) (ho : t.origin = s.origin) :
    Sound t := by
  obtain ⟨hpaired, -, hdatatype, hnext, hlive⟩ := thinned_removeParameter hs.paired id
  rw [← hst] at hpaired hdatatype hnext hlive
  refine ⟨hpaired, ?_, ?_, fun hx hp => ?_, fun hx => ?_, fun hx => ?_, fun hx => ?_⟩
  · rw [hst]
    exact (serverKept_booked.removeParameter id ⟨hs.booked, hs.paired.built⟩).1
  · rw [hnext]; exact hs.base
  · obtain ⟨hl, hpar⟩ := hlive hx
    exact hs.upward hl (hpar.symm.trans hp)
  · rw [ho] at hx
    rw [hnext]
    exact hs.built hx
  · rw [ho] at hx
    rw [hdatatype]
    exact hs.parameter hx
  · rw [ho] at hx
    rw [Parameter.isGroup_eq, hdatatype, ← Parameter.isGroup_eq]
    exact hs.group hx

/-- The parameter that an entry names is left by a removal exactly if it does not lie below the removed one. -/
theorem entry_removed_iff (hs : Sound s) {i : Id} (hi : i ≠ 0) (hg : s.store.params[i]? = some g)
    (hst : t.store = s.store.removeParameter i) (ho : t.origin = s.origin) (hr : s.store.params[id]? = some r)
    (hor : s.origin r = some o) :
    (∃ r, t.store.params[id]? = some r ∧ t.origin r = some o) ↔ ¬Below s.store.childRefs g r := by
  have hl : s.store.Live r := hs.paired.live hr
  obtain ⟨-, hidOf, -, -, hlive⟩ := thinned_removeParameter hs.paired i
  have hiff := live_removeParameter_iff hs.paired hs.booked hs.upward hi hg hl
  rw [← hst] at hidOf hlive hiff
  rw [← hiff]
  constructor
  · rintro ⟨x, hx, -⟩
    have hxl : t.store.Live x := (sound_removed hs hst ho).paired.live hx
    obtain ⟨hxs, -⟩ := hlive hxl
    have hid : s.store.idOf x = s.store.idOf r := by
      rw [hs.paired.idOf hr, ← hidOf, (sound_removed hs hst ho).paired.idOf hx]
    rwa [hl.eq_of_idOf hxs hid] at hxl
  · intro hrl
    rw [Live, hidOf, hs.paired.idOf hr] at hrl
    exact ⟨r, hrl, by rw [ho, hor]⟩

/-- Nothing lies below a value parameter. -/
theorem eq_of_below_parameter (hs : Sound s) (hr : s.origin r = some (.parameter a))
    (hb : Below s.store.childRefs r x) :
    x = r := by
  rcases Relation.ReflTransGen.cases_head hb with rfl | ⟨c, hc, -⟩
  · rfl
  · obtain ⟨i, hc⟩ := mem_childRefs_iff.mp hc
    have hgroup := isGroup_of_mem_children (mem_of_getElem? hc)
    rw [Parameter.isGroup_eq, hs.parameter hr] at hgroup
    exact absurd hgroup (by cases type a <;> decide)

/-- Something below the parameter `g` is in one of the maps. -/
def NamesBelow (s : OfxServer type) (g : Ref) : Prop :=
  ∃ x, x ≠ g ∧ Below s.store.childRefs g x ∧
    ((∃ a : Nat, s.paramIdMap[a]? = some (s.store.idOf x)) ∨ ∃ a : Nat, s.groupIdMap[a]? = some (s.store.idOf x))

/-- A group is removed only after all that has been exposed below it. -/
def RemovesEmptied (s : OfxServer type) : OfxOp type → Prop
  | .removeGroup a => ∀ (id : Id) (g : Ref), s.groupIdMap[a]? = some id → s.store.params[id]? = some g → ¬s.NamesBelow g
  | _ => True

theorem valid_removeParameter (hs : Sound s) (hv : Valid s) (a : Nat) : Valid (s.removeParameter a) := by
  unfold removeParameter
  dsimp only
  split
  · exact hv
  next hne =>
  obtain ⟨i, hi⟩ : ∃ i, s.paramIdMap[a]? = some i := by
    cases h : s.paramIdMap[a]? with
    | none => exact absurd (by rw [findParam, h]; rfl) hne
    | some i => exact ⟨i, rfl⟩
  have hfind : s.findParam a = i := by rw [findParam, hi]; rfl
  rw [hfind] at hne ⊢
  obtain ⟨g, hg, hga⟩ := hv.param hi
  set t : OfxServer type :=
    { s with server := s.server.mapStore (·.removeParameter i), paramIdMap := s.paramIdMap.erase a } with ht
  have hiff : ∀ {id : Id} {r : Ref} {o : Origin}, s.store.params[id]? = some r → s.origin r = some o →
      ((∃ r, t.store.params[id]? = some r ∧ t.origin r = some o) ↔ ¬Below s.store.childRefs g r) :=
    fun hr hor => entry_removed_iff hs hne hg rfl rfl hr hor
  refine ⟨fun {b id} he => ?_, fun {b id} he => ?_⟩
  · change (s.paramIdMap.erase a)[b]? = some id at he
    rw [getElem?_erase_iff] at he
    split at he
    · simp at he
    · next hb =>
      obtain ⟨r, hr, hor⟩ := hv.param he
      refine (hiff hr hor).mpr fun hbelow => hb ?_
      rw [eq_of_below_parameter hs hga hbelow, hga] at hor
      exact (Origin.parameter.inj (Option.some.inj hor)).symm
  · obtain ⟨r, hr, hor⟩ := hv.group he
    refine (hiff hr hor).mpr fun hbelow => ?_
    rw [eq_of_below_parameter hs hga hbelow, hga] at hor
    exact Origin.noConfusion (Option.some.inj hor)

/-- The maps stay valid exactly if the group is removed after all that has been exposed below it. -/
theorem valid_removeGroup_iff (hs : Sound s) (hv : Valid s) (a : Nat) :
    Valid (s.removeGroup a) ↔ RemovesEmptied s (.removeGroup a) := by
  unfold removeGroup
  split
  case h_2 hnone =>
    refine iff_of_true hv fun id g hid => ?_
    rw [hnone] at hid
    simp at hid
  next i hi =>
  obtain ⟨g, hg, hga⟩ := hv.group hi
  have hne : i ≠ 0 := by
    have h := hs.paired.valid hg
    rw [Parameter.isValid, Bool.and_eq_true, bne_iff_ne, bne_iff_ne] at h
    rw [← hs.paired.idOf hg]
    exact h.2
  set t : OfxServer type :=
    { s with server := s.server.mapStore (·.removeParameter i), groupIdMap := s.groupIdMap.erase a } with ht
  have hiff : ∀ {id : Id} {r : Ref} {o : Origin}, s.store.params[id]? = some r → s.origin r = some o →
      ((∃ r, t.store.params[id]? = some r ∧ t.origin r = some o) ↔ ¬Below s.store.childRefs g r) :=
    fun hr hor => entry_removed_iff hs hne hg rfl rfl hr hor
  constructor
  · rintro hvt id g' hid hg' ⟨x, hxg, hbelow, hnamed⟩
    obtain rfl := Option.some.inj (hi.symm.trans hid)
    obtain rfl := Option.some.inj (hg.symm.trans hg')
    have hxl : s.store.params[s.store.idOf x]? = some x := by
      rcases Relation.ReflTransGen.cases_tail hbelow with rfl | ⟨q, -, hq⟩
      · exact absurd rfl hxg
      · obtain ⟨j, hq⟩ := mem_childRefs_iff.mp hq
        exact hs.paired.child_live hq
    rcases hnamed with ⟨b, hb⟩ | ⟨b, hb⟩
    · obtain ⟨r, hr, hor⟩ := hv.param hb
      obtain rfl := Option.some.inj (hxl.symm.trans hr)
      exact (hiff hr hor).mp (hvt.param hb) hbelow
    · obtain ⟨r, hr, hor⟩ := hv.group hb
      obtain rfl := Option.some.inj (hxl.symm.trans hr)
      refine (hiff hr hor).mp (hvt.group ?_) hbelow
      show (s.groupIdMap.erase a)[b]? = some (s.store.idOf x)
      rw [getElem?_erase_iff, if_neg, hb]
      rintro rfl
      have hix : i = s.store.idOf x := Option.some.inj (hi.symm.trans hb)
      rw [← hix, hg] at hr
      exact hxg (Option.some.inj hr).symm
  · intro hk
    have hno := hk i g hi hg
    refine ⟨fun {b id} he => ?_, fun {b id} he => ?_⟩
    · obtain ⟨r, hr, hor⟩ := hv.param he
      refine (hiff hr hor).mpr fun hbelow => hno ⟨r, ?_, hbelow, Or.inl ⟨b, ?_⟩⟩
      · rintro rfl
        rw [hga] at hor
        exact Origin.noConfusion (Option.some.inj hor)
      · rw [hs.paired.idOf hr]
        exact he
    · change (s.groupIdMap.erase a)[b]? = some id at he
      rw [getElem?_erase_iff] at he
      split at he
      · simp at he
      · next hb =>
        obtain ⟨r, hr, hor⟩ := hv.group he
        refine (hiff hr hor).mpr fun hbelow => hno ⟨r, ?_, hbelow, Or.inr ⟨b, ?_⟩⟩
        · rintro rfl
          rw [hga] at hor
          exact hb (Origin.group.inj (Option.some.inj hor)).symm
        · rw [hs.paired.idOf hr]
          exact he

/-! ### Runs -/

/-- A change of a value keeps the tree. -/
theorem exposes_paramChanged (hs : Sound s) (a : Nat) (v : (type a).valueType.Val) :
    Exposes s (s.paramChanged a v) := by
  unfold paramChanged
  dsimp only
  split
  · exact .refl hs
  split
  · next r _ =>
    have hset := sameTree_set s.store r (.setValue v)
    have hbooked := booked_touched hs.booked (touched_set s.store r (.setValue v))
    have htree := hset.trans (Server.sameTree_update (s.server.mapStore (·.set r (.setValue v))))
    refine exposes_congr hs htree ?_ rfl Or.inl Or.inl
    exact (serverKept_booked.update (s := s.server.mapStore (·.set r (.setValue v)))
      ⟨hbooked, (hs.paired.congr hset).built⟩).1
  · exact .refl hs

/-- New parameters are created in groups. -/
def InScope (s : OfxServer type) : OfxOp type → Prop
  | .expose _ _ group => (s.store.heap group).isGroup = true ∧ group < s.store.next
  | _ => True

theorem sound_operate (hs : Sound s) (op : OfxOp type) (hop : s.InScope op) : Sound (s.operate op) := by
  cases op with
  | expose mem item g => exact (exposes_expose mem item hs hop.1 hop.2).sound
  | removeParameter a =>
    show Sound (s.removeParameter a)
    unfold removeParameter
    dsimp only
    split
    · exact hs
    · exact sound_removed hs rfl rfl
  | removeGroup a =>
    show Sound (s.removeGroup a)
    unfold removeGroup
    split
    · exact sound_removed hs rfl rfl
    · exact hs
  | paramChanged a v => exact (exposes_paramChanged hs a v).sound

theorem valid_operate_iff (hs : Sound s) (hv : Valid s) (op : OfxOp type) (hop : s.InScope op) :
    Valid (s.operate op) ↔ s.RemovesEmptied op := by
  cases op with
  | expose mem item g => exact iff_of_true ((exposes_expose mem item hs hop.1 hop.2).valid hv) trivial
  | removeParameter a => exact iff_of_true (valid_removeParameter hs hv a) trivial
  | removeGroup a => exact valid_removeGroup_iff hs hv a
  | paramChanged a v => exact iff_of_true ((exposes_paramChanged hs a v).valid hv) trivial

/-- The maps are valid; so a changed value reaches its own parameter only, and what is exposed again is found. -/
structure Intact (s : OfxServer type) : Prop extends Valid s where
  changed : ∀ (a : Nat) (v : (type a).valueType.Val) (r : Ref),
    ((s.paramChanged a v).store.heap r).observe .value ≠ (s.store.heap r).observe .value →
      s.origin r = some (.parameter a)
  again : ∀ (mem : Memory) (a : Nat) (p : OfParameter (type a)) (g : Ref), a ∈ s.paramIdMap →
    (s.expose mem (.parameter a p) g).1 ≠ .pointer none
  againGroup : ∀ (mem : Memory) (a : Nat) (name : Bytes) (items : List (OfItem type)) (g : Ref), a ∈ s.groupIdMap →
    (s.expose mem (.group a name items) g).1 ≠ .pointer none

/-- What `update()` writes it does not change. -/
private theorem observe_update (s : Server) (r : Ref) (o : OptionId) :
    (s.update.2.store.heap r).observe o = (s.store.heap r).observe o := by
  have hwrite : ∀ (l : List Ref) (t : Store), ((writeDirty l t).2.heap r).observe o = (t.heap r).observe o := by
    intro l
    induction l with
    | nil => exact fun _ => rfl
    | cons x l ih =>
      intro t
      refine (ih _).trans ?_
      by_cases hx : r = x <;> simp [put, hx]
  unfold Server.update
  split
  · rfl
  · exact hwrite _ s.store

theorem Valid.intact (hs : Sound s) (hv : Valid s) : Intact s := by
  -- the entry of a value leads to its parameter
  have hentry : ∀ {a : Nat} {id : Id}, s.paramIdMap[a]? = some id →
      ∃ r, s.store.getValueParameter id (type a).valueType = some r ∧ s.origin r = some (.parameter a) := by
    intro a id he
    obtain ⟨r, hr, hor⟩ := hv.param he
    exact ⟨r, getValueParameter_of_datatype hr (hs.parameter hor), hor⟩
  refine ⟨hv, fun a v r hr => ?_, fun mem a p g ha => ?_, fun mem a name items g ha => ?_⟩
  · unfold paramChanged at hr
    dsimp only at hr
    split at hr
    · exact absurd rfl hr
    next hne =>
    cases he : s.paramIdMap[a]? with
    | none => exact absurd (by rw [findParam, he]; rfl) hne
    | some id =>
      obtain ⟨x, hx, hox⟩ := hentry he
      have hfind : s.findParam a = id := by rw [findParam, he]; rfl
      rw [hfind, hx] at hr
      change ((Server.update _).2.store.heap r).observe .value ≠ _ at hr
      rw [observe_update] at hr
      change ((s.store.set x (.setValue v)).heap r).observe .value ≠ _ at hr
      rw [heap_set] at hr
      split at hr
      · next hrx => rw [hrx]; exact hox
      · exact absurd rfl hr
  · obtain ⟨id, he⟩ := mem_iff_exists.mp ha
    obtain ⟨x, hx, -⟩ := hentry he
    rw [expose, exposeParameter, he]
    dsimp only
    rw [hx]
    simp
  · obtain ⟨id, he⟩ := mem_iff_exists.mp ha
    obtain ⟨r, hr, hor⟩ := hv.group he
    rw [expose, he]
    simp [getGroupParameter, hr, hs.group hor]

def start (type : Nat → OfType) (mem : Memory) (ts : List Nat) : OfxServer type := { server := Server.start mem ts }

theorem sound_start (type : Nat → OfType) (mem : Memory) (ts : List Nat) :
    Sound (start type mem ts) ∧ Valid (start type mem ts) := by
  have ht := tied_new mem
  have hstore : (start type mem ts).store = (Server.new mem).store := Server.store_start mem ts
  refine ⟨⟨?_, ?_, ?_, fun {x y} hx hp => ?_, fun h => ?_, fun h => ?_, fun h => ?_⟩, fun h => ?_, fun h => ?_⟩
  · rw [hstore]; exact ht.toPaired
  · rw [hstore]; exact ht.booked
  · rw [hstore]; exact ht.base
  · rw [hstore] at hx
    rw [Live] at hx
    simp [Server.new, Store.empty] at hx
  · simp [start] at h
  · simp [start] at h
  · simp [start] at h
  · simp [start] at h
  · simp [start] at h

/-- The maps are intact in every state of a run if and only if every group is removed after all that has been exposed
below it. -/
theorem intact_iff (type : Nat → OfType) (mem : Memory) (ts : List Nat) {ops : List (OfxOp type)}
    (h : Along operate InScope (start type mem ts) ops) :
    Along operate (fun s op => (s.operate op).Intact) (start type mem ts) ops ↔
      Along operate RemovesEmptied (start type mem ts) ops := by
  have key : ∀ (ops : List (OfxOp type)) (s : OfxServer type), Sound s → Valid s → Along operate InScope s ops →
      (Along operate (fun s op => (s.operate op).Intact) s ops ↔ Along operate RemovesEmptied s ops) := by
    intro ops
    induction ops with
    | nil => exact fun _ _ _ _ => Iff.rfl
    | cons op ops ih =>
      intro s hs hv hscope
      have hsound := sound_operate hs op hscope.1
      have hvalid := valid_operate_iff hs hv op hscope.1
      constructor
      · rintro ⟨hi, hrest⟩
        exact ⟨hvalid.mp hi.toValid, (ih _ hsound hi.toValid hscope.2).mp hrest⟩
      · rintro ⟨hr, hrest⟩
        have hvt := hvalid.mpr hr
        exact ⟨hvt.intact hsound, (ih _ hsound hvt hscope.2).mpr hrest⟩
  obtain ⟨hs, hv⟩ := sound_start type mem ts
  exact key ops _ hs hv h

/-- An integer value. -/
def number (name : Bytes) : OfParameter .int := ⟨name, 0, 10, 5⟩

/-- A group with a value and an empty group is exposed, and everything is removed from below. -/
def removedFromBelow : List (OfxOp fun _ => .int) :=
  [.expose {} (.group 100 [103] [.parameter 1 (number [97]), .group 101 [104] []]) root, .removeParameter 1,
    .removeGroup 101, .removeGroup 100, .expose {} (.parameter 1 (number [97])) root]

private theorem inScope_removedFromBelow :
    Along operate InScope (start (fun _ => .int) {} []) removedFromBelow := by
  refine ⟨⟨?_, ?_⟩, trivial, trivial, trivial, ⟨?_, ?_⟩, trivial⟩ <;> decide

theorem intact_removedFromBelow :
    Along operate (fun s op => (s.operate op).Intact) (start (fun _ => .int) {} []) removedFromBelow ↔
      Along operate RemovesEmptied (start (fun _ => .int) {} []) removedFromBelow :=
  intact_iff (fun _ => .int) {} [] inScope_removedFromBelow

/-- A group with a value is exposed and removed, and two other values are exposed. -/
def removedFromAbove : List (OfxOp fun _ => .int) :=
  [.expose {} (.group 100 [103] [.parameter 1 (number [97])]) root, .removeGroup 100,
    .expose {} (.parameter 2 (number [98])) root, .expose {} (.parameter 3 (number [99])) root]

/-- The value that went with its group is still in the map, and leads to another value's parameter in the end. -/
theorem removedFromAbove_not_intact :
    ¬Along operate (fun s op => (s.operate op).Intact) (start (fun _ => .int) {} []) removedFromAbove ∧
      (run operate (start (fun _ => .int) {} []) removedFromAbove).store.getValueParameter
          ((run operate (start (fun _ => .int) {} []) removedFromAbove).findParam 1) (.number .int32) = some 4 ∧
      (run operate (start (fun _ => .int) {} []) removedFromAbove).origin 4 = some (.parameter 3) := by
  refine ⟨?_, by decide, by decide⟩
  rintro ⟨-, h, -⟩
  obtain ⟨r, hr, -⟩ := @Valid.param _ _ h.toValid 1 2 (by decide)
  exact absurd ((by decide : none = _).trans hr) (by simp)

end OfxServer

end RabbitControl
