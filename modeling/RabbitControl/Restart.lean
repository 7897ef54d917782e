import RabbitControl.Bookkeeping

/-!
# Starting over

`clear()` empties the manager, but not the children of the root group.  `startsOver_iff` says that a server that is
cleared and then exposes new parameters presents exactly these to a client that joins, if and only if the root group
had no children when it was cleared.
-/

namespace RabbitControl

open Lib

namespace Store

variable {s t : Store} {r g x c : Ref} {id : Id} {b : Ref}

/-! ### References that have been given out -/

/-- Every parameter that is found in the store has been built. -/
structure Built (s : Store) : Prop where
  base : root < s.next
  rootGroup : (s.heap root).isGroup = true
  allocated : s.Allocated
  parent : ∀ {r g : Ref}, s.parent r = some g → g < s.next
  child : ∀ {g : Ref} {id : Id} {c : Ref}, (s.children g)[id]? = some c → g < s.next ∧ c < s.next

/-- Handles of an application are references to built parameters. -/
def builtHandle (s : Store) (r : Ref) : Prop := r < s.next

/-- The children after a new parameter has been created are the old ones, and the new one in its group. -/
theorem child_create {mem : Memory} {f : CreateFunction} {label : Bytes} {i : Id}
    (hc : s.create mem f label g = some (r, t)) (hx : (t.children x)[i]? = some c) :
    x ≠ r ∧ (s.children x)[i]? = some c ∨ x = g ∧ c = r ∧ i = t.idOf r := by
  obtain ⟨id, hid⟩ := exists_nextId hc
  rw [create, hid] at hc
  obtain ⟨rfl, rfl⟩ := Prod.mk.inj (Option.some.inj hc)
  unfold addParameterDirect at hx ⊢
  dsimp only at hx ⊢
  rw [modify_put] at hx ⊢
  set p : Parameter := { Parameter.create mem id f.type with managed := true } with hp
  set u := ({ s with ids := insert id s.ids, next := s.next + 1 } : Store).put s.next p with hu
  set v := (u.set s.next (.label (.set label))).setDirty s.next with hv
  have hvu : ∀ y, v.children y = u.children y := by
    intro y
    rw [hv, Store.children, heap_setDirty]
    exact children_set u s.next (.label (.set label)) y
  rcases child_of_addChild (s := v) hx with h | ⟨rfl, hi, rfl⟩
  · rw [hvu] at h
    by_cases hxn : x = s.next
    · have hnone : u.children s.next = ∅ := by
        rw [hu, Store.children, put]
        dsimp only
        rw [if_pos rfl, hp]
        cases f <;> rfl
      rw [hxn, hnone] at h
      simp at h
    · refine Or.inl ⟨hxn, ?_⟩
      simpa [hu, Store.children, put, hxn] using h
  · refine Or.inr ⟨rfl, rfl, ?_⟩
    rw [hi]
    exact ((touched_addChild v x s.next).frame.idOf s.next).symm

theorem parent_addChild {y : Ref} (hy : (s.addChild g x).parent y = some r) : r = g ∨ s.parent y = some r := by
  by_cases h : ∃ p, s.parent x = some p ∧ s.idOf g = s.idOf p
  · obtain ⟨p, hp, hid⟩ := h
    rw [addChild_of_same hp hid, parent_enterChild] at hy
    exact Or.inr hy
  · rw [(moved_addChild fun p hp hid => h ⟨p, hp, hid⟩).parent] at hy
    split at hy
    · exact Or.inl (Option.some.inj hy).symm
    · exact Or.inr hy

theorem parent_of_unlink {y : Ref} (hy : (s.unlink x).parent y = some r) : s.parent y = some r := by
  change (leaveParent x { s with ids := s.ids.erase (s.idOf x) }).parent y = some r at hy
  unfold leaveParent at hy
  split at hy
  · rw [parent_removeChild] at hy
    split at hy
    · simp at hy
    · exact hy
  · exact hy

/-- An operation that adds no parameter. -/
private theorem Built.congr (hs : Built s) (hf : Frame s t)
    (hp : ∀ {id : Id} {x : Ref}, t.params[id]? = some x → s.params[id]? = some x)
    (hpar : ∀ {r g : Ref}, t.parent r = some g → g < s.next)
    (hch : ∀ {g : Ref} {id : Id} {c : Ref}, (t.children g)[id]? = some c → g < s.next ∧ c < s.next) :
    Built t := by
  refine ⟨?_, ?_, fun hx => ?_, fun h => ?_, fun h => ?_⟩
  · rw [hf.next]; exact hs.base
  · rw [hf.isGroup]; exact hs.rootGroup
  · rw [hf.next]; exact hs.allocated (hp hx)
  · rw [hf.next]; exact hpar h
  · rw [hf.next]; exact hch h

theorem built_new (mem : Memory) : Built (Server.new mem).store := by
  have hchild : ∀ g, (Server.new mem).store.children g = ∅ := children_set (empty mem) root (.label (.set rootLabel))
  refine ⟨?_, ?_, (linked_new mem).built, fun {r g} h => ?_, fun {g id c} h => ?_⟩
  · rw [next_new]
    exact Nat.one_pos
  · exact (frame_set (empty mem) root (.label (.set rootLabel))).isGroup root
  · have hp : (Server.new mem).store.parent r = none := parent_set (empty mem) root (.label (.set rootLabel)) r
    rw [hp] at h
    simp at h
  · rw [hchild] at h
    simp at h

theorem built_create (hs : Built s) (hg : g < s.next) {mem : Memory} {f : CreateFunction} {label : Bytes}
    (hc : s.create mem f label g = some (r, t)) : Built t := by
  obtain ⟨id, hid⟩ := exists_nextId hc
  have hchild := fun {x : Ref} {i : Id} {c : Ref} => child_create (x := x) (i := i) (c := c) hc
  obtain ⟨rfl, hb⟩ := born_of_create hid hc
  refine ⟨?_, ?_, fun hx => ?_, fun h => ?_, fun h => ?_⟩
  · rw [hb.next]
    exact Nat.lt_succ_of_lt hs.base
  · rw [hb.isGroup (Nat.ne_of_lt hs.base)]
    exact hs.rootGroup
  · rw [hb.params, getElem?_insert_iff] at hx
    rw [hb.next]
    split at hx
    · rw [← Option.some.inj hx]; exact Nat.lt_succ_self _
    · exact Nat.lt_succ_of_lt (hs.allocated hx)
  · rw [hb.parent] at h
    rw [hb.next]
    split at h
    · rw [← Option.some.inj h]; exact Nat.lt_succ_of_lt hg
    · exact Nat.lt_succ_of_lt (hs.parent h)
  · rw [hb.next]
    rcases hchild h with ⟨-, h⟩ | ⟨rfl, rfl, -⟩
    · exact (hs.child h).imp Nat.lt_succ_of_lt Nat.lt_succ_of_lt
    · exact ⟨Nat.lt_succ_of_lt hg, Nat.lt_succ_self _⟩

theorem built_parse (hs : Built s) (ch : Chance) (data : Bytes) : Built (s.parse ch data).state := by
  rcases (parse_cases hs.allocated ch data).2 with ⟨h, -⟩ | ⟨k, time, p, q, -, -, -, h⟩
  · rw [h]; exact hs
  obtain ⟨b, hb⟩ := h.proxy
  have hne : root ≠ s.next := Nat.ne_of_lt hs.base
  refine ⟨?_, ?_, fun hx => ?_, fun {x g} hg => ?_, fun {g i c} hc => ?_⟩
  · rw [h.next]; exact Nat.lt_succ_of_lt hs.base
  · rw [h.heap root hne]
    split
    · rw [Parameter.isGroup_modifyChildren]; exact hs.rootGroup
    · exact hs.rootGroup
  · rw [h.params] at hx
    rw [h.next]
    exact Nat.lt_succ_of_lt (hs.allocated hx)
  · rw [h.next]
    refine Nat.lt_succ_of_lt ?_
    by_cases hx : x = s.next
    · rw [hx, Store.parent, hb] at hg
      exact (h.parent g hg).lt hs.allocated
    · have hpar : (s.parse ch data).state.parent x = s.parent x := by
        rw [Store.parent, h.heap x hx]
        split
        · unfold Parameter.modifyChildren
          split <;> rfl
        · rfl
      rw [hpar] at hg
      exact hs.parent hg
  · rw [h.next]
    suffices h : g < s.next ∧ c < s.next from h.imp Nat.lt_succ_of_lt Nat.lt_succ_of_lt
    by_cases hg : g = s.next
    · have hnone : (s.parse ch data).state.children s.next = ∅ := by
        rw [Store.children, hb]
        exact h.childless
      rw [hg, hnone] at hc
      simp at hc
    · rw [Store.children, h.heap g hg] at hc
      split at hc
      · rw [Parameter.children_modifyChildren_erase, getElem?_erase_iff] at hc
        split at hc
        · simp at hc
        · exact hs.child hc
      · exact hs.child hc

theorem serverKept_built : ServerKept builtHandle Built := by
  refine ⟨⟨fun {s t x} hf => ?_, fun hs hr => hs.allocated hr, fun hs hp => hs.parent hp, fun hs hc => (hs.child hc).2,
    fun {s r} a hs _ => ?_, fun {s g r} hs hg hr => ?_, fun {s g r} hs _ _ => ?_, fun {s r} hs _ => ?_,
    fun {s} r all hs => ?_, fun hs => ?_, fun hs => ?_, fun ch data hs => built_parse hs ch data⟩,
    fun hs hg hc => built_create hs hg hc, fun hs _ => ?_, fun hs => ?_⟩
  · rw [builtHandle, builtHandle, hf.next]
  · refine hs.congr (frame_set s r a) (fun h => by rwa [params_set] at h) (fun h => ?_) fun h => ?_
    · rw [parent_set] at h; exact hs.parent h
    · rw [children_set] at h; exact hs.child h
  · refine hs.congr (touched_addChild s g r).frame (fun h => by rwa [params_addChild] at h) (fun h => ?_) fun h => ?_
    · rcases parent_addChild h with rfl | h
      · exact hg
      · exact hs.parent h
    · rcases child_of_addChild h with h | ⟨rfl, -, rfl⟩
      · exact hs.child h
      · exact ⟨hg, hr⟩
  · refine hs.congr (frame_removeChild s g r) (fun h => by rwa [params_removeChild] at h) (fun h => ?_) fun {x i c} h => ?_
    · rw [parent_removeChild] at h
      split at h
      · simp at h
      · exact hs.parent h
    · rw [children_removeChild] at h
      split at h
      · next hx =>
        rw [getElem?_erase_iff] at h
        split at h
        · simp at h
        · exact hx ▸ hs.child h
      · exact hs.child h
  · refine hs.congr (frame_unlink s r) (fun h => ?_) (fun {x g} h => ?_) fun {g i c} h => ?_
    · rw [getElem?_params_unlink] at h
      split at h
      · simp at h
      · exact h
    · exact hs.parent (parent_of_unlink h)
    · rw [children_unlink] at h
      split at h
      · rw [getElem?_erase_iff] at h
        split at h
        · simp at h
        · exact hs.child h
      · exact hs.child h
  · have hf := sameTree_put_write s r s.idOf all
    refine ⟨hs.base, ?_, hs.allocated, fun h => ?_, fun h => ?_⟩
    · rw [hf.isGroup]; exact hs.rootGroup
    · rw [hf.parent] at h; exact hs.parent h
    · rw [hf.children] at h; exact hs.child h
  · exact ⟨hs.base, hs.rootGroup, hs.allocated, hs.parent, hs.child⟩
  · exact ⟨hs.base, hs.rootGroup, fun h => by simp [clear] at h, hs.parent, hs.child⟩
  · exact ⟨hs.base, hs.rootGroup, hs.allocated, hs.parent, hs.child⟩
  · exact ⟨hs.base, hs.rootGroup, hs.allocated, hs.parent, hs.child⟩

/-! ### Labels -/

theorem label_removeChild (s : Store) (g r x : Ref) : ((s.removeChild g r).heap x).label = (s.heap x).label := by
  have hclear : ((s.clearParent r).heap x).label = (s.heap x).label := by
    by_cases hx : x = r <;> simp [clearParent, modify, put, hx]
  unfold removeChild
  split
  · by_cases hx : x = g
    · rw [← hclear, hx]
      simp only [modify, put, if_true, Parameter.modifyChildren]
      split <;> rfl
    · simpa [modify, put, hx] using hclear
  · rfl

/-- A new group is not a new label. -/
theorem label_addChild (s : Store) (g r x : Ref) : ((s.addChild g r).heap x).label = (s.heap x).label := by
  have henter : ((s.enterChild g r).heap x).label = (s.heap x).label := by
    unfold enterChild
    split
    · rfl
    · by_cases hx : x = g
      · simp only [modify, put, hx, if_true, Parameter.modifyChildren]
        split <;> rfl
      · simp [modify, put, hx]
  have hleave : ∀ t : Store, ((t.leaveParent r).heap x).label = (t.heap x).label := by
    intro t
    unfold leaveParent
    split
    · exact label_removeChild t _ r x
    · rfl
  rw [addChild_eq, ← henter]
  by_cases h : ∀ p, (s.enterChild g r).parent r = some p → (s.enterChild g r).idOf g ≠ (s.enterChild g r).idOf p
  · rw [setParent_of_other h, heap_setDirty, ← hleave (s.enterChild g r)]
    by_cases hx : x = r <;> simp [modify, put, hx]
  · push Not at h
    obtain ⟨p, hp, hi⟩ := h
    rw [setParent_of_same hp hi]

/-- A new parameter has the label that it was created with. -/
theorem label_create {mem : Memory} {f : CreateFunction} {label : Bytes} (hc : s.create mem f label g = some (r, t))
    (x : Ref) : (t.heap x).label = if x = r then { has := true, content := label, changed := label != [] }
      else (s.heap x).label := by
  obtain ⟨id, hid⟩ := exists_nextId hc
  rw [create, hid] at hc
  obtain ⟨rfl, rfl⟩ := Prod.mk.inj (Option.some.inj hc)
  unfold addParameterDirect
  dsimp only
  rw [label_addChild, heap_setDirty, heap_set, modify_put]
  by_cases hx : x = s.next
  · subst hx
    have hset : ({} : Text).set label = ({ has := true, content := label, changed := label != [] }, label != []) := by
      unfold Text.set
      cases label <;> rfl
    simp only [put, if_true]
    exact congrArg Prod.fst hset
  · simp [put, hx]

end Store

/-- Only the definition of a custom type does not start with its datatype alone. -/
theorem Kind.mandatory_write (k : Kind) (all : Bool) (h : k.datatype ≠ 1) :
    (k.write all).1.1.mandatory = [k.datatype] := by
  rcases k with ⟨τ, d, s⟩ | _ | _ | _
  · cases τ with
    | custom n => exact absurd rfl h
    | _ => rfl
  all_goals rfl

/-! ### Creation after `clear()` -/

/-- The arguments of a `create…Parameter` call. -/
structure Creation where
  mem : Memory
  f : CreateFunction
  label : Bytes
  group : Ref

/-- A server that has been cleared, and the parameters that it has created since. -/
structure Renewed where
  server : Server
  created : List (Ref × Creation) := []

namespace Renewed

open Store

variable {w : Renewed} {r g x c : Ref} {id : Id} {b : Ref} {old : Std.ExtTreeMap Int16 Ref} {a : Creation}

def start (s : Server) : Renewed := { server := s.operate .clear }

def create (w : Renewed) (a : Creation) : Renewed :=
  match w.server.store.create a.mem a.f a.label a.group with
  | some (r, t) => ⟨{ w.server with store := t }, w.created ++ [(r, a)]⟩
  | none => w

/-- The parameter goes into the root group or into a group that has been created since. -/
def InScope (w : Renewed) (a : Creation) : Prop :=
  a.group = root ∨ ∃ d, (a.group, d) ∈ w.created ∧ d.f = .createGroupParameter

/-- An `UPDATE` packet of the parameter `r`, with the datatype and the label that it was created with. -/
def Carries (s : Store) (e : Ref × Creation) (m : Message) : Prop :=
  ∃ d fields, m = ⟨.update, .parameter (.full (s.idOf e.1) d fields)⟩ ∧
    d.mandatory = [(Kind.make e.2.mem e.2.f.type).datatype] ∧
    ⟨.label, Text.payload writeTinyString { has := true, content := e.2.label }⟩ ∈ fields

/-- The answer to `INITIALIZE` is one packet for each parameter that has been created since, and none for another. -/
structure StartsOver (w : Renewed) (depth : Nat) (ch : Chance) (data : Bytes) : Prop where
  ended : (w.server.received depth ch data).ended = true
  sent : ∃ l : List (Ref × Creation), l.Perm w.created ∧ w.server.store.visited depth = l.map Prod.fst ∧
    List.Forall₂ (Carries w.server.store) l (w.server.received depth ch data).replies

/-- A parameter that has been created since. -/
structure Fresh (b : Ref) (old : Std.ExtTreeMap Int16 Ref) (s : Store) (r : Ref) (a : Creation) : Prop where
  group : a.group = root ∨ b ≤ a.group ∧ a.group < r
  isGroup : (s.heap r).isGroup = decide (a.f = .createGroupParameter)
  datatype : (s.heap r).getDatatype = (Kind.make a.mem a.f.type).datatype
  label : (s.heap r).label = { has := true, content := a.label, changed := a.label != [] }
  parentChanged : (s.heap r).parentChanged = true
  taken : s.idOf r ∈ s.ids
  /-- Its id may be among those of the children that the root group had before. -/
  placed : (s.children a.group)[s.idOf r]? = some r ∨ a.group = root ∧ s.idOf r ∈ old

/-- What creation keeps: `b` was the next reference and `old` were the children of the root group at `clear()`. -/
structure Restarted (b : Ref) (old : Std.ExtTreeMap Int16 Ref) (w : Renewed) : Prop where
  base : root < b
  rootGroup : (w.server.store.heap root).isGroup = true
  refs : w.created.map Prod.fst = List.range' b (w.server.store.next - b)
  le : b ≤ w.server.store.next
  fresh : ∀ {r : Ref} {a : Creation}, (r, a) ∈ w.created → Fresh b old w.server.store r a
  children : ∀ {g : Ref} {id : Id} {c : Ref}, g = root ∨ b ≤ g → (w.server.store.children g)[id]? = some c →
    g = root ∧ old[id]? = some c ∨ w.server.store.idOf c = id ∧ ∃ a, (c, a) ∈ w.created ∧ a.group = g
  kept : ∀ {id : Id} {c : Ref}, old[id]? = some c → (w.server.store.children root)[id]? = some c
  before : ∀ {id : Id} {c : Ref}, old[id]? = some c → c < b

theorem Restarted.mem (h : Restarted b old w) (hr : (r, a) ∈ w.created) : b ≤ r ∧ r < w.server.store.next := by
  have hm : r ∈ w.created.map Prod.fst := List.mem_map_of_mem hr
  rwa [h.refs, List.mem_range'_1, Nat.add_sub_cancel' h.le] at hm

/-- A group that has been created since may be created into. -/
theorem Restarted.group (h : Restarted b old w) (ha : w.InScope a) :
    (w.server.store.heap a.group).isGroup = true ∧ (a.group = root ∨ b ≤ a.group) ∧
      a.group < w.server.store.next := by
  rcases ha with hr | ⟨d, hd, hf⟩
  · rw [hr]
    exact ⟨h.rootGroup, Or.inl rfl, Nat.lt_of_lt_of_le h.base h.le⟩
  · obtain ⟨hb, hn⟩ := h.mem hd
    refine ⟨?_, Or.inr hb, hn⟩
    rw [(h.fresh hd).isGroup, hf]
    rfl

theorem restarted_create (h : Restarted b old w) (ha : w.InScope a) : Restarted b old (w.create a) := by
  obtain ⟨hgroup, hfresh, hlt⟩ := h.group ha
  rw [create]
  split
  case h_2 => exact h
  next r t hc =>
  obtain ⟨id, hid⟩ := exists_nextId hc
  have hchildren := getElem?_children_create hgroup hlt hid hc
  have hlabel := label_create hc
  have hkind := datatype_create hid hc
  obtain ⟨rfl, hb⟩ := born_of_create hid hc
  set s := w.server.store with hs
  have hroot : root ≠ s.next := Nat.ne_of_lt (Nat.lt_of_lt_of_le h.base h.le)
  have hne : ∀ {x a'}, (x, a') ∈ w.created → x ≠ s.next := fun hx => Nat.ne_of_lt (h.mem hx).2
  -- the free id is the id of nothing that has been created since
  have hfree : ∀ {x a'}, (x, a') ∈ w.created → s.idOf x ≠ id := by
    intro x a' hx hxi
    exact hb.free (hxi ▸ (h.fresh hx).taken)
  refine ⟨h.base, ?_, ?_, ?_, fun {x a'} hx => ?_, fun {g i c} hg hcx => ?_, fun {i c} hold => ?_, h.before⟩
  · exact (hb.isGroup hroot).trans h.rootGroup
  · show (w.created ++ [(s.next, a)]).map Prod.fst = List.range' b (t.next - b)
    rw [List.map_append, h.refs, hb.next, Nat.succ_sub h.le, List.range'_concat, Nat.one_mul, Nat.add_sub_cancel' h.le]
    rfl
  · exact hb.next ▸ Nat.le_succ_of_le h.le
  · show Fresh b old t x a'
    rcases List.mem_append.mp hx with hx | hx
    · have hf := h.fresh hx
      have hxn := hne hx
      refine ⟨hf.group, (hb.isGroup hxn).trans hf.isGroup, (hkind.2 hxn).trans hf.datatype, ?_, ?_, ?_, ?_⟩
      · rw [hlabel, if_neg hxn, hf.label]
      · exact (hb.parentChanged x).mpr (Or.inr ⟨hf.parentChanged, hxn⟩)
      · rw [hb.ids, hb.idOf hxn]
        exact Finset.mem_insert_of_mem hf.taken
      · rw [hb.idOf hxn]
        refine hf.placed.imp_left fun hp => ?_
        have hgn : a'.group ≠ s.next := by
          rcases hf.group with hg | ⟨-, hg⟩
          · rw [hg]; exact hroot
          · exact Nat.ne_of_lt (Nat.lt_trans hg (h.mem hx).2)
        rw [hchildren, if_neg fun hn => hfree hx hn.2.1, if_neg hgn]
        exact hp
    · obtain ⟨rfl, rfl⟩ := Prod.mk.inj (List.mem_singleton.mp hx)
      refine ⟨hfresh.imp_right fun hg => ⟨hg, hlt⟩, ?_, hkind.1, ?_, ?_, ?_, ?_⟩
      · rw [Parameter.isGroup_eq, hkind.1]
        cases a'.f <;> rfl
      · rw [hlabel, if_pos rfl]
      · exact (hb.parentChanged _).mpr (Or.inl rfl)
      · rw [hb.ids, hb.idOf_new]
        exact Finset.mem_insert_self ..
      · rw [hb.idOf_new, hchildren]
        by_cases hm : id ∈ s.children a'.group
        · obtain ⟨c, hcm⟩ := mem_iff_exists.mp hm
          rcases h.children hfresh hcm with ⟨hg, hold⟩ | ⟨hci, d, hd, -⟩
          · exact Or.inr ⟨hg, mem_of_getElem? hold⟩
          · exact absurd hci (hfree hd)
        · exact Or.inl (if_pos ⟨rfl, rfl, hm⟩)
  · show g = root ∧ old[i]? = some c ∨ t.idOf c = i ∧ ∃ a', (c, a') ∈ w.created ++ [(s.next, a)] ∧ a'.group = g
    rw [hchildren] at hcx
    split at hcx
    · next hnew =>
      rw [← Option.some.inj hcx]
      exact Or.inr ⟨hb.idOf_new.trans hnew.2.1.symm, a, by simp, hnew.1.symm⟩
    split at hcx
    · simp at hcx
    · rcases h.children hg hcx with hold | ⟨hci, d, hd, hdg⟩
      · exact Or.inl hold
      · exact Or.inr ⟨(hb.idOf (hne hd)).trans hci, d, List.mem_append_left _ hd, hdg⟩
  · have hk := h.kept hold
    show (t.children root)[i]? = some c
    rw [hchildren, if_neg, if_neg hroot]
    · exact hk
    · rintro ⟨hg, rfl, hm⟩
      exact hm (hg ▸ mem_of_getElem? hk)

/-! ### The answer to `INITIALIZE` -/

theorem carries_packetFull {s : Store} (h : Fresh b old s r a) : Carries s (r, a) (s.packetFull r) := by
  have hfull : (s.heap r).onlyValueChanged = false := by
    unfold Parameter.onlyValueChanged
    split
    · simp [Parameter.anyOptionChanged, h.parentChanged]
    · rfl
  have hdatatype : (s.heap r).kind.datatype = (Kind.make a.mem a.f.type).datatype := h.datatype
  rw [packetFull, Parameter.write_of_not_onlyValueChanged _ hfull]
  refine ⟨_, _, rfl, ?_, ?_⟩
  · have hone : (Kind.make a.mem a.f.type).datatype ≠ 1 := by
      cases a.f <;> simp [Kind.make, CreateFunction.type, Kind.datatype, ValueType.datatype, NumberType.datatype,
        datatypeBang, datatypeGroup]
    rw [Kind.mandatory_write _ _ (by rwa [hdatatype]), hdatatype]
  · have hlabel : ((s.heap r).label.write .label writeTinyString true).1 =
        [⟨.label, Text.payload writeTinyString { has := true, content := a.label }⟩] := by
      rw [h.label]
      rfl
    simp [Parameter.writeOptions, hlabel]

/-- The children of the groups that the traversal may reach. -/
private def reached (b : Ref) (s : Store) (g : Ref) : List Ref :=
  if g = root ∨ b ≤ g ∧ g < s.next then s.childRefs g else []

section Visited

variable (h : Restarted b ∅ w)

include h

/-- If the root group had no children, the children are what has been created into a group. -/
private theorem mem_reached : c ∈ reached b w.server.store g ↔ ∃ d, (c, d) ∈ w.created ∧ d.group = g := by
  unfold reached
  constructor
  · intro hc
    split at hc
    · next hg =>
      obtain ⟨id, hc⟩ := mem_childRefs_iff.mp hc
      rcases h.children (hg.imp_right And.left) hc with ⟨-, hold⟩ | ⟨-, hd⟩
      · simp at hold
      · exact hd
    · simp at hc
  · rintro ⟨d, hd, rfl⟩
    have hf := h.fresh hd
    rw [if_pos (hf.group.imp_right fun hg => ⟨hg.1, Nat.lt_trans hg.2 (h.mem hd).2⟩), mem_childRefs_iff]
    refine ⟨_, hf.placed.resolve_right fun hold => ?_⟩
    simp at hold

private theorem nodup_reached (g : Ref) : (reached b w.server.store g).Nodup := by
  unfold reached
  split
  · next hg =>
    rw [childRefs, List.nodup_iff_pairwise_ne, List.pairwise_map]
    refine Std.ExtTreeMap.distinct_keys_toList.imp_of_mem fun {x y} hx hy hxy => ?_
    rw [Std.ExtTreeMap.mem_toList_iff_getElem?_eq_some] at hx hy
    have hid : ∀ {id : Id} {c : Ref}, (w.server.store.children g)[id]? = some c → w.server.store.idOf c = id := by
      intro id c hc
      rcases h.children (hg.imp_right And.left) hc with ⟨-, hold⟩ | ⟨hi, -⟩
      · simp at hold
      · exact hi
    intro heq
    refine hxy ?_
    rw [Std.compare_eq_iff_eq, ← hid hx, ← hid hy, heq]
  · exact List.nodup_nil

/-- Nothing has been created twice. -/
private theorem created_unique {d d' : Creation} (hd : (c, d) ∈ w.created) (hd' : (c, d') ∈ w.created) : d = d' := by
  have hnd : (w.created.map Prod.fst).Nodup := by
    rw [h.refs]
    exact List.nodup_range' ..
  exact congrArg Prod.snd (List.inj_on_of_nodup_map hnd hd hd' rfl)

/-- If the root group had no children, the traversal visits what has been created since, and nothing twice. -/
theorem Restarted.visited {n : Nat} (hn : w.server.store.next ≤ n) :
    (concatWhile (preorder w.server.store.childRefs n) (w.server.store.childRefs root)).2 = true ∧
      (w.server.store.visited n).Nodup ∧ ∀ r, r ∈ w.server.store.visited n ↔ r ∈ w.created.map Prod.fst := by
  set s := w.server.store with hs
  have hlt : root < s.next := Nat.lt_of_lt_of_le h.base h.le
  -- a parameter has a larger reference than its group
  have hh : ∀ g c, c ∈ reached b s g → s.next - c < s.next - g := by
    intro g c hc
    obtain ⟨d, hd, rfl⟩ := (mem_reached h).mp hc
    obtain ⟨hb, hc⟩ := h.mem hd
    rcases (h.fresh hd).group with hg | ⟨-, hg⟩
    · rw [hg]
      exact Nat.sub_lt_sub_left (Nat.lt_trans h.base (Nat.lt_of_le_of_lt hb hc)) (Nat.lt_of_lt_of_le h.base hb)
    · exact Nat.sub_lt_sub_left (Nat.lt_trans hg hc) hg
  have hheight : s.next - root < n + 1 := Nat.lt_succ_of_le (Nat.le_trans (Nat.sub_le ..) hn)
  have hpre : preorder s.childRefs (n + 1) root = preorder (reached b s) (n + 1) root := by
    refine preorder_congr (S := fun g => g = root ∨ b ≤ g ∧ g < s.next) (fun g hg => (if_pos hg).symm)
      (fun g _ c hc => ?_) _ (Or.inl rfl)
    obtain ⟨d, hd, -⟩ := (mem_reached h).mp hc
    exact Or.inr (h.mem hd)
  have hsplit : (preorder s.childRefs (n + 1) root).1 = root :: s.visited n := rfl
  have hnd : (root :: s.visited n).Nodup := by
    rw [← hsplit, hpre]
    refine nodup_preorder hh (nodup_reached h) (fun {x y c} hx hy => ?_) hheight
    obtain ⟨d, hd, rfl⟩ := (mem_reached h).mp hx
    obtain ⟨d', hd', rfl⟩ := (mem_reached h).mp hy
    rw [created_unique h hd hd']
  have hmem : ∀ r, r ∈ root :: s.visited n ↔ r = root ∨ r ∈ w.created.map Prod.fst := by
    intro r
    rw [← hsplit, hpre, mem_preorder_iff hh hheight]
    constructor
    · intro hr
      rcases Relation.ReflTransGen.cases_tail hr with rfl | ⟨g, -, hg⟩
      · exact Or.inl rfl
      · obtain ⟨d, hd, -⟩ := (mem_reached h).mp hg
        exact Or.inr (List.mem_map_of_mem hd)
    · rintro (rfl | hr)
      · exact .refl
      · -- from the group that the parameter was created into
        induction r using Nat.strong_induction_on with
        | _ r ih =>
          obtain ⟨⟨r, d⟩, hd, rfl⟩ := List.mem_map.mp hr
          refine .tail ?_ ((mem_reached h).mpr ⟨d, hd, rfl⟩)
          rcases (h.fresh hd).group with hg | ⟨hb, hg⟩
          · rw [hg]
          · refine ih _ hg ?_
            rw [h.refs, List.mem_range'_1, Nat.add_sub_cancel' h.le]
            exact ⟨hb, Nat.lt_trans hg (h.mem hd).2⟩
  rw [List.nodup_cons] at hnd
  refine ⟨?_, hnd.2, fun r => ⟨fun hr => ?_, fun hr => ?_⟩⟩
  · have hended := preorder_ended hh hheight
    rw [← hpre] at hended
    exact hended
  · refine ((hmem r).mp (List.mem_cons_of_mem _ hr)).resolve_left ?_
    rintro rfl
    exact hnd.1 hr
  · refine (List.mem_cons.mp ((hmem r).mpr (Or.inr hr))).resolve_left ?_
    rintro rfl
    obtain ⟨⟨r, d⟩, hd, hr⟩ := List.mem_map.mp hr
    have hb := (h.mem hd).1
    rw [show r = root from hr] at hb
    exact Nat.lt_irrefl _ (Nat.lt_of_lt_of_le h.base hb)

end Visited

/-! ### Runs -/

theorem restarted_start {s : Server} (hs : Built s.store) :
    Restarted s.store.next (s.store.children root) (start s) := by
  refine ⟨hs.base, hs.rootGroup, ?_, le_rfl, fun hr => ?_, fun {g id c} hg hc => ?_, fun hold => hold, fun hold =>
    (hs.child hold).2⟩
  · show [] = List.range' s.store.next (s.store.next - s.store.next)
    rw [Nat.sub_self]
    rfl
  · simp [start] at hr
  · change (s.store.children g)[id]? = some c at hc
    rcases hg with rfl | hg
    · exact Or.inl ⟨rfl, hc⟩
    · exact absurd (hs.child hc).1 (Nat.not_lt.mpr hg)

/-- A server that is cleared and then creates parameters answers `INITIALIZE` with these, one packet each, if and only
if the root group had no children when it was cleared. -/
theorem startsOver_iff (mem : Memory) (ts : List Nat) {ops : List ServerOp}
    (hops : Along Server.operate (fun s op => op.Handles builtHandle s) (Server.start mem ts) ops) {as : List Creation}
    (has : Along create InScope (start (Lib.run Server.operate (Server.start mem ts) ops)) as)
      {depth : Nat} {ch : Chance}
    {data : Bytes} (hi : IsInit data)
    (hv : ((Lib.run create (start (Lib.run Server.operate (Server.start mem ts) ops)) as).server.store.parse ch
      data).verdict
      = .accepted)
    (hd : (Lib.run create (start (Lib.run Server.operate (Server.start mem ts) ops)) as).server.store.next ≤ depth) :
    (Lib.run create (start (Lib.run Server.operate (Server.start mem ts) ops)) as).StartsOver depth ch data ↔
      (Lib.run Server.operate (Server.start mem ts) ops).store.children root = ∅ := by
  set s := Lib.run Server.operate (Server.start mem ts) ops with hs
  set w := Lib.run create (start s) as with hw
  have hstart : Built (Server.start mem ts).store := by
    rw [Server.store_start]
    exact built_new mem
  have h : Restarted s.store.next (s.store.children root) w :=
    along_invariant (fun _ _ ha h => restarted_create h ha) has (restarted_start (serverKept_built.run ops hops hstart))
  have hreceived : (w.server.received depth ch data).ended =
        (concatWhile (preorder w.server.store.childRefs depth) (w.server.store.childRefs root)).2 ∧
      (w.server.received depth ch data).replies = (writeFull (w.server.store.visited depth) w.server.store).1 := by
    rw [Server.received_of_init hi, if_pos hv]
    dsimp only
    rw [Server.sendAll_eq]
    exact ⟨rfl, rfl⟩
  constructor
  · rintro ⟨hended, l, hl, hvis, -⟩
    refine Std.ExtTreeMap.ext_getElem? fun id => ?_
    cases hold : (s.store.children root)[id]? with
    | none => simp
    | some c =>
      -- an old child of the root group is visited
      have hc : c ∈ w.server.store.childRefs root := mem_childRefs_iff.mpr ⟨id, h.kept hold⟩
      rw [hreceived.1] at hended
      obtain ⟨hc1, hc2⟩ := mem_concatWhile_of_ended hended hc
      have hvisited : c ∈ w.server.store.visited depth := hc2 c (self_mem_preorder hc1)
      rw [hvis, (hl.map Prod.fst).mem_iff, h.refs, List.mem_range'_1] at hvisited
      exact absurd (h.before hold) (Nat.not_lt.mpr hvisited.1)
  · intro hold
    rw [hold] at h
    obtain ⟨hended, hnd, hmem⟩ := h.visited hd
    have hcreated : (w.created.map Prod.fst).Nodup := by
      rw [h.refs]
      exact List.nodup_range' ..
    have hperm : (w.server.store.visited depth).Perm (w.created.map Prod.fst) :=
      (List.perm_ext_iff_of_nodup hnd hcreated).mpr hmem
    rw [← congrFun (congrFun (List.eq_map_comp_perm Prod.fst) _) _] at hperm
    obtain ⟨l, hvis, hl⟩ := hperm
    refine ⟨hreceived.1.trans hended, l, hl, hvis, ?_⟩
    rw [hreceived.2, packets_writeFull hnd, hvis, List.map_map, List.forall₂_map_right_iff, List.forall₂_same]
    exact fun e he => carries_packetFull (h.fresh (hl.mem_iff.mp he))

/-- A parameter is exposed, and removed before `clear()`. -/
def removedBefore : List ServerOp := [.call (.create {} .createBooleanParameter [97] root), .call (.removeParameter 1)]

/-- A group with a parameter. -/
def newGroup : List Creation := [⟨{}, .createGroupParameter, [103], root⟩, ⟨{}, .createInt32Parameter, [98], 2⟩]

private theorem handles_removedBefore :
    Along Server.operate (fun s op => op.Handles builtHandle s) (Server.start {} []) removedBefore := by
  refine ⟨?_, trivial, trivial⟩
  show root < (Server.start {} []).store.next
  decide

private theorem inScope_newGroup (w : Renewed) (hw : (w.server.store.create {} .createGroupParameter [103] root).isSome)
    (hn : w.server.store.next = 2) : Along create InScope w newGroup := by
  obtain ⟨⟨r, t⟩, hc⟩ := Option.isSome_iff_exists.mp hw
  obtain ⟨id, hid⟩ := exists_nextId hc
  obtain ⟨rfl, hb⟩ := born_of_create hid hc
  refine ⟨Or.inl rfl, Or.inr ⟨⟨{}, .createGroupParameter, [103], root⟩, ?_, rfl⟩, trivial⟩
  rw [create, hc, hn]
  simp

theorem startsOver_removedBefore :
    (Lib.run create (start (Lib.run Server.operate (Server.start {} []) removedBefore)) newGroup).StartsOver 4
        ⟨{}, fun _ => 0⟩ [2, 0] ↔
      (Lib.run Server.operate (Server.start {} []) removedBefore).store.children root = ∅ :=
  startsOver_iff {} [] handles_removedBefore (inScope_newGroup _ (by decide) (by decide)) rfl (by decide) (by decide)

/-- A parameter is exposed, and not removed before `clear()`. -/
def keptBefore : List ServerOp := [.call (.create {} .createBooleanParameter [97] root)]

/-- The parameter that has been forgotten is sent, and the one that has taken its id is not. -/
theorem keptBefore_sent :
    ¬(Lib.run create (start (Lib.run Server.operate (Server.start {} []) keptBefore))
      [⟨{}, .createInt32Parameter, [98], root⟩]).StartsOver 3 ⟨{}, fun _ => 0⟩ [2, 0] := by
  rintro ⟨-, l, hl, hv, -⟩
  have hvisited : (Lib.run create (start (Lib.run Server.operate (Server.start {} []) keptBefore))
      [⟨{}, .createInt32Parameter, [98], root⟩]).server.store.visited 3 = [1] := by decide
  have hcreated : (Lib.run create (start (Lib.run Server.operate (Server.start {} []) keptBefore))
      [⟨{}, .createInt32Parameter, [98], root⟩]).created.map Prod.fst = [2] := by decide
  have hperm := hl.map Prod.fst
  rw [← hv, hvisited, hcreated, List.perm_singleton] at hperm
  exact absurd hperm (by decide)

end Renewed

end RabbitControl
