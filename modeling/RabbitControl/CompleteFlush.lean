import RabbitControl.Bookkeeping

/-!
# Complete flushes

What `update()` sends and what it leaves, in every state that a server reaches, whatever its application does and
whatever it receives.  A parameter gets onto the dirty list only if its id does not wait for its removal to be sent, so
an id is on one of the two lists at most (`listed_run`), and `update()` names each id on the lists in one packet.
-/

namespace RabbitControl

open Lib

namespace Store

variable {s t u : Store} {r g x : Ref} {id : Id}

/-! ### Getting onto the dirty list -/

/-- Nothing has become dirty, or a managed parameter whose id does not wait for its removal to be sent. -/
def Marks (r : Ref) (s t : Store) : Prop :=
  t.dirtyParameter = s.dirtyParameter ∨
    ((s.heap r).managed = true ∧ s.idOf r ∉ s.removedParameter) ∧
      t.dirtyParameter = s.dirtyParameter.insert (s.idOf r) r

theorem Marks.trans (hf : Frame s t) (h : Marks r s t) (k : Marks r t u) : Marks r s u := by
  rw [Marks, hf.managed, hf.idOf, hf.removed] at k
  rcases h with h | ⟨hc, h⟩ <;> rcases k with k | ⟨kc, k⟩
  · exact Or.inl (k.trans h)
  · exact Or.inr ⟨kc, by rw [k, h]⟩
  · exact Or.inr ⟨hc, k.trans h⟩
  · exact Or.inr ⟨hc, by rw [k, h, insert_insert_self]⟩

/-- What is done to the heap alone marks nothing. -/
theorem marks_of_dirty (h : t.dirtyParameter = s.dirtyParameter) : Marks r s t := Or.inl h

theorem marks_setDirty (s : Store) (r : Ref) : Marks r s (s.setDirty r) := by
  rw [Marks, dirty_setDirty]
  split
  · next h => exact Or.inr ⟨h, rfl⟩
  · exact Or.inl rfl

theorem marks_set (s : Store) (r : Ref) (a : Setter) : Marks r s (s.set r a) := by
  rw [Marks, dirty_set]
  split
  · next h => exact Or.inr ⟨h.2, rfl⟩
  · exact Or.inl rfl

theorem marks_removeChild (s : Store) (g r : Ref) : Marks r s (s.removeChild g r) := by
  unfold removeChild
  split
  · rw [Marks, dirty_modify, dirty_clearParent]
    split
    · next h => exact Or.inr ⟨h, rfl⟩
    · exact Or.inl rfl
  · exact Or.inl rfl

theorem marks_leaveParent (s : Store) (r : Ref) : Marks r s (s.leaveParent r) := by
  unfold leaveParent
  split
  · exact marks_removeChild s _ r
  · exact Or.inl rfl

theorem marks_unlink (s : Store) (r : Ref) : Marks r s (s.unlink r) :=
  marks_leaveParent ({ s with ids := s.ids.erase (s.idOf r) } : Store) r

theorem marks_addChild (s : Store) (g r : Ref) : Marks r s (s.addChild g r) := by
  have he := frame_enterChild s g r
  have hd : Marks r s (s.enterChild g r) := marks_of_dirty (dirty_enterChild s g r)
  by_cases h : ∃ p, s.parent r = some p ∧ s.idOf g = s.idOf p
  · obtain ⟨p, hp, hid⟩ := h
    rw [addChild_of_same hp hid]
    exact hd
  · have hp : ∀ p, (s.enterChild g r).parent r = some p → (s.enterChild g r).idOf g ≠ (s.enterChild g r).idOf p := by
      intro p hp hid
      rw [parent_enterChild] at hp
      rw [he.idOf, he.idOf] at hid
      exact h ⟨p, hp, hid⟩
    rw [addChild_eq, setParent_of_other hp]
    set e := s.enterChild g r
    refine hd.trans he (.trans (frame_leaveParent e r) (marks_leaveParent e r) ?_)
    exact .trans (t := (e.leaveParent r).modify r _) (frame_put rfl rfl rfl rfl) (marks_of_dirty rfl) (marks_setDirty ..)

/-- A new parameter. -/
theorem marks_create {mem : Memory} {f : CreateFunction} {label : Bytes} (hid : s.nextId = some id)
    (hc : s.create mem f label g = some (r, t)) :
    t.dirtyParameter = s.dirtyParameter ∨
      id ∉ s.removedParameter ∧ t.dirtyParameter = s.dirtyParameter.insert id r := by
  rw [create, hid] at hc
  obtain ⟨rfl, rfl⟩ := Prod.mk.inj (Option.some.inj hc)
  unfold addParameterDirect
  dsimp only
  rw [modify_put]
  set p : Parameter := { Parameter.create mem id f.type with managed := true } with hp
  set u := ({ s with ids := insert id s.ids, next := s.next + 1 } : Store).put s.next p with hu
  have hheap : u.heap s.next = p := by simp [hu, put]
  have hset := frame_set u s.next (.label (.set label))
  have hm : Marks s.next u (((u.set s.next (.label (.set label))).setDirty s.next).addChild g s.next) :=
    (marks_set ..).trans hset ((marks_setDirty ..).trans (frame_setDirty ..) (marks_addChild ..))
  have hidu : u.idOf s.next = id := by rw [Store.idOf, hheap]; rfl
  rw [Marks, hidu] at hm
  exact hm.imp_right fun h => ⟨h.1.2, h.2⟩

/-! ### The two lists -/

/-- What the lists of a server hold: built parameters under their own ids, and no id is on both lists. -/
structure Listed (s : Store) : Prop where
  allocated : s.Allocated
  managed : ∀ {r : Ref}, (s.heap r).managed = true → r < s.next
  keyed : s.Keyed
  dirty : ∀ {id : Id} {r : Ref}, s.dirtyParameter[id]? = some r → r < s.next
  removed : ∀ {id : Id} {r : Ref}, s.removedParameter[id]? = some r → s.idOf r = id ∧ r < s.next
  apart : ∀ {id : Id}, id ∈ s.removedParameter → id ∉ s.dirtyParameter

/-- An operation on one parameter. -/
theorem listed_marks (hs : Listed s) (hf : Frame s t) (hm : Marks r s t)
    (hp : ∀ {id : Id} {x : Ref}, t.params[id]? = some x → s.params[id]? = some x) : Listed t := by
  have hd : ∀ {i : Id} {x : Ref}, t.dirtyParameter[i]? = some x →
      s.dirtyParameter[i]? = some x ∨ x = r ∧ i = s.idOf r ∧ (s.heap r).managed = true ∧ i ∉ s.removedParameter := by
    intro i x hx
    rcases hm with h | ⟨hc, h⟩ <;> rw [h] at hx
    · exact Or.inl hx
    · rw [getElem?_insert_iff] at hx
      split at hx
      · next hi => exact Or.inr ⟨(Option.some.inj hx).symm, hi, hc.1, hi ▸ hc.2⟩
      · exact Or.inl hx
  refine ⟨fun hx => ?_, fun hx => ?_, fun hx => ?_, fun hx => ?_, fun hx => ?_, fun {i} hi hn => ?_⟩
  · rw [hf.next]; exact hs.allocated (hp hx)
  · rw [hf.managed] at hx; rw [hf.next]; exact hs.managed hx
  · rw [hf.idOf]
    rcases hd hx with h | ⟨rfl, rfl, -⟩
    · exact hs.keyed h
    · rfl
  · rw [hf.next]
    rcases hd hx with h | ⟨rfl, -, hman, -⟩
    · exact hs.dirty h
    · exact hs.managed hman
  · rw [hf.removed] at hx
    rw [hf.idOf, hf.next]
    exact hs.removed hx
  · rw [hf.removed] at hi
    obtain ⟨x, hx⟩ := mem_iff_exists.mp hn
    rcases hd hx with h | ⟨-, -, -, h⟩
    · exact hs.apart hi (mem_of_getElem? h)
    · exact h hi

theorem listed_create (hs : Listed s) {mem : Memory} {f : CreateFunction} {label : Bytes}
    (hc : s.create mem f label g = some (r, t)) : Listed t := by
  obtain ⟨id, hid⟩ := exists_nextId hc
  have hm := marks_create hid hc
  obtain ⟨rfl, hb⟩ := born_of_create hid hc
  have hd : ∀ {i : Id} {x : Ref}, t.dirtyParameter[i]? = some x →
      s.dirtyParameter[i]? = some x ∧ x ≠ s.next ∨ x = s.next ∧ i = id ∧ id ∉ s.removedParameter := by
    intro i x hx
    rcases hm with h | ⟨hfree, h⟩ <;> rw [h] at hx
    · exact Or.inl ⟨hx, Nat.ne_of_lt (hs.dirty hx)⟩
    · rw [getElem?_insert_iff] at hx
      split at hx
      · next hi => exact Or.inr ⟨(Option.some.inj hx).symm, hi, hfree⟩
      · exact Or.inl ⟨hx, Nat.ne_of_lt (hs.dirty hx)⟩
  refine ⟨fun {i x} hx => ?_, fun {x} hx => ?_, fun hx => ?_, fun hx => ?_, fun hx => ?_, fun {i} hi hn => ?_⟩
  · rw [hb.params, getElem?_insert_iff] at hx
    rw [hb.next]
    split at hx
    · rw [← Option.some.inj hx]; exact Nat.lt_succ_self _
    · exact Nat.lt_succ_of_lt (hs.allocated hx)
  · rw [hb.next]
    by_cases hxn : x = s.next
    · rw [hxn]; exact Nat.lt_succ_self _
    · rw [hb.managed hxn] at hx
      exact Nat.lt_succ_of_lt (hs.managed hx)
  · rcases hd hx with ⟨h, hne⟩ | ⟨rfl, rfl, -⟩
    · rw [hb.idOf hne]; exact hs.keyed h
    · exact hb.idOf_new
  · rw [hb.next]
    rcases hd hx with ⟨h, -⟩ | ⟨rfl, -⟩
    · exact Nat.lt_succ_of_lt (hs.dirty h)
    · exact Nat.lt_succ_self _
  · rw [hb.removed] at hx
    obtain ⟨h1, h2⟩ := hs.removed hx
    rw [hb.idOf (Nat.ne_of_lt h2), hb.next]
    exact ⟨h1, Nat.lt_succ_of_lt h2⟩
  · rw [hb.removed] at hi
    obtain ⟨x, hx⟩ := mem_iff_exists.mp hn
    rcases hd hx with ⟨h, -⟩ | ⟨-, rfl, h⟩
    · exact hs.apart hi (mem_of_getElem? h)
    · exact h hi

theorem listed_retire (hs : Listed s) (hr : s.params[id]? = some r) : Listed (s.setParameterRemoved r) := by
  have hd : ∀ {i : Id} {x : Ref}, (s.setParameterRemoved r).dirtyParameter[i]? = some x →
      s.dirtyParameter[i]? = some x ∧ i ≠ s.idOf r := by
    intro i x hx
    change (s.dirtyParameter.erase (s.idOf r))[i]? = some x at hx
    rw [getElem?_erase_iff] at hx
    split at hx
    · simp at hx
    · next hi => exact ⟨hx, hi⟩
  have hrem : ∀ {i : Id} {x : Ref}, (s.setParameterRemoved r).removedParameter[i]? = some x →
      i = s.idOf r ∧ x = r ∨ s.removedParameter[i]? = some x := by
    intro i x hx
    change (s.removedParameter.insert (s.idOf r) r)[i]? = some x at hx
    rw [getElem?_insert_iff] at hx
    split at hx
    · next hi => exact Or.inl ⟨hi, (Option.some.inj hx).symm⟩
    · exact Or.inr hx
  refine ⟨hs.allocated, hs.managed, fun hx => hs.keyed (hd hx).1, fun hx => hs.dirty (hd hx).1, fun hx => ?_,
    fun {i} hi hn => ?_⟩
  · rcases hrem hx with ⟨rfl, rfl⟩ | h
    · exact ⟨rfl, hs.allocated hr⟩
    · exact hs.removed h
  · obtain ⟨x, hx⟩ := mem_iff_exists.mp hi
    obtain ⟨y, hy⟩ := mem_iff_exists.mp hn
    rcases hrem hx with ⟨h, -⟩ | h
    · exact (hd hy).2 h
    · exact hs.apart (mem_of_getElem? h) (mem_of_getElem? (hd hy).1)

/-- A proxy that leaves a group does not get past the list of removed parameters. -/
private theorem apart_parse (hs : Listed s) (ch : Chance) (data : Bytes) :
    ∀ id, id ∈ (s.parse ch data).state.removedParameter → id ∉ (s.parse ch data).state.dirtyParameter := by
  have henv : ∀ (g : Ref) (x : Store × Parameter),
      (∀ id, id ∈ x.1.removedParameter → id ∉ x.1.dirtyParameter) →
        ∀ id, id ∈ (storeEnv.removeChild g x).1.removedParameter → id ∉ (storeEnv.removeChild g x).1.dirtyParameter := by
    intro g x hx id hid hn
    set u := x.1.put x.1.next x.2 with hu
    change id ∈ (u.removeChild g x.1.next).removedParameter at hid
    change id ∈ (u.removeChild g x.1.next).dirtyParameter at hn
    rw [(frame_removeChild u g x.1.next).removed] at hid
    rcases marks_removeChild u g x.1.next with h | ⟨hc, h⟩ <;> rw [h] at hn
    · exact hx id hid hn
    · rcases Std.ExtTreeMap.mem_insert.mp hn with hi | hi
      · rw [Std.compare_eq_iff_eq] at hi
        exact hc.2 (hi ▸ hid)
      · exact hx id hid hi
  have h : ∀ id, id ∈ (parsePacket storeEnv ch.mem s (stream ch.junk data)).state.removedParameter →
      id ∉ (parsePacket storeEnv ch.mem s (stream ch.junk data)).state.dirtyParameter :=
    parsePacket_forall (P := fun t : Store => ∀ id, id ∈ t.removedParameter → id ∉ t.dirtyParameter) henv
      (stream ch.junk data) fun _ => hs.apart
  intro id
  have hid := h id
  unfold parse
  dsimp only
  split
  · exact hid
  · exact hid

theorem listed_parse (hs : Listed s) (ch : Chance) (data : Bytes) : Listed (s.parse ch data).state := by
  have hapart := apart_parse hs ch data
  rcases (parse_cases hs.allocated ch data).2 with ⟨h, -⟩ | ⟨c, time, p, q, -, -, -, h⟩
  · rw [h]; exact hs
  obtain ⟨b, hb⟩ := h.proxy
  have hid : ∀ {x : Ref}, x ≠ s.next → (s.parse ch data).state.idOf x = s.idOf x := by
    intro x hx
    rw [Store.idOf, h.heap x hx]
    split
    · exact Parameter.parameterId_modifyChildren _
    · rfl
  have hd : ∀ {i : Id} {x : Ref}, (s.parse ch data).state.dirtyParameter[i]? = some x →
      s.dirtyParameter[i]? = some x ∨ x = s.next ∧ i = q.parameterId := by
    intro i x hx
    rcases h.dirty with hd | ⟨hd, -⟩ <;> rw [hd] at hx
    · exact Or.inl hx
    · rw [getElem?_insert_iff] at hx
      split at hx
      · next hi => exact Or.inr ⟨(Option.some.inj hx).symm, hi⟩
      · exact Or.inl hx
  refine ⟨fun hx => ?_, fun {x} hx => ?_, fun hx => ?_, fun hx => ?_, fun hx => ?_, fun {i} hi => hapart i hi⟩
  · rw [h.params] at hx
    rw [h.next]
    exact Nat.lt_succ_of_lt (hs.allocated hx)
  · rw [h.next]
    by_cases hxn : x = s.next
    · rw [hxn]; exact Nat.lt_succ_self _
    · rw [h.heap x hxn] at hx
      refine Nat.lt_succ_of_lt (hs.managed ?_)
      split at hx
      · rwa [Parameter.managed_modifyChildren] at hx
      · exact hx
  · rcases hd hx with hx | ⟨rfl, rfl⟩
    · rw [hid (Nat.ne_of_lt (hs.dirty hx)), hs.keyed hx]
    · rw [Store.idOf, hb]
  · rw [h.next]
    rcases hd hx with hx | ⟨rfl, -⟩
    · exact Nat.lt_succ_of_lt (hs.dirty hx)
    · exact Nat.lt_succ_self _
  · rw [h.removed] at hx
    obtain ⟨h1, h2⟩ := hs.removed hx
    rw [hid (Nat.ne_of_lt h2), h.next]
    exact ⟨h1, Nat.lt_succ_of_lt h2⟩

theorem serverKept_listed : ServerKept anyHandle Listed := by
  refine ⟨⟨fun _ => Iff.rfl, fun _ _ => trivial, fun _ _ => trivial, fun _ _ => trivial, fun {s r} a hs _ => ?_,
    fun {s g r} hs _ _ => ?_, fun {s g r} hs _ _ => ?_, fun {s r} hs _ => ?_, fun {s} r all hs => ?_, fun hs => ?_,
    fun hs => ?_, fun ch data hs => listed_parse hs ch data⟩, fun hs _ hc => listed_create hs hc,
    fun hs hr => listed_retire hs hr, fun hs => ?_⟩
  · exact listed_marks hs (frame_set s r a) (marks_set s r a) fun h => by rwa [params_set] at h
  · exact listed_marks hs (touched_addChild s g r).frame (marks_addChild s g r) fun h => by rwa [params_addChild] at h
  · exact listed_marks hs (frame_removeChild s g r) (marks_removeChild s g r) fun h => by rwa [params_removeChild] at h
  · refine listed_marks hs (frame_unlink s r) (marks_unlink s r) fun h => ?_
    rw [getElem?_params_unlink] at h
    split at h
    · simp at h
    · exact h
  · have hf := sameTree_put_write s r s.idOf all
    refine ⟨hs.allocated, fun hx => ?_, fun hx => ?_, hs.dirty, fun hx => ?_, hs.apart⟩
    · rw [hf.managed] at hx; exact hs.managed hx
    · rw [hf.idOf]; exact hs.keyed hx
    · rw [hf.idOf]; exact hs.removed hx
  · refine ⟨hs.allocated, hs.managed, fun hx => ?_, fun hx => ?_, hs.removed, fun _ hn => ?_⟩
    · simp at hx
    · simp at hx
    · simp at hn
  · refine ⟨fun hx => ?_, hs.managed, fun hx => ?_, fun hx => ?_, fun hx => ?_, fun hi => ?_⟩ <;> simp [clear] at *
  · refine ⟨hs.allocated, hs.managed, hs.keyed, hs.dirty, fun hx => ?_, fun hi => ?_⟩
    · simp at hx
    · simp at hi

end Store

/-! ### Flushing -/

namespace Server

variable {s : Server}

/-- What one `update()` does. -/
structure FlushesCompletely (s : Server) : Prop where
  /-- No id is on both lists. -/
  apart : ∀ id : Id, id ∈ s.store.removedParameter → id ∉ s.store.dirtyParameter
  /-- The removals go first. -/
  removesFirst : ∃ removes updates, s.update.1 = removes ++ updates ∧ (∀ m ∈ removes, m.command = .remove) ∧
    ∀ m ∈ updates, m.command = .update ∨ m.command = .updateValue
  /-- The packets name the ids on the lists, none of them twice. -/
  named : s.update.1.map (·.data.parameterId) =
    (s.store.removedParameter.keys ++ s.store.dirtyParameter.keys).map some
  once : (s.store.removedParameter.keys ++ s.store.dirtyParameter.keys).Nodup
  emptied : s.update.2.store.removedParameter = ∅ ∧ s.update.2.store.dirtyParameter = ∅
  /-- What was dirty has no change flag up, be it of the parameter, of its value or of its type definition. -/
  clean : ∀ (id : Id) r, s.store.dirtyParameter[id]? = some r → ∀ o, (s.update.2.store.heap r).changed o = false
  /-- There is nothing left to send. -/
  quiet : s.update.2.update.1 = []

theorem transporterList_update (s : Server) : s.update.2.transporterList = s.transporterList := by
  unfold update
  split <;> rfl

theorem flushesCompletely (hs : s.store.Listed) (ht : s.transporterList ≠ []) : s.FlushesCompletely := by
  have hpackets := packets_update hs.keyed ht
  obtain ⟨hdirty, hremoved⟩ := lists_update ht
  refine ⟨fun id => hs.apart, ⟨_, _, hpackets, ?_, ?_⟩, ?_, ?_, ⟨hremoved, hdirty⟩, fun id r hr o => ?_, ?_⟩
  · intro m hm
    obtain ⟨e, -, rfl⟩ := List.mem_map.mp hm
    rfl
  · intro m hm
    obtain ⟨r, -, rfl⟩ := List.mem_map.mp hm
    unfold Store.packet
    split
    · exact Or.inr rfl
    · exact Or.inl rfl
  · rw [hpackets, List.map_append, List.map_append, ← Std.ExtTreeMap.map_fst_toList_eq_keys,
      ← Std.ExtTreeMap.map_fst_toList_eq_keys, Store.dirtyRefs, List.map_map, List.map_map, List.map_map, List.map_map,
      List.map_map]
    congr 1
    · refine List.map_congr_left fun e he => ?_
      have hid := (hs.removed (Std.ExtTreeMap.mem_toList_iff_getElem?_eq_some.mp he)).1
      exact congrArg some hid
    · refine List.map_congr_left fun e he => ?_
      have hid := hs.keyed (Std.ExtTreeMap.mem_toList_iff_getElem?_eq_some.mp he)
      exact congrArg some ((Parameter.id_write ..).trans hid)
  · refine List.nodup_append.mpr ⟨?_, ?_, fun i hi j hj h => ?_⟩
    · exact Std.ExtTreeMap.nodup_keys
    · exact Std.ExtTreeMap.nodup_keys
    · rw [Std.ExtTreeMap.mem_keys] at hi hj
      exact hs.apart hi (h ▸ hj)
  · have hmem : r ∈ s.store.dirtyRefs := Store.mem_dirtyRefs.mpr ⟨id, hr⟩
    rw [update, if_neg ht]
    dsimp only
    rw [Store.heap_writeDirty (Store.nodup_dirtyRefs hs.keyed) hmem, Parameter.changed_write_update]
  · rw [packets_update, Store.dirtyRefs, hdirty, hremoved]
    · rfl
    · intro id r hr
      rw [hdirty] at hr
      simp at hr
    · rw [transporterList_update]; exact ht

theorem listed_new (mem : Memory) : (new mem).store.Listed := by
  have hf := Store.frame_set (Store.empty mem) root (.label (.set rootLabel))
  have hd : (new mem).store.dirtyParameter = ∅ := by
    refine (Store.dirty_set ..).trans (if_neg fun h => ?_)
    exact Bool.false_ne_true h.2.1
  have hr : (new mem).store.removedParameter = ∅ := hf.removed
  refine ⟨(Store.linked_new mem).built, fun {r} hm => ?_, fun hx => ?_, fun hx => ?_, fun hx => ?_, fun hi => ?_⟩
  · exact absurd ((hf.managed r).symm.trans hm) Bool.false_ne_true
  · rw [hd] at hx; simp at hx
  · rw [hd] at hx; simp at hx
  · rw [hr] at hx; simp at hx
  · rw [hr] at hi; simp at hi

/-- In every state that a server with a transporter reaches, `update()` sends each removed and each dirty parameter
once, the removed ones first, and leaves nothing behind. -/
theorem flushesCompletely_run (mem : Memory) (ts : List Nat) (ops : List ServerOp)
    (ht : (run operate (start mem ts) ops).transporterList ≠ []) : (run operate (start mem ts) ops).FlushesCompletely := by
  have hstart : (start mem ts).store.Listed := by
    rw [store_start]
    exact listed_new mem
  exact flushesCompletely (Store.serverKept_listed.run ops (along_of_forall fun s op => op.handles_any s) hstart) ht

/-- Parameters that have been changed and removed while no transporter was there. -/
def lateTransporter : List ServerOp :=
  [.call (.create {} .createInt32Parameter [97] root), .call (.create {} .createStringParameter [98] root),
    .call (.set 1 (.definition (τ := .number .int32) (.number (.setMinimum 3)))), .call .update,
    .call (.removeParameter 2), .addTransporter 0]

theorem flushesCompletely_lateTransporter : (run operate (start {} []) lateTransporter).FlushesCompletely :=
  flushesCompletely_run {} [] lateTransporter (by decide)

end Server

end RabbitControl
