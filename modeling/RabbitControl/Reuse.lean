import RabbitControl.Flush

/-!
# Reuse of ids

An id is free as soon as its parameter is removed, but its removal is sent at the next `update()` only, and until then
a parameter of that id does not get onto the dirty list.  `reuse_safe` says when no harm is done: in every run that
does not give out an id whose removal has still to be sent, and in which no setter of a removed parameter whose id has
a new owner calls `setDirty`, the `REMOVE` packets name no parameter of the server, and every new parameter is sent.
-/

namespace RabbitControl

open Lib

namespace Store

variable {s t : Store} {r x g : Ref} {id : Id} {since : Ref}

/-- What holds between two calls of `update()`: the ids that wait for their removal to be sent have no owner, and the
parameters that are newer than the last `update()` are on the dirty list with a new parent. -/
structure Tracked (since : Ref) (s : Store) : Prop where
  linked : Linked s
  keyed : Keyed s
  built : ∀ {id : Id} {r : Ref}, s.dirtyParameter[id]? = some r → r < s.next
  removed : ∀ {id : Id} {r : Ref}, s.removedParameter[id]? = some r → s.idOf r = id ∧ r < s.next
  apart : ∀ {id : Id}, id ∈ s.removedParameter → s.params[id]? = none
  fresh : ∀ {r : Ref}, since ≤ r → s.Live r →
    s.dirtyParameter[s.idOf r]? = some r ∧ (s.heap r).parentChanged = true
  le : since ≤ s.next

theorem tracked_create (ht : Tracked since s) {mem : Memory} {f : CreateFunction} {label : Bytes}
    (hg : (s.heap g).isGroup = true) (hgn : g < s.next) (hid : s.nextId = some id)
    (hfree : id ∉ s.removedParameter) (hc : s.create mem f label g = some (r, t)) : Tracked since t := by
  obtain ⟨rfl, hb⟩ := born_of_create hid hc
  -- an entry of the dirty list is old or the new parameter
  have hd : ∀ {i : Id} {x : Ref}, t.dirtyParameter[i]? = some x →
      s.dirtyParameter[i]? = some x ∨ i = id ∧ x = s.next := by
    intro i x hx
    rcases hb.dirty with h | h <;> rw [h] at hx
    · exact Or.inl hx
    · rw [getElem?_insert_iff] at hx
      split at hx
      · next h => exact Or.inr ⟨h, (Option.some.inj hx).symm⟩
      · exact Or.inl hx
  have hdo : ∀ {i : Id}, i ≠ id → t.dirtyParameter[i]? = s.dirtyParameter[i]? := by
    intro i hi
    rcases hb.dirty with h | h <;> rw [h]
    rw [getElem?_insert_iff, if_neg hi]
  refine ⟨linked_create ht.linked hg hgn hc, fun {i x} hx => ?_, fun {i x} hx => ?_, fun {i x} hx => ?_,
    fun {i} hi => ?_, fun {x} hx hl => ?_, ?_⟩
  · rcases hd hx with h | ⟨rfl, rfl⟩
    · rw [hb.idOf (Nat.ne_of_lt (ht.built h)), ht.keyed h]
    · exact hb.idOf_new
  · rw [hb.next]
    rcases hd hx with h | ⟨-, rfl⟩
    · exact Nat.lt_succ_of_lt (ht.built h)
    · exact Nat.lt_succ_self _
  · rw [hb.removed] at hx
    obtain ⟨h1, h2⟩ := ht.removed hx
    rw [hb.idOf (Nat.ne_of_lt h2), hb.next]
    exact ⟨h1, Nat.lt_succ_of_lt h2⟩
  · rw [hb.removed] at hi
    rw [hb.params, getElem?_insert_iff, if_neg (fun h : i = id => hfree (h ▸ hi)), ht.apart hi]
  · rw [Live, hb.params, getElem?_insert_iff] at hl
    split at hl
    · next h =>
      rw [← Option.some.inj hl, hb.idOf_new]
      exact ⟨hb.marked hfree, (hb.parentChanged _).mpr (Or.inl rfl)⟩
    · next h =>
      have hne : x ≠ s.next := Nat.ne_of_lt (ht.linked.built hl)
      rw [hb.idOf hne] at hl h ⊢
      obtain ⟨h1, h2⟩ := ht.fresh hx hl
      exact ⟨(hdo h).trans h1, (hb.parentChanged x).mpr (Or.inr ⟨h2, hne⟩)⟩
  · rw [hb.next]
    exact Nat.le_succ_of_le ht.le

/-- A setter that does not take the place of another parameter on the dirty list. -/
theorem tracked_set (ht : Tracked since s) (hr : r < s.next) {a : Setter}
    (hown : ((s.heap r).apply a).2 = true → ∀ x, s.params[s.idOf r]? = some x → x = r) : Tracked since (s.set r a) := by
  have hs := sameTree_set s r a
  have hd := dirtyStep_set s r a
  have hrem := (frame_set s r a).removed
  refine ⟨ht.linked.congr hs, fun {i x} hx => ?_, fun {i x} hx => ?_, fun {i x} hx => ?_, fun {i} hi => ?_,
    fun {x} hx hl => ?_, ?_⟩
  · rw [hs.idOf]
    rcases hd.cases hx with h | ⟨hi, hxr⟩
    · exact ht.keyed h
    · rw [hi, hxr]
  · rw [hs.next]
    rcases hd.cases hx with h | ⟨-, hxr⟩
    · exact ht.built h
    · rw [hxr]; exact hr
  · rw [hrem] at hx
    rw [hs.idOf, hs.next]
    exact ht.removed hx
  · rw [hrem] at hi
    rw [hs.params]
    exact ht.apart hi
  · rw [hs.live] at hl
    obtain ⟨h1, h2⟩ := ht.fresh hx hl
    rw [hs.idOf]
    constructor
    · by_cases hi : s.idOf x = s.idOf r
      · rw [dirty_set]
        split
        · next hmarked =>
          have hxr : x = r := hown hmarked.1 x (by rw [← hi]; exact hl)
          rw [getElem?_insert_iff, if_pos hi, hxr]
        · exact h1
      · rw [hd.getElem? hi, h1]
    · rw [heap_set]
      split
      · next hxr => rw [Parameter.parentChanged_apply, ← hxr, h2]
      · exact h2
  · rw [hs.next]
    exact ht.le

theorem sameTree_setParameterRemoved (s : Store) (r : Ref) : SameTree s (s.setParameterRemoved r) :=
  sameTree_of_shape (fun _ => rfl) rfl rfl rfl

theorem tracked_removeParameter (ht : Tracked since s) (id : Id) : Tracked since (s.removeParameter id) := by
  unfold removeParameter
  split
  · exact ht
  split
  · exact ht
  next r hr =>
  have hlive := ht.linked.live hr
  have hs := sameTree_setParameterRemoved s r
  set u := s.setParameterRemoved r with hu
  have hud : ∀ i : Id, u.dirtyParameter[i]? = if i = s.idOf r then none else s.dirtyParameter[i]? :=
    fun i => getElem?_erase_iff
  have hur : ∀ i : Id, u.removedParameter[i]? = if i = s.idOf r then some r else s.removedParameter[i]? :=
    fun i => getElem?_insert_iff
  have hul : u.Live r := hs.live.mpr hlive
  have hp := pruned_removeParameterDirect (s.next + 1) (ht.linked.congr hs) hul
  have hgone := not_live_removeParameterDirect s.next (ht.linked.congr hs) hul
  refine ⟨hp.linked, fun {i x} hx => ?_, fun {i x} hx => ?_, fun {i x} hx => ?_, fun {i} hi => ?_,
    fun {x} hx hl => ?_, ?_⟩
  · rw [hp.frame.idOf]
    rcases hp.named hx with h | ⟨-, h⟩
    · rw [hud] at h
      split at h
      · simp at h
      · rw [hs.idOf]; exact ht.keyed h
    · exact h.symm
  · rw [hp.frame.next, hs.next]
    rcases hp.named hx with h | ⟨h, -⟩
    · rw [hud] at h
      split at h
      · simp at h
      · exact ht.built h
    · exact ht.linked.built (hs.live.mp h)
  · rw [hp.frame.removed, hur] at hx
    rw [hp.frame.idOf, hp.frame.next, hs.idOf, hs.next]
    split at hx
    · next hi =>
      rw [← Option.some.inj hx]
      exact ⟨hi.symm, ht.linked.built hlive⟩
    · exact ht.removed hx
  · rw [hp.frame.removed] at hi
    obtain ⟨x, hx⟩ := mem_iff_exists.mp hi
    cases hpar : (removeParameterDirect (s.next + 1) r u).params[i]? with
    | none => rfl
    | some y =>
      have hy := hp.kept hpar
      rw [hs.params] at hy
      rw [hur] at hx
      split at hx
      · next h =>
        rw [h] at hpar hy
        have hyr : y = r := Option.some.inj (hy.symm.trans hlive)
        rw [hyr] at hpar
        refine absurd ?_ hgone
        rw [Live, hp.frame.idOf, hs.idOf, hpar]
      · rw [ht.apart (mem_of_getElem? hx)] at hy
        simp at hy
  · have hls := hs.live.mp (hp.live hl)
    have hne : s.idOf x ≠ s.idOf r := fun h => hgone (hlive.eq_of_idOf hls h ▸ hl)
    obtain ⟨h1, h2⟩ := ht.fresh hx hls
    refine ⟨?_, (hp.parentChanged hl).trans h2⟩
    have hd := hp.dirty hl
    rw [hs.idOf] at hd
    rw [hp.frame.idOf, hs.idOf, hd, hud, if_neg hne, h1]
  · rw [hp.frame.next, hs.next]
    exact ht.le

/-- A full write of a parameter that has a parent does not forget that the parent has changed. -/
theorem parentChanged_write_full {p : Parameter} {idOf : Ref → Id} (hp : p.parent.isSome = true)
    (hc : p.parentChanged = true) :
    (p.write idOf true).2.parent.isSome = true ∧ (p.write idOf true).2.parentChanged = true := by
  have hshape : (p.write idOf true).2.parent = p.parent := congrArg Shape.parent (p.shape_write idOf true)
  have honly : p.onlyValueChanged = false := by
    rw [← Bool.not_eq_true]
    intro h
    have := Parameter.changed_eq_of_onlyValueChanged h (o := .parentId) hc
    simp at this
  rw [hshape]
  refine ⟨hp, ?_⟩
  rw [Parameter.write_of_not_onlyValueChanged _ honly]
  refine (Parameter.changed_writeFull_true .parentId).trans ?_
  rw [Bool.and_eq_true]
  exact ⟨hc, by simpa [Parameter.observe] using hp⟩

theorem tracked_writeFull (ht : Tracked since s) (l : List Ref) : Tracked since (writeFull l s).2 := by
  have hs := sameTree_writeFull l s
  obtain ⟨hd, hr⟩ := lists_writeFull l s
  refine ⟨ht.linked.congr hs, fun {i x} hx => ?_, fun {i x} hx => ?_, fun {i x} hx => ?_, fun {i} hi => ?_,
    fun {x} hx hl => ?_, ?_⟩
  · rw [hd] at hx
    rw [hs.idOf]
    exact ht.keyed hx
  · rw [hd] at hx
    rw [hs.next]
    exact ht.built hx
  · rw [hr] at hx
    rw [hs.idOf, hs.next]
    exact ht.removed hx
  · rw [hr] at hi
    rw [hs.params]
    exact ht.apart hi
  · rw [hs.live] at hl
    obtain ⟨h1, h2⟩ := ht.fresh hx hl
    obtain ⟨g, hg, -⟩ := ht.linked.parent hl
    rw [hs.idOf, hd]
    refine ⟨h1, (writeFull_invariant (P := fun p => p.parent.isSome = true ∧ p.parentChanged = true)
      (fun p idOf h => parentChanged_write_full h.1 h.2) l s ⟨?_, h2⟩).2⟩
    rw [Store.parent] at hg
    simp [hg]
  · rw [hs.next]
    exact ht.le

/-- With its lists emptied a store is up to date. -/
theorem tracked_of_empty (hs : Linked s) (hd : s.dirtyParameter = ∅) (hr : s.removedParameter = ∅) :
    Tracked s.next s := by
  refine ⟨hs, fun {i x} hx => ?_, fun {i x} hx => ?_, fun {i x} hx => ?_, fun {i} hi => ?_, fun {x} hx hl => ?_, le_rfl⟩
  · simp [hd] at hx
  · simp [hd] at hx
  · simp [hr] at hx
  · simp [hr] at hi
  · exact absurd (hs.built hl) (Nat.not_lt.mpr hx)

theorem next_new (mem : Memory) : (Server.new mem).store.next = 1 :=
  (frame_set (Store.empty mem) root (.label (.set rootLabel))).next

theorem linked_new (mem : Memory) : Linked (Server.new mem).store := by
  have hp : (Server.new mem).store.params = ∅ := by simp [Server.new, Store.empty]
  have hc : ∀ g, (Server.new mem).store.children g = ∅ := fun g => by rw [Server.new, children_set]; rfl
  refine ⟨⟨?_, ?_, ?_, ?_, ?_, ?_⟩, ?_⟩ <;> intros <;> simp_all

end Store

/-! ### Runs -/

/-- A server, and the reference that the next parameter had at the last `update()`. -/
structure Watched where
  server : Server
  since : Ref

namespace Watched

def call (w : Watched) (c : Call) : Watched where
  server := w.server.call c
  since := if c matches .update then w.server.store.next else w.since

/-- Creation in a group, setters of parameters that were created, removal, `INITIALIZE` requests and `update()`. -/
def InScope (w : Watched) : Call → Prop
  | .create _ _ _ g => (w.server.store.heap g).isGroup = true ∧ g < w.server.store.next
  | .set r _ => r < w.server.store.next
  | .removeParameter _ | .update => True
  | .receive _ _ data => IsInit data
  | .addChild _ _ => False

/-- The id that is given out does not wait for its removal to be sent, and no setter that calls `setDirty` is called on
a parameter that has been removed and whose id has a new owner. -/
def KeepsIdsApart (w : Watched) : Call → Prop
  | .create .. => ∀ id ∈ w.server.store.nextId, id ∉ w.server.store.removedParameter
  | .set r a => ((w.server.store.heap r).apply a).2 = true → ∀ x ∈ w.server.store.params[w.server.store.idOf r]?, x = r
  | _ => True

instance (w : Watched) : DecidablePred w.InScope
  | .create .. => inferInstanceAs (Decidable (_ ∧ _))
  | .set r _ => inferInstanceAs (Decidable (r < w.server.store.next))
  | .removeParameter _ | .update => inferInstanceAs (Decidable True)
  | .receive _ _ data => inferInstanceAs (Decidable (IsInit data))
  | .addChild _ _ => inferInstanceAs (Decidable False)

instance (w : Watched) : DecidablePred w.KeepsIdsApart
  | .create .. => @Option.decidableForallMem _ (· ∉ w.server.store.removedParameter) _ w.server.store.nextId
  | .set r _ =>
    have := @Option.decidableForallMem _ (· = r) _ w.server.store.params[w.server.store.idOf r]?
    inferInstanceAs (Decidable (_ → _))
  | .removeParameter _ | .update | .receive .. | .addChild .. => inferInstanceAs (Decidable True)

def start (mem : Memory) (ts : List Nat) : Watched := ⟨Server.start mem ts, 1⟩

/-- The next `update()` sends `REMOVE` for ids without a parameter only. -/
def RemovesAreGone (w : Watched) : Prop :=
  ∀ m ∈ w.server.update.1, m.command = .remove →
    ∃ id : Id, m.data = .id id ∧ w.server.store.params[id]? = none

/-- The next `update()` sends every parameter that was created since the last one and is still there. -/
def NewAreSent (w : Watched) : Prop :=
  ∀ r, w.since ≤ r → w.server.store.Live r →
    ∃ body, ⟨.update, .parameter body⟩ ∈ w.server.update.1 ∧ body.id = w.server.store.idOf r ∧ body.isFull = true

/-- The invariant of the runs. -/
structure Inv (w : Watched) : Prop where
  tracked : w.server.store.Tracked w.since
  transporters : w.server.transporterList ≠ []

theorem inv_call (w : Watched) (c : Call) (hc : w.InScope c ∧ w.KeepsIdsApart c) (hw : w.Inv) : (w.call c).Inv := by
  obtain ⟨hscope, hkeep⟩ := hc
  obtain ⟨ht, hts⟩ := hw
  cases c with
  | create mem f label g =>
    have hcall : w.call (.create mem f label g) = ⟨w.server.call (.create mem f label g), w.since⟩ := rfl
    rw [hcall, Server.call]
    cases hcr : w.server.store.create mem f label g with
    | none => exact ⟨ht, hts⟩
    | some p =>
      cases hid : w.server.store.nextId with
      | none => simp [Store.create, hid] at hcr
      | some id => exact ⟨Store.tracked_create ht hscope.1 hscope.2 hid (hkeep id hid) hcr, hts⟩
  | set r a => exact ⟨Store.tracked_set ht hscope hkeep, hts⟩
  | addChild g r => exact hscope.elim
  | removeParameter id => exact ⟨Store.tracked_removeParameter ht id, hts⟩
  | update =>
    obtain ⟨hd, hr⟩ := Server.lists_update hts
    have hs := Server.sameTree_update w.server
    have h := Store.tracked_of_empty (ht.linked.congr hs) hd hr
    rw [hs.next] at h
    refine ⟨h, ?_⟩
    rw [call, Server.call, Server.update, if_neg hts]
    exact hts
  | receive depth ch data =>
    have hcall : w.call (.receive depth ch data) = ⟨(w.server.received depth ch data).server, w.since⟩ := rfl
    rw [hcall, Server.received_of_init hscope]
    split
    · dsimp only
      rw [Server.sendAll_eq]
      exact ⟨Store.tracked_writeFull ht _, hts⟩
    · exact ⟨ht, hts⟩

theorem inv_start (mem : Memory) {ts : List Nat} (hts : ts ≠ []) : (start mem ts).Inv := by
  refine ⟨?_, Server.transporterList_start mem hts⟩
  show ((Server.start mem ts).store).Tracked 1
  rw [Server.store_start, ← Store.next_new mem]
  refine Store.tracked_of_empty (Store.linked_new mem) ?_ ?_
  · simp [Server.new, Store.empty, Store.dirty_set, Parameter.create]
  · exact (Store.frame_set _ _ _).removed

/-- In every run that keeps ids apart, `update()` sends `REMOVE` for ids without a parameter only, and it sends every
parameter that was created since the last `update()` and is still there. -/
theorem reuse_safe (mem : Memory) (ts : List Nat) (cs : List Call) (hts : ts ≠ [])
    (h : Along call (fun w c => w.InScope c ∧ w.KeepsIdsApart c) (start mem ts) cs) :
    (run call (start mem ts) cs).RemovesAreGone ∧ (run call (start mem ts) cs).NewAreSent := by
  obtain ⟨ht, hnil⟩ := along_invariant inv_call h (inv_start mem hts)
  set w := run call (start mem ts) cs
  rw [RemovesAreGone, NewAreSent, Server.packets_update ht.keyed hnil]
  refine ⟨fun m hm hcmd => ?_, fun r hr hl => ?_⟩
  · rcases List.mem_append.mp hm with hm | hm
    · obtain ⟨⟨id, r⟩, he, rfl⟩ := List.mem_map.mp hm
      rw [Std.ExtTreeMap.mem_toList_iff_getElem?_eq_some] at he
      exact ⟨id, by rw [(ht.removed he).1], ht.apart (mem_of_getElem? he)⟩
    · obtain ⟨r, -, rfl⟩ := List.mem_map.mp hm
      simp only [Store.packet] at hcmd
      split at hcmd <;> simp at hcmd
  · obtain ⟨hd, hc⟩ := ht.fresh hr hl
    have honly : (w.server.store.heap r).onlyValueChanged = false := by
      rw [← Bool.not_eq_true]
      intro h
      have := Parameter.changed_eq_of_onlyValueChanged h (o := .parentId) hc
      simp at this
    refine ⟨((w.server.store.heap r).write w.server.store.idOf false).1, List.mem_append_right _ ?_, ?_, ?_⟩
    · exact List.mem_map.mpr ⟨r, Store.mem_dirtyRefs.mpr ⟨_, hd⟩, by simp [Store.packet, honly]⟩
    · rw [Parameter.write_of_not_onlyValueChanged _ honly]
      rfl
    · rw [Parameter.isFull_write, honly]
      rfl

/-- A parameter is sent and removed, and its removal is sent before its id is given out again. -/
def promptRemoval : List Call :=
  [.create {} .createBooleanParameter [] root, .update, .set 1 (.setValue (τ := .boolean) true), .removeParameter 1,
    .update, .create {} .createGroupParameter [] root, .receive 3 ⟨{}, fun _ => 0⟩ [2, 0]]

theorem reuse_safe_promptRemoval :
    (run call (start {} [0]) promptRemoval).RemovesAreGone ∧ (run call (start {} [0]) promptRemoval).NewAreSent :=
  reuse_safe {} [0] promptRemoval (by decide) (by decide)

/-- The id is given out before the removal of its last owner is sent. -/
def lateRemoval : List Call :=
  [.create {} .createBooleanParameter [] root, .update, .removeParameter 1,
    .create {} .createBooleanParameter [] root]

/-- Clients are told to remove the new parameter, and the new parameter is not sent. -/
theorem lateRemoval_unsafe :
    ¬(run call (start {} [0]) lateRemoval).RemovesAreGone ∧ ¬(run call (start {} [0]) lateRemoval).NewAreSent := by
  have hsent : (run call (start {} [0]) lateRemoval).server.update.1 = [⟨.remove, .id 1⟩] := by decide
  constructor
  · intro h
    obtain ⟨id, hid, hp⟩ := h ⟨.remove, .id 1⟩ (by rw [hsent]; exact List.mem_singleton.mpr rfl) rfl
    obtain rfl := MessageData.id.inj hid
    exact absurd hp (by decide)
  · intro h
    obtain ⟨body, hm, -⟩ := h 2 (by decide) (by decide : _ = _)
    rw [hsent] at hm
    simp at hm

end Watched

end RabbitControl
