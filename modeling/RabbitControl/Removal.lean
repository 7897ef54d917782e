import RabbitControl.ClientLemmas
import RabbitControl.GroupTree

/-!
# Removal on both sides

`removeParameter` of a group puts the group into `removedParameter`, and then clears the parents of its descendants,
which puts these onto the dirty list: the next `update()` removes the group from the clients and sends its descendants
again.  `removal_agrees_iff` says that server and clients agree exactly if the removed parameter has no children.
-/

namespace RabbitControl

open Lib

namespace Store

variable {s t : Store} {r x g c : Ref} {id : Id}

/-! ### Stores of a server -/

/-- What holds between two calls: the dirty list names parameters of the server only, and the ids that wait for their
removal to be sent have no owner. -/
structure Settled (s : Store) : Prop extends Linked s, Anchored s where
  known : ∀ {id : Id} {r : Ref}, s.params[id]? = some r → (s.heap r).known = true
  rootless : (s.heap root).managed = false
  base : root < s.next
  dirtyLive : ∀ {id : Id} {r : Ref}, s.dirtyParameter[id]? = some r → s.params[id]? = some r
  removed : ∀ {id : Id} {r : Ref}, s.removedParameter[id]? = some r → s.idOf r = id ∧ r < s.next
  apart : ∀ {id : Id}, id ∈ s.removedParameter → s.params[id]? = none

theorem Settled.keyed (hs : Settled s) : s.Keyed := fun h => hs.idOf (hs.dirtyLive h)

/-- Steps that keep the tree. -/
theorem Settled.congr (hs : Settled s) (h : SameTree s t)
    (hd : ∀ {id : Id} {r : Ref}, t.dirtyParameter[id]? = some r → s.params[id]? = some r)
    (hr : ∀ {id : Id} {r : Ref}, t.removedParameter[id]? = some r → s.removedParameter[id]? = some r) : Settled t := by
  refine ⟨hs.toLinked.congr h, ⟨(h.idOf root).trans hs.rootId, fun hc hg => ?_⟩, fun hx => ?_, ?_, ?_, fun hx => ?_,
    fun hx => ?_, fun hi => ?_⟩
  · rw [h.parent] at hg
    exact (or_congr_right h.live).mpr (hs.held (h.live.mp hc) hg)
  · rw [h.params] at hx
    rw [Parameter.known, h.datatype]
    exact hs.known hx
  · rw [h.managed, hs.rootless]
  · rw [h.next]; exact hs.base
  · rw [h.params]; exact hd hx
  · rw [h.idOf, h.next]; exact hs.removed (hr hx)
  · obtain ⟨x, hx⟩ := mem_iff_exists.mp hi
    rw [h.params]
    exact hs.apart (mem_of_getElem? (hr hx))

theorem settled_set (hs : Settled s) (hr : s.Held r) (a : Setter) : Settled (s.set r a) := by
  refine hs.congr (sameTree_set s r a) (fun {id x} hx => ?_) fun hx => by rwa [(frame_set s r a).removed] at hx
  rw [dirty_set] at hx
  split at hx
  · next hcond =>
    -- the root group has no manager
    have hl : s.Live r := hr.resolve_left fun h => by rw [h, hs.rootless] at hcond; simp at hcond
    rw [getElem?_insert_iff] at hx
    split at hx
    · next hi => rw [hi, ← Option.some.inj hx]; exact hl
    · exact hs.dirtyLive hx
  · exact hs.dirtyLive hx

theorem settled_addChild (hs : Settled s) (hg : (s.heap g).isGroup = true) (hh : s.Held g) (hx : s.Live x) :
    Settled (s.addChild g x) := by
  obtain ⟨hl, hp⟩ := linked_addChild (hs.toLinked.but _) hs.toAnchored hx hg (hs.held_lt hs.base hh) hh
  have ht := touched_addChild s g x
  have hlive : ∀ {c : Ref}, (s.addChild g x).Live c ↔ s.Live c := by
    intro c
    rw [Live, Live, ht.params, ht.frame.idOf]
  refine ⟨hl, ⟨(ht.frame.idOf root).trans hs.rootId, fun hc hpar => ?_⟩, fun hy => ?_, ?_, ?_,
    fun hy => ?_, fun hy => ?_,
    fun hi => ?_⟩
  · refine (or_congr_right hlive).mpr ?_
    rw [hp] at hpar
    split at hpar
    · rw [← Option.some.inj hpar]; exact hh
    · exact hs.held (hlive.mp hc) hpar
  · rw [ht.params] at hy
    rw [Parameter.known, ht.frame.datatype]
    exact hs.known hy
  · rw [ht.frame.managed, hs.rootless]
  · rw [ht.frame.next]; exact hs.base
  · rw [ht.params]
    rcases ht.dirty.cases hy with h | ⟨hi, hyx⟩
    · exact hs.dirtyLive h
    · rw [hi, hyx]; exact hx
  · rw [ht.frame.removed] at hy
    rw [ht.frame.idOf, ht.frame.next]
    exact hs.removed hy
  · rw [ht.frame.removed] at hi
    rw [ht.params]
    exact hs.apart hi

theorem settled_create (hs : Settled s) (hg : (s.heap g).isGroup = true) (hh : s.Held g) {mem : Memory}
    {f : CreateFunction} {label : Bytes} (hid : s.nextId = some id) (hfree : id ∉ s.removedParameter)
    (hc : s.create mem f label g = some (r, t)) : Settled t := by
  obtain ⟨rfl, hb⟩ := born_of_create hid hc
  have hlt : ∀ {y : Ref}, s.Held y → y ≠ s.next := fun hy => Nat.ne_of_lt (hs.held_lt hs.base hy)
  have hparams : ∀ {i : Id} {x : Ref}, s.params[i]? = some x → t.params[i]? = some x ∧ x ≠ s.next := by
    intro i x hx
    refine ⟨?_, Nat.ne_of_lt (hs.built hx)⟩
    rw [hb.params, getElem?_insert_iff, if_neg fun h : i = id => hb.free (h ▸ hs.taken hx), hx]
  have hheld : ∀ {y : Ref}, s.Held y → t.Held y := by
    intro y hy
    rcases hy with rfl | hy
    · exact Or.inl rfl
    · refine Or.inr ?_
      rw [Live, hb.idOf (hparams hy).2]
      exact (hparams hy).1
  have hold : ∀ {i : Id} {x : Ref}, t.params[i]? = some x → i = id ∧ x = s.next ∨ s.params[i]? = some x := by
    intro i x hx
    rw [hb.params, getElem?_insert_iff] at hx
    split at hx
    · next h => exact Or.inl ⟨h, (Option.some.inj hx).symm⟩
    · exact Or.inr hx
  refine ⟨linked_create hs.toLinked hg (hs.held_lt hs.base hh) hc, ⟨?_, fun {c g'} hl hp => ?_⟩, fun {i x} hx => ?_, ?_,
    ?_, fun {i x} hx => ?_, fun {i x} hx => ?_, fun {i} hi => ?_⟩
  · rw [hb.idOf (hlt (Or.inl rfl)), hs.rootId]
  · rw [hb.parent] at hp
    split at hp
    · rw [← Option.some.inj hp]; exact hheld hh
    · next hcn =>
      refine hheld (hs.held ?_ hp)
      rcases hold hl with ⟨-, h⟩ | h
      · exact absurd h hcn
      · rwa [hb.idOf hcn] at h
  · rcases hold hx with ⟨-, rfl⟩ | h
    · exact hb.known_new
    · rw [hb.known (hparams h).2]; exact hs.known h
  · rw [hb.managed (hlt (Or.inl rfl)), hs.rootless]
  · rw [hb.next]; exact Nat.lt_succ_of_lt hs.base
  · rcases hb.dirty with h | h <;> rw [h] at hx
    · exact (hparams (hs.dirtyLive hx)).1
    · rw [getElem?_insert_iff] at hx
      rw [hb.params, getElem?_insert_iff]
      split at hx
      · next hi => rw [if_pos hi]; exact hx
      · next hi => rw [if_neg hi]; exact hs.dirtyLive hx
  · rw [hb.removed] at hx
    obtain ⟨h1, h2⟩ := hs.removed hx
    rw [hb.idOf (Nat.ne_of_lt h2), hb.next]
    exact ⟨h1, Nat.lt_succ_of_lt h2⟩
  · rw [hb.removed] at hi
    rw [hb.params, getElem?_insert_iff, if_neg fun h : i = id => hfree (h ▸ hi), hs.apart hi]

/-- No child but itself. -/
def IsLeaf (s : Store) (r : Ref) : Prop := ∀ c ∈ s.childRefs r, c = r

theorem IsLeaf.eq (h : s.IsLeaf r) {i : Id} (hc : (s.children r)[i]? = some c) : c = r :=
  h c (List.mem_map.mpr ⟨(i, c), Std.ExtTreeMap.mem_toList_iff_getElem?_eq_some.mpr hc, rfl⟩)

instance (s : Store) (r : Ref) : Decidable (s.IsLeaf r) := inferInstanceAs (Decidable (∀ c ∈ s.childRefs r, c = r))

/-- A leaf is removed alone. -/
theorem removeParameter_of_leaf (hs : Settled s) (hr : s.params[id]? = some r) (hleaf : s.IsLeaf r) :
    s.removeParameter id = (s.setParameterRemoved r).unlink r := by
  have hl := hs.live hr
  have h0 : id ≠ 0 := fun h => hs.idOf_ne_zero hl (by rw [hs.idOf hr, h])
  have hst := sameTree_setParameterRemoved s r
  rw [removeParameter, if_neg h0, hr]
  exact removeParameterDirect_of_leaf s.next (hs.toCached.congr hst) (hst.live.mpr hl)
    fun hc => hleaf.eq (by rwa [hst.children] at hc)

theorem settled_removeParameter (hs : Settled s) (hr : s.params[id]? = some r) (hleaf : s.IsLeaf r) :
    Settled (s.removeParameter id) := by
  have hl := hs.live hr
  have hst := sameTree_setParameterRemoved s r
  rw [removeParameter_of_leaf hs hr hleaf]
  set u := s.setParameterRemoved r with hu
  have hul : u.Live r := hst.live.mpr hl
  have hf := frame_unlink u r
  have hp : ∀ {i : Id} {x : Ref}, (u.unlink r).params[i]? = some x → i ≠ s.idOf r ∧ s.params[i]? = some x ∧ x ≠ r := by
    intro i x hx
    rw [getElem?_params_unlink, hst.idOf, hst.params] at hx
    split at hx
    · simp at hx
    · next hne => exact ⟨hne, hx, fun h => hne (by rw [← hs.idOf hx, h])⟩
  have hlive : ∀ {y : Ref}, s.Live y → y ≠ r → (u.unlink r).Live y := by
    intro y hy hne
    rw [Live, getElem?_params_unlink, hf.idOf, hst.idOf, hst.idOf, hst.params, if_neg fun h => hne (hl.eq_of_idOf hy h)]
    exact hy
  have hrem : ∀ i : Id, (u.unlink r).removedParameter[i]? = if i = s.idOf r then some r else s.removedParameter[i]? :=
    fun i => by rw [hf.removed]; exact getElem?_insert_iff
  have hdirty : ∀ i : Id, (u.unlink r).dirtyParameter[i]? = if i = s.idOf r then none else s.dirtyParameter[i]? := by
    intro i
    rw [dirty_unlink_of_removed (mem_of_getElem? (show u.removedParameter[u.idOf r]? = some r from by
      rw [hst.idOf, ← hf.removed, hrem, if_pos rfl]))]
    exact getElem?_erase_iff
  refine ⟨linked_unlink (hs.toLinked.congr hst) hul, ⟨(hf.idOf root).trans ((hst.idOf root).trans hs.rootId),
    fun {y g} hy hg => ?_⟩, fun {i x} hx => ?_, ?_, ?_, fun {i x} hx => ?_, fun {i x} hx => ?_, fun {i} hi => ?_⟩
  · obtain ⟨-, hy, hne⟩ := hp hy
    have hyl := hs.live hy
    rw [parent_unlink hne, hst.parent] at hg
    rcases hs.held hyl hg with hroot | hgl
    · exact Or.inl hroot
    · refine Or.inr (hlive hgl fun hgr => ?_)
      -- a child of the leaf would be the leaf itself
      obtain ⟨g', hg', hc⟩ := hs.parent hyl
      rw [show g' = r from (Option.some.inj (hg'.symm.trans hg)).trans hgr] at hc
      exact hne (hleaf.eq hc)
  · rw [Parameter.known, hf.datatype, hst.datatype]
    exact hs.known (hp hx).2.1
  · rw [hf.managed, hst.managed, hs.rootless]
  · rw [hf.next, hst.next]; exact hs.base
  · rw [hdirty] at hx
    rw [getElem?_params_unlink, hst.idOf, hst.params]
    split at hx
    · simp at hx
    · next hne => rw [if_neg hne]; exact hs.dirtyLive hx
  · rw [hrem] at hx
    rw [hf.idOf, hf.next, hst.idOf, hst.next]
    split at hx
    · next hi => rw [← Option.some.inj hx]; exact ⟨hi.symm, hs.built hl⟩
    · exact hs.removed hx
  · rw [getElem?_params_unlink, hst.idOf, hst.params]
    split
    · rfl
    · next hne =>
      obtain ⟨x, hx⟩ := mem_iff_exists.mp hi
      rw [hrem, if_neg hne] at hx
      exact hs.apart (mem_of_getElem? hx)

end Store

/-! ### Clients -/

/-- Messages are received one after the other. -/
def Client.process (c : Client) (ms : List (Chance × Message)) : Client :=
  ms.foldl (fun c m => (c.received m.1 m.2.bytes).1) c

namespace Store

variable {c s t : Store} {i : Id} {r x : Ref}

/-- The client's store has the same ids and the same tree as the server's. -/
structure Mirrors (c s : Store) : Prop where
  cached : Cached c
  ids : ∀ i : Id, i ∈ c.params ↔ i ∈ s.params
  tree : ∀ {i : Id} {x r : Ref}, c.params[i]? = some x → s.params[i]? = some r →
    ∀ j : Id, j ∈ c.children x ↔ j ∈ s.children r

theorem mirrors_self (hs : Cached s) : Mirrors s s := by
  refine ⟨hs, fun _ => Iff.rfl, fun hx hr _ => ?_⟩
  rw [Option.some.inj (hx.symm.trans hr)]

end Store

namespace Client

open Store

variable {c : Client} {ch : Chance} {data : Bytes} {i : Id}

/-- A client takes a message that announces one of its ids as no reason to add or remove a parameter. -/
theorem params_received (hc : c.store.Allocated) (hann : announcedId data = some i) (hi : i ∈ c.store.params) :
    (c.received ch data).1.store.params = c.store.params ∧ (c.received ch data).1.store.Allocated := by
  have done : ∀ {t : Store}, t.params = c.store.params → c.store.next ≤ t.next →
      t.params = c.store.params ∧ t.Allocated := by
    intro t hp hn
    refine ⟨hp, fun hr => ?_⟩
    rw [hp] at hr
    exact Nat.lt_of_lt_of_le (hc hr) hn
  obtain ⟨-, h⟩ := parse_cases hc ch data
  have hother : commandOf data ≠ some .remove := by
    rcases command_of_announcedId hann with h | h <;> rw [h] <;> decide
  rcases h with ⟨hstate, -, -, hnone⟩ | ⟨_, _, p, q, hpk, -, hheap, h⟩
  · rw [received_of_no_parameter hother fun _ => hnone, hstate]
    exact done rfl (Nat.le_refl _)
  · have hnext : c.store.next ≤ (c.store.parse ch data).state.next := by rw [h.next]; exact Nat.le_succ _
    by_cases hv : (c.store.parse ch data).verdict = .accepted
    · have hp : (c.store.parse ch data).packet.bind Packet.parameter = some p := by rw [hpk]; rfl
      rw [received_of_parameter hv hp]
      -- the parsed parameter has the announced id
      have hid : (c.store.parse ch data).state.idOf c.store.next = i := by
        rw [Store.idOf, hheap]
        exact Option.some.inj ((Store.identity_of_parse hp).1.symm.trans hann)
      obtain ⟨h1, h2⟩ := params_applyUpdate (s := (c.store.parse ch data).state) (r := c.store.next)
        (by rw [hid, h.params]; exact hi)
      exact done (h1.trans h.params) (hnext.trans_eq h2.symm)
    · rw [received_of_no_parameter hother fun h => absurd h hv]
      exact done h.params hnext

theorem received_remove (c : Client) (ch : Chance) (i : Id) :
    c.received ch (Message.bytes ⟨.remove, .id i⟩) = ({ c with store := applyRemove i c.store }, []) := by
  unfold received
  rw [parse_remove]

theorem applyRemove_of_notMem {s : Store} (hi : i ∉ s.params) : applyRemove i s = s := by
  rw [applyRemove, getElem?_eq_none_of_notMem hi]

/-- A leaf is removed alone from the client as well. -/
theorem params_applyRemove {s : Store} {x : Ref} (hs : Cached s) (hx : s.params[i]? = some x)
    (hleaf : ∀ {j : Id} {y : Ref}, (s.children x)[j]? = some y → y = x) :
    (applyRemove i s).params = s.params.erase i ∧ (applyRemove i s).next = s.next := by
  have hl := hs.live hx
  rw [applyRemove, hx]
  dsimp only
  rw [if_pos (hs.valid hx), removeParameterDirect_of_leaf _ hs hl hleaf, params_unlink, hs.idOf hx]
  exact ⟨rfl, (frame_unlink s x).next⟩

end Client

/-! ### Agreement -/

namespace Server

open Store

variable {s : Server} {id : Id} {r : Ref}

/-- The client's store after the removal: it has the ids that are left on the server. -/
structure Follows (c t : Store) : Prop where
  allocated : c.Allocated
  ids : ∀ i : Id, i ∈ c.params ↔ i ∈ t.params

/-- `REMOVE` packets: the one for the removed leaf is obeyed, those for ids without an owner have no effect. -/
private theorem follows_removes {s t : Store} (hs : Settled s) (hr : s.params[id]? = some r) (hleaf : s.IsLeaf r)
    (ht : t.params = s.params.erase id) (l : List (Chance × Id)) (hl : ∀ e ∈ l, e.2 = id ∨ e.2 ∉ s.params) (c : Client)
    (hc : Mirrors c.store s ∧ id ∈ l.map Prod.snd ∨ Follows c.store t) :
    Follows (c.process (l.map fun e => (e.1, ⟨.remove, .id e.2⟩))).store t := by
  have hsub : ∀ {i : Id}, i = id ∨ i ∉ s.params → i ∉ t.params := by
    intro i hi hm
    rw [ht, mem_erase_iff] at hm
    exact hi.elim hm.1 (· hm.2)
  induction l generalizing c with
  | nil => exact hc.resolve_left fun h => by simpa using h.2
  | cons e l ih =>
    have he := hl e (List.mem_cons_self ..)
    rw [List.map_cons, Client.process, List.foldl_cons, Client.received_remove]
    refine ih (fun e' he' => hl e' (List.mem_cons_of_mem _ he')) _ ?_
    dsimp only
    rcases hc with ⟨hm, hmem⟩ | hf
    · by_cases hei : e.2 = id
      · refine Or.inr ?_
        rw [hei]
        obtain ⟨x, hx⟩ := mem_iff_exists.mp ((hm.ids id).mpr (mem_of_getElem? hr))
        have hxleaf : ∀ {j : Id} {y : Ref}, (c.store.children x)[j]? = some y → y = x := by
          intro j y hy
          obtain ⟨z, hz⟩ := mem_iff_exists.mp ((hm.tree hx hr j).mp (mem_of_getElem? hy))
          have hj : j = id := by rw [← hs.idOf (hs.child hz).1, hleaf.eq hz, hs.idOf hr]
          have hy' := (hm.cached.child hy).1
          rw [hj, hx] at hy'
          exact (Option.some.inj hy').symm
        obtain ⟨h1, h2⟩ := Client.params_applyRemove hm.cached hx hxleaf
        refine ⟨fun hy => ?_, fun i => ?_⟩
        · rw [h1, getElem?_erase_iff] at hy
          rw [h2]
          split at hy
          · simp at hy
          · exact hm.cached.built hy
        · rw [h1, ht, mem_erase_iff, mem_erase_iff, hm.ids]
      · rw [Client.applyRemove_of_notMem fun hmem => he.resolve_left hei ((hm.ids _).mp hmem)]
        refine Or.inl ⟨hm, ?_⟩
        rw [List.map_cons, List.mem_cons] at hmem
        exact hmem.resolve_left (Ne.symm hei)
    · rw [Client.applyRemove_of_notMem fun hmem => hsub he ((hf.ids _).mp hmem)]
      exact Or.inr hf

/-- Messages of one kind, whatever chance they meet. -/
private theorem exists_map_pair {α β γ : Type} (f : γ → β) (l : List (α × β)) (ks : List γ)
    (h : l.map Prod.snd = ks.map f) :
    ∃ l' : List (α × γ), l = l'.map (fun e => (e.1, f e.2)) ∧ l'.map Prod.snd = ks := by
  induction l generalizing ks with
  | nil => exact ⟨[], rfl, (List.map_eq_nil_iff.mp h.symm).symm⟩
  | cons e l ih =>
    obtain ⟨k, ks, rfl, hk, hks⟩ := List.map_eq_cons_iff.mp h.symm
    obtain ⟨l', rfl, rfl⟩ := ih ks hks.symm
    exact ⟨(e.1, k) :: l', by rw [List.map_cons, hk], rfl⟩

/-- Packets for parameters that both sides have. -/
private theorem follows_updates {t : Store} (l : List (Chance × Message))
    (hl : ∀ e ∈ l, ∃ i, announcedId e.2.bytes = some i ∧ i ∈ t.params) (c : Client) (hc : Follows c.store t) :
    Follows (c.process l).store t := by
  induction l generalizing c with
  | nil => exact hc
  | cons e l ih =>
    rw [List.forall_mem_cons] at hl
    obtain ⟨⟨i, hann, hi⟩, hl⟩ := hl
    obtain ⟨hp, ha⟩ := Client.params_received hc.allocated hann ((hc.ids i).mpr hi)
    exact ih hl _ ⟨ha, fun j => by rw [hp, hc.ids]⟩

/-- What the removal of a parameter and the `update()` after it come to. -/
structure RemovalAgrees (s : Server) (id : Id) (r : Ref) : Prop where
  /-- A client with the same ids and the same tree ends up with the ids of the server. -/
  agree : ∀ c : Client, Mirrors c.store s.store → ∀ ms : List (Chance × Message),
    ms.map Prod.snd = (s.call (.removeParameter id)).emitted .update → ∀ i : Id,
      i ∈ (c.process ms).store.params ↔ i ∈ (run call s [.removeParameter id, .update]).store.params
  /-- Neither the dirty list nor a packet names a descendant. -/
  silent : ∀ x, Below s.store.childRefs r x → x ≠ r →
    s.store.idOf x ∉ (s.call (.removeParameter id)).store.dirtyParameter ∧
      ∀ m ∈ (s.call (.removeParameter id)).emitted .update, m.data.parameterId ≠ some (s.store.idOf x)

theorem removalAgrees_of_leaf (hs : Settled s.store) (hts : s.transporterList ≠ [])
    (hr : s.store.params[id]? = some r) (hleaf : s.store.IsLeaf r) : s.RemovalAgrees id r := by
  set t := s.call (.removeParameter id) with ht
  have hst : Settled t.store := settled_removeParameter hs hr hleaf
  have hstore : t.store = (s.store.setParameterRemoved r).unlink r := removeParameter_of_leaf hs hr hleaf
  have hparams : t.store.params = s.store.params.erase id := by
    rw [hstore, params_unlink, (sameTree_setParameterRemoved s.store r).idOf, hs.idOf hr,
      (sameTree_setParameterRemoved s.store r).params]
  have hremoved : ∀ i : Id, t.store.removedParameter[i]? = if i = id then some r else s.store.removedParameter[i]? := by
    intro i
    rw [hstore, (frame_unlink _ r).removed]
    exact (getElem?_insert_iff).trans (by rw [hs.idOf hr])
  have hsent : t.emitted .update =
      (t.store.removedParameter.toList.map fun e => ⟨.remove, .id e.1⟩) ++ t.store.dirtyRefs.map t.store.packet := by
    refine (packets_update hst.keyed hts).trans (congrArg (· ++ _) (List.map_congr_left fun e he => ?_))
    rw [(hst.removed (Std.ExtTreeMap.mem_toList_iff_getElem?_eq_some.mp he)).1]
  have hbelow : ∀ {x : Ref}, Below s.store.childRefs r x → x = r := by
    intro x hb
    induction hb with
    | refl => rfl
    | tail _ hc ih => rw [ih] at hc; exact hleaf _ hc
  refine ⟨fun c hm ms hms i => ?_, fun x hb hx => absurd (hbelow hb) hx⟩
  · rw [run_cons, run_cons, run_nil, ← ht, show (t.call .update).store.params = t.store.params from
      (sameTree_update t).params]
    refine Follows.ids ?_ i
    rw [hsent] at hms
    obtain ⟨l₁, l₂, rfl, h1, h2⟩ := List.map_eq_append_iff.mp hms
    obtain ⟨l₁, rfl, hkeys⟩ := exists_map_pair (fun i : Id => (⟨.remove, .id i⟩ : Message)) l₁
      (t.store.removedParameter.toList.map Prod.fst) (by rw [h1, List.map_map]; rfl)
    have hmem : ∀ j : Id, j ∈ l₁.map Prod.snd ↔ ∃ x, t.store.removedParameter[j]? = some x := by
      intro j
      rw [hkeys, List.mem_map]
      constructor
      · rintro ⟨⟨j, x⟩, he, rfl⟩
        exact ⟨x, Std.ExtTreeMap.mem_toList_iff_getElem?_eq_some.mp he⟩
      · rintro ⟨x, hx⟩
        exact ⟨(j, x), Std.ExtTreeMap.mem_toList_iff_getElem?_eq_some.mpr hx, rfl⟩
    rw [Client.process, List.foldl_append]
    refine follows_updates l₂ (fun e he => ?_) _ (follows_removes hs hr hleaf hparams l₁ (fun e he => ?_) c
      (Or.inl ⟨hm, (hmem id).mpr ⟨r, by rw [hremoved, if_pos rfl]⟩⟩))
    · obtain ⟨x, hx, hex⟩ := List.mem_map.mp (h2 ▸ List.mem_map_of_mem he)
      obtain ⟨j, hj⟩ := mem_dirtyRefs.mp hx
      have hp := hst.dirtyLive hj
      refine ⟨j, ?_, mem_of_getElem? hp⟩
      rw [← hex, packet, announcedId_write (hst.known hp) _ _ (by split <;> simp)]
      exact congrArg some (hst.idOf hp)
    · obtain ⟨x, hx⟩ := (hmem e.2).mp (List.mem_map_of_mem he)
      rw [hremoved] at hx
      by_cases hei : e.2 = id
      · exact Or.inl hei
      · rw [if_neg hei] at hx
        refine Or.inr fun hmem => ?_
        obtain ⟨y, hy⟩ := mem_iff_exists.mp hmem
        rw [hs.apart (mem_of_getElem? hx)] at hy
        simp at hy

/-- A child of the removed parameter is sent again. -/
theorem not_removalAgrees_of_child (hs : Settled s.store) (hr : s.store.params[id]? = some r)
    (hleaf : ¬s.store.IsLeaf r) : ¬s.RemovalAgrees id r := by
  intro h
  rw [IsLeaf] at hleaf
  push Not at hleaf
  obtain ⟨c, hc, hcr⟩ := hleaf
  refine (h.silent c (.single hc) hcr).1 ?_
  obtain ⟨⟨j, c⟩, hmem, rfl⟩ := List.mem_map.mp hc
  have hj : (s.store.children r)[j]? = some c := Std.ExtTreeMap.mem_toList_iff_getElem?_eq_some.mp hmem
  have hst := sameTree_setParameterRemoved s.store r
  have hl := hs.live hr
  have h0 : id ≠ 0 := fun h => hs.idOf_ne_zero hl (by rw [hs.idOf hr, h])
  obtain ⟨n, hn⟩ := Nat.exists_eq_succ_of_ne_zero (Nat.ne_of_gt (Nat.lt_of_le_of_lt (Nat.zero_le _) (hs.built hr)))
  have hidc : s.store.idOf c = j := hs.idOf (hs.child hj).1
  have hjr : j ≠ s.store.idOf r := fun h => hcr (hl.eq_of_idOf (hs.child_live hj) (hidc.trans h))
  show s.store.idOf c ∈ (s.store.removeParameter id).dirtyParameter
  rw [hidc, removeParameter, if_neg h0, hr, hn]
  refine child_mem_dirty n (hs.toLinked.congr hst) (hst.live.mpr hl) (by rw [hst.children]; exact hj) hcr fun hrem => ?_
  obtain ⟨x, hx⟩ := mem_iff_exists.mp hrem
  rw [setParameterRemoved, getElem?_insert_iff, if_neg hjr] at hx
  have hnone := hs.apart (mem_of_getElem? hx)
  rw [(hs.child hj).1] at hnone
  simp at hnone

/-! ### Runs -/

/-- Calls on parameters that the server holds.  No group is removed with its children, and no id is given out whose
removal has not been sent. -/
def RemovalScope (s : Server) : Call → Prop
  | .create _ _ _ g => (s.store.heap g).isGroup = true ∧ s.store.Held g ∧
    ∀ id ∈ s.store.nextId, id ∉ s.store.removedParameter
  | .set r _ => s.store.Held r
  | .addChild g x => (s.store.heap g).isGroup = true ∧ s.store.Held g ∧ s.store.Live x
  | .removeParameter id => ∀ r, s.store.params[id]? = some r → s.store.IsLeaf r
  | .update => True
  | .receive _ _ data => IsInit data

theorem settled_call (s : Server) (c : Call) (hc : s.RemovalScope c)
    (hs : Settled s.store ∧ s.transporterList ≠ []) : Settled (s.call c).store ∧ (s.call c).transporterList ≠ [] := by
  obtain ⟨hs, hts⟩ := hs
  cases c with
  | create mem f label g =>
    rw [call]
    cases hcr : s.store.create mem f label g with
    | none => exact ⟨hs, hts⟩
    | some p =>
      cases hid : s.store.nextId with
      | none => simp [Store.create, hid] at hcr
      | some id => exact ⟨settled_create hs hc.1 hc.2.1 hid (hc.2.2 id hid) hcr, hts⟩
  | set r a => exact ⟨settled_set hs hc a, hts⟩
  | addChild g x => exact ⟨settled_addChild hs hc.1 hc.2.1 hc.2.2, hts⟩
  | removeParameter id =>
    refine ⟨?_, hts⟩
    show Settled (s.store.removeParameter id)
    cases hr : s.store.params[id]? with
    | none => rw [removeParameter, hr]; split <;> exact hs
    | some r => exact settled_removeParameter hs hr (hc r hr)
  | update =>
    obtain ⟨hd, hr⟩ := lists_update hts
    rw [call]
    refine ⟨hs.congr (sameTree_update s) (fun hx => ?_) fun hx => ?_, ?_⟩
    · rw [hd] at hx; simp at hx
    · rw [hr] at hx; simp at hx
    · rw [update, if_neg hts]
      exact hts
  | receive depth ch data =>
    rw [call, received_of_init hc]
    split
    · dsimp only
      rw [sendAll_eq, transmit]
      obtain ⟨hd, hr⟩ := lists_writeFull (concatWhile (preorder s.store.childRefs depth) (s.store.childRefs root)).1 s.store
      refine ⟨hs.congr (sameTree_writeFull _ _) (fun hx => ?_) fun hx => ?_, hts⟩
      · rw [hd] at hx; exact hs.dirtyLive hx
      · rwa [hr] at hx
    · exact ⟨hs, hts⟩

theorem settled_start (mem : Memory) (ts : List Nat) : Settled (start mem ts).store := by
  rw [store_start]
  have hparams : (new mem).store.params = ∅ := by simp [new, Store.empty]
  have hframe := frame_set (Store.empty mem) root (.label (.set rootLabel))
  refine ⟨linked_new mem, ⟨hframe.idOf root, fun hc => ?_⟩, fun hx => ?_, hframe.managed root, ?_,
    fun hx => ?_, fun hx => ?_,
    fun _ => by rw [hparams]; simp⟩
  · rw [Live, hparams] at hc; simp at hc
  · rw [hparams] at hx; simp at hx
  · rw [next_new]; exact Nat.one_pos
  · simp [new, Store.empty, dirty_set, Parameter.create] at hx
  · have hrem := hframe.removed
    rw [show (new mem).store.removedParameter = ∅ from hrem] at hx
    simp at hx

/-- In every run that removes parameters without children only, server and clients agree after the removal of a
parameter and `update()` exactly if the parameter has no children. -/
theorem removal_agrees_iff (mem : Memory) {ts : List Nat} (hts : ts ≠ []) (cs : List Call)
    (h : Along call RemovalScope (start mem ts) cs) (hr : (run call (start mem ts) cs).store.params[id]? = some r) :
    (run call (start mem ts) cs).RemovalAgrees id r ↔ (run call (start mem ts) cs).store.IsLeaf r := by
  obtain ⟨hs, hnil⟩ := along_invariant settled_call h ⟨settled_start mem ts, transporterList_start mem hts⟩
  refine ⟨fun hagree => ?_, removalAgrees_of_leaf hs hnil hr⟩
  by_contra hleaf
  exact not_removalAgrees_of_child hs hr hleaf hagree

/-- The child of a group is removed, and its removal is sent, before the group is. -/
def emptiedGroup : List Call :=
  [.create {} .createGroupParameter [] root, .create {} .createBooleanParameter [] 1, .update, .removeParameter 2,
    .update, .set 1 (.setOrder 7)]

private theorem along_emptiedGroup : Along call RemovalScope (start {} [0]) emptiedGroup := by
  refine ⟨⟨by decide, Or.inl rfl, fun _ _ => ?_⟩, ⟨by decide, Or.inr (by decide : _ = _), fun _ _ => ?_⟩, trivial,
    fun r hr => ?_, trivial, Or.inr (by decide : _ = _), trivial⟩
  · rw [show (start {} [0]).store.removedParameter = ∅ from rfl]
    simp
  · rw [show (call (start {} [0]) _).store.removedParameter = ∅ from rfl]
    simp
  · obtain rfl : r = 2 := Option.some.inj (hr.symm.trans (by decide))
    decide

theorem removal_agrees_emptiedGroup : (run call (start {} [0]) emptiedGroup).RemovalAgrees 1 1 :=
  (removal_agrees_iff {} (by decide) emptiedGroup along_emptiedGroup (by decide)).mpr (by decide)

/-- A group with a child, both of which have been sent. -/
def groupWithChild : List Call :=
  [.create {} .createGroupParameter [] root, .create {} .createBooleanParameter [] 1, .update]

/-- The child is sent again after its group has been removed: a new client that gets all packets keeps it. -/
theorem groupWithChild_disagrees :
    ¬(run call (start {} [0]) groupWithChild).RemovalAgrees 1 1 ∧
      2 ∉ (run call (start {} [0]) (groupWithChild ++ [.removeParameter 1, .update])).store.params ∧
      2 ∈ ((Client.new {}).process (((start {} [0]).emissions (groupWithChild ++ [.removeParameter 1, .update])).map
        fun m => (⟨{}, fun _ => 0⟩, m))).store.params := by
  refine ⟨fun h => ?_, by decide, by decide⟩
  have halong : Along call RemovalScope (start {} [0]) groupWithChild := by
    refine ⟨⟨by decide, Or.inl rfl, fun _ _ => ?_⟩, ⟨by decide, Or.inr (by decide : _ = _), fun _ _ => ?_⟩,
      trivial, trivial⟩
    · rw [show (start {} [0]).store.removedParameter = ∅ from rfl]
      simp
    · rw [show (call (start {} [0]) _).store.removedParameter = ∅ from rfl]
      simp
  have hs : Settled (run call (start {} [0]) groupWithChild).store :=
    (along_invariant settled_call halong ⟨settled_start {} [0], by decide⟩).1
  -- the cache of the client is that of the server
  have hkept := h.agree ⟨(run call (start {} [0]) groupWithChild).store, []⟩ (mirrors_self hs.toCached)
    ((((run call (start {} [0]) groupWithChild).call (.removeParameter 1)).emitted .update).map
      fun m => (⟨{}, fun _ => 0⟩, m)) (by simp [Function.comp_def]) 2
  exact absurd (hkept.mp (by decide)) (by decide)

end Server

end RabbitControl
