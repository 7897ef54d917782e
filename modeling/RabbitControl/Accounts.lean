import RabbitControl.ClientLemmas
import RabbitControl.GroupTree

/-!
# Named parameters

Everything that a store can come to send, its parameters, their children and the dirty list, has one of the given ids
(`Store.Accounted`).  On a server these are the ids that it has given out, on a client those that the server has
announced: setters, moves, removals and whatever is received keep that.
-/

namespace RabbitControl

open Lib

namespace Store

variable {s t : Store} {ids ids' : List Id} {r x g c : Ref} {id : Id}

/-! ### Elementary operations -/

/-- The parameter has one of the ids, and a known type. -/
structure Named (ids : List Id) (s : Store) (r : Ref) : Prop where
  mem : s.idOf r ∈ ids
  known : (s.heap r).known = true
  built : r < s.next

/-- Every parameter that the store can come to send is one of the ids. -/
structure Accounted (ids : List Id) (s : Store) : Prop where
  params : ∀ {i : Id} {r : Ref}, s.params[i]? = some r → s.idOf r = i ∧ Named ids s r
  child : ∀ {g : Ref} {i : Id} {r : Ref}, (s.children g)[i]? = some r → s.idOf r = i ∧ Named ids s r
  dirty : ∀ {i : Id} {r : Ref}, s.dirtyParameter[i]? = some r → Named ids s r
  rootless : (s.heap root).managed = false
  base : root < s.next

theorem Accounted.allocated (hs : Accounted ids s) : s.Allocated := fun hr => (hs.params hr).2.built

theorem Accounted.mem (hs : Accounted ids s) (h : id ∈ s.params) : id ∈ ids := by
  obtain ⟨r, hr⟩ := mem_iff_exists.mp h
  have hid := hs.params hr
  rw [← hid.1]
  exact hid.2.mem

/-- A parameter that keeps its id and its type keeps its name. -/
theorem Named.keep (h : Named ids s r) (hid : t.idOf r = s.idOf r)
    (ht : (t.heap r).getDatatype = (s.heap r).getDatatype) (hn : s.next ≤ t.next) : Named ids t r := by
  refine ⟨?_, ?_, Nat.lt_of_lt_of_le h.built hn⟩
  · rw [hid]
    exact h.mem
  · have hknown := h.known
    rw [Parameter.known] at hknown ⊢
    rwa [ht]

theorem Named.frame (h : Named ids s r) (hf : Frame s t) : Named ids t r :=
  h.keep (hf.idOf r) (hf.datatype r) hf.next.ge

/-- A step that keeps what has been named and adds only what is named. -/
theorem Accounted.step (hs : Accounted ids s) (hkeep : ∀ {x}, Named ids s x → t.idOf x = s.idOf x ∧ Named ids' t x)
    (hp : ∀ {i : Id} {x : Ref}, t.params[i]? = some x → s.params[i]? = some x ∨ t.idOf x = i ∧ Named ids' t x)
    (hc : ∀ {g : Ref} {i : Id} {x : Ref}, (t.children g)[i]? = some x →
      (s.children g)[i]? = some x ∨ t.idOf x = i ∧ Named ids' t x)
    (hd : ∀ {i : Id} {x : Ref}, t.dirtyParameter[i]? = some x → s.dirtyParameter[i]? = some x ∨ Named ids' t x)
    (hm : (t.heap root).managed = (s.heap root).managed) (hn : s.next ≤ t.next) : Accounted ids' t := by
  have hold : ∀ {i : Id} {x : Ref}, s.idOf x = i ∧ Named ids s x → t.idOf x = i ∧ Named ids' t x := by
    intro i x h
    have hx := hkeep h.2
    exact ⟨hx.1.trans h.1, hx.2⟩
  constructor
  · intro i x hx
    exact (hp hx).elim (fun h => hold (hs.params h)) fun h => h
  · intro g i x hx
    exact (hc hx).elim (fun h => hold (hs.child h)) fun h => h
  · intro i x hx
    exact (hd hx).elim (fun h => (hkeep (hs.dirty h)).2) fun h => h
  · rw [hm, hs.rootless]
  · exact Nat.lt_of_lt_of_le hs.base hn

/-- A step that keeps ids and types, and adds only children and dirty parameters that were named before. -/
theorem Accounted.frame (hs : Accounted ids s) (hf : Frame s t)
    (hp : ∀ {i : Id} {x : Ref}, t.params[i]? = some x → s.params[i]? = some x)
    (hc : ∀ {g : Ref} {i : Id} {x : Ref}, (t.children g)[i]? = some x →
      (s.children g)[i]? = some x ∨ i = s.idOf x ∧ Named ids s x)
    (hd : ∀ {i : Id} {x : Ref}, t.dirtyParameter[i]? = some x → s.dirtyParameter[i]? = some x ∨ Named ids s x) :
    Accounted ids t := by
  refine hs.step (fun hx => ⟨hf.idOf _, hx.frame hf⟩) (fun hx => Or.inl (hp hx)) (fun hx => ?_) (fun hx => ?_)
    (hf.managed root) hf.next.ge
  · exact (hc hx).imp_right fun h => ⟨(hf.idOf _).trans h.1.symm, h.2.frame hf⟩
  · exact (hd hx).imp_right fun h => h.frame hf

theorem Named.congr (h : Named ids s r) (hst : SameTree s t) : Named ids t r :=
  h.keep (hst.idOf r) (hst.datatype r) hst.next.ge

theorem Accounted.congr (hs : Accounted ids s) (h : SameTree s t)
    (hd : ∀ {i : Id} {x : Ref}, t.dirtyParameter[i]? = some x → s.dirtyParameter[i]? = some x) : Accounted ids t := by
  refine hs.step (fun {x} hx => ⟨h.idOf x, hx.congr h⟩) (fun hx => ?_) (fun hx => ?_) (fun hx => Or.inl (hd hx))
    (h.managed root) h.next.ge
  · rw [h.params] at hx; exact Or.inl hx
  · rw [h.children] at hx; exact Or.inl hx

theorem accounted_set (hs : Accounted ids s) (hr : (s.heap r).managed = true → Named ids s r) (a : Setter) :
    Accounted ids (s.set r a) := by
  refine hs.frame (frame_set s r a) (fun hx => ?_) (fun hx => ?_) fun {i x} hx => ?_
  · rwa [params_set] at hx
  · rw [children_set] at hx; exact Or.inl hx
  · -- a parameter without a manager does not get onto the dirty list
    by_cases hm : (s.heap r).managed = true
    · exact ((dirtyStep_set s r a).cases hx).imp_right fun h => by rw [h.2]; exact hr hm
    · rw [dirty_set, if_neg (by simp [hm])] at hx
      exact Or.inl hx

theorem accounted_removeChild (hs : Accounted ids s) (hr : (s.heap r).managed = true → Named ids s r) :
    Accounted ids (s.removeChild g r) := by
  refine hs.frame (frame_removeChild s g r) (fun hx => ?_) (fun hx => ?_) fun {i x} hx => ?_
  · rwa [params_removeChild] at hx
  · rw [children_removeChild] at hx
    split at hx
    · next hg =>
      rw [getElem?_erase_iff] at hx
      split at hx
      · simp at hx
      · rw [hg]; exact Or.inl hx
    · exact Or.inl hx
  · by_cases hm : (s.heap r).managed = true
    · exact ((dirtyStep_removeChild s g r).cases hx).imp_right fun h => by rw [h.2]; exact hr hm
    · unfold removeChild at hx
      split at hx
      · rw [dirty_modify, dirty_clearParent, if_neg (by simp [hm])] at hx
        exact Or.inl hx
      · exact Or.inl hx

theorem accounted_clear (hs : Accounted ids s) : Accounted ids s.clear := by
  refine ⟨fun hx => ?_, fun hx => ?_, fun hx => ?_, hs.rootless, hs.base⟩
  · simp [clear] at hx
  · obtain ⟨hid, hn⟩ := hs.child hx
    exact ⟨hid, ⟨hn.mem, hn.known, hn.built⟩⟩
  · simp [clear] at hx

theorem accounted_addChild (hs : Accounted ids s) (hr : Named ids s r) :
    Accounted ids (s.addChild g r) := by
  have ht := touched_addChild s g r
  refine hs.frame ht.frame (fun hx => ?_) (fun hx => ?_) fun hx => ?_
  · rwa [ht.params] at hx
  · exact (child_of_addChild hx).imp_right fun h => by rw [h.2.2]; exact ⟨h.2.1, hr⟩
  · exact (ht.dirty.cases hx).imp_right fun h => by rw [h.2]; exact hr

/-- A named parameter gets a manager. -/
private theorem accounted_managed (hs : Accounted ids s) (hr : r ≠ root) (l : Finset Int16) :
    Accounted ids (({ s with ids := l } : Store).modify r fun p => { p with managed := true }) ∧
      ∀ {x}, Named ids s x →
        Named ids (({ s with ids := l } : Store).modify r fun p => { p with managed := true }) x := by
  set t := (({ s with ids := l } : Store).modify r fun p => { p with managed := true }) with ht
  have hshape : ∀ x, (t.heap x).shape =
      { (s.heap x).shape with managed := if x = r then true else (s.heap x).managed } := by
    intro x
    by_cases hx : x = r
    · subst hx
      simp [ht, modify, put, Parameter.shape, Parameter.getDatatype, Parameter.isGroup, Parameter.children]
    · simp [ht, modify, put, Parameter.shape, hx]
  have hkeep : ∀ {x}, Named ids s x → t.idOf x = s.idOf x ∧ Named ids t x := by
    intro x hx
    have hid : t.idOf x = s.idOf x := congrArg Shape.id (hshape x)
    exact ⟨hid, hx.keep hid (congrArg Shape.datatype (hshape x)) le_rfl⟩
  refine ⟨hs.step hkeep (fun hx => Or.inl hx) (fun {g i x} hx => Or.inl ?_) (fun hx => Or.inl hx) ?_ le_rfl,
    fun hx => (hkeep hx).2⟩
  · rwa [show t.children g = s.children g from congrArg Shape.children (hshape g)] at hx
  · have h := congrArg Shape.managed (hshape root)
    dsimp only at h
    rwa [if_neg hr.symm] at h

private theorem accounted_insert (hs : Accounted ids s) (hr : Named ids s r) :
    Accounted ids { s with params := s.params.insert (s.idOf r) r } ∧
      ∀ {x}, Named ids s x → Named ids { s with params := s.params.insert (s.idOf r) r } x := by
  have hkeep : ∀ {x}, Named ids s x → Named ids { s with params := s.params.insert (s.idOf r) r } x := fun hx =>
    ⟨hx.mem, hx.known, hx.built⟩
  refine ⟨hs.step (fun hx => ⟨rfl, hkeep hx⟩) (fun {i x} hx => ?_) (fun hx => Or.inl hx) (fun hx => Or.inl hx) rfl
    le_rfl, hkeep⟩
  dsimp only at hx
  rw [getElem?_insert_iff] at hx
  split at hx
  · next hi =>
    rw [← Option.some.inj hx]
    exact Or.inr ⟨hi.symm, hkeep hr⟩
  · exact Or.inl hx

theorem accounted_addParameter (hs : Accounted ids s) (hr : Named ids s r) (hroot : r ≠ root) :
    Accounted ids (s.addParameter r) ∧ ∀ {x}, Named ids s x → Named ids (s.addParameter r) x := by
  unfold addParameter
  split
  · exact ⟨hs, fun hx => hx⟩
  obtain ⟨hmanaged, hkeep⟩ := accounted_managed hs hroot (insert (s.idOf r) s.ids)
  dsimp only
  split
  · next g _ =>
    have hf := (touched_addChild (({ s with ids := insert (s.idOf r) s.ids } : Store).modify r fun p =>
      { p with managed := true }) g r).frame
    have hadd := accounted_insert (accounted_addChild hmanaged (hkeep hr)) ((hkeep hr).frame hf)
    exact ⟨hadd.1, fun hx => hadd.2 ((hkeep hx).frame hf)⟩
  · have hadd := accounted_insert hmanaged (hkeep hr)
    exact ⟨hadd.1, fun hx => hadd.2 (hkeep hx)⟩

theorem accounted_create (hs : Accounted ids s) (hg : (s.heap g).isGroup = true) (hgn : g < s.next) {mem : Memory}
    {f : CreateFunction} {label : Bytes} (hc : s.create mem f label g = some (r, t)) :
    Accounted (t.idOf r :: ids) t ∧ Named (t.idOf r :: ids) t r ∧
      ∀ {x}, Named ids s x → Named (t.idOf r :: ids) t x := by
  obtain ⟨id, hid⟩ := exists_nextId hc
  obtain ⟨rfl, hb⟩ := born_of_create hid hc
  have hnew : Named (t.idOf s.next :: ids) t s.next := by
    refine ⟨List.mem_cons_self .., hb.known_new, ?_⟩
    rw [hb.next]
    exact Nat.lt_succ_self _
  have hkeep : ∀ {x}, Named ids s x → t.idOf x = s.idOf x ∧ Named (t.idOf s.next :: ids) t x := by
    intro x hx
    have hne : x ≠ s.next := Nat.ne_of_lt hx.built
    refine ⟨hb.idOf hne, ?_, ?_, ?_⟩
    · rw [hb.idOf hne]
      exact List.mem_cons_of_mem _ hx.mem
    · rw [hb.known hne]
      exact hx.known
    · rw [hb.next]
      exact Nat.lt_succ_of_lt hx.built
  refine ⟨hs.step hkeep (fun {i x} hx => ?_) (fun {g' i x} hx => ?_) (fun {i x} hx => ?_)
    (hb.managed (Nat.ne_of_lt hs.base)) ?_, hnew, fun hx => (hkeep hx).2⟩
  · rw [hb.params, getElem?_insert_iff] at hx
    split at hx
    · next hi =>
      rw [← Option.some.inj hx, hb.idOf_new]
      exact Or.inr ⟨hi.symm, by rw [← hb.idOf_new]; exact hnew⟩
    · exact Or.inl hx
  · rw [getElem?_children_create hg hgn hid hc] at hx
    split at hx
    · next h =>
      rw [← Option.some.inj hx, hb.idOf_new]
      exact Or.inr ⟨h.2.1.symm, by rw [← hb.idOf_new]; exact hnew⟩
    · split at hx
      · simp at hx
      · exact Or.inl hx
  · rcases hb.dirty with h | h <;> rw [h] at hx
    · exact Or.inl hx
    · rw [getElem?_insert_iff] at hx
      split at hx
      · rw [← Option.some.inj hx]; exact Or.inr hnew
      · exact Or.inl hx
  · rw [hb.next]; exact Nat.le_succ _

theorem accounted_removeParameterDirect (hs : Accounted ids s) (hr : Named ids s r) (n : Nat) :
    Accounted ids (removeParameterDirect n r s) ∧ Frame s (removeParameterDirect n r s) := by
  refine removeParameterDirect_invariant (P := fun t => Accounted ids t ∧ Frame s t) (Q := Named ids s)
    (fun {t x} ht hx _ => ?_) (fun ht _ _ hc => ?_) n ⟨hs, .refl s⟩ hr
  · have hf := frame_unlink t x
    refine ⟨ht.1.frame hf (fun hy => ?_) (fun hy => ?_) fun hy => ?_, ht.2.trans hf⟩
    · rw [getElem?_params_unlink] at hy
      split at hy
      · simp at hy
      · exact hy
    · rw [children_unlink] at hy
      split at hy
      · rw [getElem?_erase_iff] at hy
        split at hy
        · simp at hy
        · exact Or.inl hy
      · exact Or.inl hy
    · exact ((dirtyStep_unlink t x).cases hy).imp_right fun h => by rw [h.2]; exact hx.frame ht.2
  · have hf := ht.2
    exact (ht.1.child hc).2.keep (hf.idOf _).symm (hf.datatype _).symm hf.next.le

theorem accounted_removeParameter (hs : Accounted ids s) (id : Id) :
    Accounted ids (s.removeParameter id) ∧ ∀ {x}, Named ids s x → Named ids (s.removeParameter id) x := by
  rw [removeParameter]
  split
  · exact ⟨hs, fun h => h⟩
  split
  · exact ⟨hs, fun h => h⟩
  · next r hr =>
    have hst := sameTree_setParameterRemoved s r
    have hkeep : ∀ {x}, Named ids s x → Named ids (s.setParameterRemoved r) x := fun hx => ⟨hx.mem, hx.known, hx.built⟩
    have hrem : Accounted ids (s.setParameterRemoved r) := by
      refine hs.congr hst fun {i x} hx => ?_
      rw [setParameterRemoved] at hx
      dsimp only at hx
      rw [getElem?_erase_iff] at hx
      split at hx
      · simp at hx
      · exact hx
    obtain ⟨h1, h2⟩ := accounted_removeParameterDirect hrem (hkeep (hs.params hr).2) (s.next + 1)
    exact ⟨h1, fun hx => (hkeep hx).frame h2⟩

/-! ### Parsed packets -/

/-- A message is accepted as a parameter, or it is not. -/
theorem accepted_cases (s : Store) (ch : Chance) (data : Bytes) :
    (∃ p, (s.parse ch data).verdict = .accepted ∧ (s.parse ch data).packet.bind Packet.parameter = some p) ∨
      ((s.parse ch data).verdict = .accepted → (s.parse ch data).packet.bind Packet.parameter = none) := by
  cases (s.parse ch data).packet.bind Packet.parameter with
  | none => exact Or.inr fun _ => rfl
  | some p =>
    by_cases hv : (s.parse ch data).verdict = .accepted
    · exact Or.inl ⟨p, hv, rfl⟩
    · exact Or.inr fun h => absurd h hv

/-- Parsing adds to the dirty list at most the proxy, under the id of a child. -/
theorem accounted_parse (hs : Accounted ids s) (ch : Chance) (data : Bytes) :
    Accounted ids (s.parse ch data).state ∧ ∀ {x}, Named ids s x → Named ids (s.parse ch data).state x := by
  obtain ⟨-, h⟩ := parse_cases hs.allocated ch data
  rcases h with ⟨hst, -, -, -⟩ | ⟨_, _, p, q, hpk, -, hheap, h⟩
  · rw [hst]
    exact ⟨hs, fun hx => hx⟩
  · set t := (s.parse ch data).state with ht
    have hpp : (s.parse ch data).packet.bind Packet.parameter = some p := by rw [hpk]; rfl
    have hknown : p.known = true := (identity_of_parse hpp).2
    have hkeep : ∀ {x}, Named ids s x → t.idOf x = s.idOf x ∧ Named ids t x := by
      intro x hx
      have hne : x ≠ s.next := Nat.ne_of_lt hx.built
      have hid := h.idOf hne
      exact ⟨hid, hx.keep hid (congrArg Shape.datatype (h.shape hne)) (by rw [h.next]; exact Nat.le_succ _)⟩
    have hold : ∀ {g : Ref} {i : Id} {x : Ref}, (t.children g)[i]? = some x → (s.children g)[i]? = some x := by
      intro g i x hx
      by_cases hg : g = s.next
      · rw [hg, h.children_proxy] at hx; simp at hx
      · rw [h.getElem?_children hg] at hx
        split at hx
        · simp at hx
        · exact hx
    refine ⟨hs.step hkeep (fun hx => ?_) (fun hx => Or.inl (hold hx)) (fun {i x} hx => ?_) ?_ ?_,
      fun hx => (hkeep hx).2⟩
    · rw [h.params] at hx; exact Or.inl hx
    · rcases h.dirty with hd | ⟨hd, g, -, hg⟩ <;> rw [hd] at hx
      · exact Or.inl hx
      · rw [getElem?_insert_iff] at hx
        split at hx
        · obtain ⟨c, hc⟩ := mem_iff_exists.mp hg
          have hcn := hs.child hc
          rw [← Option.some.inj hx]
          refine Or.inr ⟨?_, ?_, ?_⟩
          · rw [h.idOf_proxy, ← hcn.1]
            exact hcn.2.mem
          · rw [hheap]; exact hknown
          · rw [h.next]; exact Nat.lt_succ_self _
        · exact Or.inl hx
    · exact congrArg Shape.managed (h.shape (Nat.ne_of_lt hs.base))
    · rw [h.next]; exact Nat.le_succ _

theorem accounted_update (hs : Accounted ids s) (hr : Named ids s r) {other : Ref}
    (hg : ∀ g, s.parent other = some g → (s.heap g).isGroup = true) : Accounted ids (s.update r other).1 := by
  by_cases hne : other = r
  · rw [update, if_pos hne]; exact hs
  by_cases hid : s.idOf other = s.idOf r
  · obtain ⟨u, v, hu, hv, hw⟩ := update_cases hne hid
    have hassigned : ∀ {u v}, Assigned r u v → Accounted ids u → Named ids u r → Accounted ids v := by
      intro u v h hu hr
      refine hu.frame h.touched.frame (fun hx => ?_) (fun hx => ?_) fun hx => ?_
      · rwa [h.touched.params] at hx
      · rw [h.sameTree.children] at hx; exact Or.inl hx
      · exact (h.touched.dirty.cases hx).imp_right fun hx => by rw [hx.2]; exact hr
    have hau := hassigned hu hs hr
    have hru := hr.frame hu.touched.frame
    have hav : Accounted ids v ∧ Named ids v r := by
      rw [hv]
      cases hp : s.parent other with
      | none => exact ⟨hau, hru⟩
      | some g =>
        have hgu : (u.heap g).isGroup = true := (hu.sameTree.isGroup g).trans (hg g hp)
        exact ⟨accounted_addChild hau hru, hru.frame (touched_addChild u g r).frame⟩
    exact hassigned hw hav.1 hav.2
  · rw [update, if_neg hne, if_neg hid]; exact hs

/-- A parsed parameter is applied to a named one. -/
theorem accounted_applied (hs : Accounted ids s) {ch : Chance} {data : Bytes} {p : Parameter}
    (hp : (s.parse ch data).packet.bind Packet.parameter = some p) (hx : Named ids (s.parse ch data).state x) :
    Accounted ids ((s.parse ch data).state.update x s.next).1 := by
  refine accounted_update (accounted_parse hs ch data).1 hx fun g hg => ?_
  -- the parent of a proxy is a cached group
  rcases (parse_cases hs.allocated ch data).2 with ⟨-, -, -, h⟩ | ⟨_, _, _, q, -, -, -, h⟩
  · rw [h] at hp; simp at hp
  · rw [h.parent_proxy] at hg
    obtain ⟨⟨i, hi⟩, hgr⟩ := (h.parent g hg).params
    refine (congrArg Shape.isGroup (h.shape (Nat.ne_of_lt ?_))).trans hgr
    exact (hs.params hi).2.built

end Store

/-! ### Packets of a server -/

/-- If the message is read as a parameter, it is as one of the ids. -/
def Announces (ids : List Id) (data : Bytes) : Prop := ∀ id, announcedId data = some id → id ∈ ids

theorem announces_of_command {ids : List Id} {data : Bytes} (hu : commandOf data ≠ some .update)
    (hv : commandOf data ≠ some .updateValue) : Announces ids data := fun _ h =>
  ((command_of_announcedId h).elim hu hv).elim

theorem commandOf_bytes (m : Message) : commandOf m.bytes = some m.command := by
  obtain ⟨c, d⟩ := m
  cases c <;> cases d <;> rfl

namespace Store

variable {s : Store} {ids : List Id} {r : Ref}

theorem announces_write (hr : Named ids s r) (all : Bool) {c : Command} (hc : c = .update ∨ c = .updateValue) :
    Announces ids (Message.bytes ⟨c, .parameter ((s.heap r).write s.idOf all).1⟩) := by
  intro id h
  rw [announcedId_write hr.known s.idOf all hc] at h
  rw [← Option.some.inj h]
  exact hr.mem

theorem announces_writeDirty (l : List Ref) (hl : ∀ r ∈ l, Named ids s r) :
    ∀ m ∈ (writeDirty l s).1, Announces ids m.bytes := by
  induction l generalizing s with
  | nil => simp [writeDirty]
  | cons r l ih =>
    rw [List.forall_mem_cons] at hl
    rw [writeDirty, List.forall_mem_cons]
    refine ⟨announces_write hl.1 false (by split <;> simp), ih fun x hx => ?_⟩
    exact (hl.2 x hx).congr (sameTree_put_write s r s.idOf false)

theorem announces_writeFull (l : List Ref) (hl : ∀ r ∈ l, Named ids s r) :
    ∀ m ∈ (writeFull l s).1, Announces ids m.bytes := by
  induction l generalizing s with
  | nil => simp [writeFull]
  | cons r l ih =>
    rw [List.forall_mem_cons] at hl
    rw [writeFull, List.forall_mem_cons]
    refine ⟨announces_write hl.1 true (Or.inl rfl), ih fun x hx => ?_⟩
    exact (hl.2 x hx).congr (sameTree_put_write s r s.idOf true)

end Store

namespace Server

open Store

variable {s : Server} {ids : List Id}

theorem announces_update (hs : Accounted ids s.store) : ∀ m ∈ s.update.1, Announces ids m.bytes := by
  rw [update]
  split
  · simp
  · dsimp only
    rw [List.forall_mem_append]
    constructor
    · intro m hm
      obtain ⟨e, -, rfl⟩ := List.mem_map.mp hm
      exact announces_of_command (by rw [commandOf_bytes]; simp) (by rw [commandOf_bytes]; simp)
    · refine announces_writeDirty _ fun r hr => ?_
      obtain ⟨id, hid⟩ := mem_dirtyRefs.mp hr
      exact hs.dirty hid

theorem accounted_update (hs : Accounted ids s.store) : Accounted ids s.update.2.store := by
  refine hs.congr (sameTree_update s) fun {i x} hx => ?_
  rw [update] at hx
  split at hx
  · exact hx
  · simp at hx

/-- What a server comes to when it receives a message that names one of its parameters, or is not accepted. -/
theorem accounted_received (hs : Accounted ids s.store) (depth : Nat) (ch : Chance) (data : Bytes) :
    Accounted ids (s.received depth ch data).server.store ∧
      (∀ {x}, Named ids s.store x → Named ids (s.received depth ch data).server.store x) ∧
      ∀ m ∈ (s.received depth ch data).replies, Announces ids m.bytes := by
  by_cases hi : IsInit data
  · rw [received_of_init hi]
    split
    · dsimp only
      rw [sendAll_eq, transmit]
      have hst := sameTree_writeFull (concatWhile (preorder s.store.childRefs depth) (s.store.childRefs root)).1 s.store
      have hlists := lists_writeFull (concatWhile (preorder s.store.childRefs depth) (s.store.childRefs root)).1 s.store
      refine ⟨hs.congr hst fun hx => ?_, fun hx => hx.congr hst, ?_⟩
      · rwa [hlists.1] at hx
      · -- every visited parameter is a child
        refine announces_writeFull _ fun r hr => ?_
        obtain ⟨g, hg⟩ : ∃ g, r ∈ s.store.childRefs g := by
          obtain ⟨c, hc, hrc⟩ := mem_concatWhile hr
          rcases mem_preorder hrc with rfl | h
          · exact ⟨root, hc⟩
          · exact h
        obtain ⟨e, he, rfl⟩ := List.mem_map.mp hg
        exact (hs.child (Std.ExtTreeMap.mem_toList_iff_getElem?_eq_some.mp he)).2
    · exact ⟨hs, fun hx => hx, by simp⟩
  have hreplies : ∀ m ∈ (s.received depth ch data).replies, Announces ids m.bytes := by
    intro m hm
    have hc := replies_received hi m hm
    exact announces_of_command (by rw [commandOf_bytes, hc]; decide) (by rw [commandOf_bytes, hc]; decide)
  obtain ⟨hparse, hkeep⟩ := accounted_parse hs ch data
  suffices hserver : Accounted ids (s.received depth ch data).server.store ∧
      ∀ {x}, Named ids (s.store.parse ch data).state x → Named ids (s.received depth ch data).server.store x from
    ⟨hserver.1, fun hx => hserver.2 (hkeep hx), hreplies⟩
  rcases s.store.accepted_cases ch data with ⟨p, hv, hp⟩ | hno
  · rw [received_of_parameter hv hp]
    dsimp only
    unfold applyUpdate
    split
    · next cached hc =>
      split
      · have hcn := (hparse.params hc).2
        exact ⟨accounted_applied hs hp hcn, fun hx => hx.frame (touched_update _ _ _).frame⟩
      · exact ⟨hparse, fun hx => hx⟩
    · exact ⟨hparse, fun hx => hx⟩
  · rw [(received_of_no_parameter hi hno).1]
    exact ⟨hparse, fun hx => hx⟩

/-- A received message changes none of the parameters that the server holds. -/
theorem params_received (hs : s.store.Allocated) (depth : Nat) (ch : Chance) (data : Bytes) :
    (s.received depth ch data).server.store.params = s.store.params := by
  have hparse : (s.store.parse ch data).state.params = s.store.params := by
    rcases (parse_cases hs ch data).2 with ⟨h, -⟩ | ⟨_, _, p, q, -, -, -, h⟩
    · rw [h]
    · exact h.params
  by_cases hi : IsInit data
  · rw [received_of_init hi]
    split
    · dsimp only
      rw [sendAll_eq]
      exact (sameTree_writeFull _ s.store).params
    · rfl
  rcases s.store.accepted_cases ch data with ⟨p, hv, hp⟩ | hno
  · rw [received_of_parameter hv hp]
    dsimp only
    unfold applyUpdate
    split
    · split
      · exact (touched_update _ _ _).params.trans hparse
      · exact hparse
    · exact hparse
  · rw [(received_of_no_parameter hi hno).1]
    exact hparse

/-- Only accepted parameters are relayed. -/
theorem parameter_of_relay {depth : Nat} {ch : Chance} {data : Bytes} (h : (s.received depth ch data).relay = true) :
    ∃ p, (s.store.parse ch data).verdict = .accepted ∧
      (s.store.parse ch data).packet.bind Packet.parameter = some p := by
  have hi : ¬IsInit data := by
    intro hi
    rw [received_of_init hi] at h
    split at h <;> simp at h
  refine (s.store.accepted_cases ch data).resolve_right fun hno => ?_
  rw [(received_of_no_parameter hi hno).2] at h
  simp at h

end Server

/-! ### Clients -/

namespace Store

variable {s : Store} {ids : List Id} {r x : Ref}

/-- A parsed parameter has the announced id. -/
theorem named_proxy (hs : s.Allocated) {ch : Chance} {data : Bytes} (ha : Announces ids data) {p : Parameter}
    (hp : (s.parse ch data).packet.bind Packet.parameter = some p) : Named ids (s.parse ch data).state s.next := by
  obtain ⟨hid, hknown⟩ := identity_of_parse hp
  rcases (parse_cases hs ch data).2 with ⟨-, -, -, hnone⟩ | ⟨_, _, p', q, hpk, -, hheap, h⟩
  · rw [hnone] at hp; simp at hp
  · have hpp : p' = p := by
      rw [hpk] at hp
      exact Option.some.inj hp
    refine ⟨?_, ?_, ?_⟩
    · rw [Store.idOf, hheap, hpp]
      exact ha _ hid
    · rw [hheap, hpp, hknown]
    · rw [h.next]
      exact Nat.lt_succ_self _

theorem managed_addParameter (hx : x ≠ r) : ((s.addParameter r).heap x).managed = (s.heap x).managed := by
  unfold addParameter
  split
  · rfl
  dsimp only
  split
  · next g _ =>
    rw [(touched_addChild _ g r).frame.managed]
    simp [modify, put, hx]
  · simp [modify, put, hx]

end Store

namespace Client

open Store

variable {c : Client} {ids : List Id} {t : Store} {g r : Ref}

/-- A client that knows only some ids: all that it holds, can send or has ever read is one of them. -/
structure Holds (ids : List Id) (c : Client) : Prop where
  accounted : Accounted ids c.store
  named : ∀ {r : Ref}, (c.store.heap r).managed = true → Named ids c.store r

theorem Holds.frame (hc : Holds ids c) (hf : Frame c.store t) (ht : Accounted ids t) :
    Holds ids { c with store := t } := by
  refine ⟨ht, fun {r} hr => ?_⟩
  rw [hf.managed] at hr
  exact (hc.named hr).frame hf

/-- For more ids. -/
theorem Holds.mono {ids' : List Id} (hc : Holds ids c) (h : ∀ id, id ∈ ids → id ∈ ids') : Holds ids' c := by
  have hnamed : ∀ {x}, Named ids c.store x → Named ids' c.store x := fun hx => ⟨h _ hx.mem, hx.known, hx.built⟩
  exact ⟨hc.accounted.step (fun hx => ⟨rfl, hnamed hx⟩) (fun hx => Or.inl hx) (fun hx => Or.inl hx)
    (fun hx => Or.inl hx) rfl le_rfl, fun hr => hnamed (hc.named hr)⟩

theorem holds_set (hc : Holds ids c) (r : Ref) (a : Setter) : Holds ids { c with store := c.store.set r a } :=
  hc.frame (frame_set c.store r a) (accounted_set hc.accounted hc.named a)

theorem holds_addChild (hc : Holds ids c) (hr : (c.store.heap r).managed = true) :
    Holds ids { c with store := c.store.addChild g r } :=
  hc.frame (touched_addChild c.store g r).frame (accounted_addChild hc.accounted (hc.named hr))

theorem holds_removeChild (hc : Holds ids c) : Holds ids { c with store := c.store.removeChild g r } :=
  hc.frame (frame_removeChild c.store g r) (accounted_removeChild hc.accounted hc.named)

theorem holds_disconnected (hc : Holds ids c) : Holds ids c.disconnected := by
  refine ⟨accounted_clear hc.accounted, fun hr => ?_⟩
  obtain ⟨hmem, hknown, hbuilt⟩ := hc.named hr
  exact ⟨hmem, hknown, hbuilt⟩

/-- The updates of a client announce the ids of its dirty list. -/
theorem dirty_of_announced (hc : Holds ids c) {m : Message} (hm : m ∈ c.update.1) {id : Id}
    (hid : announcedId m.bytes = some id) : ∃ r ∈ c.store.dirtyRefs, c.store.idOf r = id := by
  have hnamed : ∀ r ∈ c.store.dirtyRefs, Named (c.store.dirtyRefs.map c.store.idOf) c.store r := by
    intro r hr
    obtain ⟨i, hi⟩ := mem_dirtyRefs.mp hr
    have hn := hc.accounted.dirty hi
    exact ⟨List.mem_map_of_mem hr, hn.known, hn.built⟩
  exact List.mem_map.mp (announces_writeDirty _ hnamed m hm id hid)

theorem announces_update (hc : Holds ids c) : ∀ m ∈ c.update.1, Announces ids m.bytes := by
  intro m hm id hid
  obtain ⟨r, hr, rfl⟩ := dirty_of_announced hc hm hid
  obtain ⟨i, hi⟩ := mem_dirtyRefs.mp hr
  exact (hc.accounted.dirty hi).mem

theorem holds_update (hc : Holds ids c) : Holds ids c.update.2 := by
  have hst := sameTree_writeDirty c.store.dirtyRefs c.store
  have hst' : SameTree c.store c.update.2.store := hst.trans (sameTree_of_shape (fun _ => rfl) rfl rfl rfl)
  refine ⟨hc.accounted.congr hst' fun hx => ?_, fun {r} hr => ?_⟩
  · simp [update] at hx
  · rw [hst'.managed] at hr
    exact (hc.named hr).congr hst'

/-- A client answers with requests and their answers only. -/
theorem replies_received (c : Client) (ch : Chance) (data : Bytes) :
    ∀ m ∈ (c.received ch data).2, m.command = .info := by
  unfold received
  dsimp only
  split
  · next k _ _ =>
    obtain ⟨command, timestamp, body⟩ := k
    cases command <;> rcases body with _ | ⟨p⟩ | ⟨i⟩ | ⟨v, a⟩ <;> simp
  · simp

/-- Reading a message that announces an id adds a parameter of this id at most. -/
theorem holds_parse (hc : Holds ids c) (ch : Chance) {data : Bytes} (ha : Announces ids data) :
    Holds ids { c with store := (c.store.parse ch data).state } := by
  obtain ⟨hacc, hkeep⟩ := accounted_parse hc.accounted ch data
  refine ⟨hacc, fun {r} hr => ?_⟩
  rcases (parse_cases hc.accounted.allocated ch data).2 with ⟨hst, -⟩ | ⟨_, _, p, q, hpk, -, -, h⟩
  · rw [hst] at hr ⊢
    exact hc.named hr
  · by_cases hnext : r = c.store.next
    · rw [hnext]
      exact named_proxy hc.accounted.allocated ha (p := p) (by rw [hpk]; rfl)
    · have hm : ((c.store.parse ch data).state.heap r).managed = (c.store.heap r).managed :=
        congrArg Shape.managed (h.shape hnext)
      exact hkeep (hc.named (hm.symm.trans hr))

/-- A client gets to know nothing but the parameter that a message announces. -/
theorem holds_received (hc : Holds ids c) (ch : Chance) {data : Bytes} (ha : Announces ids data) :
    Holds ids (c.received ch data).1 := by
  have hparsed := holds_parse hc ch ha
  by_cases hr : commandOf data = some .remove
  · have happly : ∀ id, Holds ids { c with store := applyRemove id (c.store.parse ch data).state } := by
      intro id
      unfold applyRemove
      split
      · next r hr =>
        split
        · obtain ⟨hacc, hf⟩ := accounted_removeParameterDirect hparsed.accounted (hparsed.accounted.params hr).2
            ((c.store.parse ch data).state.next + 1)
          exact hparsed.frame hf hacc
        · exact hparsed
      · exact hparsed
    unfold received
    dsimp only
    split
    · next k _ hk =>
      have hcmd : k.command = .remove := Option.some.inj ((command_parse hk).symm.trans hr)
      rw [hcmd]
      obtain ⟨command, timestamp, body⟩ := k
      rcases body with _ | ⟨p⟩ | id | _
      · exact hparsed
      · exact hparsed
      · exact happly id
      · exact hparsed
    · exact hparsed
  rcases c.store.accepted_cases ch data with ⟨p, hv, hp⟩ | hno
  · rw [received_of_parameter hv hp]
    have hproxy := named_proxy hc.accounted.allocated ha hp
    have hadd : Holds ids { c with store := (c.store.parse ch data).state.addParameter c.store.next } := by
      obtain ⟨hacc, hkeep⟩ := accounted_addParameter hparsed.accounted hproxy (Nat.ne_of_gt hc.accounted.base)
      refine ⟨hacc, fun {x} hx => ?_⟩
      by_cases hnext : x = c.store.next
      · rw [hnext]
        exact hkeep hproxy
      · rw [managed_addParameter hnext] at hx
        exact hkeep (hparsed.named hx)
    unfold applyUpdate
    split
    · next cached hcached =>
      split
      · exact hparsed.frame (touched_update _ _ _).frame
          (accounted_applied hc.accounted hp (hparsed.accounted.params hcached).2)
      · exact hadd
    · exact hadd
  · rw [received_of_no_parameter hr hno]
    exact hparsed

end Client

end RabbitControl
