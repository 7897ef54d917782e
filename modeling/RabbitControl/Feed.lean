import RabbitControl.Trailing

/-!
# A feed of updates

A client that receives every packet holds the parameters of the server after each `update()` (`replicated_run`).

The calls are those that the packets can express.  An option that is cleared is not sent as cleared, a parameter that is
moved to the root group stays where it was, and a group that is removed takes with it what the client has in it.
-/

namespace RabbitControl

open Lib

namespace Store

/-- The ids whose removal is to be sent. -/
def removedIds (s : Store) : List Id := s.removedParameter.toList.map Prod.fst

/-- The store `c` of a client holds a copy of every parameter of `s` and nothing else.  The copies show the options that
updates carry, and hang in the copies of the groups. -/
structure Replicated (s c : Store) : Prop where
  ids : ∀ i : Id, i ∈ c.params ↔ i ∈ s.params
  type : ∀ {i : Id} {r x : Ref}, s.params[i]? = some r → c.params[i]? = some x →
    (c.heap x).kind.type = (s.heap r).kind.type
  shown : ∀ {i : Id} {r x : Ref}, s.params[i]? = some r → c.params[i]? = some x → ∀ o,
    (s.heap r).Matches (fun g => c.params[s.idOf g]?) (c.heap x) o
  children : ∀ {i : Id} {g x : Ref}, s.params[i]? = some g → c.params[i]? = some x → ∀ (j : Id) y,
    (c.children x)[j]? = some y ↔ c.params[j]? = some y ∧ j ∈ s.children g

end Store

/-- A server, and its store when it last sent its changes. -/
structure Feed where
  server : Server
  sent : Store

namespace Feed

open Store

variable {f : Feed} {c : Client} {r x : Ref} {i : Id}

def start (mem : Memory) (ts : List Nat) : Feed := ⟨Server.start mem ts, (Server.start mem ts).store⟩

def call (f : Feed) : Call → Feed
  | .update => ⟨f.server.call .update, f.server.store⟩
  | c => ⟨f.server.call c, f.sent⟩

/-- The calls that the packets of an update can express. -/
def Scope (f : Feed) : Call → Prop
  | .create _ _ label g => label ≠ [] ∧ (f.server.store.heap g).isGroup = true ∧ f.server.store.Held g ∧
    ∀ id ∈ f.server.store.nextId, id ∉ f.server.store.removedParameter ∧
      (g = root ∨ f.server.store.idOf g ∈ f.sent.params ∨ f.server.store.idOf g < id)
  | .set r a => f.server.store.Held r ∧ a.adds = true ∧
    (f.server.store.heap r).reports (decide (r ∈ f.server.store.dirtyRefs)) a = true
  | .addChild g x => (f.server.store.heap g).isGroup = true ∧ f.server.store.Live g ∧ f.server.store.Live x ∧
    (f.server.store.idOf g ∈ f.sent.params ∨ f.server.store.idOf g < f.server.store.idOf x)
  | .removeParameter id => ∀ r, f.server.store.params[id]? = some r → f.server.store.IsLeaf r ∧
    -- the clients do not have another parameter in it either
    ∀ (j : Id) x, f.server.store.params[j]? = some x → x ≠ r → j ∈ f.sent.params →
      ∀ g ∈ f.sent.parent x, f.sent.idOf g ≠ id
  | .update => ∀ r ∈ f.server.store.dirtyRefs, (f.server.store.heap r).Readable ∧
    (f.server.store.heap r).kind.Readable false
  | .receive .. => False

/-- A client that has got everything that was sent. -/
structure Fed (f : Feed) (c : Store) : Prop where
  additive : Additive f.server.store
  transporters : f.server.transporterList ≠ []
  trailed : Trailed f.server.store f.server.store.removedIds f.server.store.dirtyRefs c
  ids : ∀ i : Id, i ∈ c.params ↔ i ∈ f.sent.params
  parents : ∀ {r x y : Ref}, f.server.store.Live r → c.params[f.server.store.idOf r]? = some x → c.parent x = some y →
    ∃ g, f.sent.parent r = some g ∧ f.sent.idOf g = c.idOf y

theorem mem_removedIds {s : Store} : i ∈ s.removedIds ↔ i ∈ s.removedParameter := by
  rw [removedIds, List.mem_map, mem_iff_exists]
  constructor
  · rintro ⟨e, he, rfl⟩
    exact ⟨e.2, Std.ExtTreeMap.mem_toList_iff_getElem?_eq_some.mp he⟩
  · rintro ⟨r, hr⟩
    exact ⟨(i, r), Std.ExtTreeMap.mem_toList_iff_getElem?_eq_some.mpr hr, rfl⟩

/-- A call that sends nothing. -/
private theorem Fed.congr {t : Server} {d : Store} (h : Fed f d) (ha : Additive t.store)
    (hts : t.transporterList = f.server.transporterList)
    (ht : Trailed t.store t.store.removedIds t.store.dirtyRefs d)
    (hold : ∀ {r : Ref}, t.store.Live r → t.store.idOf r ∈ d.params →
      f.server.store.Live r ∧ t.store.idOf r = f.server.store.idOf r) : Fed ⟨t, f.sent⟩ d where
  additive := ha
  transporters := by rw [hts]; exact h.transporters
  trailed := ht
  ids := h.ids
  parents {r x y} hr hx hy := by
    obtain ⟨hl, hid⟩ := hold hr (mem_of_getElem? hx)
    have hx' : d.params[t.store.idOf r]? = some x := hx
    rw [hid] at hx'
    exact h.parents hl hx' hy

theorem fed_call {d : Store} (h : Fed f d) {a : Call} (ha : f.Scope a) (hne : a ≠ .update) : Fed (f.call a) d := by
  have hs := h.additive
  cases a with
  | create mem e label g =>
    obtain ⟨hlabel, hg, hh, hid⟩ := ha
    show Fed ⟨f.server.call (.create mem e label g), f.sent⟩ d
    rw [Server.call]
    cases hc : f.server.store.create mem e label g with
    | none => exact h
    | some p =>
      obtain ⟨r, t⟩ := p
      obtain ⟨i, hi⟩ := exists_nextId hc
      obtain ⟨hfree, hfirst⟩ := hid i hi
      obtain ⟨rfl, hb⟩ := born_of_create hi hc
      have hk : i ∉ f.server.store.removedIds := mt mem_removedIds.mp hfree
      have ht := trailed_create hi hc hs hfree hh hlabel hk (hfirst.imp_right (Or.imp_left (h.ids _).mpr)) h.trailed
      refine h.congr (additive_create hi hc hs hfree hg hh) rfl ?_ fun {x} hx hm => ?_
      · have hsame : t.removedIds = f.server.store.removedIds := by rw [removedIds, hb.removed, removedIds]
        rw [hsame]
        exact ht
      · rcases live_create hi hc hx with rfl | ⟨hne, hx⟩
        · exfalso
          rw [hb.idOf_new] at hm
          rcases h.trailed.ids i hm with hm | hm
          · obtain ⟨y, hy⟩ := mem_iff_exists.mp hm
            exact hb.free (hs.taken hy)
          · exact hk hm
        · exact ⟨hx, hb.idOf hne⟩
  | set r a =>
    obtain ⟨hr, hadds, hrep⟩ := ha
    have hst := sameTree_set f.server.store r a
    refine h.congr (t := f.server.call (.set r a)) (additive_set hs hr hadds) rfl ?_ fun {x} hx _ =>
      ⟨hst.live.mp hx, hst.idOf x⟩
    have ht := trailed_set hs hr hadds hrep h.trailed
    rwa [removedIds, ← (frame_set f.server.store r a).removed] at ht
  | addChild g x =>
    obtain ⟨hg, hgl, hx, hfirst⟩ := ha
    have htouched := touched_addChild f.server.store g x
    refine h.congr (t := f.server.call (.addChild g x)) (additive_addChild hs hgl hx hg) rfl ?_ fun {y} hy _ => ?_
    · have ht := trailed_addChild hs hgl hx (hfirst.imp_left (h.ids _).mpr) h.trailed
      rwa [removedIds, ← htouched.frame.removed] at ht
    · have hid := htouched.frame.idOf y
      refine ⟨?_, hid⟩
      rw [Live, ← hid, ← htouched.params]
      exact hy
  | removeParameter id =>
    cases hr : f.server.store.params[id]? with
    | none =>
      have hcall : f.server.call (.removeParameter id) = f.server := by
        show f.server.mapStore _ = _
        rw [Server.mapStore, removeParameter, hr]
        split <;> rfl
      show Fed ⟨f.server.call (.removeParameter id), f.sent⟩ d
      rw [hcall]
      exact h
    | some r =>
      obtain ⟨hleaf, hempty⟩ := ha r hr
      have hremoved : (f.server.store.removeParameter id).removedParameter =
          f.server.store.removedParameter.insert id r := by
        rw [removeParameter_of_leaf hs.toSettled hr hleaf, (frame_unlink _ r).removed, setParameterRemoved, hs.idOf hr]
      refine h.congr (t := f.server.call (.removeParameter id)) (additive_removeParameter hs hr hleaf) rfl
        (trailed_removeParameter hs hr hleaf (fun j hj => mem_removedIds.mpr ?_) (fun {y x z} hy hyr hx hz => ?_)
          h.trailed) fun {x} hx _ => ⟨((live_removeParameter hs hr hleaf).mp hx).1, ?_⟩
      · show j ∈ (f.server.store.removeParameter id).removedParameter
        rw [hremoved, Std.ExtTreeMap.mem_insert]
        exact hj.imp (fun heq => by simp [heq]) mem_removedIds.mp
      · obtain ⟨g, hg, hid⟩ := h.parents hy hx hz
        rw [← hid]
        exact hempty _ y hy hyr ((h.ids _).mp (mem_of_getElem? hx)) g hg
      · exact congrFun (idOf_removeParameter hs hr hleaf) x
  | update => exact absurd rfl hne
  | receive => exact ha.elim

/-! ### Replication -/

/-- Copies that show everything are hung in the copies of the groups. -/
theorem replicated_of_trailed {s d : Store} (hs : Additive s) (h : Trailed s [] [] d) : Replicated s d := by
  have hids : ∀ i : Id, i ∈ d.params ↔ i ∈ s.params := by
    refine fun i => ⟨fun hi => (h.ids i hi).resolve_right List.not_mem_nil, fun hi => ?_⟩
    obtain ⟨r, hr⟩ := mem_iff_exists.mp hi
    cases hx : d.params[i]? with
    | some x => exact mem_of_getElem? hx
    | none =>
      rw [← hs.idOf hr] at hx
      exact absurd ((h.copies (hs.live hr)).fresh hx).1 List.not_mem_nil
  have hshown : ∀ {i : Id} {r x : Ref}, s.params[i]? = some r → d.params[i]? = some x → ∀ o,
      (s.heap r).Matches (fun g => d.params[s.idOf g]?) (d.heap x) o := by
    intro i r x hr hx o
    rw [← hs.idOf hr] at hx
    exact (((h.copies (hs.live hr)).known hx).option o).resolve_right fun hm => List.not_mem_nil hm.2
  refine ⟨hids, fun {i r x} hr hx => ?_, hshown, fun {i g x} hg hx j y => ?_⟩
  · rw [← hs.idOf hr] at hx
    exact ((h.copies (hs.live hr)).known hx).type
  · rw [h.kempt.children_iff]
    refine and_congr_right fun hy => ?_
    obtain ⟨r, hr⟩ := mem_iff_exists.mp ((hids j).mp (mem_of_getElem? hy))
    have hl := hs.live hr
    have hparent : d.parent y = (s.heap r).parent.bind fun g => d.params[s.idOf g]? := hshown hr hy .parentId
    rw [hparent, ← hs.idOf hr, hs.toLinked.mem_children_iff hl]
    refine ⟨fun hbind => ?_, fun hg' => ?_⟩
    · obtain ⟨g', hg', hgx⟩ := Option.bind_eq_some_iff.mp hbind
      have hid : s.idOf g' = s.idOf g := by rw [← h.kempt.idOf hgx, h.kempt.idOf hx, hs.idOf hg]
      have hsame := Held.eq_of_idOf hs.toCached hs.rootId (Or.inr (hs.live hg)) (hs.held hl hg') hid
      rw [← hsame]
      exact hg'
    · rw [show (s.heap r).parent = some g from hg', Option.bind_some, hs.idOf hg]
      exact hx

/-- A client that gets the packets of `update()`. -/
theorem trailed_process (h : Fed f c.store) (ha : f.Scope .update) {ms : List (Chance × Message)}
    (hms : ms.map Prod.snd = f.server.emitted .update) : Trailed f.server.store [] [] (c.process ms).store := by
  have hs := h.additive
  have hremoves : (f.server.store.removedParameter.toList.map fun e =>
      (⟨.remove, .id (f.server.store.idOf e.2)⟩ : Message)) =
        f.server.store.removedIds.map fun i => ⟨.remove, .id i⟩ := by
    rw [removedIds, List.map_map]
    refine List.map_congr_left fun e he => ?_
    rw [(hs.removed (Std.ExtTreeMap.mem_toList_iff_getElem?_eq_some.mp he)).1]
    rfl
  have hsent : f.server.emitted .update = _ := Server.packets_update hs.keyed h.transporters
  rw [hsent, hremoves] at hms
  obtain ⟨l₁, l₂, rfl, h₁, h₂⟩ := List.map_eq_append_iff.mp hms
  rw [Client.process, List.foldl_append]
  refine trailed_updates hs (pairwise_dirtyRefs hs.toSettled) (fun r hr => ⟨hs.live_of_dirty hr, ha r hr⟩) ?_ h₂
  refine trailed_removes hs (fun i hi hm => ?_) h.trailed h₁
  obtain ⟨x, hx⟩ := mem_iff_exists.mp hm
  rw [hs.apart (mem_removedIds.mp hi)] at hx
  simp at hx

theorem fed_update (h : Fed f c.store) (ha : f.Scope .update) {ms : List (Chance × Message)}
    (hms : ms.map Prod.snd = f.server.emitted .update) :
    Fed (f.call .update) (c.process ms).store := by
  have hst := Server.sameTree_update f.server
  have hids : f.server.update.2.store.idOf = f.server.store.idOf := funext hst.idOf
  obtain ⟨hd, hr⟩ := Server.lists_update h.transporters
  have hsent := trailed_process h ha hms
  have hadditive := Server.additive_update h.additive h.transporters
  have ht := Server.trailed_update h.additive h.transporters hsent
  have hcopies := replicated_of_trailed h.additive hsent
  refine ⟨hadditive, ?_, ?_, hcopies.ids, fun {r x y} hl hx hy => ?_⟩
  · show f.server.update.2.transporterList ≠ []
    rw [Server.update, if_neg h.transporters]
    exact h.transporters
  · have hremoved : f.server.update.2.store.removedIds = [] := by rw [removedIds, hr]; rfl
    have hdirty : f.server.update.2.store.dirtyRefs = [] := by rw [dirtyRefs, hd]; rfl
    show Trailed f.server.update.2.store f.server.update.2.store.removedIds f.server.update.2.store.dirtyRefs _
    rwa [hremoved, hdirty]
  · have hx' : (c.process ms).store.params[f.server.update.2.store.idOf r]? = some x := hx
    rw [hids] at hx'
    have hshown : (c.process ms).store.parent x = _ := hcopies.shown (hst.live.mp hl) hx' .parentId
    obtain ⟨g, hg, hgy⟩ := Option.bind_eq_some_iff.mp (hshown.symm.trans hy)
    exact ⟨g, hg, (hsent.kempt.idOf hgy).symm⟩

theorem server_call (f : Feed) (a : Call) : (f.call a).server = f.server.call a := by cases a <;> rfl

theorem server_run (f : Feed) (cs : List Call) : (run call f cs).server = run Server.call f.server cs := by
  induction cs generalizing f with
  | nil => rfl
  | cons a cs ih => rw [run_cons, run_cons, ih, server_call]

theorem emitted_of_ne_update {a : Call} (ha : f.Scope a) (hne : a ≠ .update) : f.server.emitted a = [] := by
  cases a with
  | update => exact absurd rfl hne
  | receive => exact ha.elim
  | _ => rfl

/-- A client that gets the packets of a call. -/
theorem fed_received (h : Fed f c.store) {a : Call} (ha : f.Scope a) {ms : List (Chance × Message)}
    (hms : ms.map Prod.snd = f.server.emitted a) : Fed (f.call a) (c.process ms).store := by
  by_cases hne : a = .update
  · subst hne
    exact fed_update h ha hms
  · rw [emitted_of_ne_update ha hne, List.map_eq_nil_iff] at hms
    rw [hms]
    exact fed_call h ha hne

/-- A client keeps up with the server. -/
theorem fed_run (cs : List Call) (h : Fed f c.store) (hcs : Along call Scope f cs) {ms : List (Chance × Message)}
    (hms : ms.map Prod.snd = f.server.emissions cs) : Fed (run call f cs) (c.process ms).store := by
  induction cs generalizing f c ms with
  | nil =>
    obtain rfl : ms = [] := List.map_eq_nil_iff.mp hms
    exact h
  | cons a cs ih =>
    obtain ⟨ha, hcs⟩ := hcs
    obtain ⟨l₁, l₂, rfl, h₁, h₂⟩ := List.map_eq_append_iff.mp hms
    rw [run_cons, Client.process, List.foldl_append]
    refine ih (c := c.process l₁) (fed_received h ha h₁) hcs ?_
    rw [server_call]
    exact h₂

theorem fed_start (mem : Memory) {ts : List Nat} (hts : ts ≠ []) (m : Memory) :
    Fed (start mem ts) (Client.new m).store := by
  have hs := Server.settled_start mem ts
  have hparams : (Server.start mem ts).store.params = ∅ := by
    rw [Server.store_start]
    simp [Server.new, Store.empty]
  have hlive : ∀ {r : Ref}, ¬(Server.start mem ts).store.Live r := fun hr => by
    rw [Live, hparams] at hr
    simp at hr
  have hempty : ∀ {i : Id}, i ∉ (Client.new m).store.params := fun hi => by
    simp [Client.new, Store.empty] at hi
  refine ⟨⟨hs, fun hr => absurd hr hlive, fun hr => absurd hr hlive⟩, Server.transporterList_start mem hts,
    ⟨kempt_empty m, fun i hi => absurd hi hempty, fun hr => absurd hr hlive, fun hr => absurd hr hlive⟩, fun i => ?_,
    fun hr => absurd hr hlive⟩
  show i ∈ _ ↔ i ∈ (Server.start mem ts).store.params
  rw [hparams]
  exact iff_of_false hempty Std.ExtTreeMap.not_mem_empty

/-- After every `update()` of a run, a client that has processed every packet since the start holds the parameters of
the server. -/
theorem replicated_run (mem : Memory) {ts : List Nat} (hts : ts ≠ []) (cs : List Call)
    (h : Along call Scope (start mem ts) (cs ++ [.update])) (m : Memory) (ms : List (Chance × Message))
    (hms : ms.map Prod.snd = (Server.start mem ts).emissions (cs ++ [.update])) :
    Replicated (run Server.call (Server.start mem ts) (cs ++ [.update])).store ((Client.new m).process ms).store := by
  have hfed := fed_run (cs ++ [.update]) (fed_start mem hts m) h hms
  have hserver := server_run (start mem ts) (cs ++ [.update])
  set f := run call (start mem ts) (cs ++ [.update])
  set s := run Server.call (Server.start mem ts) cs
  replace hserver : f.server = s.update.2 := hserver.trans (run_append _ cs [.update])
  have hts : s.transporterList ≠ [] := by
    intro hnil
    refine hfed.transporters ?_
    rw [hserver, Server.update, if_pos hnil]
    exact hnil
  obtain ⟨hdirty, hremoved⟩ := Server.lists_update hts
  rw [← hserver] at hdirty hremoved
  have ht := hfed.trailed
  rw [removedIds, hremoved, dirtyRefs, hdirty] at ht
  rw [run_append]
  show Replicated s.update.2.store _
  rw [← hserver]
  exact replicated_of_trailed hfed.additive ht

/-- A parameter is moved into a group, and its sibling is removed. -/
def regrouped : List Call :=
  [.create {} .createGroupParameter [97] root, .create {} .createInt8Parameter [98] 1,
    .create {} .createBooleanParameter [99] root, .set 2 (@Setter.setValue (.number .int8) (7 : BitVec 8)), .update,
    .addChild 1 3, .set 3 (@Setter.setValue .boolean true), .removeParameter 2]

/-- A parameter with short texts in one language only. -/
theorem readable_of_plain {p : Parameter}
    (hlabel : p.label.languages.isEmpty = true ∧ p.label.content.length ≤ 127)
    (hdescription : p.description = {}) (htags : p.tags.has = false) (huserid : p.userid.has = false) : p.Readable where
  label := .of_plain hlabel.1 hlabel.2
  description := by rw [hdescription]; exact .of_plain (by decide) (by decide)
  tags s hs := by simp [Slot.get?, htags] at hs
  userid s hs := by simp [Slot.get?, huserid] at hs

private theorem scope_regrouped : Along call Scope (start {} [0]) (regrouped ++ [.update]) := by
  have hremoved : ∀ {t : Std.ExtTreeMap Int16 Ref} {id : Id}, t = ∅ → id ∉ t := fun ht => by simp [ht]
  refine ⟨⟨by decide, by decide, Or.inl rfl, fun id hid => ⟨hremoved rfl, Or.inl rfl⟩⟩,
    ⟨by decide, by decide, Or.inr (by decide : _ = _), fun id hid => ⟨hremoved rfl, Or.inr (Or.inr ?_)⟩⟩,
    ⟨by decide, by decide, Or.inl rfl, fun id hid => ⟨hremoved rfl, Or.inl rfl⟩⟩,
    ⟨Or.inr (by decide : _ = _), by decide, by decide⟩, fun r hr => ?_,
    ⟨by decide, (by decide : _ = _), (by decide : _ = _), Or.inl (by decide)⟩,
    ⟨Or.inr (by decide : _ = _), by decide, by decide⟩, fun r hr => ⟨?_, fun j x hx => ?_⟩, fun r hr => ?_, trivial⟩
  · obtain rfl : id = 2 := Option.some.inj (hid.symm.trans (by decide))
    decide
  · have hdirty : r ∈ [1, 2, 3] := by
      rw [show [1, 2, 3] = (run call (start {} [0]) (regrouped.take 4)).server.store.dirtyRefs by decide]
      exact hr
    simp only [List.mem_cons, List.not_mem_nil, or_false] at hdirty
    rcases hdirty with rfl | rfl | rfl
    all_goals refine ⟨readable_of_plain (by decide) rfl rfl rfl, ?_⟩
    · trivial
    · exact ⟨fun s hs => absurd hs (Option.not_mem_none s), fun _ _ => trivial⟩
    · exact ⟨trivial, fun _ _ => trivial⟩
  · obtain rfl : r = 2 := Option.some.inj (hr.symm.trans (by decide))
    decide
  · have hall : ∀ e ∈ (run call (start {} [0]) (regrouped.take 7)).server.store.params.toList, e.2 ≠ r →
        e.1 ∈ (run call (start {} [0]) (regrouped.take 7)).sent.params →
        ∀ g ∈ (run call (start {} [0]) (regrouped.take 7)).sent.parent e.2,
          (run call (start {} [0]) (regrouped.take 7)).sent.idOf g ≠ 2 := by
      obtain rfl : r = 2 := Option.some.inj (hr.symm.trans (by decide))
      decide
    exact hall (j, x) (Std.ExtTreeMap.mem_toList_iff_getElem?_eq_some.mpr hx)
  · have hdirty : r ∈ [3] := by
      rw [show [3] = (run call (start {} [0]) regrouped).server.store.dirtyRefs by decide]
      exact hr
    obtain rfl := List.mem_singleton.mp hdirty
    exact ⟨readable_of_plain (by decide) rfl rfl rfl, trivial, fun _ _ => trivial⟩

theorem replicated_run_regrouped :
    Replicated (run Server.call (Server.start {} [0]) (regrouped ++ [.update])).store
      ((Client.new {}).process (((Server.start {} [0]).emissions (regrouped ++ [.update])).map
        fun m => (⟨{}, fun _ => 0⟩, m))).store :=
  replicated_run {} (by decide) regrouped scope_regrouped {} _ (by rw [List.map_map]; exact List.map_id _)

end Feed

end RabbitControl
