import RabbitControl.Feed
import RabbitControl.Sharing

/-!
# From the start to agreement

A server sets its parameters up and sends them, and its clients take over what arrives.  Once everything has arrived all
follow one layout and show the same (`aligned_of_setUp`), so whatever they set from then on, they agree as soon as they
are quiet (`alike_from_start`).
-/

namespace RabbitControl

open Lib

/-! ### Tidy clients -/

theorem Parameter.shown_of_matches {named : Ref → Option Ref} {p q : Parameter} {o : OptionId}
    (h : p.Matches named q o) : q.shown o = p.shown o := by
  cases o with
  | label => exact congrArg (Option.map _) h
  | description => exact congrArg (Option.map _) h
  | tags => exact congrArg (Option.map _) h
  | order => exact congrArg (Option.map _) h
  | userid => exact congrArg (Option.map _) h
  | value =>
    have hvalue : p.kind.SameValue q.kind := h
    show (q.kind.observe .value).map _ = (p.kind.observe .value).map _
    generalize p.kind = j at hvalue
    generalize q.kind = k at hvalue
    cases hvalue with
    | value hv => exact Content.shown_of_rel hv
    | bang | group => rfl
  | _ => rfl

theorem Parameter.Uncleared.updatedBy {idOf : Ref → Id} {q p : Parameter} (hq : q.userdata.content = [])
    (hp : p.Uncleared) : (q.updatedBy idOf p).Uncleared := by
  have hslot : ∀ {α : Type} {eqv : α → α → Bool} {w s : Slot α}, (s.changed = true → s.has = true) →
      (w.takeOver eqv s).changed = true → (w.takeOver eqv s).has = true := by
    intro α eqv w s hs
    unfold Slot.takeOver
    cases w.get? with
    | none => exact hs
    | some v => exact fun _ => Slot.has_set eqv v s
  have hdata : q.userdata.get? = none := by simp [Block.get?, Block.has, hq]
  refine ⟨hslot hp.tags, hslot hp.order, hslot hp.userid, fun hc => ?_, fun hc => ?_, ?_⟩
  · have hvalue := hp.value
    change (q.kind.takeOver p.kind).changed .value = true at hc
    show ((q.kind.takeOver p.kind).observe .value).isSome = true
    generalize p.kind = k at hvalue hc ⊢
    generalize q.kind = w at hc ⊢
    cases w with
    | value σ d u =>
      cases k with
      | value τ e v =>
        unfold Kind.takeOver at hc ⊢
        dsimp only at hc ⊢
        split at hc
        · next hσ =>
          rw [dif_pos hσ]
          have hv : v.changed = true → v.has = true := fun h => by simpa [Kind.observe] using hvalue h
          simpa [Kind.observe] using hslot hv hc
        · next hσ =>
          rw [dif_neg hσ]
          exact hvalue hc
      | bang | group | invalid => exact hvalue hc
    | bang | group | invalid => exact hvalue hc
  · unfold Parameter.updatedBy at hc ⊢
    cases hg : q.parent with
    | none =>
      rw [hg] at hc
      exact hp.parent (by simpa using hc)
    | some g =>
      cases ho : p.parent with
      | none => rfl
      | some old =>
        dsimp only
        split <;> rfl
  · show (q.userdata.takeOver p.userdata).content = []
    rw [Block.takeOver, hdata]
    exact hp.userdata

namespace Store

variable {s c t : Store} {r x : Ref} {i : Id} {k : List Id} {l : List Ref} {w : Parameter}

theorem named_eq_some_iff {j : Id} {g : Ref} :
    s.named j = some g ↔ j ≠ 0 ∧ s.params[j]? = some g ∧ (s.heap g).isGroup = true := by
  unfold Store.named getGroup
  split
  · next hj => simp [hj]
  · next hj =>
    cases hx : s.params[j]? with
    | none => simp
    | some x =>
      dsimp only
      split
      · next hg =>
        refine ⟨fun h => ?_, fun h => h.2.1⟩
        obtain rfl := Option.some.inj h
        exact ⟨hj, rfl, hg⟩
      · next hg =>
        refine ⟨fun h => absurd h (by simp), fun h => ?_⟩
        obtain rfl := Option.some.inj h.2.1
        exact absurd h.2.2 hg

/-- What a client has marked was not cleared, what is dirty is held, and nothing has been removed. -/
structure Tidy (c : Store) : Prop where
  uncleared : ∀ {i : Id} {x : Ref}, c.params[i]? = some x → (c.heap x).Uncleared
  dirty : ∀ {i : Id} {x : Ref}, c.dirtyParameter[i]? = some x → c.params[i]? = some x
  removed : c.removedParameter = ∅

theorem tidy_empty (mem : Memory) : Tidy (empty mem) :=
  ⟨fun hx => by simp [empty] at hx, fun hx => by simp [empty] at hx, rfl⟩

/-- A parameter that a client holds. -/
private theorem tidy_updated (hk : Kempt c) (hc : Tidy c) (hw : w.userdata.content = [])
    (hx : c.params[w.parameterId]? = some x) : Tidy ((c.withProxy w).update x c.next).1 := by
  have hlt := hk.built hx
  have hheap : ∀ {i : Id} {y : Ref}, c.params[i]? = some y → (c.withProxy w).heap y = c.heap y := fun hy =>
    heap_withProxy w (Nat.ne_of_lt (hk.built hy))
  have hproxy : (c.withProxy w).heap c.next = w := if_pos rfl
  have hid : (c.withProxy w).idOf x = w.parameterId := by
    rw [idOf, hheap hx]
    exact hk.idOf hx
  have ht := touched_update (c.withProxy w) x c.next
  refine ⟨fun {j y} hy => ?_, fun {j y} hy => ?_, ht.frame.removed.trans hc.removed⟩
  · rw [ht.params] at hy
    by_cases hyx : y = x
    · subst hyx
      refine uncleared_of_childless ?_ (childless_update (Nat.ne_of_gt hlt) (by rw [hid, idOf, hproxy]))
      rw [hproxy, hheap hx]
      exact (hc.uncleared hx).updatedBy hw
    · refine uncleared_of_childless (hc.uncleared hy) ?_
      rw [childless_update_of_ne hyx, hheap hy]
  · rw [ht.params]
    rcases ht.dirty.cases hy with hy | ⟨rfl, rfl⟩
    · exact hc.dirty hy
    · rw [hid]
      exact hx

private theorem lists_addParameter : DirtyStep s (s.addParameter r) r ∧
    (s.addParameter r).removedParameter = s.removedParameter := by
  unfold addParameter
  split
  · exact ⟨Or.inl rfl, rfl⟩
  · dsimp only
    split
    · next g _ =>
      have ht := touched_addChild (({ s with ids := insert (s.idOf r) s.ids } : Store).modify r
        fun p => { p with managed := true }) g r
      refine ⟨ht.dirty.imp id fun hd => hd.trans ?_, ht.frame.removed⟩
      simp [idOf, modify, put]
    · exact ⟨Or.inl rfl, rfl⟩

/-- A parameter that a client does not hold. -/
private theorem tidy_adopted (hk : Kempt c) (hc : Tidy c) (hw : w.Uncleared)
    (hnone : c.params[w.parameterId]? = none) (hgroup : ∀ g, w.parent = some g → c.Live g) :
    Tidy ((c.withProxy w).addParameter c.next) := by
  have ha := hk.adopted hnone hgroup
  obtain ⟨hdirty, hremoved⟩ := lists_addParameter (s := c.withProxy w) (r := c.next)
  refine ⟨fun {j y} hy => ?_, fun {j y} hy => ?_, hremoved.trans hc.removed⟩
  · rw [ha.params, getElem?_insert_iff] at hy
    split at hy
    · obtain rfl := Option.some.inj hy
      rw [ha.proxy]
      exact { hw with }
    · refine uncleared_of_childless (hc.uncleared hy) ?_
      rw [ha.heap y (Nat.ne_of_lt (hk.built hy))]
      split
      · exact Parameter.childless_modifyChildren _
      · rfl
  · rw [ha.params, getElem?_insert_iff]
    rcases hdirty.cases hy with hy | ⟨rfl, rfl⟩
    · have hold := hc.dirty hy
      split
      · next hj =>
        rw [hj, hnone] at hold
        simp at hold
      · exact hold
    · exact if_pos (idOf_withProxy c w)

/-- A packet of `update()`. -/
theorem tidy_received (hp : Ready (s.heap r)) {c : Client} (hk : Kempt c.store) (hc : Tidy c.store) (ch : Chance) :
    Tidy (c.received ch (s.packet r).bytes).1.store := by
  obtain ⟨w, command, hsent, -, hparse⟩ := parse_packet hp c.store ch
  rw [Client.received_of_parameter (p := w) (by rw [hparse]) (by rw [hparse]; rfl), hparse]
  show Tidy (Client.applyUpdate c.store.next (c.store.withProxy w))
  rw [Client.applyUpdate, params_withProxy]
  cases hx : c.store.params[w.parameterId]? with
  | none =>
    refine tidy_adopted hk hc hsent.uncleared hx fun g hg => ?_
    rw [hsent.parent] at hg
    split at hg
    · obtain ⟨j, -, hj⟩ := Option.bind_eq_some_iff.mp hg
      exact hk.live (named_eq_some_iff.mp hj).2.1
    · simp at hg
  | some x =>
    dsimp only
    rw [heap_withProxy w (Nat.ne_of_lt (hk.built hx)), if_pos (hk.valid hx)]
    exact tidy_updated hk hc hsent.uncleared.userdata hx

theorem tidy_updates (hs : Additive s) (hl : l.Pairwise fun r x => s.idOf r < s.idOf x)
    (hp : ∀ r ∈ l, s.Live r ∧ (s.heap r).Readable ∧ (s.heap r).kind.Readable false) {c : Client}
    (h : Trailed s k l c.store) (hc : Tidy c.store) {ms : List (Chance × Message)}
    (hms : ms.map Prod.snd = l.map s.packet) : Tidy (c.process ms).store := by
  induction l generalizing c ms with
  | nil =>
    obtain rfl : ms = [] := List.map_eq_nil_iff.mp hms
    exact hc
  | cons r l ih =>
    obtain ⟨m, ms, rfl, hm, hms⟩ := exists_cons_of_map hms
    have hr := hp r List.mem_cons_self
    refine ih (List.pairwise_cons.mp hl).2 (fun x hx => hp x (List.mem_cons_of_mem _ hx))
      (c := (c.received m.1 m.2.bytes).1) ?_ ?_ hms
    · rw [hm]
      exact trailed_received hs hl hr h m.1
    · rw [hm]
      exact tidy_received ⟨hs.created hr.1, hs.uncleared hr.1, hr.2.1, hr.2.2⟩ h.kempt hc m.1

/-! ### The layout of a server -/

/-- The layout that a store has. -/
def layout (s : Store) : Layout where
  type id := s.params[id]?.map fun r => (s.heap r).kind.type
  parent id := (s.params[id]?.bind s.parent).bind fun g => if s.idOf g = 0 then none else some (s.idOf g)

/-- The group of a parameter in the layout. -/
private theorem parent_layout (hr : s.params[i]? = some r) {j : Id} :
    s.layout.parent i = some j ↔ ∃ g, s.parent r = some g ∧ s.idOf g = j ∧ j ≠ 0 := by
  show ((s.params[i]?.bind s.parent).bind fun g => if s.idOf g = 0 then none else some (s.idOf g)) = some j ↔ _
  rw [hr]
  simp only [Option.bind_some, Option.bind_eq_some_iff]
  refine exists_congr fun g => and_congr_right fun _ => ?_
  split
  · next h0 => exact ⟨fun h => absurd h (by simp), fun h => absurd (h.1.symm.trans h0) h.2⟩
  · next h0 =>
    refine ⟨fun h => ?_, fun h => congrArg some h.1⟩
    obtain rfl := Option.some.inj h
    exact ⟨rfl, h0⟩

/-- A group other than the root group is held, and is found by its id. -/
private theorem named_of_parent (hs : Additive s) (hr : s.Live r) {g : Ref} (hg : s.parent r = some g)
    (h0 : s.idOf g ≠ 0) : s.Live g ∧ s.named (s.idOf g) = some g := by
  have hlive : s.Live g := (hs.held hr hg).resolve_left fun hroot => h0 (by rw [hroot]; exact hs.rootId)
  exact ⟨hlive, named_eq_some_iff.mpr ⟨h0, hlive, isGroup_of_mem_children ((hs.mem_children_iff hr).mpr hg)⟩⟩

private theorem created_layout (hs : Additive s) {τ : ParameterType} (h : s.layout.type i = some τ) :
    ∃ f : CreateFunction, τ = f.type := by
  obtain ⟨r, hr, rfl⟩ := Option.map_eq_some_iff.mp h
  exact hs.created (hs.live hr)

theorem follows_layout (hs : Additive s) (hr : s.removedParameter = ∅) : Follows s.layout s where
  toPaired := hs.toLinked.paired
  type _ := rfl
  created := created_layout hs
  uncleared hr := hs.uncleared (hs.live hr)
  above hr hg := or_iff_not_imp_left.mpr fun h0 => (parent_layout hr).mpr ⟨_, hg, rfl, h0⟩
  named hr hj := by
    obtain ⟨g, hg, rfl, h0⟩ := (parent_layout hr).mp hj
    exact ⟨g, hg, (named_of_parent hs (hs.live hr) hg h0).2⟩
  dirty := hs.dirtyLive
  removed := hr

section Replicated

variable {d : Store} (hs : Additive s) (h : Replicated s d)

include h

private theorem exists_replica (hr : s.params[i]? = some r) : ∃ x, d.params[i]? = some x :=
  mem_iff_exists.mp ((h.ids i).mpr (mem_of_getElem? hr))

private theorem exists_original (hx : d.params[i]? = some x) : ∃ r, s.params[i]? = some r :=
  mem_iff_exists.mp ((h.ids i).mp (mem_of_getElem? hx))

theorem shown_replicated (id : Id) (o : OptionId) : d.shown id o = s.shown id o := by
  rw [Store.shown, Store.shown]
  cases hr : s.params[id]? with
  | none =>
    cases hx : d.params[id]? with
    | none => rfl
    | some x =>
      obtain ⟨r, hr'⟩ := exists_original h hx
      rw [hr] at hr'
      simp at hr'
  | some r =>
    obtain ⟨x, hx⟩ := exists_replica h hr
    rw [hx]
    exact Parameter.shown_of_matches (h.shown hr hx o)

include hs

/-- A tidy copy of a store follows the same layout. -/
theorem follows_replicated (hk : Kempt d) (hd : Tidy d) : Follows s.layout d := by
  have hparent : ∀ {i : Id} {r x : Ref}, s.params[i]? = some r → d.params[i]? = some x →
      d.parent x = (s.parent r).bind fun g => d.params[s.idOf g]? := fun hr hx => h.shown hr hx .parentId
  refine ⟨hk.toPaired, fun id => ?_, created_layout hs, hd.uncleared, fun {i x y} hx hy => ?_, fun {i j x} hx hj => ?_,
    hd.dirty, hd.removed⟩
  · show _ = s.params[id]?.map fun r => (s.heap r).kind.type
    cases hr : s.params[id]? with
    | none =>
      refine Option.map_eq_none_iff.mpr ?_
      cases hx : d.params[id]? with
      | none => rfl
      | some x =>
        obtain ⟨r, hr'⟩ := exists_original h hx
        rw [hr] at hr'
        simp at hr'
    | some r =>
      obtain ⟨x, hx⟩ := exists_replica h hr
      rw [hx]
      exact congrArg some (h.type hr hx)
  · obtain ⟨r, hr⟩ := exists_original h hx
    rw [hparent hr hx] at hy
    obtain ⟨g, hg, hgy⟩ := Option.bind_eq_some_iff.mp hy
    rw [hk.idOf hgy]
    exact or_iff_not_imp_left.mpr fun h0 => (parent_layout hr).mpr ⟨g, hg, rfl, h0⟩
  · obtain ⟨r, hr⟩ := exists_original h hx
    obtain ⟨g, hg, rfl, h0⟩ := (parent_layout hr).mp hj
    obtain ⟨hlive, hnamed⟩ := named_of_parent hs (hs.live hr) hg h0
    obtain ⟨y, hy⟩ := exists_replica h hlive
    refine ⟨y, ?_, named_eq_some_iff.mpr ⟨h0, hy, ?_⟩⟩
    · rw [hparent hr hx, hg]
      exact hy
    · exact (isGroup_of_type (h.type hlive hy)).trans (named_eq_some_iff.mp hnamed).2.2

end Replicated

end Store

/-! ### A run without removals -/

namespace Feed

open Store

variable {f : Feed} {c : Client}

theorem removed_call {a : Call} (ha : f.Scope a) (hno : ∀ id, a ≠ .removeParameter id)
    (hts : f.server.transporterList ≠ []) (hr : f.server.store.removedParameter = ∅) :
    (f.call a).server.store.removedParameter = ∅ := by
  cases a with
  | create mem e label g =>
    show (f.server.call (.create mem e label g)).store.removedParameter = ∅
    rw [Server.call]
    cases hc : f.server.store.create mem e label g with
    | none => exact hr
    | some p =>
      obtain ⟨r, t⟩ := p
      obtain ⟨i, hi⟩ := exists_nextId hc
      obtain ⟨rfl, hb⟩ := born_of_create hi hc
      exact hb.removed.trans hr
  | set r a => exact (frame_set f.server.store r a).removed.trans hr
  | addChild g x => exact (touched_addChild f.server.store g x).frame.removed.trans hr
  | removeParameter id => exact absurd rfl (hno id)
  | update => exact (Server.lists_update hts).2
  | receive => exact ha.elim

/-- A client that gets the packets of a call. -/
private theorem tidy_call (h : Fed f c.store) (hc : Tidy c.store) {a : Call} (ha : f.Scope a)
    (hr : f.server.store.removedParameter = ∅) {ms : List (Chance × Message)}
    (hms : ms.map Prod.snd = f.server.emitted a) : Tidy (c.process ms).store := by
  by_cases hne : a = .update
  · subst hne
    have hs := h.additive
    have hsent : f.server.emitted .update = _ := Server.packets_update hs.keyed h.transporters
    rw [hsent, hr] at hms
    exact tidy_updates hs (pairwise_dirtyRefs hs.toSettled) (fun r hr => ⟨hs.live_of_dirty hr, ha r hr⟩) h.trailed hc
      hms
  · rw [emitted_of_ne_update ha hne, List.map_eq_nil_iff] at hms
    rw [hms]
    exact hc

theorem tidy_run (cs : List Call) (h : Fed f c.store) (hc : Tidy c.store) (hcs : Along call Scope f cs)
    (hno : ∀ id, .removeParameter id ∉ cs) (hr : f.server.store.removedParameter = ∅) {ms : List (Chance × Message)}
    (hms : ms.map Prod.snd = f.server.emissions cs) :
    Tidy (c.process ms).store ∧ (run call f cs).server.store.removedParameter = ∅ := by
  induction cs generalizing f c ms with
  | nil =>
    obtain rfl : ms = [] := List.map_eq_nil_iff.mp hms
    exact ⟨hc, hr⟩
  | cons a cs ih =>
    obtain ⟨ha, hcs⟩ := hcs
    obtain ⟨l₁, l₂, rfl, h₁, h₂⟩ := List.map_eq_append_iff.mp hms
    rw [run_cons, Client.process, List.foldl_append]
    refine ih (c := c.process l₁) (fed_received h ha h₁) (tidy_call h hc ha hr h₁) hcs
      (fun id hm => hno id (List.mem_cons_of_mem _ hm))
      (removed_call ha (fun id ha => hno id (by rw [ha]; exact List.mem_cons_self)) h.transporters hr) ?_
    rw [server_call]
    exact h₂

end Feed

/-! ### Setting up -/

namespace Action

variable {ι : Type}

/-- The call on the server. -/
def call? : Action ι → Option Call
  | call c => some c
  | _ => none

/-- The server sets its parameters up, and the clients take over what arrives. -/
def SetsUp : Action ι → Prop
  | call (.removeParameter _) | call (.receive ..) => False
  | call _ | clientReceived .. => True
  | _ => False

end Action

/-- The client `d` comes from `c` by the first of the packets that were sent, and the others are in the queue. -/
def Served (c d : Client) (sent : List Message) (queue : List Bytes) : Prop :=
  ∃ (ms : List (Chance × Message)) (rest : List Message), d = c.process ms ∧ ms.map Prod.snd ++ rest = sent ∧
    queue = rest.map Message.bytes

namespace Served

variable {c d : Client} {sent : List Message} {data : Bytes} {queue : List Bytes}

theorem send (h : Served c d sent queue) (ms : List Message) :
    Served c d (sent ++ ms) (queue ++ ms.map Message.bytes) := by
  obtain ⟨l, rest, hd, hsent, hqueue⟩ := h
  exact ⟨l, rest ++ ms, hd, by rw [← hsent, List.append_assoc], by rw [hqueue, List.map_append]⟩

theorem receive (h : Served c d sent (data :: queue)) (ch : Chance) :
    Served c (d.received ch data).1 sent queue := by
  obtain ⟨l, rest, rfl, hsent, hqueue⟩ := h
  obtain ⟨m, rest, rfl, rfl, rfl⟩ := List.map_eq_cons_iff.mp hqueue.symm
  refine ⟨l ++ [(ch, m)], rest, ?_, by rw [← hsent]; simp, rfl⟩
  rw [Client.process, Client.process, List.foldl_append]
  rfl

/-- When the queue is empty the client has processed all packets. -/
theorem processed (h : Served c d sent []) :
    ∃ ms : List (Chance × Message), d = c.process ms ∧ ms.map Prod.snd = sent := by
  obtain ⟨l, rest, hd, hsent, hqueue⟩ := h
  rw [List.map_eq_nil_iff.mp hqueue.symm, List.append_nil] at hsent
  exact ⟨l, hd, hsent⟩

end Served

namespace System

variable {ι : Type} [DecidableEq ι] {s : System ι} {i : ι} {id : Id} {o : OptionId}

/-- The packets of the calls arrive in order. -/
theorem served_setUp (as : List (Action ι)) (has : ∀ a ∈ as, a.SetsUp) {c : ι → Client} {sent : List Message}
    (h : ∀ i, Served (c i) (s.client i) sent (s.down i)) :
    (run step s as).server = run Server.call s.server (as.filterMap Action.call?) ∧
      ∀ i, Served (c i) ((run step s as).client i) (sent ++ s.server.emissions (as.filterMap Action.call?))
        ((run step s as).down i) := by
  induction as generalizing s sent with
  | nil =>
    refine ⟨rfl, fun i => ?_⟩
    show Served _ _ (sent ++ []) _
    rw [List.append_nil]
    exact h i
  | cons a as ih =>
    have ha := has a List.mem_cons_self
    have hrest : ∀ b ∈ as, b.SetsUp := fun b hb => has b (List.mem_cons_of_mem _ hb)
    rw [run_cons]
    cases a with
    | call b =>
      have hstep : s.step (.call b) = { s with
          server := s.server.call b
          down := fun i => s.down i ++ (s.server.emitted b).map Message.bytes } := by
        cases b with
        | receive => exact ha.elim
        | _ => rfl
      rw [hstep]
      obtain ⟨hserver, hserved⟩ := ih hrest (s := { s with
        server := s.server.call b
        down := fun i => s.down i ++ (s.server.emitted b).map Message.bytes }) fun i => (h i).send _
      refine ⟨hserver, fun i => ?_⟩
      have hi := hserved i
      rwa [List.append_assoc] at hi
    | clientReceived j ch =>
      cases hdown : s.down j with
      | nil =>
        rw [step, hdown]
        exact ih hrest h
      | cons data rest =>
        have hstep : s.step (.clientReceived j ch) = { s with
            client := Function.update s.client j ((s.client j).received ch data).1
            down := Function.update s.down j rest
            up := Function.update s.up j (s.up j ++ ((s.client j).received ch data).2.map Message.bytes) } := by
          rw [step, hdown]
        rw [hstep]
        refine ih hrest fun i => ?_
        by_cases hi : i = j
        · subst hi
          have hfirst := h i
          rw [hdown] at hfirst
          dsimp only
          rw [Function.update_self, Function.update_self]
          exact hfirst.receive ch
        · dsimp only
          rw [Function.update_of_ne hi, Function.update_of_ne hi]
          exact h i
    | clientSet | clientUpdate | clientSend | serverReceived => exact ha.elim

/-- Everything that is dirty has been sent, and everything that was sent has arrived. -/
structure Arrived (s : System ι) : Prop where
  sent : s.server.store.dirtyParameter = ∅
  up : ∀ i, s.up i = []
  down : ∀ i, s.down i = []

/-- After it has been set up everyone follows the layout of the server and shows the same. -/
theorem aligned_of_setUp (mem : Memory) {ts : List Nat} (hts : ts ≠ []) (memory : ι → Memory) (as : List (Action ι))
    (has : ∀ a ∈ as, a.SetsUp) (hscope : Along Feed.call Feed.Scope (Feed.start mem ts) (as.filterMap Action.call?))
    (harrived : Arrived (run step (start mem ts memory) as)) :
    Aligned (run step (start mem ts memory) as).server.store.layout (run step (start mem ts memory) as) := by
  have hnew : ∀ i, Served (Client.new (memory i)) ((start mem ts memory).client i) []
      ((start mem ts memory).down i) := fun i => ⟨[], [], rfl, rfl, rfl⟩
  obtain ⟨hserver, hserved⟩ := served_setUp as has hnew
  obtain ⟨hsent, hup, hdown⟩ := harrived
  set t := run step (start mem ts memory) as
  set cs := as.filterMap Action.call?
  set f := run Feed.call (Feed.start mem ts) cs with hf
  have hf_server : f.server = t.server := (Feed.server_run _ cs).trans hserver.symm
  have hclient : ∀ (m : Memory) (ms : List (Chance × Message)), ms.map Prod.snd = (Server.start mem ts).emissions cs →
      Feed.Fed f ((Client.new m).process ms).store ∧ Store.Tidy ((Client.new m).process ms).store ∧
        f.server.store.removedParameter = ∅ := by
    intro m ms hms
    have hstart := Feed.fed_start mem hts m
    refine ⟨Feed.fed_run cs hstart hscope hms,
      Feed.tidy_run cs hstart (Store.tidy_empty m) hscope (fun id hm => ?_) ?_ hms⟩
    · obtain ⟨a, ha, hcall⟩ := List.mem_filterMap.mp hm
      have hsets := has a ha
      cases a with
      | call b =>
        obtain rfl : b = .removeParameter id := Option.some.inj hcall
        exact hsets
      | clientSet | clientUpdate | clientSend | serverReceived | clientReceived => simp [Action.call?] at hcall
    · show (Server.start mem ts).store.removedParameter = ∅
      rw [Server.store_start]
      rfl
  -- the server is there without clients as well
  obtain ⟨hfed, -, hremoved⟩ :=
    hclient {} (((Server.start mem ts).emissions cs).map fun m => (⟨{}, fun _ => 0⟩, m))
      (by rw [List.map_map]; exact List.map_id _)
  rw [hf_server] at hremoved
  have hadditive := hfed.additive
  have htransporters := hfed.transporters
  rw [hf_server] at hadditive htransporters
  have hcopy : ∀ i, Store.Replicated t.server.store (t.client i).store ∧ Store.Kempt (t.client i).store ∧
      Store.Tidy (t.client i).store := by
    intro i
    have hi := hserved i
    rw [hdown i] at hi
    obtain ⟨ms, hprocess, hms⟩ := hi.processed
    obtain ⟨hfed, htidy, -⟩ := hclient (memory i) ms hms
    rw [← hprocess] at hfed htidy
    have htrailed := hfed.trailed
    rw [hf_server, Store.removedIds, hremoved, Store.dirtyRefs, hsent] at htrailed
    exact ⟨Feed.replicated_of_trailed hadditive htrailed, htrailed.kempt, htidy⟩
  refine ⟨Store.follows_layout hadditive hremoved, fun i => ?_, fun i id o => ?_, hup, hdown, htransporters⟩
  · obtain ⟨hreplicated, hkempt, htidy⟩ := hcopy i
    exact Store.follows_replicated hadditive hreplicated hkempt htidy
  · exact Store.shown_replicated (hcopy i).1 id o

/-- From the start: a server sets its parameters up, and when everything has arrived server and clients set options and
pass them on, in any order.  Whenever nothing of a parameter is left to be sent or to arrive, all show the same. -/
theorem alike_from_start (mem : Memory) {ts : List Nat} (hts : ts ≠ []) (memory : ι → Memory) (as : List (Action ι))
    (has : ∀ a ∈ as, a.SetsUp) (hscope : Along Feed.call Feed.Scope (Feed.start mem ts) (as.filterMap Action.call?))
    (harrived : Arrived (run step (start mem ts memory) as)) (bs : List (Action ι))
    (hbs : Along step Shares (run step (start mem ts memory) as) bs) (id : Id)
    (hq : Quiet id (run step (start mem ts memory) (as ++ bs))) (i : ι) (o : OptionId) :
    ((run step (start mem ts memory) (as ++ bs)).client i).store.shown id o =
      (run step (start mem ts memory) (as ++ bs)).server.store.shown id o := by
  rw [run_append] at hq ⊢
  exact alike_of_quiet (aligned_of_setUp mem hts memory as has hscope harrived) bs hbs id hq i o

/-- A parameter in a group is set up and arrives. -/
def prepared : List (Action (Fin 2)) :=
  let ch : Chance := ⟨{}, fun _ => 0⟩
  [.call (.create {} .createGroupParameter [97] root), .call (.create {} .createInt32Parameter [98] 1),
    .call (.set 2 (.setValue (τ := .number .int32) 5#32)), .call .update, .clientReceived firstClient ch,
    .clientReceived secondClient ch, .clientReceived secondClient ch, .clientReceived firstClient ch]

/-- The server sets the order while a client sets the label. -/
def ordered : List (Action (Fin 2)) :=
  let ch : Chance := ⟨{}, fun _ => 0⟩
  [.call (.set 2 (.setOrder 4)), .clientSet secondClient 2 (.label (.set [121])), .clientUpdate secondClient,
    .call .update, .serverReceived secondClient 0 ch, .clientReceived firstClient ch, .clientReceived firstClient ch,
    .clientReceived secondClient ch, .call .update, .clientUpdate firstClient, .clientUpdate secondClient,
    .clientReceived firstClient ch, .serverReceived firstClient 0 ch, .serverReceived secondClient 0 ch,
    .clientReceived firstClient ch, .clientReceived secondClient ch, .clientReceived secondClient ch]

private theorem scope_prepared :
    Along Feed.call Feed.Scope (Feed.start {} [0]) (prepared.filterMap Action.call?) := by
  have hremoved : ∀ {t : Std.ExtTreeMap Int16 Ref} {id : Id}, t = ∅ → id ∉ t := fun ht => by simp [ht]
  refine ⟨⟨by decide, by decide, Or.inl rfl, fun id hid => ⟨hremoved rfl, Or.inl rfl⟩⟩,
    ⟨by decide, by decide, Or.inr (by decide : _ = _), fun id hid => ⟨hremoved rfl, Or.inr (Or.inr ?_)⟩⟩,
    ⟨Or.inr (by decide : _ = _), by decide, by decide⟩, fun r hr => ?_, trivial⟩
  · obtain rfl : id = 2 := Option.some.inj (hid.symm.trans (by decide))
    decide
  · have hdirty : r ∈ [1, 2] := by
      rw [show [1, 2] =
        (run Feed.call (Feed.start {} [0]) ((prepared.take 3).filterMap Action.call?)).server.store.dirtyRefs by decide]
      exact hr
    simp only [List.mem_cons, List.not_mem_nil, or_false] at hdirty
    rcases hdirty with rfl | rfl
    all_goals refine ⟨Feed.readable_of_plain (by decide) rfl rfl rfl, ?_⟩
    · trivial
    · exact ⟨fun s hs => absurd hs (Option.not_mem_none s), fun _ _ => trivial⟩

private theorem shares_ordered : Along step Shares (run step (start {} [0] fun _ => {}) prepared) ordered := by
  have hwritable : ∀ {s : Store}, s.dirtyRefs = [2] →
      (s.heap 2).Readable ∧ (s.heap 2).kind.Readable false → s.Writable := by
    intro s hs hp r hr
    rw [hs] at hr
    rwa [List.mem_singleton.mp hr]
  refine ⟨⟨(by decide : _ = _), by decide, by decide⟩, ⟨(by decide : _ = _), by decide, by decide⟩,
    hwritable (by decide) ?_, hwritable (by decide) ?_, trivial, trivial, trivial, trivial, hwritable (by decide) ?_,
    hwritable (by decide) ?_, hwritable (by decide) ?_, trivial, trivial, trivial, trivial, trivial, trivial, trivial⟩
  all_goals
    exact ⟨Feed.readable_of_plain (by decide) rfl rfl rfl,
      ⟨fun s hs => absurd hs (Option.not_mem_none s), fun _ _ => trivial⟩⟩

theorem alike_from_start_ordered :
    ((run step (start {} [0] fun _ => {}) (prepared ++ ordered)).client firstClient).store.shown 2 .label =
      (run step (start {} [0] fun _ => {}) (prepared ++ ordered)).server.store.shown 2 .label := by
  refine alike_from_start {} (by decide) (fun _ => {}) prepared (fun a ha => ?_) scope_prepared
    ⟨?_, by decide, by decide⟩ ordered shares_ordered 2 ⟨by decide, by decide, by decide⟩ firstClient .label
  · simp only [prepared, List.mem_cons, List.not_mem_nil, or_false] at ha
    rcases ha with rfl | rfl | rfl | rfl | rfl | rfl | rfl | rfl <;> trivial
  · rfl

end System

end RabbitControl
