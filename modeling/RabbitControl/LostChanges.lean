import RabbitControl.Reuse

/-!
# Changes between two updates

The setters of a parameter keep a content, a presence flag and a change flag by hand, and `update()` sends the options
whose change flag is up.  `change_sent` carries `Parameter.noted_apply` along a run of setters and updates: as long as
every setter reports its change, an option that differs from what it was at the last `update()` is sent by the next
one.
-/

namespace RabbitControl

open Lib

/-- The server holds the parameter `r`, and its removal does not wait to be sent. -/
structure Server.Exposes (s : Server) (r : Ref) : Prop where
  live : s.store.Live r
  managed : (s.store.heap r).managed = true
  kept : s.store.idOf r ∉ s.store.removedParameter
  keyed : s.store.Keyed
  transporters : s.transporterList ≠ []

/-- After a run that keeps ids apart the server exposes its live parameters. -/
theorem Watched.Inv.exposes {w : Watched} (hw : w.Inv) {r : Ref} (hr : w.server.store.Live r) :
    w.server.Exposes r := by
  refine ⟨hr, hw.tracked.linked.managed hr, fun h => ?_, hw.tracked.keyed, hw.transporters⟩
  have hn := hw.tracked.apart h
  rw [hr] at hn
  simp at hn

/-- A server, and what the options of one of its parameters showed at the last `update()`. -/
structure Observed where
  server : Server
  seen : OptionId → Option Content

namespace Observed

variable {r : Ref}

/-- The last `update()` is the present moment. -/
def start (r : Ref) (s : Server) : Observed := ⟨s, (s.store.heap r).observe⟩

def call (r : Ref) (w : Observed) (c : Call) : Observed where
  server := w.server.call c
  seen := if c matches .update then (w.server.store.heap r).observe else w.seen

/-- Setters of parameters that the server holds, and `update()`. -/
def InScope (w : Observed) : Call → Prop
  | .set x _ => w.server.store.Live x
  | .update => True
  | _ => False

/-- A setter of the parameter `r` reports its change. -/
def Reports (r : Ref) (w : Observed) : Call → Prop
  | .set x a =>
    x = r → (w.server.store.heap r).reports
      (decide (w.server.store.dirtyParameter[w.server.store.idOf r]? = some r)) a = true
  | _ => True

instance (w : Observed) : DecidablePred w.InScope
  | .set x _ => inferInstanceAs (Decidable (_ = some x))
  | .update => inferInstanceAs (Decidable True)
  | .create .. | .addChild .. | .removeParameter _ | .receive .. => inferInstanceAs (Decidable False)

instance (w : Observed) : DecidablePred (w.Reports r)
  | .set x _ => inferInstanceAs (Decidable (x = r → _))
  | .update | .create .. | .addChild .. | .removeParameter _ | .receive .. => inferInstanceAs (Decidable True)

/-- What has changed since the last `update()` has its change flag up, and the parameter is on the dirty list. -/
structure Inv (r : Ref) (w : Observed) : Prop where
  exposes : w.server.Exposes r
  noted : ∀ o, (w.server.store.heap r).observe o ≠ w.seen o →
    (w.server.store.heap r).changed o = true ∧
      w.server.store.dirtyParameter[w.server.store.idOf r]? = some r

/-- Setters of live parameters keep the server exposing its parameters. -/
theorem exposes_set {s : Server} {x : Ref} (hs : s.Exposes r) (hx : s.store.Live x) (a : Setter) :
    Server.Exposes (s.mapStore (·.set x a)) r := by
  have ht := Store.sameTree_set s.store x a
  refine ⟨ht.live.mpr hs.live, (ht.managed r).trans hs.managed, ?_, fun {id y} hy => ?_, hs.transporters⟩
  · show Store.idOf (s.store.set x a) r ∉ (s.store.set x a).removedParameter
    rw [ht.idOf, (Store.frame_set s.store x a).removed]
    exact hs.kept
  · refine (ht.idOf y).trans ?_
    rcases (Store.dirtyStep_set s.store x a).cases hy with h | ⟨rfl, rfl⟩
    · exact hs.keyed h
    · rfl

/-- A setter of the parameter itself, which reports, or of another one. -/
theorem inv_set {w : Observed} (hw : w.Inv r) {x : Ref} {a : Setter} (hx : w.server.store.Live x)
    (hrep : w.Reports r (.set x a)) : (w.call r (.set x a)).Inv r := by
  obtain ⟨hs, hn⟩ := hw
  refine ⟨exposes_set hs hx a, fun o ho => ?_⟩
  set s := w.server.store with hstore
  have hsame : (s.set x a).heap r = if r = x then ((s.heap x).apply a).1 else s.heap r := Store.heap_set s x a r
  have hid : (s.set x a).idOf r = s.idOf r := (Store.sameTree_set s x a).idOf r
  change ((s.set x a).heap r).observe o ≠ w.seen o at ho
  show ((s.set x a).heap r).changed o = true ∧ (s.set x a).dirtyParameter[(s.set x a).idOf r]? = some r
  rw [hid]
  by_cases hxr : x = r
  · subst hxr
    rw [hsame, if_pos rfl] at ho ⊢
    obtain ⟨hobs, hup⟩ := Parameter.noted_apply (hrep rfl) o
    -- on the list already, or put there by the setter
    have hlist : ((s.heap x).apply a).2 = true ∨ s.dirtyParameter[s.idOf x]? = some x →
        (s.set x a).dirtyParameter[s.idOf x]? = some x := by
      intro h
      rw [Store.dirty_set]
      split
      · rw [getElem?_insert_iff, if_pos rfl]
      · next hno =>
        exact h.resolve_left fun hd => hno ⟨hd, hs.managed, hs.kept⟩
    rcases hobs with hobs | ⟨hc, hd⟩
    · rw [hobs] at ho
      obtain ⟨h1, h2⟩ := hn o ho
      exact ⟨hup h1, hlist (Or.inr h2)⟩
    · refine ⟨hc, hlist ?_⟩
      rw [Bool.or_eq_true, decide_eq_true_eq] at hd
      exact hd
  · rw [hsame, if_neg (Ne.symm hxr)] at ho ⊢
    obtain ⟨h1, h2⟩ := hn o ho
    refine ⟨h1, ?_⟩
    have hids : s.idOf r ≠ s.idOf x := fun h => hxr (Store.Live.eq_of_idOf hs.live hx h.symm)
    rw [(Store.dirtyStep_set s x a).getElem? hids, h2]

/-- After `update()` nothing is new. -/
theorem inv_update {w : Observed} (hw : w.Inv r) : (w.call r .update).Inv r := by
  obtain ⟨hs, -⟩ := hw
  have ht := Server.sameTree_update w.server
  obtain ⟨hd, hr⟩ := Server.lists_update hs.transporters
  refine ⟨⟨ht.live.mpr hs.live, (ht.managed r).trans hs.managed, ?_, ?_, ?_⟩, fun o ho => absurd ?_ ho⟩
  · show w.server.update.2.store.idOf r ∉ w.server.update.2.store.removedParameter
    rw [hr]
    simp
  · intro id y hy
    change w.server.update.2.store.dirtyParameter[id]? = some y at hy
    rw [hd] at hy
    simp at hy
  · show w.server.update.2.transporterList ≠ []
    rw [Server.update, if_neg hs.transporters]
    exact hs.transporters
  · show (w.server.update.2.store.heap r).observe o = (w.server.store.heap r).observe o
    rw [Server.update, if_neg hs.transporters]
    dsimp only
    by_cases hmem : r ∈ w.server.store.dirtyRefs
    · rw [Store.heap_writeDirty (Store.nodup_dirtyRefs hs.keyed) hmem, Parameter.observe_write]
    · rw [Store.heap_writeDirty_of_notMem hmem]

theorem inv_call (w : Observed) (c : Call) (hc : w.InScope c ∧ w.Reports r c) (hw : w.Inv r) :
    (w.call r c).Inv r := by
  cases c with
  | set x a => exact inv_set hw hc.1 hc.2
  | update => exact inv_update hw
  | create | addChild | removeParameter | receive => exact hc.1.elim

/-- The next `update()` sends a packet for the parameter that carries the option. -/
def Sends (r : Ref) (o : OptionId) (w : Observed) : Prop :=
  ∃ c body, ⟨c, .parameter body⟩ ∈ w.server.update.1 ∧ body.id = w.server.store.idOf r ∧ o ∈ body.options

/-- In every run of setters and updates, if every setter of a parameter reports its change, then an option that
differs from what it was at the last `update()` is sent by the next one. -/
theorem change_sent (s : Server) (r : Ref) (cs : List Call) (hs : s.Exposes r)
    (h : Along (call r) (fun w c => w.InScope c ∧ w.Reports r c) (start r s) cs) (o : OptionId)
    (ho : ((run (call r) (start r s) cs).server.store.heap r).observe o ≠ (run (call r) (start r s) cs).seen o) :
    (run (call r) (start r s) cs).Sends r o := by
  obtain ⟨hx, hn⟩ := along_invariant inv_call h ⟨hs, fun _ h => absurd rfl h⟩
  obtain ⟨hc, hd⟩ := hn o ho
  set w := run (call r) (start r s) cs
  have hmem : w.server.store.packet r ∈ w.server.update.1 := by
    rw [Server.packets_update hx.keyed hx.transporters]
    exact List.mem_append_right _ (List.mem_map_of_mem (Store.mem_dirtyRefs.mpr ⟨_, hd⟩))
  refine ⟨_, _, hmem, ?_, Parameter.mem_options_write hc⟩
  exact Parameter.id_write ..

/-- A server that has sent a string parameter with the label `a`. -/
def sentParameter : Server :=
  (run Watched.call (.start {} [0]) [.create {} .createStringParameter [97] root, .update]).server

theorem exposes_sentParameter : sentParameter.Exposes 1 :=
  (along_invariant Watched.inv_call (by decide) (Watched.inv_start {} (by decide))).exposes (by decide : _ = _)

/-- A value is set, sent and cleared, and set to something else. -/
def valueCalls : List Call :=
  [.set 1 (.setValue (τ := .string) [98]), .update, .set 1 .clearValue, .set 1 .clearTags,
    .set 1 (.setValue (τ := .string) [99])]

theorem change_sent_value : (run (call 1) (start 1 sentParameter) valueCalls).Sends 1 .value := by
  refine change_sent sentParameter 1 valueCalls exposes_sentParameter (by decide) .value fun h => ?_
  have hs : (Content.value .string [99] : Content) = .value .string [98] := Option.some.inj h
  simp at hs

/-- The options in the data of a message. -/
def optionsOf : MessageData → List OptionId
  | .parameter b => b.options
  | _ => []

/-- The label is cleared. -/
def labelCalls : List Call := [.set 1 (.label .clear)]

theorem clearLabel_lost :
    ¬∀ o, ((run (call 1) (start 1 sentParameter) labelCalls).server.store.heap 1).observe o ≠
        (run (call 1) (start 1 sentParameter) labelCalls).seen o →
      (run (call 1) (start 1 sentParameter) labelCalls).Sends 1 o := by
  intro h
  have hsent : ∀ m ∈ (run (call 1) (start 1 sentParameter) labelCalls).server.update.1, optionsOf m.data = [] := by
    decide
  obtain ⟨c, body, hm, -, ho⟩ := h .label fun heq => absurd (congrArg Option.isSome heq) (by decide)
  have hnone : body.options = [] := hsent _ hm
  rw [hnone] at ho
  simp at ho

end Observed

end RabbitControl
