import RabbitControl.Lib.Run
import RabbitControl.Types

/-!
# The action queue of a websocket server

`websocketServerTransporter` puts what the network thread tells it into a queue of actions, and a thread of its own
takes them out one by one (`process_messages`).  However the two threads are interleaved, the messages of a connection
reach the receivers once and in order (`received_run`), and when one does, its connection is known, so that a reply
finds it (`connections_run`).
-/

namespace RabbitControl

open Lib

/-! ### The transporter -/

/-- `struct action`.  A connection is named by a number; a message has the opcode `binary` or another one. -/
inductive WsAction
  | subscribe (hdl : Nat)
  | unsubscribe (hdl : Nat)
  | message (hdl : Nat) (binary : Bool) (payload : Bytes)
  deriving DecidableEq

/-- What has become of a connection: the library opens it, closes it, and then lets go of it, so that its handle cannot
be locked. -/
inductive WsPhase
  | fresh
  | opened
  | closed
  | expired
  deriving DecidableEq

/-- `websocketServerTransporter`.  The action `current` is out of the queue and not yet dealt with; `received` is what
the receivers have been called with. -/
structure WsTransporter where
  isListening : Bool := false
  connections : Finset Nat := ∅
  actions : List WsAction := []
  current : Option WsAction := none
  received : List (Nat × Bytes) := []
  phase : Nat → WsPhase := fun _ => .fresh

inductive WsEvent
  | onOpen (hdl : Nat)
  | onClose (hdl : Nat)
  | onMessage (hdl : Nat) (binary : Bool) (payload : Bytes)
  | expire (hdl : Nat)
  | listen
  | unbind
  | pop
  | handle
  deriving DecidableEq

/-- What a handler puts into the queue. -/
def WsEvent.action? : WsEvent → Option WsAction
  | onOpen hdl => some (.subscribe hdl)
  | onClose hdl => some (.unsubscribe hdl)
  | onMessage hdl binary payload => some (.message hdl binary payload)
  | _ => none

namespace WsTransporter

/-- What an iteration of `process_messages` does with its action. -/
def handle (s : WsTransporter) : WsAction → WsTransporter
  | .subscribe hdl => { s with connections := insert hdl s.connections }
  | .unsubscribe hdl => { s with connections := s.connections.erase hdl }
  | .message hdl binary payload =>
    -- a handle that cannot be locked is passed over
    if binary = true ∧ s.phase hdl ≠ .expired then { s with received := s.received ++ [(hdl, payload)] } else s

/-- One event.  The two halves of an iteration of `process_messages` are two events: it takes an action out under one
lock, and deals with it under another one. -/
def step (s : WsTransporter) : WsEvent → WsTransporter
  | .onOpen hdl =>
    { s with actions := s.actions ++ [.subscribe hdl], phase := Function.update s.phase hdl .opened }
  | .onClose hdl =>
    { s with actions := s.actions ++ [.unsubscribe hdl], phase := Function.update s.phase hdl .closed }
  | .onMessage hdl binary payload => { s with actions := s.actions ++ [.message hdl binary payload] }
  | .expire hdl => { s with phase := Function.update s.phase hdl .expired }
  | .listen => { s with isListening := true }
  -- `bind` begins with it too; the queue is left as it is
  | .unbind => if s.isListening then { s with isListening := false, connections := ∅ } else s
  | .pop =>
    match s.current, s.actions with
    | none, a :: actions => { s with current := some a, actions := actions }
    | _, _ => s
  | .handle =>
    match s.current with
    | some a => { s.handle a with current := none }
    | none => s

/-- `sendToOne`: the connections that get the data. -/
def sendToOne (s : WsTransporter) (id : Nat) : Finset Nat :=
  if s.isListening then s.connections.filter fun hdl => s.phase hdl ≠ .expired ∧ id = hdl else ∅

/-- `getConnectionCount`. -/
def getConnectionCount (s : WsTransporter) : Nat := s.connections.card

/-- The actions that have not been dealt with. -/
def pending (s : WsTransporter) : List WsAction := s.current.toList ++ s.actions

/-- The library calls the handlers of a connection in order, and keeps the connection until it is closed. -/
def Raises (s : WsTransporter) : WsEvent → Prop
  | .onOpen hdl => s.phase hdl = .fresh
  | .onClose hdl | .onMessage hdl .. => s.phase hdl = .opened
  | .expire hdl => s.phase hdl = .closed
  | _ => True

instance decidableRaises (s : WsTransporter) : ∀ e, Decidable (s.Raises e)
  | .onOpen hdl => inferInstanceAs (Decidable (s.phase hdl = .fresh))
  | .onClose hdl => inferInstanceAs (Decidable (s.phase hdl = .opened))
  | .onMessage hdl _ _ => inferInstanceAs (Decidable (s.phase hdl = .opened))
  | .expire hdl => inferInstanceAs (Decidable (s.phase hdl = .closed))
  | .listen | .unbind | .pop | .handle => isTrue trivial

/-- The same for a transporter that is not unbound while it listens: connections are opened once it does. -/
def Stays (s : WsTransporter) (e : WsEvent) : Prop :=
  s.Raises e ∧
    match e with
    | .onOpen _ => s.isListening = true
    | .unbind => s.isListening = false
    | _ => True

instance decidableStays (s : WsTransporter) : ∀ e, Decidable (s.Stays e)
  | .onOpen _ => inferInstanceAs (Decidable (_ ∧ s.isListening = true))
  | .unbind => inferInstanceAs (Decidable (_ ∧ s.isListening = false))
  | .onClose _ | .onMessage .. | .expire _ | .listen | .pop | .handle => inferInstanceAs (Decidable (_ ∧ True))

end WsTransporter

/-! ### Histories -/

namespace WsAction

/-- The binary message of an action. -/
def binary? : WsAction → Option (Nat × Bytes)
  | message hdl true payload => some (hdl, payload)
  | _ => none

/-- An action that can follow the actions of a list. -/
def Fits (l : List WsAction) : WsAction → Prop
  | subscribe hdl => .subscribe hdl ∉ l
  | unsubscribe hdl | message hdl .. => .subscribe hdl ∈ l ∧ .unsubscribe hdl ∉ l

/-- Every connection is subscribed once, then sends its messages, and is unsubscribed at last. -/
inductive Ordered : List WsAction → Prop
  | nil : Ordered []
  | snoc {l : List WsAction} {a : WsAction} (h : Ordered l) (ha : Fits l a) : Ordered (l ++ [a])

variable {l k m : List WsAction} {a : WsAction} {hdl : Nat}

theorem Ordered.subscribed (h : Ordered l) (hu : .unsubscribe hdl ∈ l) : .subscribe hdl ∈ l := by
  induction h with
  | nil => simp at hu
  | snoc _ ha ih =>
    rcases List.mem_append.mp hu with hu | hu
    · exact List.mem_append_left _ (ih hu)
    · rw [List.mem_singleton] at hu
      subst hu
      exact List.mem_append_left _ ha.1

/-- What comes first is ordered, and what comes next fits it. -/
theorem Ordered.split (h : Ordered l) (hl : l = k ++ a :: m) : Ordered k ∧ Fits k a := by
  induction h generalizing m with
  | nil => simp at hl
  | @snoc l b h hb ih =>
    rcases List.eq_nil_or_concat m with rfl | ⟨m, c, rfl⟩
    · obtain ⟨rfl, hab⟩ := List.append_inj' hl rfl
      obtain rfl : b = a := List.singleton_inj.mp hab
      exact ⟨h, hb⟩
    · have hlast : l ++ [b] = (k ++ a :: m) ++ [c] := by simpa using hl
      exact ih (List.append_inj' hlast rfl).1

end WsAction

namespace WsTransporter

open WsAction

variable {s : WsTransporter} {pushed done : List WsAction} {a : WsAction} {e : WsEvent}

/-- Of the actions that were put into the queue those in `done` have been dealt with. -/
structure History (pushed done : List WsAction) (s : WsTransporter) : Prop where
  order : pushed = done ++ s.pending
  ordered : Ordered pushed
  fresh : ∀ c, s.phase c = .fresh ↔ .subscribe c ∉ pushed
  opened : ∀ c, s.phase c = .opened ↔ .subscribe c ∈ pushed ∧ .unsubscribe c ∉ pushed
  received : List.Sublist s.received (done.filterMap binary?)
  heard : ∀ c, s.received.filter (·.1 = c) <+: (done.filterMap binary?).filter (·.1 = c)
  all : ∀ c, s.phase c ≠ .expired → s.received.filter (·.1 = c) = (done.filterMap binary?).filter (·.1 = c)

/-- The connections are those that have been subscribed and not unsubscribed. -/
def Tracks (done : List WsAction) (s : WsTransporter) : Prop :=
  ∀ c, c ∈ s.connections ↔ .subscribe c ∈ done ∧ .unsubscribe c ∉ done

theorem history_empty : History [] [] {} :=
  ⟨rfl, .nil, by simp, by simp, by simp, by simp, by simp⟩

theorem tracks_empty : Tracks [] {} := by simp [Tracks]

/-- A handler of the library, after which the connection `hdl` is in the phase `p`. -/
private theorem History.push (h : History pushed done s) (ha : Fits pushed a) {hdl : Nat} {p : WsPhase}
    (hf : p = .fresh ↔ s.phase hdl = .fresh ∧ a ≠ .subscribe hdl)
    (ho : p = .opened ↔ (s.phase hdl = .opened ∨ a = .subscribe hdl) ∧ a ≠ .unsubscribe hdl)
    (he : s.phase hdl ≠ .expired) (hother : ∀ c, c ≠ hdl → a ≠ .subscribe c ∧ a ≠ .unsubscribe c) :
    History (pushed ++ [a]) done
      { s with actions := s.actions ++ [a], phase := Function.update s.phase hdl p } := by
  refine ⟨?_, .snoc h.ordered ha, fun c => ?_, fun c => ?_, h.received, h.heard, fun c hc => h.all c ?_⟩
  · rw [h.order]
    simp [pending]
  · have hphase : Function.update s.phase hdl p c = .fresh ↔ s.phase c = .fresh ∧ a ≠ .subscribe c := by
      by_cases hc : c = hdl
      · rw [hc, Function.update_self, hf]
      · rw [Function.update_of_ne hc]
        exact (and_iff_left (hother c hc).1).symm
    rw [hphase, h.fresh]
    simp [eq_comm]
  · have hphase : Function.update s.phase hdl p c = .opened ↔
        (s.phase c = .opened ∨ a = .subscribe c) ∧ a ≠ .unsubscribe c := by
      by_cases hc : c = hdl
      · rw [hc, Function.update_self, ho]
      · rw [Function.update_of_ne hc]
        simp [hother c hc]
    -- a connection that is subscribed now has not been unsubscribed
    have hnew : a = .subscribe c → .unsubscribe c ∉ pushed := by
      rintro rfl hu
      exact ha (h.ordered.subscribed hu)
    rw [hphase, h.opened, List.mem_append, List.mem_append, List.mem_singleton, List.mem_singleton, eq_comm (a := a),
      ne_comm (a := a)]
    constructor
    · rintro ⟨⟨hs, hu⟩ | hs, hne⟩
      · exact ⟨Or.inl hs, fun hm => hm.elim hu hne⟩
      · exact ⟨Or.inr hs, fun hm => hm.elim (hnew hs.symm) hne⟩
    · rintro ⟨hs | hs, hm⟩
      · exact ⟨Or.inl ⟨hs, fun hu => hm (Or.inl hu)⟩, fun hu => hm (Or.inr hu)⟩
      · exact ⟨Or.inr hs, fun hu => hm (Or.inr hu)⟩
  · by_cases hself : c = hdl
    · rw [hself]
      exact he
    · dsimp only at hc
      rwa [Function.update_of_ne hself] at hc

/-- What `process_messages` does with the action that it has taken out. -/
private theorem History.handle (h : History pushed done s) (hs : s.current = some a) :
    History pushed (done ++ [a]) { s.handle a with current := none } ∧
      (Tracks done s → Tracks (done ++ [a]) { s.handle a with current := none }) := by
  have horder : pushed = done ++ a :: s.actions := by
    rw [h.order, pending, hs]
    rfl
  have hpending : pushed = (done ++ [a]) ++ (none : Option WsAction).toList ++ s.actions := by
    rw [horder]
    simp
  obtain ⟨hdone, hfits⟩ := h.ordered.split horder
  -- an action that gives nothing to the receivers
  have hsilent : a.binary? = none → ∀ connections, History pushed (done ++ [a])
      { s with connections := connections, current := none } := by
    intro hnone connections
    have hsame : (done ++ [a]).filterMap binary? = done.filterMap binary? := by simp [hnone]
    refine ⟨hpending.trans (List.append_assoc ..), h.ordered, h.fresh, h.opened, ?_, ?_, ?_⟩
    · rw [hsame]
      exact h.received
    · rw [hsame]
      exact h.heard
    · rw [hsame]
      exact h.all
  cases a with
  | subscribe hdl =>
    refine ⟨hsilent rfl _, fun ht c => ?_⟩
    have hnew : .unsubscribe hdl ∉ done := fun hu => hfits (hdone.subscribed hu)
    show c ∈ insert hdl s.connections ↔ _
    rw [Finset.mem_insert, ht c]
    by_cases hc : c = hdl
    · subst hc
      simp [hnew]
    · simp [hc]
  | unsubscribe hdl =>
    refine ⟨hsilent rfl _, fun ht c => ?_⟩
    show c ∈ s.connections.erase hdl ↔ _
    rw [Finset.mem_erase, ht c]
    by_cases hc : c = hdl
    · simp [hc]
    · simp [hc]
  | message hdl binary payload =>
    have htracks : Tracks done s → ∀ received, Tracks (done ++ [.message hdl binary payload])
        { s with received := received, current := none } := fun ht received c => by
      show c ∈ s.connections ↔ _
      rw [ht c]
      simp
    cases binary with
    | false => exact ⟨hsilent rfl _, fun ht => htracks ht _⟩
    | true =>
      have hmore : (done ++ [WsAction.message hdl true payload]).filterMap binary? =
          done.filterMap binary? ++ [(hdl, payload)] := by simp [binary?]
      by_cases hphase : s.phase hdl = .expired
      · have hhandle : s.handle (.message hdl true payload) = s := if_neg (by simp [hphase])
        rw [hhandle]
        refine ⟨⟨hpending.trans (List.append_assoc ..), h.ordered, h.fresh, h.opened, ?_, fun c => ?_, fun c hc => ?_⟩,
          fun ht => htracks ht _⟩
        · rw [hmore]
          exact h.received.trans (List.sublist_append_left _ _)
        · rw [hmore, List.filter_append]
          exact (h.heard c).trans (List.prefix_append _ _)
        · have hne : hdl ≠ c := by
            rintro rfl
            exact hc hphase
          rw [hmore, List.filter_append]
          simpa [hne] using h.all c hc
      · have hhandle : s.handle (.message hdl true payload) = { s with received := s.received ++ [(hdl, payload)] } :=
          if_pos ⟨rfl, hphase⟩
        rw [hhandle]
        refine ⟨⟨hpending.trans (List.append_assoc ..), h.ordered, h.fresh, h.opened, ?_, fun c => ?_, fun c hc => ?_⟩,
          fun ht => htracks ht _⟩
        · rw [hmore]
          exact h.received.append (List.Sublist.refl _)
        · rw [hmore, List.filter_append, List.filter_append]
          by_cases hne : hdl = c
          · subst hne
            rw [h.all hdl hphase]
          · simpa [hne] using h.heard c
        · rw [hmore, List.filter_append, List.filter_append, h.all c hc]

/-- A connection of which nothing is to be read any more. -/
private theorem History.expire (h : History pushed done s) {hdl : Nat} (hphase : s.phase hdl = .closed) :
    History pushed done { s with phase := Function.update s.phase hdl .expired } := by
  have hother : ∀ c, c ≠ hdl → Function.update s.phase hdl .expired c = s.phase c := fun c hc =>
    Function.update_of_ne hc ..
  refine ⟨h.order, h.ordered, fun c => ?_, fun c => ?_, h.received, h.heard, fun c hc => h.all c fun hold => hc ?_⟩
  · dsimp only
    rw [← h.fresh]
    by_cases hc : c = hdl
    · rw [hc, Function.update_self, hphase]
      decide
    · rw [hother c hc]
  · dsimp only
    rw [← h.opened]
    by_cases hc : c = hdl
    · rw [hc, Function.update_self, hphase]
      decide
    · rw [hother c hc]
  · dsimp only
    by_cases hc : c = hdl
    · rw [hc, Function.update_self]
    · rw [hother c hc, hold]

/-- Every event keeps the history. -/
theorem history_step (h : History pushed done s) (he : s.Raises e) :
    ∃ k, History (pushed ++ e.action?.toList) k (s.step e) ∧ (s.Stays e → Tracks done s → Tracks k (s.step e)) := by
  have hsame : pushed ++ (none : Option WsAction).toList = pushed := List.append_nil _
  cases e with
  | onOpen hdl =>
    have hphase : s.phase hdl = .fresh := he
    have hfits : Fits pushed (.subscribe hdl) := (h.fresh hdl).mp hphase
    refine ⟨done, h.push hfits ?_ ?_ ?_ fun c hc => ?_, fun _ ht => ht⟩
    · simp
    · simp
    · simp [hphase]
    · simp [Ne.symm hc]
  | onClose hdl =>
    have hphase : s.phase hdl = .opened := he
    have hfits : Fits pushed (.unsubscribe hdl) := (h.opened hdl).mp hphase
    refine ⟨done, h.push hfits ?_ ?_ ?_ fun c hc => ?_, fun _ ht => ht⟩
    · simp [hphase]
    · simp
    · simp [hphase]
    · simp [Ne.symm hc]
  | onMessage hdl binary payload =>
    have hphase : s.phase hdl = .opened := he
    have hfits : Fits pushed (.message hdl binary payload) := (h.opened hdl).mp hphase
    have hphases : Function.update s.phase hdl .opened = s.phase := by rw [← hphase, Function.update_eq_self]
    have hpush : History (pushed ++ [.message hdl binary payload]) done { s with
        actions := s.actions ++ [.message hdl binary payload], phase := Function.update s.phase hdl .opened } := by
      refine h.push hfits ?_ ?_ ?_ fun c _ => ?_
      · simp [hphase]
      · simp [hphase]
      · simp [hphase]
      · simp
    rw [hphases] at hpush
    exact ⟨done, hpush, fun _ ht => ht⟩
  | expire hdl =>
    rw [show (WsEvent.expire hdl).action? = none from rfl, hsame]
    exact ⟨done, h.expire he, fun _ ht => ht⟩
  | listen =>
    rw [show WsEvent.listen.action? = none from rfl, hsame]
    exact ⟨done, { h with }, fun _ ht => ht⟩
  | unbind =>
    rw [show WsEvent.unbind.action? = none from rfl, hsame, step]
    refine ⟨done, ?_, fun hstays ht => ?_⟩
    · split
      · exact { h with }
      · exact h
    · rw [if_neg (by simp [show s.isListening = false from hstays.2])]
      exact ht
  | pop =>
    rw [show WsEvent.pop.action? = none from rfl, hsame, step]
    cases hcurrent : s.current with
    | some a => exact ⟨done, h, fun _ ht => ht⟩
    | none =>
      cases hactions : s.actions with
      | nil => exact ⟨done, h, fun _ ht => ht⟩
      | cons a actions =>
        refine ⟨done, { h with order := ?_ }, fun _ ht => ht⟩
        rw [h.order, pending, hcurrent, hactions]
        rfl
  | handle =>
    rw [show WsEvent.handle.action? = none from rfl, hsame, step]
    cases hcurrent : s.current with
    | none => exact ⟨done, h, fun _ ht => ht⟩
    | some a =>
      obtain ⟨hhandled, htracks⟩ := h.handle hcurrent
      exact ⟨done ++ [a], hhandled, fun _ ht => htracks ht⟩

theorem history_run (es : List WsEvent) (h : History pushed done s) (hes : Along step Raises s es) :
    ∃ k, History (pushed ++ es.filterMap WsEvent.action?) k (run step s es) ∧
      (Along step Stays s es → Tracks done s → Tracks k (run step s es)) := by
  induction es generalizing s pushed done with
  | nil => exact ⟨done, by simpa using h, fun _ ht => ht⟩
  | cons e es ih =>
    obtain ⟨j, hj, hjtracks⟩ := history_step h hes.1
    obtain ⟨k, hk, hktracks⟩ := ih hj hes.2
    refine ⟨k, ?_, fun hstays ht => hktracks hstays.2 (hjtracks hstays.1 ht)⟩
    have hpushed : pushed ++ (e :: es).filterMap WsEvent.action? =
        pushed ++ e.action?.toList ++ es.filterMap WsEvent.action? := by
      rw [List.filterMap_cons, List.append_assoc]
      cases e.action? <;> rfl
    rw [hpushed]
    exact hk

/-! ### Runs -/

/-- The binary messages that the library has passed on. -/
def passedOn (es : List WsEvent) : List (Nat × Bytes) := (es.filterMap WsEvent.action?).filterMap binary?

/-- Iterations of `process_messages`, from where it stands. -/
def iterations (n : Nat) : List WsEvent := (List.replicate n [WsEvent.handle, .pop]).flatten

theorem iterations_succ (n : Nat) : iterations (n + 1) = .handle :: .pop :: iterations n := rfl

private theorem step_handle (s : WsTransporter) :
    (s.step .handle).current = none ∧ (s.step .handle).actions = s.actions ∧ (s.step .handle).phase = s.phase ∧
      (s.step .handle).isListening = s.isListening := by
  have hhandle : ∀ a, (s.handle a).actions = s.actions ∧ (s.handle a).phase = s.phase ∧
      (s.handle a).isListening = s.isListening := by
    intro a
    cases a with
    | subscribe | unsubscribe => exact ⟨rfl, rfl, rfl⟩
    | message hdl binary payload =>
      unfold WsTransporter.handle
      dsimp only
      split <;> exact ⟨rfl, rfl, rfl⟩
  unfold step
  dsimp only
  split
  · exact ⟨rfl, hhandle _⟩
  · next hnone => exact ⟨hnone, rfl, rfl, rfl⟩

private theorem step_pop (hs : s.current = none) :
    (s.step .pop).pending = s.actions ∧ (s.step .pop).actions = s.actions.tail ∧ (s.step .pop).phase = s.phase := by
  unfold step
  rw [hs]
  cases hactions : s.actions with
  | nil => exact ⟨by rw [pending, hs, hactions]; rfl, hactions, rfl⟩
  | cons a actions => exact ⟨rfl, rfl, rfl⟩

/-- Connections have been opened only if the transporter listens. -/
private theorem listening_step (h : ∀ c, s.phase c ≠ .fresh → s.isListening = true) (he : s.Stays e) :
    ∀ c, (s.step e).phase c ≠ .fresh → (s.step e).isListening = true := by
  -- the phases that the handlers set are those of connections that have been opened
  have hset : ∀ {hdl : Nat} {p : WsPhase}, s.isListening = true →
      ∀ c, Function.update s.phase hdl p c ≠ .fresh → s.isListening = true := fun hlisten _ _ => hlisten
  cases e with
  | onOpen hdl => exact hset he.2
  | onClose hdl | expire hdl => exact hset (h hdl (by rw [show s.phase hdl = _ from he.1]; decide))
  | onMessage hdl binary payload => exact h
  | listen => exact fun _ _ => rfl
  | unbind =>
    have hunbind : s.step .unbind = s := if_neg (by simp [show s.isListening = false from he.2])
    rwa [hunbind]
  | pop =>
    have hpop : (s.step .pop).phase = s.phase ∧ (s.step .pop).isListening = s.isListening := by
      unfold step
      dsimp only
      split <;> exact ⟨rfl, rfl⟩
    rwa [hpop.1, hpop.2]
  | handle =>
    rwa [(step_handle s).2.2.1, (step_handle s).2.2.2]

/-- The thread catches up. -/
private theorem run_iterations (n : Nat) (hn : s.actions.length < n) :
    (run step s (iterations n)).pending = [] ∧ (run step s (iterations n)).phase = s.phase := by
  induction n generalizing s with
  | zero => omega
  | succ n ih =>
    obtain ⟨hcurrent, hactions, hphase, -⟩ := step_handle s
    obtain ⟨hpending, htail, hphase'⟩ := step_pop hcurrent
    rw [iterations_succ, run_cons, run_cons, ← hphase, ← hphase']
    rw [hactions] at hpending htail
    cases n with
    | zero =>
      have hnil : s.actions = [] := List.length_eq_zero_iff.mp (by omega)
      exact ⟨hpending.trans hnil, rfl⟩
    | succ n =>
      refine ih ?_
      rw [htail, List.length_tail]
      omega

private theorem along_iterations (n : Nat) (s : WsTransporter) : Along step Raises s (iterations n) := by
  induction n generalizing s with
  | zero => trivial
  | succ n ih => exact ⟨trivial, trivial, ih _⟩

private theorem passedOn_iterations (es : List WsEvent) (n : Nat) : passedOn (es ++ iterations n) = passedOn es := by
  have hnil : (iterations n).filterMap WsEvent.action? = [] := by
    induction n with
    | zero => rfl
    | succ n ih => exact ih
  rw [passedOn, List.filterMap_append, hnil, List.append_nil, passedOn]

private theorem heard_run (es : List WsEvent) (h : Along step Raises {} es) (c : Nat) :
    (run step {} es).received.filter (·.1 = c) <+: (passedOn es).filter (·.1 = c) ∧
      ((run step {} es).phase c ≠ .expired → (run step {} es).received.filter (·.1 = c) ++
        ((run step {} es).pending.filterMap binary?).filter (·.1 = c) = (passedOn es).filter (·.1 = c)) := by
  obtain ⟨k, hk, -⟩ := history_run es history_empty h
  have hpassed : passedOn es = k.filterMap binary? ++ (run step {} es).pending.filterMap binary? := by
    rw [← List.filterMap_append, ← hk.order]
    rfl
  rw [hpassed, List.filter_append]
  refine ⟨(hk.heard c).trans (List.prefix_append _ _), fun hc => ?_⟩
  rw [hk.all c hc]

/-- However the threads are interleaved: the receivers get messages in the order in which they came, of every connection
the first ones, each once.  And when the processing thread has caught up they have got every message of a connection
that the library has not let go of. -/
theorem received_run (es : List WsEvent) (h : Along step Raises {} es) :
    List.Sublist (run step {} es).received (passedOn es) ∧
    (∀ c, (run step {} es).received.filter (·.1 = c) <+: (passedOn es).filter (·.1 = c)) ∧
    ∀ n, (run step {} es).actions.length < n → ∀ c, (run step {} es).phase c ≠ .expired →
      (run step {} (es ++ iterations n)).received.filter (·.1 = c) = (passedOn es).filter (·.1 = c) := by
  refine ⟨?_, fun c => (heard_run es h c).1, fun n hn c hc => ?_⟩
  · obtain ⟨k, hk, -⟩ := history_run es history_empty h
    refine hk.received.trans ?_
    have hpassed : passedOn es = (k ++ (run step {} es).pending).filterMap binary? := by
      rw [← hk.order]
      rfl
    rw [hpassed, List.filterMap_append]
    exact List.sublist_append_left _ _
  · obtain ⟨hpending, hphase⟩ := run_iterations n hn
    have hheard := (heard_run _ (h.append (along_iterations n _)) c).2
    rw [run_append] at hheard ⊢
    have hall := hheard (by rw [hphase]; exact hc)
    rwa [hpending, passedOn_iterations, List.filterMap_nil, List.filter_nil, List.append_nil] at hall

/-- Two connections: a message of the first arrives while the second one is opened, and closed again. -/
def interleaved : List WsEvent :=
  [.listen, .onOpen 1, .pop, .onMessage 1 true [7], .onOpen 2, .handle, .pop, .onMessage 2 true [8], .onClose 2,
    .handle, .expire 2, .onMessage 1 true [9]]

theorem received_run_interleaved :
    (run step {} (interleaved ++ iterations 5)).received.filter (·.1 = 1) = (passedOn interleaved).filter (·.1 = 1) :=
  (received_run interleaved (by decide)).2.2 5 (by decide) 1 (by decide)

/-- The connections of the transporter are those whose `SUBSCRIBE` has been dealt with, but not their `UNSUBSCRIBE`.  So
when nothing is pending they are the open ones, and when a message is dealt with, its connection is among them and a
reply goes to it alone. -/
theorem connections_run (es : List WsEvent) (h : Along step Stays {} es) :
    (∀ c, c ∈ (run step {} es).connections ↔ (run step {} es).phase c ≠ .fresh ∧
      .subscribe c ∉ (run step {} es).pending ∧
      ((run step {} es).phase c = .opened ∨ .unsubscribe c ∈ (run step {} es).pending)) ∧
    ((run step {} es).pending = [] →
      (run step {} es).getConnectionCount = {c | (run step {} es).phase c = .opened}.ncard) ∧
    ∀ c payload, (run step {} es).current = some (.message c true payload) → (run step {} es).phase c ≠ .expired →
      (run step {} es).sendToOne c = {c} := by
  obtain ⟨k, hk, htracks⟩ := history_run es history_empty (h.imp fun _ _ he => he.1)
  replace htracks := htracks h tracks_empty
  rw [List.nil_append] at hk
  have hlisten : ∀ c, (run step {} es).phase c ≠ .fresh → (run step {} es).isListening = true :=
    along_invariant (I := fun s => ∀ c, s.phase c ≠ .fresh → s.isListening = true)
      (fun _ _ he hs => listening_step hs he) h fun _ hc => absurd rfl hc
  set s := run step {} es
  -- what is still to be dealt with fits what has been dealt with
  have hfits : ∀ a ∈ s.pending, ∃ l, Fits (k ++ l) a := by
    intro a ha
    obtain ⟨l, m, hl⟩ := List.append_of_mem ha
    have horder := hk.order
    rw [hl, ← List.append_assoc] at horder
    exact ⟨l, (hk.ordered.split horder).2⟩
  have hconnections : ∀ c, c ∈ s.connections ↔ s.phase c ≠ .fresh ∧ .subscribe c ∉ s.pending ∧
      (s.phase c = .opened ∨ .unsubscribe c ∈ s.pending) := by
    intro c
    have hfresh := not_congr (hk.fresh c)
    have hopened := hk.opened c
    have hsubscribe : .subscribe c ∈ s.pending → .subscribe c ∉ k := by
      intro hm hk
      obtain ⟨l, hl⟩ := hfits _ hm
      exact hl (List.mem_append_left _ hk)
    have hunsubscribe : .unsubscribe c ∈ s.pending → .unsubscribe c ∉ k := by
      intro hm hk
      obtain ⟨l, hl⟩ := hfits _ hm
      exact hl.2 (List.mem_append_left _ hk)
    rw [hk.order, List.mem_append] at hfresh hopened
    rw [List.mem_append] at hopened
    rw [htracks c, Ne, hfresh, hopened]
    tauto
  refine ⟨hconnections, fun hpending => ?_, fun c payload hcurrent hphase => ?_⟩
  · have hset : {c | s.phase c = .opened} = (s.connections : Set Nat) := by
      ext c
      rw [Finset.mem_coe, hconnections c, hpending]
      refine ⟨fun hc => ⟨by rw [show s.phase c = _ from hc]; decide, List.not_mem_nil, Or.inl hc⟩, fun hc => ?_⟩
      exact hc.2.2.resolve_right List.not_mem_nil
    rw [getConnectionCount, hset, Set.ncard_coe_finset]
  · have horder := hk.order
    rw [pending, hcurrent] at horder
    have hmem : c ∈ s.connections := (htracks c).mpr (hk.ordered.split horder).2
    unfold sendToOne
    rw [if_pos (hlisten c ((hconnections c).mp hmem).1)]
    ext d
    rw [Finset.mem_filter, Finset.mem_singleton]
    refine ⟨fun hd => hd.2.2.symm, ?_⟩
    rintro rfl
    exact ⟨hmem, hphase, rfl⟩

theorem connections_run_interleaved : (run step {} (interleaved.take 7)).sendToOne 1 = {1} :=
  (connections_run (interleaved.take 7) (by decide)).2.2 1 [7] rfl (by decide)

end WsTransporter

end RabbitControl
