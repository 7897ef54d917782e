import Mathlib

/-!
# Chronicles of a set

A log of what enters a set and what leaves it.  If an element is only noted to enter while it is outside and only
noted to leave while it is inside, then its notes alternate, beginning with an entry, and the last one says where it
is (`Alternates.snoc`).
-/

namespace Lib

inductive Change
  | added
  | removed
  deriving DecidableEq

variable {α : Type} [DecidableEq α]

/-- The changes that concern `a`. -/
def history (a : α) (log : List (Change × α)) : List Change := (log.filter (·.2 = a)).map Prod.fst

/-- The changes of `a` alternate, beginning with `added`; the last one tells whether `a` is present. -/
structure Alternates (log : List (Change × α)) (a : α) (present : Prop) : Prop where
  chain : (history a log).IsChain (· ≠ ·)
  first : ∀ k ∈ (history a log).head?, k = .added
  last : present ↔ (history a log).getLast? = some .added

variable {log : List (Change × α)} {a b : α} {k : Change} {p q : Prop}

theorem history_snoc : history a (log ++ [(k, b)]) = if b = a then history a log ++ [k] else history a log := by
  unfold history
  split
  · next h => simp [h]
  · next h => simp [h]

theorem alternates_nil (h : ¬p) : Alternates ([] : List (Change × α)) a p :=
  ⟨.nil, fun k hk => by simp [history] at hk, iff_of_false h (by simp [history])⟩

theorem Alternates.congr (h : Alternates log a p) (hq : q ↔ p) : Alternates log a q :=
  ⟨h.chain, h.first, hq.trans h.last⟩

/-- One more change: it enters what is outside or leaves what is inside. -/
theorem Alternates.snoc (h : Alternates log a p) (hk : b = a → (p ↔ k = .removed))
    (hq : q ↔ if b = a then k = .added else p) : Alternates (log ++ [(k, b)]) a q := by
  by_cases hb : b = a
  · have hk := hk hb
    rw [if_pos hb] at hq
    have hnew : history a (log ++ [(k, b)]) = history a log ++ [k] := by rw [history_snoc, if_pos hb]
    constructor
    · rw [hnew, List.isChain_append]
      refine ⟨h.chain, List.isChain_singleton k, fun x hx y hy hxy => ?_⟩
      rw [List.head?_cons, Option.mem_some_iff] at hy
      -- the last change was the other one
      cases k with
      | added => exact absurd (h.last.mpr (by rw [hx, hxy, ← hy])) (by rw [hk]; decide)
      | removed =>
        have hlast := h.last.mp (hk.mpr rfl)
        rw [hx, hxy, ← hy] at hlast
        simp at hlast
    · intro x hx
      rw [hnew] at hx
      cases hl : history a log with
      | nil =>
        have hp : ¬p := fun hp => by simpa [hl] using h.last.mp hp
        rw [hl, List.nil_append, List.head?_cons, Option.mem_some_iff] at hx
        cases k with
        | added => exact hx.symm
        | removed => exact absurd (hk.mpr rfl) hp
      | cons c l =>
        rw [hl, List.cons_append, List.head?_cons] at hx
        exact h.first x (by rw [hl]; exact hx)
    · rw [hnew, hq]
      simp
  · rw [if_neg hb] at hq
    have hold : history a (log ++ [(k, b)]) = history a log := by rw [history_snoc, if_neg hb]
    exact ⟨by rw [hold]; exact h.chain, by rw [hold]; exact h.first, by rw [hold]; exact hq.trans h.last⟩

end Lib
