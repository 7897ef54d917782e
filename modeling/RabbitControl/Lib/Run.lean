import Mathlib

/-!
# Runs under a condition on their steps

A deterministic system with a step function, and runs every step of which meets a condition on the state before it.
`along_invariant` is the induction over such a run.
-/

namespace Lib

variable {σ τ α β : Type}

/-- The state after a run. -/
def run (step : σ → α → σ) (s : σ) (as : List α) : σ := as.foldl step s

/-- Every step of the run meets the condition `ok`. -/
def Along (step : σ → α → σ) (ok : σ → α → Prop) : σ → List α → Prop
  | _, [] => True
  | s, a :: as => ok s a ∧ Along step ok (step s a) as

variable {step : σ → α → σ} {ok : σ → α → Prop} {s : σ}

@[simp] theorem run_nil (s : σ) : run step s [] = s := rfl

@[simp] theorem run_cons (s : σ) (a : α) (as : List α) : run step s (a :: as) = run step (step s a) as := rfl

theorem run_append (s : σ) (as bs : List α) : run step s (as ++ bs) = run step (run step s as) bs :=
  List.foldl_append

instance decidableAlong [∀ s a, Decidable (ok s a)] : ∀ (s : σ) (as : List α), Decidable (Along step ok s as)
  | _, [] => isTrue trivial
  | s, a :: as =>
    have := decidableAlong (step s a) as
    inferInstanceAs (Decidable (ok s a ∧ Along step ok (step s a) as))

/-- A condition that every step meets. -/
theorem along_of_forall (h : ∀ s a, ok s a) {as : List α} : Along step ok s as := by
  induction as generalizing s with
  | nil => trivial
  | cons a as ih => exact ⟨h s a, ih⟩

theorem along_congr {ok' : σ → α → Prop} (h : ∀ s a, ok s a ↔ ok' s a) {as : List α} :
    Along step ok s as ↔ Along step ok' s as := by
  induction as generalizing s with
  | nil => exact Iff.rfl
  | cons a as ih => exact and_congr (h s a) ih

theorem Along.imp {ok' : σ → α → Prop} (h : ∀ s a, ok s a → ok' s a) {as : List α} (hs : Along step ok s as) :
    Along step ok' s as := by
  induction as generalizing s with
  | nil => trivial
  | cons a as ih => exact ⟨h s a hs.1, ih hs.2⟩

theorem Along.and {ok' : σ → α → Prop} {as : List α} (h : Along step ok s as) (h' : Along step ok' s as) :
    Along step (fun s a => ok s a ∧ ok' s a) s as := by
  induction as generalizing s with
  | nil => trivial
  | cons a as ih => exact ⟨⟨h.1, h'.1⟩, ih h.2 h'.2⟩

/-- Two runs one after the other. -/
theorem Along.append {as bs : List α} (h : Along step ok s as) (hb : Along step ok (run step s as) bs) :
    Along step ok s (as ++ bs) := by
  induction as generalizing s with
  | nil => exact hb
  | cons a as ih => exact ⟨h.1, ih h.2 hb⟩

/-- What holds at first and is preserved by every step that meets the condition holds after the run. -/
theorem along_invariant {I : σ → Prop} (hstep : ∀ s a, ok s a → I s → I (step s a)) {as : List α}
    (h : Along step ok s as) (hs : I s) : I (run step s as) := by
  induction as generalizing s with
  | nil => exact hs
  | cons a as ih => exact ih h.2 (hstep s a h.1 hs)

/-- What every step preserves holds after any run. -/
theorem run_invariant {I : σ → Prop} (hstep : ∀ s a, I s → I (step s a)) (as : List α) (hs : I s) :
    I (run step s as) := by
  induction as generalizing s with
  | nil => exact hs
  | cons a as ih => exact ih (hstep s a hs)

end Lib
