import Mathlib.Tactic.TypeStar

/-!
# Operations that keep to one key

A state is looked at key by key: `same k s t` says that `s` and `t` do not differ at `k`.  An operation that changes a
state at one key, and only depends on what is there, can be swapped with an operation at another key
(`Confined.commute`).
-/

namespace Lib

variable {σ κ ι ι' : Type*} {I : σ → Prop} {same : κ → σ → σ → Prop} {k l : κ} {f : ι → σ → σ} {g : ι' → σ → σ} {s : σ}

/-- The operations `f i`, on the states in `I`, only read and write at the key `k`, and all do the same there. -/
structure Confined (I : σ → Prop) (same : κ → σ → σ → Prop) (k : κ) (f : ι → σ → σ) : Prop where
  keeps : ∀ {s} (i), I s → I (f i s)
  frame : ∀ {s j} (i), I s → j ≠ k → same j s (f i s)
  congr : ∀ {s t} (i i'), I s → I t → same k s t → same k (f i s) (f i' t)

namespace Confined

/-- An operation at another key is not noticed. -/
theorem unnoticed (hsame : ∀ j, Equivalence (same j)) (hf : Confined I same k f)
    (hg : Confined I same l g) (hkl : k ≠ l)
    (hs : I s) (i i' : ι) (j : ι') : same k (f i (g j s)) (f i' s) :=
  hf.congr i i' (hg.keeps j hs) hs ((hsame k).symm (hg.frame j hs hkl))

/-- Operations at two keys can be swapped. -/
theorem commute (hsame : ∀ j, Equivalence (same j)) (hf : Confined I same k f) (hg : Confined I same l g) (hkl : k ≠ l)
    (hs : I s) (i i' : ι) (j j' : ι') (x : κ) : same x (g j (f i s)) (f i' (g j' s)) := by
  by_cases hk : x = k
  · subst hk
    exact (hsame x).trans ((hsame x).symm (hg.frame j (hf.keeps i hs) hkl))
      ((hsame x).symm (unnoticed hsame hf hg hkl hs i' i j'))
  by_cases hl : x = l
  · subst hl
    exact (hsame x).trans (unnoticed hsame hg hf hkl.symm hs j j' i) (hf.frame i' (hg.keeps j' hs) hk)
  · have hleft : same x s (g j (f i s)) := (hsame x).trans (hf.frame i hs hk) (hg.frame j (hf.keeps i hs) hl)
    have hright : same x s (f i' (g j' s)) := (hsame x).trans (hg.frame j' hs hl) (hf.frame i' (hg.keeps j' hs) hk)
    exact (hsame x).trans ((hsame x).symm hleft) hright

/-- An operation that does nothing new at its key when it is repeated does nothing new at all. -/
theorem twice (hsame : ∀ j, Equivalence (same j)) (hf : Confined I same k f) (hs : I s) (i i' i'' : ι)
    (hk : same k (f i s) (f i'' (f i' s))) (x : κ) : same x (f i s) (f i'' (f i' s)) := by
  by_cases hx : x = k
  · subst hx
    exact hk
  · have htwice : same x s (f i'' (f i' s)) := (hsame x).trans (hf.frame i' hs hx) (hf.frame i'' (hf.keeps i' hs) hx)
    exact (hsame x).trans ((hsame x).symm (hf.frame i hs hx)) htwice

end Confined

end Lib
