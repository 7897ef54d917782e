import RabbitControl.Lib.Reading

/-!
# Reading a line into a buffer

`get(s, n)` takes at most `n - 1` characters and leaves a newline in the stream.  A buffer that was filled so is a
`Line`: the characters, a zero, and what memory held before.  If the last byte of a line is not what memory held, the
line has been taken as a whole (`Line.whole`).

A stream that has failed before its end keeps an option loop running forever (`optionLoop_stuck`).
-/

namespace Lib

/-- What `get(s, n)` extracts. -/
def line (n : Nat) (l : List UInt8) : List UInt8 := (l.take (n - 1)).takeWhile (· != 10)

/-- A buffer of `n` bytes, which held `b` everywhere, after a line has been read into it. -/
def Line (b : UInt8) (n : Nat) (l : List UInt8) : Prop :=
  ∃ got : List UInt8, got.length < n ∧ 10 ∉ got ∧ l = got ++ 0 :: List.replicate (n - (got.length + 1)) b

section Line

variable {n : Nat} {l : List UInt8} {b : UInt8} {junk : Nat → UInt8}

theorem length_line_le (n : Nat) (l : List UInt8) : (line n l).length ≤ n - 1 :=
  ((List.takeWhile_sublist _).length_le.trans (List.length_take_le ..))

theorem not_mem_line (n : Nat) (l : List UInt8) : 10 ∉ line n l := by
  intro h
  have h10 := List.mem_takeWhile_imp h
  simp at h10

theorem line_of_head {l : List UInt8} (n : Nat) (h : l.head? = some 10) : line n l = [] := by
  cases l with
  | nil => simp at h
  | cons c l =>
    obtain rfl : c = 10 := Option.some.inj h
    cases hn : n - 1 with
    | zero => simp [line, hn]
    | succ m => simp [line, hn]

/-- Nothing is extracted only before a newline or at the end, if there is room at all. -/
theorem line_ne_nil (hn : 2 ≤ n) (hl : l ≠ []) (h : l.head? ≠ some 10) : line n l ≠ [] := by
  obtain ⟨m, hm⟩ : ∃ m, n - 1 = m + 1 := ⟨n - 2, by omega⟩
  cases l with
  | nil => exact absurd rfl hl
  | cons c l =>
    have hc : (c != 10) = true := bne_iff_ne.mpr fun hc => h (congrArg some hc)
    rw [line, hm, List.take_succ_cons, List.takeWhile_cons, if_pos hc]
    exact List.cons_ne_nil _ _

/-- A line without a newline is extracted up to the last place of the buffer. -/
theorem line_append {got tail : List UInt8} (hn : got.length = n - 1) (h : 10 ∉ got) : line n (got ++ tail) = got := by
  rw [line, List.take_append_of_le_length hn.ge, ← hn, List.take_length, List.takeWhile_eq_self_iff]
  intro c hc
  exact bne_iff_ne.mpr fun h10 => h (h10 ▸ hc)

/-- `get(s, n)` on a good stream, before whose end it stops. -/
theorem getLine_good (h : l.drop (line n l).length ≠ []) :
    ({ rest := l, junk := junk } : IStream).getLine n =
      ((line n l ++ 0 :: (List.range (n - ((line n l).length + 1))).map junk).take n,
        { rest := l.drop (line n l).length, fail := (line n l).isEmpty,
          junk := fun k => junk (k + (n - ((line n l).length + 1))) }) := by
  have hrest : (l.drop (line n l).length).isEmpty = false := by simpa using h
  unfold line at hrest ⊢
  simp [IStream.getLine, IStream.good, hrest]

/-- The end of the stream is noted unless the buffer is full. -/
theorem eof_getLine (h : l.drop (line n l).length = []) :
    (({ rest := l, junk := junk } : IStream).getLine n).2.eof = decide ((line n l).length < n - 1) ∧
      (({ rest := l, junk := junk } : IStream).getLine n).2.rest = [] ∧
      (({ rest := l, junk := junk } : IStream).getLine n).2.fail = (line n l).isEmpty := by
  unfold line at h ⊢
  simp [IStream.getLine, IStream.good, h]

/-- The buffer holds a line, also if the stream is not good. -/
theorem line_getLine {is : IStream} (hn : 0 < n) (hb : ∀ k, is.junk k = b) : Line b n (is.getLine n).1 := by
  have hmap : ∀ m, (List.range m).map is.junk = List.replicate m b := fun m => by
    rw [show is.junk = fun _ => b from funext hb, List.map_const', List.length_range]
  have hfull : ∀ got : List UInt8, got.length < n →
      (got ++ 0 :: (List.range (n - (got.length + 1))).map is.junk).take n =
        got ++ 0 :: List.replicate (n - (got.length + 1)) b := by
    intro got hlt
    rw [hmap, List.take_of_length_le]
    simp only [List.length_append, List.length_cons, List.length_replicate]
    omega
  rw [IStream.getLine]
  split
  · have hle := length_line_le n is.rest
    exact ⟨line n is.rest, by omega, not_mem_line n is.rest, hfull (line n is.rest) (by omega)⟩
  · exact ⟨[], hn, by simp, hfull [] hn⟩

theorem junk_getLine {is : IStream} (hb : ∀ k, is.junk k = b) (n k : Nat) : (is.getLine n).2.junk k = b := by
  rw [IStream.getLine]
  split <;> exact hb _

theorem junk_readInto {is : IStream} (hb : ∀ k, is.junk k = b) (n k : Nat) : (is.readInto n).2.junk k = b := hb _

theorem junk_get {is : IStream} (hb : ∀ k, is.junk k = b) (k : Nat) : is.get.2.junk k = b := by
  unfold IStream.get
  split
  · split <;> exact hb _
  · exact hb _

theorem Line.length (h : Line b n l) : l.length = n := by
  obtain ⟨got, hlt, -, rfl⟩ := h
  simp only [List.length_append, List.length_cons, List.length_replicate]
  omega

/-- If memory did not hold the last byte of a line, its characters fill the buffer up to the zero. -/
theorem Line.whole (h : Line b n l) (hb : l.getLast? ≠ some b) :
    ∃ got : List UInt8, got.length = n - 1 ∧ 10 ∉ got ∧ l = got ++ [0] := by
  obtain ⟨got, hlt, h10, rfl⟩ := h
  cases hm : n - (got.length + 1) with
  | zero => exact ⟨got, by omega, h10, rfl⟩
  | succ m =>
    rw [hm, List.replicate_succ', ← List.cons_append, ← List.append_assoc, List.getLast?_concat] at hb
    exact absurd rfl hb

end Line

/-! ### Loops -/

section Loop

variable {σ : Type} {turn : σ → Option UInt8 → IStream → Turn σ}

theorem optionLoop_of_eof {n : Nat} (hn : 0 < n) (s : σ) {is : IStream} (h : is.eof = true) :
    optionLoop turn n s is = .done s is := by
  obtain ⟨m, rfl⟩ : ∃ m, n = m + 1 := ⟨n - 1, by omega⟩
  rw [optionLoop, if_pos h]

/-- A loop that ends does so with more fuel. -/
theorem optionLoop_mono {n m : Nat} (hnm : n ≤ m) {s s' : σ} {is is' : IStream}
    (h : optionLoop turn n s is = .done s' is') : optionLoop turn m s is = .done s' is' := by
  induction n generalizing m s is with
  | zero => exact absurd h (by simp [optionLoop])
  | succ n ih =>
    obtain ⟨m, rfl⟩ : ∃ j, m = j + 1 := ⟨m - 1, by omega⟩
    rw [optionLoop] at h ⊢
    dsimp only at h ⊢
    split at h
    · next heof => rwa [if_pos heof]
    next heof =>
    rw [if_neg heof]
    split at h
    · next hend => rwa [if_pos hend]
    next hend =>
    rw [if_neg hend]
    split at h
    · next hzero => rwa [if_pos hzero]
    next hzero =>
    rw [if_neg hzero]
    cases hturn : turn s is.get.1 is.get.2 with
    | next s'' is'' =>
      rw [hturn] at h
      exact ih (Nat.le_of_succ_le_succ hnm) h
    | leave s'' is'' =>
      rw [hturn] at h
      exact h
    | throw e s'' =>
      rw [hturn] at h
      exact absurd h (by simp)

/-- A loop with nothing left to read ends. -/
theorem exists_done_of_nil {n : Nat} (hn : 0 < n) (s : σ) {is : IStream} (hrest : is.rest = [])
    (hfail : is.fail = false) : ∃ s' is', optionLoop turn n s is = .done s' is' := by
  obtain ⟨m, rfl⟩ : ∃ m, n = m + 1 := ⟨n - 1, by omega⟩
  obtain ⟨rest, eof, fail, junk⟩ := is
  obtain rfl : rest = [] := hrest
  obtain rfl : fail = false := hfail
  cases eof <;> exact ⟨_, _, rfl⟩

/-- An option on a good stream after which the loop goes on. -/
theorem optionLoop_next {c : UInt8} (hc : c ≠ 0) (n : Nat) {s s' : σ} {l : List UInt8} {junk : Nat → UInt8}
    {is' : IStream} (h : turn s (some c) { rest := l, junk := junk } = .next s' is') :
    optionLoop turn (n + 1) s { rest := c :: l, junk := junk } = optionLoop turn n s' is' := by
  have hzero : some c ≠ some (0 : UInt8) := fun h => hc (Option.some.inj h)
  rw [optionLoop, IStream.get_cons]
  dsimp only
  rw [if_neg (by simp), if_neg (by simp), if_neg hzero, h]

/-- A stream that has failed, but not at its end, is asked for the next option forever. -/
theorem optionLoop_stuck (hturn : ∀ s is, turn s none is = .next s is) (n : Nat) (s : σ) {is : IStream}
    (hfail : is.fail = true) (heof : is.eof = false) : optionLoop turn n s is = .throw .hang s := by
  induction n with
  | zero => rfl
  | succ n ih =>
    have hget : is.get = (none, is) := by
      obtain ⟨rest, eof, fail, junk⟩ := is
      obtain rfl : eof = false := heof
      obtain rfl : fail = true := hfail
      rfl
    rw [optionLoop, hget]
    dsimp only
    rw [if_neg (by simp [heof]), if_neg (by simp [heof]), if_neg (by simp), hturn]
    exact ih

/-- What holds of the state and the stream before a loop and is kept by its turns holds when it ends. -/
theorem optionLoop_keeps {I : σ → IStream → Prop} (hget : ∀ {s is}, I s is → I s is.get.2)
    (hturn : ∀ {s c is s' is'}, I s is → turn s c is = .next s' is' ∨ turn s c is = .leave s' is' → I s' is')
    {n : Nat} {s s' : σ} {is is' : IStream} (h : I s is) (hdone : optionLoop turn n s is = .done s' is') : I s' is' := by
  induction n generalizing s is with
  | zero => exact absurd hdone (by simp [optionLoop])
  | succ n ih =>
    have hnext := hget h
    rw [optionLoop] at hdone
    dsimp only at hdone
    split at hdone
    · obtain ⟨rfl, rfl⟩ := Outcome.done.inj hdone
      exact h
    split at hdone
    · obtain ⟨rfl, rfl⟩ := Outcome.done.inj hdone
      exact hnext
    split at hdone
    · obtain ⟨rfl, rfl⟩ := Outcome.done.inj hdone
      exact hnext
    split at hdone
    · next heq => exact ih (hturn hnext (Or.inl heq)) hdone
    · next heq =>
      obtain ⟨rfl, rfl⟩ := Outcome.done.inj hdone
      exact hturn hnext (Or.inr heq)
    · exact absurd hdone (by simp)

end Loop

end Lib
