import RabbitControl.Lib.InputStream

/-!
# Reading what was written

The primitive readers on a good stream whose next bytes are known: they take these bytes and leave a good stream with
the rest.  A reader `Reads` a value from the bytes that were written for it if this is so whatever follows them.  An
option loop `Consumes` the bytes of one option after the other, and ends at the terminator
(`optionList_of_consumes`).
-/

namespace Lib

namespace IStream

variable {tail : List UInt8} {junk : Nat → UInt8}

@[simp] theorem get_cons (c : UInt8) :
    ({ rest := c :: tail, junk := junk } : IStream).get = (some c, { rest := tail, junk := junk }) := rfl

@[simp] theorem read_append (l : List UInt8) :
    ({ rest := l ++ tail, junk := junk } : IStream).read l.length = (l, { rest := tail, junk := junk }) := by
  simp [read, good]

@[simp] theorem readInto_append (l : List UInt8) :
    ({ rest := l ++ tail, junk := junk } : IStream).readInto l.length = (l, { rest := tail, junk := junk }) := by
  simp [readInto, read, good]

/-- A word that was written is read back, up to its width. -/
@[simp] theorem readBE_encodeBE (n x : Nat) :
    ({ rest := encodeBE n x ++ tail, junk := junk } : IStream).readBE n =
      (x % 256 ^ n, { rest := tail, junk := junk }) := by
  have h : ({ rest := encodeBE n x ++ tail, junk := junk } : IStream).readInto (encodeBE n x).length =
      (encodeBE n x, { rest := tail, junk := junk }) := readInto_append _
  rw [length_encodeBE] at h
  rw [readBE, h, decodeBE_encodeBE]

end IStream

/-! ### Values -/

/-- The reader takes the bytes `l` for the value `a`, whatever follows. -/
def Reads {α : Type} (read : Reader α) (l : List UInt8) (a : α) : Prop :=
  ∀ tail junk, read { rest := l ++ tail, junk := junk } = .ok (a, { rest := tail, junk := junk })

/-! ### Option loops -/

section Loop

variable {α σ : Type} {turn : σ → Option UInt8 → IStream → Turn σ} {s s' s'' : σ} {l l' : List UInt8} {c : UInt8}

/-- The turn takes the bytes `l` for the option `c`, whatever follows. -/
def TurnsOn (turn : σ → Option UInt8 → IStream → Turn σ) (s : σ) (c : UInt8) (l : List UInt8) (s' : σ) : Prop :=
  ∀ tail junk, turn s (some c) { rest := l ++ tail, junk := junk } = .next s' { rest := tail, junk := junk }

/-- With fuel for all that is left, the loop takes the bytes `l` and gets from `s` to `s'`, whatever follows. -/
def Consumes (turn : σ → Option UInt8 → IStream → Turn σ) (s : σ) (l : List UInt8) (s' : σ) : Prop :=
  ∀ tail junk n, l.length + tail.length < n → ∃ m, tail.length < m ∧
    optionLoop turn n s { rest := l ++ tail, junk := junk } = optionLoop turn m s' { rest := tail, junk := junk }

/-- An option that is read as one value. -/
theorem Reads.turnsOn {read : Reader α} {set : α → σ → σ} {a : α} (h : Reads read l a)
    (hturn : ∀ is, turn s (some c) is = readOption read set s is) : TurnsOn turn s c l (set a s) := by
  intro tail junk
  rw [hturn, readOption, h]
  rfl

theorem Consumes.nil (s : σ) : Consumes turn s [] s := fun _ _ n hn => ⟨n, by simpa using hn, rfl⟩

theorem Consumes.append (h : Consumes turn s l s') (k : Consumes turn s' l' s'') : Consumes turn s (l ++ l') s'' := by
  intro tail junk n hn
  rw [List.length_append] at hn
  obtain ⟨m, hm, hloop⟩ := h (l' ++ tail) junk n (by rw [List.length_append]; omega)
  obtain ⟨m', hm', hloop'⟩ := k tail junk m (by rwa [List.length_append] at hm)
  exact ⟨m', hm', by rw [List.append_assoc, hloop, hloop']⟩

/-- One turn of the loop. -/
theorem TurnsOn.consumes (hc : c ≠ 0) (h : TurnsOn turn s c l s') : Consumes turn s (c :: l) s' := by
  intro tail junk n hn
  rw [List.length_cons] at hn
  obtain ⟨m, rfl⟩ : ∃ m, n = m + 1 := ⟨n - 1, by omega⟩
  refine ⟨m, by omega, ?_⟩
  have hzero : some c ≠ some (0 : UInt8) := fun h => hc (Option.some.inj h)
  rw [List.cons_append, optionLoop, IStream.get_cons]
  dsimp only
  rw [if_neg (by simp), if_neg (by simp), if_neg hzero, h]

/-- The loop ends at the terminator. -/
theorem optionList_of_consumes (h : Consumes turn s l s') (tail : List UInt8) (junk : Nat → UInt8) :
    optionList turn s { rest := l ++ 0 :: tail, junk := junk } = .done s' { rest := tail, junk := junk } := by
  obtain ⟨m, hm, hloop⟩ := h (0 :: tail) junk ((l ++ 0 :: tail).length + 1) (by rw [List.length_append]; omega)
  obtain ⟨m, rfl⟩ : ∃ k, m = k + 1 := ⟨m - 1, by omega⟩
  rw [optionList, hloop, optionLoop, IStream.get_cons]
  dsimp only
  rw [if_neg (by simp), if_neg (by simp), if_pos rfl]

end Loop

/-! ### Repeated options -/

section Repeated

variable {ι α β : Type} {f : β → ι → β} {kind : ι → Option α} {P : α → β → Prop}

/-- What an item of one kind stores is kept by the items of the other kinds, so that the last one of its kind counts. -/
theorem foldl_last (hset : ∀ b i a, kind i = some a → P a (f b i))
    (hkeep : ∀ b i a, kind i = none → P a b → P a (f b i)) (l : List ι) (b : β) {a : α}
    (h : (l.filterMap kind).getLast? = some a) : P a (l.foldl f b) := by
  induction l using List.reverseRecOn with
  | nil => simp at h
  | append_singleton l i ih =>
    rw [List.foldl_append, List.foldl_cons, List.foldl_nil]
    rw [List.filterMap_append] at h
    cases hi : kind i with
    | none => exact hkeep _ i a hi (ih (by simpa [hi] using h))
    | some a' =>
      obtain rfl : a' = a := by simpa [hi] using h
      exact hset _ i a' hi

/-- Items of other kinds only. -/
theorem foldl_keep (hkeep : ∀ b i a, kind i = none → P a b → P a (f b i)) (l : List ι) {b : β} {a : α}
    (h : (l.filterMap kind).getLast? = none) (hb : P a b) : P a (l.foldl f b) := by
  have hnone : ∀ i ∈ l, kind i = none := by simpa [List.getLast?_eq_none_iff, List.filterMap_eq_nil_iff] using h
  induction l generalizing b with
  | nil => exact hb
  | cons i l ih =>
    exact ih (by simpa [hnone i List.mem_cons_self] using h) (hkeep b i a (hnone i List.mem_cons_self) hb)
      fun j hj => hnone j (List.mem_cons_of_mem _ hj)

end Repeated

end Lib
