import RabbitControl.Lib.BigEndian

/-!
# Input streams and option loops

A model of `std::istream` over a finite buffer: the bytes left, the bits `eofbit` and `failbit`, and the content of
the memory that a short read leaves unset.  On top of it the loop that every reader of a prefixed option list runs:
read a prefix byte, leave at the end of the stream or at the terminator `0`, else handle the option.  The loop takes
fuel; a loop that uses it up stands for one that never ends.

`optionLoop_forall` carries an invariant of the option handler through the loop, `optionLoop_rel` a relation
between two handlers that take the same turns.
-/

namespace Lib

/-- An input stream: what is left to read, its state bits, and the bytes found in memory that is never written. -/
structure IStream where
  rest : List UInt8
  eof : Bool := false
  fail : Bool := false
  junk : Nat → UInt8

/-- Why a reader did not come back: an allocation of a negative length, or a loop that never ends. -/
inductive Stop
  | lengthError
  | hang
  deriving DecidableEq, Repr

namespace IStream

def good (is : IStream) : Bool := !is.eof && !is.fail

/-- `get()`: `none` stands for `traits::eof()`. -/
def get (is : IStream) : Option UInt8 × IStream :=
  if is.good then
    match is.rest with
    | [] => (none, { is with eof := true, fail := true })
    | c :: cs => (some c, { is with rest := cs })
  else (none, { is with fail := true })

/-- `peek()`: the end of the buffer sets `eofbit` only. -/
def peek (is : IStream) : Option UInt8 × IStream :=
  if is.good then
    match is.rest with
    | [] => (none, { is with eof := true })
    | c :: _ => (some c, is)
  else (none, { is with fail := true })

/-- `read(s, n)`: the characters extracted, fewer than `n` only at the end of the buffer. -/
def read (n : Nat) (is : IStream) : List UInt8 × IStream :=
  if is.good then
    if n ≤ is.rest.length then (is.rest.take n, { is with rest := is.rest.drop n })
    else (is.rest, { is with rest := [], eof := true, fail := true })
  else ([], { is with fail := true })

/-- `read` into an uninitialised variable of `n` bytes: what is not read keeps what the memory held. -/
def readInto (n : Nat) (is : IStream) : List UInt8 × IStream :=
  let r := is.read n
  let missing := n - r.1.length
  (r.1 ++ (List.range missing).map is.junk, { r.2 with junk := fun k => is.junk (k + missing) })

/-- A big-endian word of `n` bytes. -/
def readBE (n : Nat) (is : IStream) : Nat × IStream :=
  let r := is.readInto n
  (decodeBE r.1, r.2)

/-- `get(s, n)`: at most `n - 1` characters, up to a newline, which is left in the stream; `failbit` if there are
none.  What the characters and the closing zero leave of an uninitialised buffer of `n` bytes keeps its content. -/
def getLine (n : Nat) (is : IStream) : List UInt8 × IStream :=
  if is.good then
    let got := (is.rest.take (n - 1)).takeWhile (· != 10)
    let rest := is.rest.drop got.length
    let missing := n - (got.length + 1)
    ((got ++ 0 :: (List.range missing).map is.junk).take n,
      { rest := rest, eof := decide (got.length < n - 1) && rest.isEmpty, fail := got.isEmpty,
        junk := fun k => is.junk (k + missing) })
  else
    let missing := n - 1
    ((0 :: (List.range missing).map is.junk).take n,
      { is with fail := true, junk := fun k => is.junk (k + missing) })

/-- `seekg`: clears `eofbit` and moves to a position of the buffer, unless `failbit` is set. -/
def seek (buffer : List UInt8) (pos : Nat) (is : IStream) : IStream :=
  if is.fail then { is with eof := false } else { is with rest := buffer.drop pos, eof := false }

/-- `tellg`: the position, `none` for `-1`. -/
def tell (buffer : List UInt8) (is : IStream) : Option Nat :=
  if is.good then some (buffer.length - is.rest.length) else none

end IStream

/-- A reader of one value. -/
abbrev Reader (α : Type) := IStream → Except Stop (α × IStream)

/-- What one turn of an option loop does: go on, leave the loop, or throw. -/
inductive Turn (σ : Type)
  | next (s : σ) (is : IStream)
  | leave (s : σ) (is : IStream)
  | throw (e : Stop) (s : σ)

/-- How a reader that works on a state ends. -/
inductive Outcome (σ : Type)
  | done (s : σ) (is : IStream)
  | throw (e : Stop) (s : σ)

namespace Turn

variable {σ τ : Type}

def state : Turn σ → σ
  | next s _ => s
  | leave s _ => s
  | throw _ s => s

def map (f : σ → τ) : Turn σ → Turn τ
  | next s is => next (f s) is
  | leave s is => leave (f s) is
  | throw e s => throw e (f s)

/-- Two turns that read the same and end in related states. -/
def Rel (R : σ → τ → Prop) : Turn σ → Turn τ → Prop
  | next s is, next t is' => R s t ∧ is = is'
  | leave s is, leave t is' => R s t ∧ is = is'
  | throw e s, throw e' t => R s t ∧ e = e'
  | _, _ => False

@[simp] theorem state_next (s : σ) (is : IStream) : (next s is).state = s := rfl
@[simp] theorem state_leave (s : σ) (is : IStream) : (leave s is).state = s := rfl
@[simp] theorem state_throw (e : Stop) (s : σ) : (throw e s).state = s := rfl
@[simp] theorem state_map (f : σ → τ) (t : Turn σ) : (t.map f).state = f t.state := by cases t <;> rfl

end Turn

namespace Outcome

variable {σ τ : Type}

def state : Outcome σ → σ
  | done s _ => s
  | throw _ s => s

def map (f : σ → τ) : Outcome σ → Outcome τ
  | done s is => done (f s) is
  | throw e s => throw e (f s)

/-- Two outcomes that read the same and end in related states. -/
def Rel (R : σ → τ → Prop) : Outcome σ → Outcome τ → Prop
  | done s is, done t is' => R s t ∧ is = is'
  | throw e s, throw e' t => R s t ∧ e = e'
  | _, _ => False

@[simp] theorem state_done (s : σ) (is : IStream) : (done s is).state = s := rfl
@[simp] theorem state_throw (e : Stop) (s : σ) : (throw e s : Outcome σ).state = s := rfl
@[simp] theorem state_map (f : σ → τ) (o : Outcome σ) : (o.map f).state = f o.state := by cases o <;> rfl

end Outcome

/-- Read a value, and unless the stream has ended (`CHECK_STREAM`) store it. -/
def readOption {α σ : Type} (read : Reader α) (set : α → σ → σ) (s : σ) (is : IStream) : Turn σ :=
  match read is with
  | .error e => .throw e s
  | .ok (a, is') => if is'.eof then .next s is' else .next (set a s) is'

/-- `while (!is.eof()) { opt = is.get(); … }`: `turn` handles an option prefix other than the terminator. -/
def optionLoop {σ : Type} (turn : σ → Option UInt8 → IStream → Turn σ) : Nat → σ → IStream → Outcome σ
  | 0, s, _ => .throw .hang s
  | n + 1, s, is =>
    if is.eof then .done s is
    else
      let r := is.get
      if r.2.eof then .done s r.2
      else if r.1 = some 0 then .done s r.2
      else
        match turn s r.1 r.2 with
        | .next s' is' => optionLoop turn n s' is'
        | .leave s' is' => .done s' is'
        | .throw e s' => .throw e s'

/-- The loop with the fuel that its buffer can use: every turn that goes on has taken a byte. -/
def optionList {σ : Type} (turn : σ → Option UInt8 → IStream → Turn σ) (s : σ) (is : IStream) : Outcome σ :=
  optionLoop turn (is.rest.length + 1) s is

section Loop

variable {σ τ : Type} {turn : σ → Option UInt8 → IStream → Turn σ} {turn' : τ → Option UInt8 → IStream → Turn τ}

/-- What every turn preserves holds after the loop. -/
theorem optionLoop_forall {P : σ → Prop} (h : ∀ s c is, P s → P (turn s c is).state) (n : Nat) (s : σ)
    (is : IStream) (hs : P s) : P (optionLoop turn n s is).state := by
  induction n generalizing s is with
  | zero => exact hs
  | succ n ih =>
    unfold optionLoop
    split
    · exact hs
    · dsimp only
      split
      · exact hs
      · split
        · exact hs
        · have hturn := h s is.get.1 is.get.2 hs
          split <;> rename_i heq <;> rw [heq] at hturn
          · exact ih _ _ hturn
          · exact hturn
          · exact hturn

theorem optionList_forall {P : σ → Prop} (h : ∀ s c is, P s → P (turn s c is).state) (s : σ) (is : IStream)
    (hs : P s) : P (optionList turn s is).state :=
  optionLoop_forall h _ s is hs

/-- Two handlers whose turns are related run related loops. -/
theorem optionLoop_rel {R : σ → τ → Prop} (h : ∀ s t c is, R s t → Turn.Rel R (turn s c is) (turn' t c is))
    (n : Nat) (s : σ) (t : τ) (is : IStream) (hst : R s t) :
    Outcome.Rel R (optionLoop turn n s is) (optionLoop turn' n t is) := by
  induction n generalizing s t is with
  | zero => exact ⟨hst, rfl⟩
  | succ n ih =>
    unfold optionLoop
    split
    · exact ⟨hst, rfl⟩
    · dsimp only
      split
      · exact ⟨hst, rfl⟩
      · split
        · exact ⟨hst, rfl⟩
        · have hturn := h s t is.get.1 is.get.2 hst
          rcases h₁ : turn s is.get.1 is.get.2 with ⟨s', i⟩ | ⟨s', i⟩ | ⟨e, s'⟩ <;>
            rcases h₂ : turn' t is.get.1 is.get.2 with ⟨t', j⟩ | ⟨t', j⟩ | ⟨e', t'⟩ <;>
            rw [h₁, h₂] at hturn <;> simp only [Turn.Rel] at hturn
          · obtain ⟨hR, rfl⟩ := hturn
            exact ih s' t' i hR
          · exact hturn
          · exact hturn

theorem optionList_rel {R : σ → τ → Prop} (h : ∀ s t c is, R s t → Turn.Rel R (turn s c is) (turn' t c is))
    (s : σ) (t : τ) (is : IStream) (hst : R s t) :
    Outcome.Rel R (optionList turn s is) (optionList turn' t is) :=
  optionLoop_rel h _ s t is hst

@[simp] theorem readOption_state {α : Type} (read : Reader α) (set : α → σ → σ) (s : σ) (is : IStream) :
    (readOption read set s is).state = s ∨ ∃ a, (readOption read set s is).state = set a s := by
  unfold readOption
  split
  · exact Or.inl rfl
  · split
    · exact Or.inl rfl
    · exact Or.inr ⟨_, rfl⟩

/-- Storing a value preserves what every single store preserves. -/
theorem readOption_rel {α : Type} {R : σ → τ → Prop} {read : Reader α} {set : α → σ → σ} {set' : α → τ → τ}
    (h : ∀ a s t, R s t → R (set a s) (set' a t)) {s : σ} {t : τ} (is : IStream) (hst : R s t) :
    Turn.Rel R (readOption read set s is) (readOption read set' t is) := by
  unfold readOption
  split
  · exact ⟨hst, rfl⟩
  · split
    · exact ⟨hst, rfl⟩
    · exact ⟨h _ _ _ hst, rfl⟩

theorem Outcome.Rel.state {R : σ → τ → Prop} {o : Outcome σ} {o' : Outcome τ} (h : Outcome.Rel R o o') :
    R o.state o'.state := by
  cases o <;> cases o'
  · exact h.1
  · exact h.elim
  · exact h.elim
  · exact h.1

theorem Outcome.Rel.of_done {R : σ → τ → Prop} {o : Outcome σ} {t : τ} {is : IStream}
    (h : Outcome.Rel R o (.done t is)) :
    ∃ s, o = .done s is ∧ R s t := by
  cases o with
  | done s is' =>
    obtain ⟨hR, rfl⟩ := h
    exact ⟨s, rfl, hR⟩
  | throw e s => exact h.elim

theorem Outcome.Rel.to_done {R : σ → τ → Prop} {s : σ} {is : IStream} {o : Outcome τ}
    (h : Outcome.Rel R (.done s is) o) :
    ∃ t, o = .done t is ∧ R s t := by
  cases o with
  | done t is' =>
    obtain ⟨hR, rfl⟩ := h
    exact ⟨t, rfl, hR⟩
  | throw e t => exact h.elim

theorem Turn.rel_self {Q : σ → Prop} {t : Turn σ} (h : Q t.state) : Turn.Rel (fun x y => x = y ∧ Q x) t t := by
  cases t with
  | next s is => exact ⟨⟨rfl, h⟩, rfl⟩
  | leave s is => exact ⟨⟨rfl, h⟩, rfl⟩
  | throw e s => exact ⟨⟨rfl, h⟩, rfl⟩

theorem Turn.Rel.state {R : σ → τ → Prop} {t : Turn σ} {t' : Turn τ} (h : Turn.Rel R t t') : R t.state t'.state := by
  cases t <;> cases t'
  all_goals first | exact h.1 | exact h.elim

theorem Outcome.Rel.eq {Q : σ → Prop} {o o' : Outcome σ} (h : Outcome.Rel (fun x y => x = y ∧ Q x) o o') : o = o' := by
  cases o <;> cases o'
  · obtain ⟨⟨rfl, -⟩, rfl⟩ := h
    rfl
  · exact h.elim
  · exact h.elim
  · obtain ⟨⟨rfl, -⟩, rfl⟩ := h
    rfl

theorem Outcome.Rel.map {σ' τ' : Type} {R : σ → τ → Prop} {R' : σ' → τ' → Prop} {f : σ → σ'} {g : τ → τ'}
    (h : ∀ s t, R s t → R' (f s) (g t)) {o : Outcome σ} {o' : Outcome τ} (ho : Outcome.Rel R o o') :
    Outcome.Rel R' (o.map f) (o'.map g) := by
  cases o <;> cases o'
  · exact ⟨h _ _ ho.1, ho.2⟩
  · exact ho
  · exact ho
  · exact ⟨h _ _ ho.1, ho.2⟩

end Loop

end Lib
