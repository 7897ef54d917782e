import RabbitControl.Lib.InputStream

/-!
# Readers that look at no more than they take

A local reader comes to an end, gives nothing back, and does not look beyond what it has taken: unless it has run into
the end of its stream, it reads the same from a longer one, whatever memory holds (`Local`).  Local readers in a row are
local, and so is an option list whose turns are (`local_optionList`).
-/

namespace Lib

/-- What may lie behind the bytes of a stream: more bytes, and the content of memory. -/
structure Beyond where
  bytes : List UInt8
  junk : Nat → UInt8

namespace IStream

/-- The stream with something else behind it. -/
def append (q : Beyond) (is : IStream) : IStream := { is with rest := is.rest ++ q.bytes, junk := q.junk }

/-- The stream has not failed but at its end. -/
def Steady (is : IStream) : Prop := is.fail = true → is.eof = true

/-- What a reader has left of a stream. -/
structure Left (is is' : IStream) : Prop where
  steady : is'.Steady
  length : is'.rest.length ≤ is.rest.length
  eof : is.eof = true → is'.eof = true

variable {is is' is'' : IStream} {q : Beyond}

@[simp] theorem eof_append : (is.append q).eof = is.eof := rfl
@[simp] theorem length_append : (is.append q).rest.length = is.rest.length + q.bytes.length := List.length_append

theorem Left.refl (h : is.Steady) : Left is is := ⟨h, le_rfl, id⟩

theorem Left.trans (h : Left is is') (k : Left is' is'') : Left is is'' :=
  ⟨k.steady, k.length.trans h.length, fun he => k.eof (h.eof he)⟩

/-- A reader that has not come to the end was not there before. -/
theorem Left.eof_false (h : Left is is') (he : is'.eof = false) : is.eof = false := by
  cases hb : is.eof with
  | false => rfl
  | true => exact absurd ((h.eof hb).symm.trans he) (by simp)

theorem Steady.fail_false (h : is.Steady) (he : is.eof = false) : is.fail = false := by
  cases hb : is.fail with
  | false => rfl
  | true => exact absurd ((h hb).symm.trans he) (by simp)

theorem Steady.append (h : is.Steady) : (is.append q).Steady := h

end IStream

open IStream

/-! ### Results -/

/-- What a reader comes to: a stream, or why it has not come back. -/
class Result (ρ : Type) where
  out : ρ → Except Stop IStream
  append : Beyond → ρ → ρ

instance : Result IStream := ⟨.ok, IStream.append⟩

instance {α : Type} : Result (α × IStream) := ⟨fun r => .ok r.2, fun q r => (r.1, r.2.append q)⟩

instance {α : Type} : Result (Except Stop (α × IStream)) :=
  ⟨fun r => r.map Prod.snd, fun q r => r.map fun r => (r.1, r.2.append q)⟩

instance {σ : Type} : Result (Turn σ) where
  out
    | .next _ is | .leave _ is => .ok is
    | .throw e _ => .error e
  append q
    | .next s is => .next s (is.append q)
    | .leave s is => .leave s (is.append q)
    | .throw e s => .throw e s

instance {σ : Type} : Result (Outcome σ) where
  out
    | .done _ is => .ok is
    | .throw e _ => .error e
  append q
    | .done s is => .done s (is.append q)
    | .throw e s => .throw e s

open Result

/-- A result for the stream `is`, and `g` for the results of the streams with something else behind. -/
def LocalAt {ρ : Type} [Result ρ] (is : IStream) (r : ρ) (g : Beyond → ρ) : Prop :=
  match out r with
  | .error e => e ≠ .hang
  | .ok is' => Left is is' ∧ (is'.eof = false → ∀ q, g q = append q r)

/-- The reader ends, gives nothing back and does not look beyond what it has taken. -/
def Local {ρ : Type} [Result ρ] (f : IStream → ρ) : Prop :=
  ∀ is : IStream, is.Steady → LocalAt is (f is) fun q => f (is.append q)

section Results

variable {ρ σ τ α β : Type} [Result ρ] {is is' : IStream}

/-- A reader after the stream that another one has left. -/
theorem LocalAt.after {r : ρ} {g : Beyond → ρ} (hl : Left is is') (h : LocalAt is' r g) : LocalAt is r g := by
  unfold LocalAt at *
  cases hr : out r with
  | error e => rw [hr] at h; exact h
  | ok is'' => rw [hr] at h; exact ⟨hl.trans h.1, h.2⟩

/-- Longer streams matter only if the end is not reached. -/
theorem LocalAt.congr {r : ρ} {g g' : Beyond → ρ} (h : LocalAt is r g)
    (hg : ∀ is', out r = .ok is' → is'.eof = false → g' = g) : LocalAt is r g' := by
  unfold LocalAt at *
  cases hr : out r with
  | error e => rw [hr] at h; exact h
  | ok is' =>
    rw [hr] at h
    exact ⟨h.1, fun he q => by rw [hg is' hr he]; exact h.2 he q⟩

/-- A reader that has run into the end. -/
theorem LocalAt.of_eof {r : ρ} {g : Beyond → ρ} (hr : out r = .ok is') (hl : Left is is') (he : is'.eof = true) :
    LocalAt is r g := by
  unfold LocalAt
  rw [hr]
  exact ⟨hl, fun h => absurd (he.symm.trans h) (by decide)⟩

theorem Local.of_eq {f g : IStream → ρ} (h : Local f) (hg : ∀ is, g is = f is) : Local g := by
  rw [show g = f from funext hg]
  exact h

theorem local_pair {f : IStream → α × IStream} (hf : Local f) (h : is.Steady) :
    Left is (f is).2 ∧ ((f is).2.eof = false → ∀ q, f (is.append q) = ((f is).1, (f is).2.append q)) :=
  hf is h

/-- Two readers in a row, where the first one reads values of a certain kind only. -/
theorem Local.bindOf {P : α → Prop} {f : IStream → α × IStream} (hf : Local f) (hP : ∀ is, P (f is).1)
    {g : α → IStream → ρ} (hg : ∀ a, P a → Local (g a)) : Local fun is => g (f is).1 (f is).2 := by
  intro is his
  obtain ⟨hleft, hstable⟩ := local_pair hf his
  have h := hg (f is).1 (hP is) (f is).2 hleft.steady
  unfold LocalAt at h ⊢
  cases hr : out (g (f is).1 (f is).2) with
  | error e => rw [hr] at h; exact h
  | ok is' =>
    rw [hr] at h
    refine ⟨hleft.trans h.1, fun he q => ?_⟩
    dsimp only
    rw [hstable (h.1.eof_false he) q]
    exact h.2 he q

theorem Local.bind {f : IStream → α × IStream} (hf : Local f) {g : α → IStream → ρ} (hg : ∀ a, Local (g a)) :
    Local fun is => g (f is).1 (f is).2 :=
  hf.bindOf (P := fun _ => True) (fun _ => trivial) fun a _ => hg a

theorem local_pure (a : α) : Local fun is => (a, is) := fun _ h => ⟨.refl h, fun _ _ => rfl⟩

theorem Local.of_ok {f : IStream → α × IStream} (hf : Local f) :
    Local fun is => (.ok (f is) : Except Stop (α × IStream)) := by
  intro is his
  obtain ⟨hleft, hstable⟩ := local_pair hf his
  exact ⟨hleft, fun he q => congrArg Except.ok (hstable he q)⟩

/-- Two readers, between which the state of the stream decides. -/
theorem Local.ite_state {b : IStream → Bool} (hb : ∀ is q, b (IStream.append q is) = b is) {f g : IStream → ρ}
    (hf : Local f) (hg : Local g) : Local fun is => if b is then f is else g is := by
  intro is his
  simp only [hb]
  cases b is with
  | true => exact hf is his
  | false => exact hg is his

theorem Local.ite_eof {f g : IStream → ρ} (hf : Local f) (hg : Local g) :
    Local fun is => if is.eof then f is else g is :=
  hf.ite_state (b := IStream.eof) (fun _ _ => rfl) hg

theorem Local.ite (c : Prop) [Decidable c] {f g : IStream → ρ} (hf : Local f) (hg : Local g) :
    Local fun is => if c then f is else g is := by
  split
  · exact hf
  · exact hg

theorem local_next (s : σ) : Local fun is => Turn.next s is := fun _ h => ⟨.refl h, fun _ _ => rfl⟩

theorem local_leave (s : σ) : Local fun is => Turn.leave s is := fun _ h => ⟨.refl h, fun _ _ => rfl⟩

theorem local_done (s : σ) : Local fun is => Outcome.done s is := fun _ h => ⟨.refl h, fun _ _ => rfl⟩

theorem local_const {r : ρ} {e : Stop} (h : out r = .error e) (he : e ≠ .hang) : Local fun _ => r := by
  intro is _
  unfold LocalAt
  rw [h]
  exact he

/-- A reader that may throw, and what is done with its value. -/
theorem Local.bindExcept {read : Reader α} (hf : Local read) {t : Stop → ρ} (ht : ∀ e, out (t e) = .error e)
    {g : α → IStream → ρ} (hg : ∀ a, Local (g a)) :
    Local fun is => match read is with
      | .error e => t e
      | .ok (a, is') => g a is' := by
  intro is his
  have h := hf is his
  unfold LocalAt at h
  rcases hr : read is with e | ⟨a, is'⟩ <;> rw [hr] at h
  · unfold LocalAt
    dsimp only
    rw [hr]
    dsimp only
    rw [ht]
    exact h
  · obtain ⟨hleft, hstable⟩ := h
    have hk := hg a is' hleft.steady
    dsimp only
    rw [hr]
    refine (hk.after hleft).congr fun is'' hout he => ?_
    unfold LocalAt at hk
    rw [hout] at hk
    funext q
    have hq : read (is.append q) = .ok (a, is'.append q) := hstable (hk.1.eof_false he) q
    rw [hq]

theorem Local.readOption {read : Reader α} (hf : Local read) {set : α → σ → σ} {s : σ} :
    Local (readOption read set s) :=
  hf.bindExcept (t := fun e => Turn.throw e s) (fun _ => rfl) fun a => (local_next s).ite_eof (local_next (set a s))

theorem Local.map_outcome {f : IStream → Outcome σ} (hf : Local f) (g : σ → τ) : Local fun is => (f is).map g := by
  intro is his
  have h := hf is his
  unfold LocalAt at h ⊢
  dsimp only at h ⊢
  cases hr : f is with
  | done s is' =>
    rw [hr] at h
    exact ⟨h.1, fun he q => by rw [h.2 he q]; rfl⟩
  | throw e s => rw [hr] at h; exact h

/-- A reader of a state, and what is done with it. -/
theorem Local.bindOutcome {f : IStream → Outcome σ} (hf : Local f) {t : Stop → σ → ρ}
    (ht : ∀ e s, out (t e s) = .error e) {g : σ → IStream → ρ} (hg : ∀ s, Local (g s)) :
    Local fun is => match f is with
      | .throw e s => t e s
      | .done s is' => g s is' := by
  intro is his
  have h := hf is his
  unfold LocalAt at h
  rcases hr : f is with ⟨s, is'⟩ | ⟨e, s⟩ <;> rw [hr] at h
  · obtain ⟨hleft, hstable⟩ := h
    have hk := hg s is' hleft.steady
    dsimp only
    rw [hr]
    refine (hk.after hleft).congr fun is'' hout he => ?_
    unfold LocalAt at hk
    rw [hout] at hk
    funext q
    have hq : f (is.append q) = .done s (is'.append q) := hstable (hk.1.eof_false he) q
    rw [hq]
  · unfold LocalAt
    dsimp only
    rw [hr]
    dsimp only
    rw [ht]
    exact h

/-- A turn of an option loop, and what is done after it. -/
theorem Local.bindTurn {f : IStream → Turn σ} (hf : Local f) {t : Stop → σ → ρ} (ht : ∀ e s, out (t e s) = .error e)
    {g l : σ → IStream → ρ} (hg : ∀ s, Local (g s)) (hl : ∀ s, Local (l s)) :
    Local fun is => match f is with
      | .next s is' => g s is'
      | .leave s is' => l s is'
      | .throw e s => t e s := by
  intro is his
  have h := hf is his
  -- both ways to go on are the same up to the reader that comes next
  have hnext : ∀ (k : σ → IStream → ρ) (s : σ) (is' : IStream) (gr : Beyond → ρ), (∀ s, Local (k s)) →
      Left is is' → (is'.eof = false → ∀ q, gr q = k s (is'.append q)) → LocalAt is (k s is') gr := by
    intro k s is' gr hk hleft hgr
    have hks := hk s is' hleft.steady
    refine (hks.after hleft).congr fun is'' hout he => ?_
    unfold LocalAt at hks
    rw [hout] at hks
    exact funext fun q => hgr (hks.1.eof_false he) q
  unfold LocalAt at h
  rcases hr : f is with ⟨s, is'⟩ | ⟨s, is'⟩ | ⟨e, s⟩ <;> rw [hr] at h
  · obtain ⟨hleft, hstable⟩ := h
    dsimp only
    rw [hr]
    refine hnext g s is' _ hg hleft fun he q => ?_
    have hq : f (is.append q) = .next s (is'.append q) := hstable he q
    rw [hq]
  · obtain ⟨hleft, hstable⟩ := h
    dsimp only
    rw [hr]
    refine hnext l s is' _ hl hleft fun he q => ?_
    have hq : f (is.append q) = .leave s (is'.append q) := hstable he q
    rw [hq]
  · unfold LocalAt
    dsimp only
    rw [hr]
    dsimp only
    rw [ht]
    exact h

end Results

/-! ### Bytes -/

section Bytes

variable {is : IStream}

/-- A stream that is neither at its end nor has failed. -/
theorem IStream.Steady.good (h : is.Steady) (he : is.eof = false) : is.good = true := by
  simp [IStream.good, he, h.fail_false he]

theorem local_get : Local IStream.get := by
  intro is his
  obtain ⟨rest, eof, fail, junk⟩ := is
  cases eof with
  | true => exact .of_eof rfl ⟨fun _ => rfl, le_rfl, fun _ => rfl⟩ rfl
  | false =>
    obtain rfl : fail = false := his.fail_false rfl
    cases rest with
    | nil => exact .of_eof rfl ⟨fun _ => rfl, le_rfl, fun _ => rfl⟩ rfl
    | cons c rest => exact ⟨⟨fun h => h, Nat.le_succ _, fun h => h⟩, fun _ _ => rfl⟩

theorem local_peek : Local IStream.peek := by
  intro is his
  obtain ⟨rest, eof, fail, junk⟩ := is
  cases eof with
  | true => exact .of_eof rfl ⟨fun _ => rfl, le_rfl, fun _ => rfl⟩ rfl
  | false =>
    obtain rfl : fail = false := his.fail_false rfl
    cases rest with
    | nil => exact .of_eof rfl ⟨fun _ => rfl, le_rfl, fun _ => rfl⟩ rfl
    | cons c rest => exact ⟨⟨fun h => h, le_rfl, fun h => h⟩, fun _ _ => rfl⟩

theorem local_read (n : Nat) : Local (IStream.read n) := by
  intro is his
  cases he : is.eof with
  | true =>
    have hr : is.read n = ([], { is with fail := true }) := by simp [IStream.read, IStream.good, he]
    rw [hr]
    exact ⟨⟨fun _ => he, le_rfl, id⟩, fun h => absurd (he.symm.trans h) (by simp)⟩
  | false =>
    have hgood := his.good he
    by_cases hn : n ≤ is.rest.length
    · have hr : is.read n = (is.rest.take n, { is with rest := is.rest.drop n }) := by simp [IStream.read, hgood, hn]
      rw [hr]
      refine ⟨⟨his, ?_, id⟩, fun _ q => ?_⟩
      · simp
      · have hgood' : (is.append q).good = true := hgood
        have hn' : n ≤ (is.append q).rest.length := by
          rw [length_append]
          omega
        show (is.append q).read n = _
        rw [IStream.read, if_pos hgood', if_pos hn']
        simp [Result.append, IStream.append, List.take_append_of_le_length hn, List.drop_append_of_le_length hn]
    · have hr : is.read n = (is.rest, { is with rest := [], eof := true, fail := true }) := by
          simp [IStream.read, hgood, hn]
      rw [hr]
      exact ⟨⟨fun _ => rfl, Nat.zero_le _, fun _ => rfl⟩, fun h => absurd h (by simp)⟩

/-- A read that does not run into the end has got all its bytes. -/
theorem length_read {n : Nat} (h : is.Steady) (he : (is.read n).2.eof = false) :
    (is.read n).1.length = n ∧ (is.read n).2.rest.length + n = is.rest.length := by
  have hgood := h.good ((local_pair (local_read n) h).1.eof_false he)
  by_cases hn : n ≤ is.rest.length
  · simp [IStream.read, hgood, hn]
  · simp [IStream.read, hgood, hn] at he

theorem local_readInto (n : Nat) : Local (IStream.readInto n) := by
  intro is his
  obtain ⟨hleft, hstable⟩ := local_pair (local_read n) his
  refine ⟨⟨hleft.steady, hleft.length, hleft.eof⟩, fun he q => ?_⟩
  have hlength := (length_read his he).1
  have hq := hstable he q
  show (is.append q).readInto n = _
  simp only [IStream.readInto]
  rw [hq]
  simp [Result.append, IStream.append, hlength]

theorem local_readBE (n : Nat) : Local (IStream.readBE n) :=
  (local_readInto n).bind (g := fun l is => (decodeBE l, is)) fun l => local_pure (decodeBE l)

theorem length_readBE {n : Nat} (h : is.Steady) (he : (is.readBE n).2.eof = false) :
    (is.readBE n).2.rest.length + n = is.rest.length :=
  (length_read h he).2

end Bytes

/-! ### Loops -/

/-- What the body of a loop comes to: the loop ends, or it goes on. -/
inductive Again (σ ρ : Type)
  | stop (r : ρ)
  | again (s : σ) (is : IStream)

section Loop

variable {σ ρ : Type} [Result ρ] {f : Nat → σ → IStream → ρ} {body : σ → IStream → Again σ ρ}

instance : Result (Again σ ρ) where
  out
    | .stop r => out r
    | .again _ is => .ok is
  append q
    | .stop r => .stop (append q r)
    | .again s is => .again s (is.append q)

theorem local_again (s : σ) : Local fun is => (Again.again s is : Again σ ρ) := fun _ h => ⟨.refl h, fun _ _ => rfl⟩

theorem Local.stop {g : IStream → ρ} (hg : Local g) : Local fun is => (Again.stop (g is) : Again σ ρ) := by
  intro is his
  have h := hg is his
  unfold LocalAt at h ⊢
  dsimp only [out] at h ⊢
  cases hr : out (g is) with
  | error e => rw [hr] at h; exact h
  | ok is' =>
    rw [hr] at h
    exact ⟨h.1, fun he q => congrArg Again.stop (h.2 he q)⟩

/-- The loop runs its body as long as it has fuel. -/
def RunsBody (f : Nat → σ → IStream → ρ) (body : σ → IStream → Again σ ρ) : Prop :=
  ∀ n s is, f (n + 1) s is = match body s is with
    | .stop r => r
    | .again s' is' => f n s' is'

/-- The loop over a body, and what it comes to without fuel. -/
def runBody {σ ρ : Type} (body : σ → IStream → Again σ ρ) (stuck : σ → ρ) : Nat → σ → IStream → ρ
  | 0, s, _ => stuck s
  | n + 1, s, is => match body s is with
    | .stop r => r
    | .again s' is' => runBody body stuck n s' is'

/-- The loop over the body gets from the first state and stream to the second. -/
inductive Reaches {σ ρ : Type} (body : σ → IStream → Again σ ρ) : σ → IStream → σ → IStream → Prop
  | refl (s : σ) (is : IStream) : Reaches body s is s is
  | step {s s' s'' : σ} {is is' is'' : IStream} (h : body s is = .again s' is') (hr : Reaches body s' is' s'' is'') :
      Reaches body s is s'' is''

/-- A body that goes on has taken something. -/
def Takes (body : σ → IStream → Again σ ρ) : Prop :=
  ∀ {s is s' is'}, is.Steady → body s is = .again s' is' → is'.rest.length < is.rest.length

/-- A loop with a local body, on a stream and, with more fuel, on longer streams. -/
theorem localAt_loop (hf : RunsBody f body) (hb : ∀ s, Local (body s)) (ht : Takes body) (n : Nat)
    (s : σ) (is : IStream)
    (his : is.Steady) (hn : is.rest.length < n) (g : Beyond → ρ)
    (hg : ∀ q, ∃ m, (is.append q).rest.length < m ∧ g q = f m s (is.append q)) : LocalAt is (f n s is) g := by
  induction n generalizing s is g with
  | zero => exact absurd hn (Nat.not_lt_zero _)
  | succ n ih =>
    have hlong : ∀ q, ∃ m, (is.append q).rest.length < m + 1 ∧ g q = f (m + 1) s (is.append q) := by
      intro q
      obtain ⟨m, hm, hq⟩ := hg q
      cases m with
      | zero => exact absurd hm (Nat.not_lt_zero _)
      | succ m => exact ⟨m, hm, hq⟩
    have hbody := hb s is his
    rw [hf]
    cases hr : body s is with
    | stop r =>
      rw [hr] at hbody
      change LocalAt is (Again.stop r : Again σ ρ) _ at hbody
      unfold LocalAt at hbody ⊢
      dsimp only [out] at hbody ⊢
      cases hout : out r with
      | error e => rw [hout] at hbody; exact hbody
      | ok is' =>
        rw [hout] at hbody
        refine ⟨hbody.1, fun he q => ?_⟩
        obtain ⟨m, -, hq⟩ := hlong q
        have hlonger : body s (is.append q) = .stop (append q r) := hbody.2 he q
        rw [hq, hf, hlonger]
    | again s' is' =>
      rw [hr] at hbody
      obtain ⟨hleft, hstable⟩ := hbody
      have htake := ht his hr
      have hn' : is'.rest.length < n := Nat.lt_of_lt_of_le htake (Nat.le_of_lt_succ hn)
      have hagain := ih s' is' hleft.steady hn' (fun q => f ((is'.append q).rest.length + 1) s' (is'.append q))
        fun q => ⟨_, Nat.lt_succ_self _, rfl⟩
      refine .after hleft ?_
      cases he : is'.eof with
      | true =>
        refine hagain.congr fun is'' hout he' => ?_
        unfold LocalAt at hagain
        rw [hout] at hagain
        exact absurd ((hagain.1.eof he).symm.trans he') (by decide)
      | false =>
        refine ih s' is' hleft.steady hn' g fun q => ?_
        obtain ⟨m, hm, hq⟩ := hlong q
        have hlonger : body s (is.append q) = .again s' (is'.append q) := hstable he q
        refine ⟨m, ?_, by rw [hq, hf, hlonger]⟩
        rw [length_append] at hm ⊢
        omega

/-- A loop that is given the fuel its stream can use. -/
theorem local_loop (hf : RunsBody f body) (hb : ∀ s, Local (body s)) (ht : Takes body) (s : σ) :
    Local fun is => f (is.rest.length + 1) s is :=
  fun is his => localAt_loop hf hb ht _ s is his (Nat.lt_succ_self _) _ fun _ => ⟨_, Nat.lt_succ_self _, rfl⟩

omit [Result ρ] in
theorem runBody_runsBody (stuck : σ → ρ) : RunsBody (runBody body stuck) body := fun _ _ _ => rfl

/-- Two bodies do the same in related states. -/
def Again.Rel {σ τ ρ ν : Type} (R : σ → τ → Prop) (S : ρ → ν → Prop) : Again σ ρ → Again τ ν → Prop
  | .stop r, .stop v => S r v
  | .again s is, .again t is' => R s t ∧ is = is'
  | _, _ => False

omit [Result ρ] in
/-- Loops over related bodies are related. -/
theorem runBody_rel {τ ν : Type} {R : σ → τ → Prop} {S : ρ → ν → Prop} {body' : τ → IStream → Again τ ν} {stuck : σ → ρ}
    {stuck' : τ → ν} (h : ∀ s t is, R s t → Again.Rel R S (body s is) (body' t is))
    (hstuck : ∀ s t, R s t → S (stuck s) (stuck' t)) (n : Nat) {s : σ} {t : τ} (hst : R s t) (is : IStream) :
    S (runBody body stuck n s is) (runBody body' stuck' n t is) := by
  induction n generalizing s t is with
  | zero => exact hstuck s t hst
  | succ n ih =>
    have hbody := h s t is hst
    rw [runBody, runBody]
    cases hs : body s is with
    | stop r =>
      rw [hs] at hbody
      cases ht : body' t is with
      | stop v => rw [ht] at hbody; exact hbody
      | again t' is' => rw [ht] at hbody; exact hbody.elim
    | again s' is' =>
      rw [hs] at hbody
      cases ht : body' t is with
      | stop v => rw [ht] at hbody; exact hbody.elim
      | again t' is'' =>
        rw [ht] at hbody
        obtain ⟨hR, rfl⟩ := hbody
        exact ih hR is'

/-- A reader that does not come back. -/
def Throws {ρ : Type} [Result ρ] (r : ρ) : Prop := ∃ e, out r = .error e

theorem Reaches.steady {s s' : σ} {is is' : IStream} (h : Reaches body s is s' is') (hb : ∀ s, Local (body s))
    (his : is.Steady) : is'.Steady := by
  induction h with
  | refl => exact his
  | @step s s₁ s' is is₁ is' hs _ ih =>
    have hbody := hb s is his
    rw [hs] at hbody
    exact ih hbody.1.steady

/-- A loop that gets to where its body stops comes to the same. -/
theorem Reaches.runs {s s' : σ} {is is' : IStream} {r : ρ} (h : Reaches body s is s' is') (hf : RunsBody f body)
    (hb : ∀ s, Local (body s)) (ht : Takes body) (his : is.Steady) (hstop : body s' is' = .stop r) {n : Nat}
    (hn : is.rest.length < n) : f n s is = r := by
  induction h generalizing n with
  | refl s is =>
    cases n with
    | zero => exact absurd hn (Nat.not_lt_zero _)
    | succ n => rw [hf, hstop]
  | @step s s₁ s' is is₁ is' hs _ ih =>
    cases n with
    | zero => exact absurd hn (Nat.not_lt_zero _)
    | succ n =>
      have hbody := hb s is his
      have htake := ht his hs
      rw [hs] at hbody
      rw [hf, hs]
      exact ih hbody.1.steady hstop (by omega)

/-- A loop throws exactly if its body does so where the loop gets. -/
theorem throws_loop_iff (hf : RunsBody f body) (hb : ∀ s, Local (body s)) (ht : Takes body) (n : Nat) (s : σ)
    (is : IStream) (his : is.Steady) (hn : is.rest.length < n) :
    Throws (f n s is) ↔ ∃ s' is', Reaches body s is s' is' ∧ Throws (body s' is') := by
  induction n generalizing s is with
  | zero => exact absurd hn (Nat.not_lt_zero _)
  | succ n ih =>
    have hbody := hb s is his
    rw [hf]
    cases hr : body s is with
    | stop r =>
      constructor
      · intro h
        exact ⟨s, is, .refl s is, by rw [hr]; exact h⟩
      · rintro ⟨s', is', hreach, h⟩
        cases hreach with
        | refl => rw [hr] at h; exact h
        | step hs => exact absurd (hr.symm.trans hs) (by simp)
    | again s₁ is₁ =>
      rw [hr] at hbody
      have htake := ht his hr
      refine (ih s₁ is₁ hbody.1.steady (Nat.lt_of_lt_of_le htake (Nat.le_of_lt_succ hn))).trans ?_
      constructor
      · rintro ⟨s', is', hreach, h⟩
        exact ⟨s', is', .step hr hreach, h⟩
      · rintro ⟨s', is', hreach, h⟩
        cases hreach with
        | refl =>
          rw [hr] at h
          obtain ⟨e, he⟩ := h
          exact absurd he (by simp [out])
        | step hs hreach =>
          obtain ⟨rfl, rfl⟩ := Again.again.inj (hr.symm.trans hs)
          exact ⟨s', is', hreach, h⟩

end Loop

/-! ### Option lists -/

section Options

variable {σ : Type} {turn : σ → Option UInt8 → IStream → Turn σ}

/-- The body of an option loop. -/
def optionBody (turn : σ → Option UInt8 → IStream → Turn σ) (s : σ) (is : IStream) : Again σ (Outcome σ) :=
  if is.eof then .stop (.done s is)
  else
    let r := is.get
    if r.2.eof then .stop (.done s r.2)
    else if r.1 = some 0 then .stop (.done s r.2)
    else
      match turn s r.1 r.2 with
      | .next s' is' => .again s' is'
      | .leave s' is' => .stop (.done s' is')
      | .throw e s' => .stop (.throw e s')

theorem optionLoop_runsBody : RunsBody (optionLoop turn) (optionBody turn) := by
  intro n s is
  rw [optionLoop, optionBody]
  dsimp only
  split_ifs
  · rfl
  · rfl
  · rfl
  · cases turn s is.get.1 is.get.2 <;> rfl

/-- A byte that could be read is taken. -/
theorem length_get {is : IStream} (h : is.Steady) (he : is.get.2.eof = false) :
    is.get.2.rest.length + 1 = is.rest.length := by
  have hgood := h.good ((local_pair local_get h).1.eof_false he)
  unfold IStream.get at he ⊢
  rw [if_pos hgood] at he ⊢
  cases hr : is.rest with
  | nil => simp [hr] at he
  | cons c rest => rfl

/-- At the end there is nothing to read. -/
theorem get_of_eof {is : IStream} (he : is.get.2.eof = true) : is.get.1 = none := by
  unfold IStream.get at he ⊢
  split at he
  · next hgood =>
    rw [if_pos hgood]
    cases hr : is.rest with
    | nil => rfl
    | cons c rest => simp_all [IStream.good]
  · next hgood => rw [if_neg hgood]

theorem optionBody_takes (h : ∀ s c, Local (turn s c)) : Takes (optionBody turn) := by
  intro s is s' is' his hb
  unfold optionBody at hb
  dsimp only at hb
  split_ifs at hb with h1 h2 h3
  have hsteady := (local_pair local_get his).1.steady
  have hturn := h s is.get.1 is.get.2 hsteady
  rcases hr : turn s is.get.1 is.get.2 with ⟨s₁, is₁⟩ | ⟨s₁, is₁⟩ | ⟨e, s₁⟩ <;> rw [hr] at hb hturn
  · simp only [Again.again.injEq] at hb
    rw [← hb.2]
    have hlength := length_get his (by simpa using h2)
    have hleft := hturn.1.length
    omega
  · exact absurd hb (by simp)
  · exact absurd hb (by simp)

theorem local_optionBody (h : ∀ s c, Local (turn s c)) (s : σ) : Local (optionBody turn s) := by
  have hend : Local fun is => (Again.stop (.done s is) : Again σ (Outcome σ)) := (local_done s).stop
  have hturn : ∀ c, Local fun is => match turn s c is with
      | .next s' is' => (Again.again s' is' : Again σ (Outcome σ))
      | .leave s' is' => .stop (.done s' is')
      | .throw e s' => .stop (.throw e s') := fun c =>
    (h s c).bindTurn (t := fun e s => Again.stop (.throw e s)) (fun _ _ => rfl) (fun s => local_again s)
      fun s => (local_done s).stop
  exact hend.ite_eof (local_get.bind fun c => hend.ite_eof (hend.ite (c = some 0) (hturn c)))

theorem local_optionList (h : ∀ s c, Local (turn s c)) (s : σ) : Local (optionList turn s) :=
  local_loop optionLoop_runsBody (local_optionBody h) (optionBody_takes h) s

/-- The option list gets to an option that is bad. -/
def ListMeets (turn : σ → Option UInt8 → IStream → Turn σ) (bad : σ → Option UInt8 → IStream → Prop) (s : σ)
    (is : IStream) : Prop :=
  ∃ s' is', Reaches (optionBody turn) s is s' is' ∧ bad s' is'.get.1 is'.get.2

/-- An option list throws exactly if it gets to an option whose turn throws. -/
theorem throws_optionList_iff (h : ∀ s c, Local (turn s c)) {bad : σ → Option UInt8 → IStream → Prop}
    (hbad : ∀ {s c is}, is.Steady → (Throws (turn s c is) ↔ bad s c is))
    (hknown : ∀ {s c is}, bad s c is → c ≠ none ∧ c ≠ some 0) (s : σ) {is : IStream} (his : is.Steady) :
    Throws (optionList turn s is) ↔ ListMeets turn bad s is := by
  refine (throws_loop_iff optionLoop_runsBody (local_optionBody h) (optionBody_takes h) _ s is his
    (Nat.lt_succ_self _)).trans (exists_congr fun s' => exists_congr fun is' => and_congr_right fun hreach => ?_)
  have his' := hreach.steady (local_optionBody h) his
  have hget := local_pair local_get his'
  have hdone : ∀ is, ¬Throws (Again.stop (.done s' is) : Again σ (Outcome σ)) := by
    rintro is ⟨e, he⟩
    exact absurd he (by simp [out])
  have hnone : is'.get.2.eof = true → ¬bad s' is'.get.1 is'.get.2 := fun he hb =>
    (hknown hb).1 (get_of_eof he)
  unfold optionBody
  dsimp only
  split_ifs with h1 h2 h3
  · exact iff_of_false (hdone _) (hnone (hget.1.eof h1))
  · exact iff_of_false (hdone _) (hnone h2)
  · exact iff_of_false (hdone _) fun hb => (hknown hb).2 h3
  · rw [← hbad hget.1.steady]
    rcases turn s' is'.get.1 is'.get.2 with ⟨s₁, is₁⟩ | ⟨s₁, is₁⟩ | ⟨e, s₁⟩ <;> rfl

/-- If every turn pays in bytes for what it adds to the state, so does a loop that ends before the end of its stream. -/
theorem cost_optionLoop (cost : σ → Nat) (h : ∀ s c, Local (turn s c))
    (hnext : ∀ {s s' c is is'}, is.Steady → turn s c is = .next s' is' → is'.eof = false →
      cost s' + is'.rest.length ≤ cost s + is.rest.length + 1)
    (hleave : ∀ {s s' c is is'}, is.Steady → turn s c is = .leave s' is' → is'.eof = false →
      cost s' + is'.rest.length ≤ cost s + is.rest.length)
    {n : Nat} {s s' : σ} {is is' : IStream} (his : is.Steady) (hloop : optionLoop turn n s is = .done s' is')
    (he : is'.eof = false) : cost s' + is'.rest.length + 1 ≤ cost s + is.rest.length := by
  induction n generalizing s is with
  | zero => exact absurd hloop (by simp [optionLoop])
  | succ n ih =>
    have hget := local_pair local_get his
    rw [optionLoop] at hloop
    dsimp only at hloop
    split_ifs at hloop with h1 h2 h3
    · obtain ⟨-, rfl⟩ := Outcome.done.inj hloop
      exact absurd (h1.symm.trans he) (by simp)
    · obtain ⟨-, rfl⟩ := Outcome.done.inj hloop
      exact absurd (h2.symm.trans he) (by simp)
    · obtain ⟨rfl, rfl⟩ := Outcome.done.inj hloop
      have hlength := length_get his (by simpa using h2)
      omega
    · have hlength := length_get his (by simpa using h2)
      have hturn := h s is.get.1 is.get.2 hget.1.steady
      cases ht : turn s is.get.1 is.get.2 with
      | throw e s₁ => rw [ht] at hloop; exact absurd hloop (by simp)
      | leave s₁ is₁ =>
        rw [ht] at hloop
        obtain ⟨rfl, rfl⟩ := Outcome.done.inj hloop
        have hpaid := hleave hget.1.steady ht he
        omega
      | next s₁ is₁ =>
        rw [ht] at hloop hturn
        have heof : is₁.eof = false := by
          by_contra hc
          rw [Bool.not_eq_false] at hc
          cases n with
          | zero => exact absurd hloop (by simp [optionLoop])
          | succ n =>
            dsimp only at hloop
            rw [optionLoop, if_pos hc] at hloop
            obtain ⟨-, rfl⟩ := Outcome.done.inj hloop
            exact absurd (hc.symm.trans he) (by simp)
        have hpaid := hnext hget.1.steady ht heof
        have hrest := ih hturn.1.steady hloop
        omega

end Options

end Lib
