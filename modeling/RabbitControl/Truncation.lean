import RabbitControl.LocalParsers
import RabbitControl.ParseFrame
import RabbitControl.Transporters

/-!
# Truncated messages

What becomes of a message that is cut short.  The readers of options leave their loops at the end of the stream and the
packet is accepted with what there is of it; it is rejected only if the cut falls between the options of the packet
itself (`rejected_iff_endsBetween`).
-/

namespace RabbitControl

open Lib IStream

section Loop

variable {σ : Type} {env : ParseEnv σ} {mem : Memory} {x x' : σ × Packet} {is is' : IStream} {q : Beyond}

/-- The stream has no bytes left, and nobody has noticed. -/
def Drained (is : IStream) : Prop := is.rest = [] ∧ is.eof = false

theorem drained_of_get (he : is.eof = false) (hg : is.get.2.eof = true) : Drained is := by
  refine ⟨?_, he⟩
  unfold IStream.get at hg
  split at hg
  · cases hr : is.rest with
    | nil => rfl
    | cons c rest => simp [hr, he] at hg
  · simp [he] at hg

/-- A packet whose next option is missing is rejected. -/
theorem rejected_of_reaches (hr : Reaches (packetBody env mem) x is x' is') (his : is.Steady)
    (hd : Drained is') (n : Nat)
    (hn : is.rest.length < n) : (packetLoop env mem n x is).state.verdict = .rejected := by
  induction hr generalizing n with
  | refl x is =>
    cases n with
    | zero => exact absurd hn (Nat.not_lt_zero _)
    | succ n =>
      have hgood := his.good hd.2
      have hget : is.get = (none, { is with eof := true, fail := true }) := by
        unfold IStream.get
        rw [if_pos hgood, hd.1]
      have hbody : packetBody env mem x is =
          .stop (.done ⟨x.1, some x.2, .rejected⟩ { is with eof := true, fail := true }) := by
        simp [packetBody, hd.2, hget]
      rw [packetLoop, runBody, hbody]
      rfl
  | @step x x₁ x' is is₁ is' hs hr ih =>
    cases n with
    | zero => exact absurd hn (Nat.not_lt_zero _)
    | succ n =>
      have hlocal : Local (packetBody env mem x) := local_packetBody x
      have hleft := hlocal is his
      rw [hs] at hleft
      have htake := packetBody_takes his hs
      rw [packetLoop, runBody, hs]
      exact ih hleft.1.steady hd n (by omega)

/-- A packet that is rejected, and accepted with more bytes behind it, misses its next option. -/
theorem reaches_of_rejected (n m : Nat) (his : is.Steady) (hn : is.rest.length < n)
    (hm : (is.append q).rest.length < m) (hrej : (packetLoop env mem n x is).state.verdict = .rejected)
    (hacc : (packetLoop env mem m x (is.append q)).state.verdict = .accepted) :
    ∃ x' is', Reaches (packetBody env mem) x is x' is' ∧ Drained is' := by
  induction n generalizing m x is with
  | zero => exact absurd hn (Nat.not_lt_zero _)
  | succ n ih =>
    obtain ⟨m, rfl⟩ : ∃ m', m = m' + 1 := Nat.exists_eq_succ_of_ne_zero (Nat.ne_of_gt (Nat.zero_lt_of_lt hm))
    have hbody : Local (packetBody env mem x) := local_packetBody x
    have hlocal := hbody is his
    rw [packetLoop, runBody] at hrej hacc
    cases hb : packetBody env mem x is with
    | again x₁ is₁ =>
      rw [hb] at hrej hlocal
      have htake := packetBody_takes his hb
      cases he : is₁.eof with
      | true =>
        -- at the end of the stream the packet is accepted as it is
        obtain ⟨n, rfl⟩ : ∃ n', n = n' + 1 := Nat.exists_eq_succ_of_ne_zero (by omega)
        dsimp only at hrej
        rw [runBody, packetBody, if_pos he] at hrej
        exact absurd hrej (by simp)
      | false =>
        have hlonger : packetBody env mem x (is.append q) = .again x₁ (is₁.append q) := hlocal.2 he q
        rw [hlonger] at hacc
        obtain ⟨x', is', hr, hd⟩ := ih m hlocal.1.steady (by omega)
          (by rw [length_append] at hm ⊢; omega) hrej hacc
        exact ⟨x', is', .step hb hr, hd⟩
    | stop r =>
      rw [hb] at hrej hlocal
      have hlonger : is.get.2.eof = false → r = .done ⟨x.1, some x.2, .rejected⟩ is.get.2 →
          packetBody env mem x (is.append q) = .stop (.done ⟨x.1, some x.2, .rejected⟩ (is.get.2.append q)) := by
        intro he hr
        rw [hr] at hlocal
        exact hlocal.2 he q
      unfold packetBody at hb
      dsimp only at hb
      split_ifs at hb with h1 h2 h3 h4 h5 h6 h7
      · rw [← Again.stop.inj hb] at hrej
        exact absurd hrej (by simp)
      · rw [← Again.stop.inj hb] at hrej
        exact absurd hrej (by simp)
      · have hsteady := (local_pair local_get his).1.steady
        have he : is.get.2.eof = true := by
          rcases Bool.or_eq_true_iff.mp h3 with h | h
          · exact h
          · exact hsteady h
        exact ⟨x, is, .refl x is, drained_of_get (by simpa using h1) he⟩
      · -- a second `DATA` option is met with more bytes behind it as well
        rw [hlonger (by simp_all) (Again.stop.inj hb).symm] at hacc
        exact absurd hacc (by simp)
      · cases hd : parseData env mem x.1 x.2 is.get.2 with
        | throw e s =>
          rw [hd] at hb
          rw [← Again.stop.inj hb] at hrej
          exact absurd hrej (by simp)
        | done s is => rw [hd] at hb; exact absurd hb (by simp)
      · rw [← Again.stop.inj hb] at hrej
        exact absurd hrej (by simp)

end Loop

/-! ### Messages -/

namespace Store

variable {s : Store} {ch : Chance} {p q : Bytes}

/-- The message has no command, or it ends before an option of the packet, the terminator included; an `UPDATEVALUE`
message ends before its datatype is complete. -/
def EndsBetween (s : Store) (ch : Chance) (p : Bytes) : Prop :=
  match commandOf p with
  | none => True
  | some .updateValue => p.length < 4
  | some c => ∃ x is, Reaches (packetBody storeEnv ch.mem) (s, { command := c }) (stream ch.junk p.tail) x is ∧ Drained is

/-- Without a complete datatype there is no value, and with one there is what can be read of it. -/
private theorem rejected_updateValue_iff (mem : Memory) (junk : Nat → UInt8) (p q : Bytes)
    (hacc : ∃ k, parseUpdateValue mem { rest := p ++ q, junk := junk } = .ok (some k)) :
    parseUpdateValue mem { rest := p, junk := junk } = .ok none ↔ p.length < 3 := by
  match p with
  | [] => exact iff_of_true rfl (by decide)
  | [a] => exact iff_of_true rfl (by simp)
  | [a, b] => exact iff_of_true rfl (by simp)
  | a :: b :: d :: rest =>
    refine iff_of_false (fun h => ?_) (by simp)
    obtain ⟨i, hread⟩ : ∃ i, ∀ l, readInt16 { rest := a :: b :: d :: l, junk := junk } =
        (i, { rest := d :: l, junk := junk }) :=
      ⟨(readInt16 { rest := [a, b], junk := junk }).1, fun _ => rfl⟩
    obtain ⟨k, hk⟩ := hacc
    have hget : ∀ l, ({ rest := d :: l, junk := junk } : IStream).get = (some d, { rest := l, junk := junk }) :=
      fun _ => rfl
    unfold parseUpdateValue at h hk
    dsimp only at h hk
    rw [hread, hget] at h
    rw [List.cons_append, List.cons_append, List.cons_append, hread, hget] at hk
    dsimp only [Option.bind_some] at h hk
    split at h
    · split at h <;> simp at h
    · next hno =>
      split at hk
      · next τ hτ => exact hno τ hτ
      · simp at hk

/-- A message that is accepted with more bytes behind it is rejected exactly if it ends between two options. -/
theorem rejected_iff_endsBetween (hacc : (s.parse ch (p ++ q)).verdict = .accepted) :
    (s.parse ch p).verdict = .rejected ↔ s.EndsBetween ch p := by
  rw [verdict_parse] at hacc ⊢
  cases p with
  | nil => exact iff_of_true rfl trivial
  | cons c p =>
    rw [List.cons_append] at hacc
    have hget : ∀ l, (stream ch.junk (c :: l)).get = (some c, stream ch.junk l) := fun _ => rfl
    unfold parsePacket at hacc ⊢
    dsimp only at hacc ⊢
    rw [hget] at hacc ⊢
    dsimp only [Option.bind_some] at hacc ⊢
    unfold EndsBetween
    rw [commandOf, List.head?_cons, Option.bind_some]
    cases hc : Command.ofCode c with
    | none => rw [hc] at hacc; exact absurd hacc (by simp)
    | some command =>
      rw [hc] at hacc
      have hloop : ∀ c' : Command,
          (parsePacketOptions storeEnv ch.mem ((stream ch.junk (p ++ q)).rest.length + 1) s { command := c' }
            (stream ch.junk (p ++ q))).verdict = .accepted →
          ((parsePacketOptions storeEnv ch.mem ((stream ch.junk p).rest.length + 1) s { command := c' }
            (stream ch.junk p)).verdict = .rejected ↔
            ∃ x is, Reaches (packetBody storeEnv ch.mem) (s, { command := c' }) (stream ch.junk p) x is ∧
              Drained is) := by
        intro c' hacc
        rw [← state_packetLoop _ (s, _)] at hacc ⊢
        constructor
        · intro hrej
          exact reaches_of_rejected (q := ⟨q, ch.junk⟩) _ _ (steady_stream _ _) (Nat.lt_succ_self _) (Nat.lt_succ_self _) hrej hacc
        · rintro ⟨x, is, hr, hd⟩
          exact rejected_of_reaches hr (steady_stream _ _) hd _ (Nat.lt_succ_self _)
      cases command with
      | updateValue =>
        dsimp only at hacc ⊢
        have hsome : ∃ k, parseUpdateValue ch.mem (stream ch.junk (p ++ q)) = .ok (some k) := by
          split at hacc
          · exact absurd hacc (by simp)
          · exact absurd hacc (by simp)
          · next k hk => exact ⟨k, hk⟩
        have hlength : (c :: p).length < 4 ↔ p.length < 3 := Nat.succ_lt_succ_iff
        rw [hlength, ← rejected_updateValue_iff ch.mem ch.junk p q hsome]
        change _ ↔ parseUpdateValue ch.mem (stream ch.junk p) = _
        rcases parseUpdateValue ch.mem (stream ch.junk p) with e | _ | k <;> simp
      | info | init | discover | update | remove => exact hloop _ hacc

/-- The message is rejected, and reading it has changed nothing. -/
def Discards (s : Store) (ch : Chance) (p : Bytes) : Prop :=
  (s.parse ch p).verdict = .rejected ∧ Unchanged s (s.parse ch p).state

/-- The parameter that can be read of the message has not left a group that has a child under its id. -/
def LeavesNothing (s : Store) (ch : Chance) (p : Bytes) : Prop :=
  ∀ k, (s.dryParse ch p).packet.bind Packet.parameter = some k → ∀ g ∈ (s.dryParse ch p).state,
    k.parameterId ∉ s.children g

/-- A message that is cut short is discarded exactly if the cut falls between two options and no group has been left. -/
theorem discards_iff (hs : s.Allocated) (hacc : (s.parse ch (p ++ q)).verdict = .accepted) :
    s.Discards ch p ↔ s.EndsBetween ch p ∧ s.LeavesNothing ch p :=
  and_congr (rejected_iff_endsBetween hacc) (parse_unchanged_iff hs ch p)

/-- A `REMOVE` message for parameter 1. -/
def removeFirst : Bytes := [5, 18, 0, 1, 0]

theorem discards_removeFirst : (empty {}).Discards ⟨{}, fun _ => 0⟩ (removeFirst.take 1) := by
  refine (discards_iff (q := removeFirst.drop 1) (fun h => absurd h (by simp [empty])) (by decide)).mpr
    ⟨⟨_, _, .refl _ _, rfl, rfl⟩, ?_⟩
  intro k hk
  have hnone : ((empty {}).dryParse ⟨{}, fun _ => 0⟩ (removeFirst.take 1)).packet.bind Packet.parameter = none := rfl
  rw [hnone] at hk
  exact absurd hk (by simp)

/-- Cut in the middle of its id, the message is accepted. -/
theorem removeFirst_not_discarded :
    ¬∀ p q : Bytes, q ≠ [] → ((empty {}).parse ⟨{}, fun _ => 0⟩ (p ++ q)).verdict = .accepted →
      (((empty {}).parse ⟨{}, fun _ => 0⟩ (p ++ q)).packet.bind Packet.data).isSome →
      ((empty {}).left ⟨{}, fun _ => 0⟩ (p ++ q)).rest = [] → (empty {}).Discards ⟨{}, fun _ => 0⟩ p := by
  intro h
  have hcut := (h (removeFirst.take 2) (removeFirst.drop 2) (by decide) (by decide) (by decide) (by decide)).1
  exact absurd hcut (by decide)

end Store

end RabbitControl
