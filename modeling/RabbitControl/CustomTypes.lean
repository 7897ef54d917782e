import RabbitControl.Lib.GetLine
import RabbitControl.DefinitionRoundTrip
import RabbitControl.PacketId

/-!
# Definitions of custom types

The reader of custom type definitions (`type_custom.h`) takes an uuid or a config with `get(s, n)`, which stops at a
newline and one byte before the end of the buffer.  It never ends if there is nothing to extract (`ends_iff`), and of
what the writer emits it brings back the default value but never an uuid or a config (`roundTrips_iff`).
-/

namespace RabbitControl

open Lib

namespace CustomDefinition

variable {n : Nat}

/-! ### Termination -/

/-- The reader gets to an uuid or a config of which `get(s, n)` extracts nothing before the end of the stream.  The
first argument bounds the number of options. -/
def stalls (n : Nat) : Nat → Bytes → Bool
  | 0, _ => false
  | _ + 1, [] => false
  | k + 1, c :: l =>
    if c = 0 then false
    else if c = 48 then decide (n ≤ l.length) && stalls n k (l.drop n)
    else if c = 49 then l.head? == some 10 || stalls n k (l.drop (line 16 l).length)
    else if c = 50 then
      let size := decodeBE (l.take 4)
      let data := l.drop 4
      decide (4 ≤ l.length) &&
        (decide (size ≤ 1) || data.head? == some 10 || stalls n k (data.drop (line size data).length))
    else stalls n k l

/-- `parseOptions` comes to an end after some number of options. -/
def Ends (d : CustomDefinition n) (junk : Nat → UInt8) (data : Bytes) : Prop :=
  ∃ m d' is', optionLoop parseOption m d { rest := data, junk := junk } = .done d' is'

theorem parseOption_none (d : CustomDefinition n) (is : IStream) : d.parseOption none is = .next d is := rfl

@[simp] theorem stalls_nil (k : Nat) : stalls n k [] = false := by cases k <;> rfl

theorem readVector_of_le {l : Bytes} (junk : Nat → UInt8) (h : n ≤ l.length) :
    ∃ v, readVector n { rest := l, junk := junk } = .ok (v, { rest := l.drop n, junk := junk }) := by
  have hread : ({ rest := l, junk := junk } : IStream).readInto n = (l.take n, { rest := l.drop n, junk := junk }) := by
    have hlen : (l.take n).length = n := by rw [List.length_take]; omega
    have happ : ({ rest := l.take n ++ l.drop n, junk := junk } : IStream).readInto (l.take n).length =
        (l.take n, { rest := l.drop n, junk := junk }) := IStream.readInto_append _
    rwa [hlen, List.take_append_drop] at happ
  exact ⟨_, by rw [readVector, hread]⟩

theorem eof_readVector {l : Bytes} (junk : Nat → UInt8) (h : l.length < n) :
    ∃ v is, readVector n { rest := l, junk := junk } = .ok (v, is) ∧ is.eof = true := by
  refine ⟨_, _, rfl, ?_⟩
  simp [IStream.readInto, IStream.read, IStream.good, Nat.not_le.mpr h]

/-- The loop over a definition ends. -/
private def Done (m : Nat) (d : CustomDefinition n) (is : IStream) : Prop :=
  ∃ d' is', optionLoop parseOption m d is = .done d' is'

private theorem done_of_eof {m : Nat} (hm : 0 < m) (d : CustomDefinition n) {is : IStream} (h : is.eof = true) :
    Done m d is := ⟨_, _, optionLoop_of_eof hm d h⟩

private theorem not_done_of_fail {m : Nat} (d : CustomDefinition n) {is : IStream} (hf : is.fail = true)
    (he : is.eof = false) : ¬Done m d is := by
  rintro ⟨d', is', h⟩
  rw [optionLoop_stuck parseOption_none m d hf he] at h
  exact absurd h (by simp)

/-- After a line the loop goes on with what follows, unless nothing was extracted. -/
private theorem done_getLine_iff {k m : Nat} (hm : 0 < m) (d : CustomDefinition n) (size : Nat) {l : Bytes}
    {junk : Nat → UInt8}
    (ih : ∀ junk, Done m d { rest := l.drop (line size l).length, junk := junk } ↔
      stalls n k (l.drop (line size l).length) = false) :
    Done m d (({ rest := l, junk := junk } : IStream).getLine size).2 ↔
      (decide (size ≤ 1) || l.head? == some 10 || stalls n k (l.drop (line size l).length)) = false := by
  by_cases hsize : size ≤ 1
  · -- there is no room for a character
    have hle := length_line_le size l
    have hnil : line size l = [] := List.length_eq_zero_iff.mp (by omega)
    rw [decide_eq_true hsize, Bool.true_or, Bool.true_or]
    refine iff_of_false ?_ (by simp)
    by_cases hl : l = []
    · obtain ⟨he, -, hf⟩ := eof_getLine (show l.drop (line size l).length = [] by rw [hnil, hl]; rfl)
      rw [hnil] at he hf
      exact not_done_of_fail d hf (he.trans (decide_eq_false (by simp; omega)))
    · rw [getLine_good (by rw [hnil]; exact hl), hnil]
      exact not_done_of_fail d rfl rfl
  rw [decide_eq_false hsize, Bool.false_or]
  by_cases hhead : l.head? = some 10
  · -- a newline is not extracted
    have hnil := line_of_head size hhead
    have hl : l ≠ [] := fun hl => by simp [hl] at hhead
    rw [hhead, getLine_good (by rw [hnil]; exact hl), hnil]
    exact iff_of_false (not_done_of_fail d rfl rfl) (by simp)
  rw [beq_eq_false_iff_ne.mpr hhead, Bool.false_or]
  by_cases hend : l.drop (line size l).length = []
  · -- the end of the stream ends the loop, now or at the next option
    obtain ⟨he, hr, hf⟩ := eof_getLine hend
    rw [hend, stalls_nil, iff_true_right rfl]
    by_cases hlt : (line size l).length < size - 1
    · exact done_of_eof hm d (he.trans (decide_eq_true hlt))
    · have hne : line size l ≠ [] := fun hnil => by rw [hnil] at hlt; simp at hlt; omega
      exact exists_done_of_nil hm d hr (hf.trans (by simpa using hne))
  · have hne : line size l ≠ [] := line_ne_nil (by omega) (fun hl => hend (by simp [hl])) hhead
    have hfail : (line size l).isEmpty = false := by simpa using hne
    rw [getLine_good hend, hfail]
    exact ih _

private theorem done_iff (k : Nat) {l : Bytes} {junk : Nat → UInt8} (d : CustomDefinition n) {m : Nat}
    (hk : l.length ≤ k) (hm : l.length < m) :
    Done m d { rest := l, junk := junk } ↔ stalls n k l = false := by
  induction k generalizing l d m junk with
  | zero =>
    obtain rfl : l = [] := List.length_eq_zero_iff.mp (by omega)
    simp only [stalls, iff_true]
    exact exists_done_of_nil hm d rfl rfl
  | succ k ih =>
    cases l with
    | nil =>
      simp only [stalls, iff_true]
      exact exists_done_of_nil hm d rfl rfl
    | cons c l =>
      rw [List.length_cons] at hk hm
      obtain ⟨m, rfl⟩ : ∃ j, m = j + 1 := ⟨m - 1, by omega⟩
      have hrest : ∀ (l' : Bytes) (d' : CustomDefinition n) (junk' : Nat → UInt8), l'.length ≤ l.length →
          (Done m d' { rest := l', junk := junk' } ↔ stalls n k l' = false) := fun l' d' junk' h =>
        ih d' (by omega) (by omega)
      have hnext : ∀ {d' : CustomDefinition n} {is' : IStream} (_ : c ≠ 0),
          d.parseOption (some c) { rest := l, junk := junk } = .next d' is' →
          (Done (m + 1) d { rest := c :: l, junk := junk } ↔ Done m d' is') := fun hc h => by
        rw [Done, Done, optionLoop_next hc m h]
      by_cases h0 : c = 0
      · subst h0
        simp only [stalls, if_pos, iff_true]
        exact ⟨_, _, rfl⟩
      rw [stalls, if_neg h0]
      by_cases h48 : c = 48
      · subst h48
        rw [if_pos rfl]
        by_cases hn : n ≤ l.length
        · obtain ⟨v, hv⟩ := readVector_of_le junk hn
          rw [decide_eq_true hn, Bool.true_and, hnext h0 (by rw [parseOption, readOption, hv]; rfl)]
          exact hrest _ _ _ (by rw [List.length_drop]; omega)
        · obtain ⟨v, is, hv, his⟩ := eof_readVector junk (Nat.lt_of_not_le hn)
          rw [decide_eq_false hn, Bool.false_and,
            hnext h0 (by rw [parseOption, readOption, hv]; dsimp only; rw [if_pos his])]
          simp only [iff_true]
          exact done_of_eof (by omega) d his
      rw [if_neg h48]
      by_cases h49 : c = 49
      · subst h49
        have hturn : ∃ d', d.parseOption (some 49) { rest := l, junk := junk } =
            .next d' (({ rest := l, junk := junk } : IStream).getLine 16).2 := by
          rw [parseOption, readOption, readUuid]
          dsimp only
          split
          · exact ⟨_, rfl⟩
          · exact ⟨_, rfl⟩
        obtain ⟨d', hturn⟩ := hturn
        rw [if_pos rfl, hnext h0 hturn, done_getLine_iff (by omega) d' 16 fun junk' =>
          hrest _ _ junk' (by rw [List.length_drop]; omega)]
        rfl
      rw [if_neg h49]
      by_cases h50 : c = 50
      · subst h50
        rw [if_pos rfl]
        by_cases h4 : 4 ≤ l.length
        · have hturn : ∃ d', d.parseOption (some 50) { rest := l, junk := junk } =
              .next d' (({ rest := l.drop 4, junk := junk } : IStream).getLine (decodeBE (l.take 4))).2 := by
            have hsize : ({ rest := l, junk := junk } : IStream).readBE 4 =
              (decodeBE (l.take 4), { rest := l.drop 4, junk := junk }) := readBE_stream h4
            rw [parseOption, hsize]
            dsimp only
            rw [if_neg (by simp)]
            split
            · exact ⟨_, rfl⟩
            · exact ⟨_, rfl⟩
          obtain ⟨d', hturn⟩ := hturn
          rw [hnext h0 hturn, decide_eq_true h4, Bool.true_and]
          exact done_getLine_iff (by omega) d' _ fun junk' =>
            hrest _ _ junk' (by rw [List.length_drop, List.length_drop]; omega)
        · have his : (({ rest := l, junk := junk } : IStream).readBE 4).2.eof = true :=
            eof_readBE_stream (Nat.lt_of_not_le h4)
          have hturn : d.parseOption (some 50) { rest := l, junk := junk } =
              .next d (({ rest := l, junk := junk } : IStream).readBE 4).2 := by
            rw [parseOption]
            dsimp only
            rw [if_pos his]
          rw [hnext h0 hturn, decide_eq_false h4, Bool.false_and]
          simp only [iff_true]
          exact done_of_eof (by omega) d his
      have hturn : d.parseOption (some c) { rest := l, junk := junk } = .next d { rest := l, junk := junk } := by
        unfold parseOption
        split <;> simp_all
      rw [if_neg h50, hnext h0 hturn]
      exact hrest l d junk le_rfl

/-- The reader of a custom type comes to an end exactly if it does not get to an uuid or a config that begins with a
newline, nor to a config of at most one byte. -/
theorem ends_iff (d : CustomDefinition n) (junk : Nat → UInt8) (data : Bytes) :
    d.Ends junk data ↔ stalls n data.length data = false := by
  constructor
  · rintro ⟨m, d', is', h⟩
    have hmore := optionLoop_mono (Nat.le_add_right m (data.length + 1)) h
    exact (done_iff data.length d le_rfl (by omega)).mp ⟨d', is', hmore⟩
  · intro h
    exact ⟨_, (done_iff data.length d le_rfl (Nat.lt_succ_self _)).mpr h⟩

/-! ### Round trip -/

/-- Whatever memory holds, a fresh definition reads what follows the mandatory part of the bytes of `d` to their end and
brings back every option that was written. -/
def RoundTrips (all : Bool) (d : CustomDefinition n) : Prop :=
  ∃ body, (@TypeDefinition.write all (.custom n) d).1.bytes = ValueType.mandatory (.custom n) ++ body ∧
    ∀ junk, ∃ d' is', (TypeDefinition.make {} (.custom n)).parseOptions { rest := body, junk := junk } =
      .done d' is' ∧ is'.rest = [] ∧ d.Returned all d'

theorem bytes_write (all : Bool) (d : CustomDefinition n) :
    (@TypeDefinition.write all (.custom n) d).1.bytes =
      ValueType.mandatory (.custom n) ++ (fieldBytes (d.write all).1 ++ [0]) := by
  simp [TypeDefinition.write, DefinitionBody.bytes, ValueType.mandatory]

/-- A default value that is written is read back. -/
theorem consumes_default (all : Bool) (d : CustomDefinition n) :
    Consumes parseOption ({} : CustomDefinition n)
      (fieldBytes (d.defaultValue.write .default Vector.toList (List.replicate n 0) all).1)
      { ({} : CustomDefinition n) with
        defaultValue :=
          ({} : CustomDefinition n).defaultValue.receive (d.defaultValue.sent all (Vector.replicate n 0)) } :=
  Slot.consumes_write (fun x => { ({} : CustomDefinition n) with defaultValue := x }) rfl (fun _ => rfl) (by simp)
    fun v _ => reads_vector v

theorem toList_ofFn_getD {l : Bytes} (h : l.length = n) : (Vector.ofFn fun i : Fin n => l.getD i 0).toList = l := by
  refine List.ext_getElem (by simp [h]) fun i h1 h2 => ?_
  simp [List.getD, List.getElem?_eq_getElem h2]

/-- The uuid that a run leaves is the one it started with or a line, and so is the config, unless it is empty. -/
private theorem lines_of_run {b : UInt8} {m : Nat} {d d' : CustomDefinition n} {is is' : IStream}
    (hb : ∀ k, is.junk k = b) (h : optionLoop parseOption m d is = .done d' is') :
    (d'.uuid.content = d.uuid.content ∨ Line b 16 d'.uuid.content.toList) ∧
      (d'.config.content = d.config.content ∨ d'.config.content = [] ∨
        Line b d'.config.content.length d'.config.content) := by
  let I := fun (e : CustomDefinition n) (is : IStream) => (∀ k, is.junk k = b) ∧
    (e.uuid.content = d.uuid.content ∨ Line b 16 e.uuid.content.toList) ∧
      (e.config.content = d.config.content ∨ e.config.content = [] ∨ Line b e.config.content.length e.config.content)
  have hkeeps : I d' is' := by
    refine optionLoop_keeps (I := I) (fun h => ⟨junk_get h.1, h.2⟩) (fun {e c is e' is'} h hturn => ?_)
      ⟨hb, Or.inl rfl, Or.inl rfl⟩ h
    obtain ⟨hj, hu, hc⟩ := h
    unfold parseOption at hturn
    split at hturn
    · unfold readOption readVector at hturn
      dsimp only at hturn
      split at hturn
      all_goals
        rcases hturn with hturn | hturn
        · obtain ⟨rfl, rfl⟩ := Turn.next.inj hturn
          exact ⟨junk_readInto hj _, hu, hc⟩
        · exact absurd hturn (by simp)
    · unfold readOption readUuid at hturn
      dsimp only at hturn
      have hline := line_getLine (n := 16) (by decide) hj
      split at hturn
      all_goals rcases hturn with hturn | hturn
      · obtain ⟨rfl, rfl⟩ := Turn.next.inj hturn
        exact ⟨junk_getLine hj _, hu, hc⟩
      · exact absurd hturn (by simp)
      · obtain ⟨rfl, rfl⟩ := Turn.next.inj hturn
        refine ⟨junk_getLine hj _, Or.inr ?_, hc⟩
        show Line b 16 (Vector.ofFn _).toList
        rwa [toList_ofFn_getD hline.length]
      · exact absurd hturn (by simp)
    · dsimp only at hturn
      have hjunk : ∀ k, (is.readBE 4).2.junk k = b := junk_readInto hj 4
      split at hturn
      · rcases hturn with hturn | hturn
        · obtain ⟨rfl, rfl⟩ := Turn.next.inj hturn
          exact ⟨hjunk, hu, hc⟩
        · exact absurd hturn (by simp)
      split at hturn
      all_goals rcases hturn with hturn | hturn
      · obtain ⟨rfl, rfl⟩ := Turn.next.inj hturn
        exact ⟨junk_getLine hjunk _, hu, hc⟩
      · exact absurd hturn (by simp)
      · obtain ⟨rfl, rfl⟩ := Turn.next.inj hturn
        refine ⟨junk_getLine hjunk _, hu, Or.inr ?_⟩
        show ((is.readBE 4).2.getLine (is.readBE 4).1).1 = [] ∨
          Line b ((is.readBE 4).2.getLine (is.readBE 4).1).1.length ((is.readBE 4).2.getLine (is.readBE 4).1).1
        rcases Nat.eq_zero_or_pos (is.readBE 4).1 with h0 | hpos
        · exact Or.inl (by rw [h0, IStream.getLine]; split <;> rfl)
        · have hline := line_getLine hpos hjunk
          exact Or.inr (by rwa [hline.length])
      · exact absurd hturn (by simp)
    · rcases hturn with hturn | hturn
      · obtain ⟨rfl, rfl⟩ := Turn.next.inj hturn
        exact ⟨hj, hu, hc⟩
      · exact absurd hturn (by simp)
  exact hkeeps.2

/-- A line that is read as a whole leaves its zero in the stream, which ends the option list there. -/
private theorem rest_ne_nil_of_line {l more : Bytes} {b : UInt8} {m j : Nat} {e d' : CustomDefinition n} {is' : IStream}
    {junk : Nat → UInt8} (hl : Line b m l) (hb : l.getLast? ≠ some b) (hmore : more ≠ []) (hj : 0 < j)
    (hne : line m (l ++ more) ≠ [])
    (h : optionLoop parseOption j e
      { rest := (l ++ more).drop (line m (l ++ more)).length, fail := (line m (l ++ more)).isEmpty, junk := junk } =
        .done d' is') : is'.rest ≠ [] := by
  obtain ⟨got, hlen, h10, rfl⟩ := hl.whole hb
  obtain ⟨j, rfl⟩ : ∃ i, j = i + 1 := ⟨j - 1, by omega⟩
  have hfail : (line m (got ++ [0] ++ more)).isEmpty = false := by simpa using hne
  have hline : line m (got ++ [0] ++ more) = got := by rw [List.append_assoc, line_append hlen h10]
  have hdrop : (got ++ [0] ++ more).drop got.length = 0 :: more := by rw [List.append_assoc, List.drop_left]; rfl
  have hdone : optionLoop parseOption (j + 1) e { rest := 0 :: more, junk := junk } =
      .done e { rest := more, junk := junk } := rfl
  rw [hfail, hline, hdrop, hdone] at h
  obtain ⟨-, rfl⟩ := Outcome.done.inj h
  exact hmore

/-- Of what begins with a line to be read, a character is extracted, or else the loop does not end. -/
private theorem line_ne_nil_of_done {l : Bytes} {m j : Nat} {e d' : CustomDefinition n} {is' : IStream}
    {junk : Nat → UInt8} {rest : Bytes}
    (h : optionLoop parseOption j e { rest := rest, fail := (line m l).isEmpty, junk := junk } = .done d' is') :
    line m l ≠ [] := by
  intro hnil
  rw [hnil, optionLoop_stuck parseOption_none j e rfl rfl] at h
  exact absurd h (by simp)

/-- An uuid that is written does not come back, or not all bytes are read, if memory does not hold its last byte. -/
private theorem not_restores_uuid {d' : CustomDefinition n} {u : Vector UInt8 16} {more : Bytes} (hmore : more ≠ [])
    {b : UInt8} (hb : u.toList.getLast? ≠ some b) {m : Nat} {e : CustomDefinition n} {is' : IStream} (hm : 1 < m)
    (h : optionLoop parseOption m e { rest := 49 :: (u.toList ++ more), junk := fun _ => b } = .done d' is')
    (hrest : is'.rest = []) : d'.uuid.content ≠ u := by
  intro hu
  obtain ⟨j, rfl⟩ : ∃ i, m = i + 1 := ⟨m - 1, by omega⟩
  have hdrop : (u.toList ++ more).drop (line 16 (u.toList ++ more)).length ≠ [] := by
    have hle := length_line_le 16 (u.toList ++ more)
    have hlen : u.toList.length = 16 := by simp
    intro hd
    have hd := List.length_eq_zero_iff.mpr hd
    rw [List.length_drop, List.length_append] at hd
    omega
  have hline : Line b 16 (({ rest := u.toList ++ more, junk := fun _ => b } : IStream).getLine 16).1 :=
    line_getLine (by decide) fun _ => rfl
  have hturn : e.parseOption (some 49) { rest := u.toList ++ more, junk := fun _ => b } =
      .next
        { e with
          uuid := e.uuid.fill (Vector.ofFn fun i =>
            (({ rest := u.toList ++ more, junk := fun _ => b } : IStream).getLine 16).1.getD i 0) }
        (({ rest := u.toList ++ more, junk := fun _ => b } : IStream).getLine 16).2 := by
    have heof : (({ rest := u.toList ++ more, junk := fun _ => b } : IStream).getLine 16).2.eof = false := by
      rw [getLine_good hdrop]
    rw [parseOption, readOption, readUuid]
    dsimp only
    rw [if_neg (by rw [heof]; simp)]
  rw [optionLoop_next (by decide) j hturn] at h
  have hwhole : Line b 16 u.toList := by
    rw [← hu]
    rcases (lines_of_run (junk_getLine (fun _ => rfl) 16) h).1 with hsame | hl
    · rw [hsame]
      show Line b 16 (Vector.ofFn _).toList
      rwa [toList_ofFn_getD hline.length]
    · exact hl
  rw [getLine_good hdrop] at h
  exact rest_ne_nil_of_line hwhole hb hmore (by omega) (line_ne_nil_of_done h) h hrest

/-- Neither does a config. -/
private theorem not_restores_config {d' : CustomDefinition n} {c more : Bytes} (hmore : more ≠ [])
    (hc : c.length < 4294967296) {b : UInt8} (hb : c.getLast? ≠ some b) {m : Nat} {e : CustomDefinition n}
    {is' : IStream} (hm : 1 < m)
    (h : optionLoop parseOption m e { rest := 50 :: (encodeBE 4 c.length ++ (c ++ more)), junk := fun _ => b } =
      .done d' is') (hrest : is'.rest = []) : d'.config.content ≠ c := by
  intro hu
  obtain ⟨j, rfl⟩ : ∃ i, m = i + 1 := ⟨m - 1, by omega⟩
  have hdrop : (c ++ more).drop (line c.length (c ++ more)).length ≠ [] := by
    have hle := length_line_le c.length (c ++ more)
    have hpos := List.length_pos_iff.mpr hmore
    intro hd
    have hd := List.length_eq_zero_iff.mpr hd
    rw [List.length_drop, List.length_append] at hd
    omega
  have hturn : e.parseOption (some 50) { rest := encodeBE 4 c.length ++ (c ++ more), junk := fun _ => b } =
      .next
        { e with
          config := e.config.fill (({ rest := c ++ more, junk := fun _ => b } : IStream).getLine c.length).1 }
        (({ rest := c ++ more, junk := fun _ => b } : IStream).getLine c.length).2 := by
    have heof : (({ rest := c ++ more, junk := fun _ => b } : IStream).getLine c.length).2.eof = false := by
      rw [getLine_good hdrop]
    rw [parseOption, IStream.readBE_encodeBE, Nat.mod_eq_of_lt (by simpa using hc)]
    dsimp only
    rw [if_neg (by simp), if_neg (by rw [heof]; simp)]
  rw [optionLoop_next (by decide) j hturn] at h
  have hne := line_ne_nil_of_done (l := c ++ more) (m := c.length) (by rwa [getLine_good hdrop] at h)
  have hpos : 0 < c.length := by
    refine Nat.pos_of_ne_zero fun h0 => hne (List.length_eq_zero_iff.mp ?_)
    have hle := length_line_le c.length (c ++ more)
    omega
  have hline : Line b c.length (({ rest := c ++ more, junk := fun _ => b } : IStream).getLine c.length).1 :=
    line_getLine hpos fun _ => rfl
  have hwhole : Line b c.length c := by
    rcases (lines_of_run (junk_getLine (fun _ => rfl) c.length) h).2 with hsame | hnil | hl
    · rw [hu] at hsame
      conv_rhs => rw [hsame]
      exact hline
    · rw [hu] at hnil
      rw [hnil] at hpos
      simp at hpos
    · rwa [hu] at hl
  rw [getLine_good hdrop] at h
  exact rest_ne_nil_of_line hwhole hb hmore (by omega) hne h hrest

theorem fieldBytes_uuid (all : Bool) (s : Slot (Vector UInt8 16)) :
    fieldBytes (s.write .uuid Vector.toList s.content.toList all).1 =
      if s.has && all || s.changed then 49 :: s.content.toList else [] := by
  obtain ⟨has, content, changed⟩ := s
  cases has <;> cases changed <;> cases all <;> simp [Slot.write, writeOption, fieldBytes, Field.bytes, OptionId.code]

theorem fieldBytes_config (all : Bool) (c : Block UInt8) :
    fieldBytes (c.write .config (fun c => encodeBE 4 c.length ++ c) (encodeBE 4 0) all).1 =
      if c.has && all || c.changed then 50 :: (encodeBE 4 c.content.length ++ c.content) else [] := by
  have hnil : c.has = false → c.content = [] := fun h => by simpa [Block.has] using h
  cases hhas : c.has with
  | false =>
    rw [hnil hhas]
    cases hc : c.changed <;> simp [Block.write, writeOption, fieldBytes, Field.bytes, OptionId.code, hhas, hc]
  | true =>
    cases hc : c.changed <;> cases all <;>
      simp [Block.write, writeOption, fieldBytes, Field.bytes, OptionId.code, hhas, hc]

theorem exists_ne_getLast (l : Bytes) : ∃ b, l.getLast? ≠ some b := by
  cases l.getLast? with
  | none => exact ⟨0, by simp⟩
  | some c =>
    refine ⟨c + 1, fun h => ?_⟩
    have hc : c = c + 1 := Option.some.inj h
    simp at hc

/-- A custom type definition comes back exactly if neither its uuid nor its config is written. -/
theorem roundTrips_iff (all : Bool) (d : CustomDefinition n) (hsize : d.config.content.length < 4294967296) :
    d.RoundTrips all ↔
      (d.uuid.has && all || d.uuid.changed) = false ∧ (d.config.has && all || d.config.changed) = false := by
  have hbytes : fieldBytes (d.write all).1 ++ [0] =
      fieldBytes (d.defaultValue.write .default Vector.toList (List.replicate n 0) all).1 ++
        ((if d.uuid.has && all || d.uuid.changed then 49 :: d.uuid.content.toList else []) ++
          ((if d.config.has && all || d.config.changed then
            50 :: (encodeBE 4 d.config.content.length ++ d.config.content) else []) ++ [0])) := by
    rw [write]
    simp only [fieldBytes_append, fieldBytes_uuid, fieldBytes_config, List.append_assoc]
  have hdefault := consumes_default all d
  constructor
  · rintro ⟨body, hbody, hrun⟩
    obtain rfl := List.append_cancel_left ((bytes_write all d).symm.trans hbody)
    rw [hbytes] at hrun
    have hstart : ∀ (tail : Bytes) (junk : Nat → UInt8), ∃ m, tail.length < m ∧
        (TypeDefinition.make {} (.custom n)).parseOptions
          { rest := fieldBytes (d.defaultValue.write .default Vector.toList (List.replicate n 0) all).1 ++ tail,
            junk := junk } =
          optionLoop parseOption m _ { rest := tail, junk := junk } := fun tail junk => by
      obtain ⟨m, hm, hloop⟩ := hdefault tail junk _ (Nat.lt_succ_self _)
      refine ⟨m, hm, ?_⟩
      rw [← hloop, ← List.length_append]
      rfl
    have huuid : (d.uuid.has && all || d.uuid.changed) = false := by
      by_contra hflag
      rw [Bool.not_eq_false] at hflag
      rw [if_pos hflag] at hrun
      obtain ⟨b, hb⟩ := exists_ne_getLast d.uuid.content.toList
      obtain ⟨d', is', hdone, hrest, hreturned⟩ := hrun fun _ => b
      obtain ⟨m, hm, hloop⟩ := hstart _ fun _ => b
      rw [hloop, List.cons_append] at hdone
      refine not_restores_uuid (by simp) hb (by simp at hm; omega) hdone hrest ?_
      have hsent : d.uuid.sent all d.uuid.content = some d.uuid.content := by
        unfold Slot.sent
        cases hh : d.uuid.has <;> cases hc : d.uuid.changed <;> simp_all
      have hget := hreturned.uuid.trans hsent
      unfold Slot.get? at hget
      split at hget
      · exact Option.some.inj hget
      · exact absurd hget (by simp)
    refine ⟨huuid, ?_⟩
    by_contra hflag
    rw [Bool.not_eq_false] at hflag
    rw [if_neg (by rw [huuid]; simp), if_pos hflag, List.nil_append] at hrun
    obtain ⟨b, hb⟩ := exists_ne_getLast d.config.content
    obtain ⟨d', is', hdone, hrest, hreturned⟩ := hrun fun _ => b
    obtain ⟨m, hm, hloop⟩ := hstart _ fun _ => b
    rw [hloop, List.cons_append, List.append_assoc] at hdone
    refine not_restores_config (by simp) hsize hb (by simp at hm; omega) hdone hrest ?_
    rw [hreturned.config, if_pos]
    cases hh : d.config.has <;> cases hc : d.config.changed <;> simp_all
  · rintro ⟨huuid, hconfig⟩
    rw [huuid, hconfig, if_neg (by simp), if_neg (by simp), List.nil_append, List.nil_append] at hbytes
    refine ⟨_, bytes_write all d, fun junk => ?_⟩
    rw [hbytes]
    refine ⟨_, _, optionList_of_consumes hdefault [] junk, rfl, ⟨Slot.get?_receive rfl _, ?_, ?_⟩⟩
    · show none = _
      unfold Slot.sent
      cases hh : d.uuid.has <;> cases hc : d.uuid.changed <;> simp_all
    · have hnil : d.config.has = false → d.config.content = [] := fun h => by simpa [Block.has] using h
      show [] = _
      cases hh : d.config.has <;> cases hc : d.config.changed <;> simp_all

/-! ### Both together -/

/-- The reader of the custom types of `n` bytes ends unless it gets to an uuid or a config that begins with a newline or
to a config of at most one byte, and it brings back what the writer emits unless that holds an uuid or a config. -/
theorem custom_iff (n : Nat) :
    (∀ (d : CustomDefinition n) junk data, d.Ends junk data ↔ stalls n data.length data = false) ∧
      ∀ all (d : CustomDefinition n), d.config.content.length < 4294967296 →
        (d.RoundTrips all ↔
          (d.uuid.has && all || d.uuid.changed) = false ∧ (d.config.has && all || d.config.changed) = false) :=
  ⟨fun d junk data => ends_iff d junk data, fun all d hsize => roundTrips_iff all d hsize⟩

/-- A default value of two bytes that has just been set. -/
def withDefault : CustomDefinition 2 := { defaultValue := ⟨true, #v[7, 10], true⟩ }

theorem custom_withDefault : withDefault.RoundTrips false ∧ withDefault.Ends (fun _ => 0) [48, 7, 10, 0] :=
  ⟨((custom_iff 2).2 false withDefault (by decide)).mpr (by decide), ((custom_iff 2).1 _ _ _).mpr (by decide)⟩

/-- An uuid without newlines and zeros. -/
def withUuid : CustomDefinition 2 := { uuid := ⟨true, #v[1, 2, 3, 4, 5, 6, 7, 8, 9, 11, 12, 13, 14, 15, 16, 17], true⟩ }

/-- The option of an uuid whose first byte is a newline is read forever, and an uuid that is written does not come
back. -/
theorem newline_and_uuid_fail :
    (¬∀ n (d : CustomDefinition n) junk data, d.Ends junk data) ∧
      ¬∀ n all (d : CustomDefinition n), d.config.content.length < 4294967296 → d.RoundTrips all := by
  constructor
  · intro h
    have hends := (ends_iff {} _ _).mp (h 1 {} (fun _ => 0) [49, 10])
    revert hends
    decide
  · intro h
    have hunsent := (roundTrips_iff false withUuid (by decide)).mp (h 2 false withUuid (by decide))
    revert hunsent
    decide

end CustomDefinition

end RabbitControl
