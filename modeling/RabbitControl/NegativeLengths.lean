import RabbitControl.LocalParsers

/-!
# Lengths that are taken for negative

The length of a tiny string is read into a `char`, so a length byte above 127 is a negative number, and the buffer that
is asked for throws.  Nothing else stops a parser: `parse_returns_iff` says that a parse comes back exactly if it does
not get to such a length.
-/

namespace RabbitControl

open Lib Result

/-- The length that is read next is a negative `char`.  At the end of the stream it is whatever memory holds. -/
def NegativeLength (is : IStream) : Prop := 128 ≤ (is.readBE 1).1

section Readers

variable {α σ : Type} {is : IStream}

theorem not_throws_ok {r : α × IStream} : ¬Throws (.ok r : Except Stop (α × IStream)) := by
  rintro ⟨e, he⟩
  exact absurd he (by simp [out, Except.map])

theorem not_throws_next {s : σ} : ¬Throws (Turn.next s is) := by
  rintro ⟨e, he⟩
  exact absurd he (by simp [out])

theorem not_throws_leave {s : σ} : ¬Throws (Turn.leave s is) := by
  rintro ⟨e, he⟩
  exact absurd he (by simp [out])

theorem throws_readTinyString : Throws (readTinyString is) ↔ NegativeLength is := by
  unfold readTinyString NegativeLength
  dsimp only
  split
  · next h => exact iff_of_true ⟨.lengthError, rfl⟩ h
  · next h => exact iff_of_false not_throws_ok h

theorem throws_readOption {read : Reader α} {set : α → σ → σ} {s : σ} :
    Throws (readOption read set s is) ↔ Throws (read is) := by
  unfold readOption
  cases read is with
  | error e => exact iff_of_true ⟨e, rfl⟩ ⟨e, rfl⟩
  | ok r =>
    refine iff_of_false ?_ not_throws_ok
    dsimp only
    split
    · exact not_throws_next
    · exact not_throws_next

/-- Of the values only those of an enum are tiny strings. -/
theorem throws_readValue {τ : ValueType} : Throws (readValue τ is) ↔ τ = .enum ∧ NegativeLength is := by
  cases τ with
  | enum => exact throws_readTinyString.trans (by simp)
  | _ => exact iff_of_false not_throws_ok (by simp)

end Readers

/-! ### Type definitions -/

section Definitions

variable {is : IStream} {c : Option UInt8}

theorem NumberDefinition.throws_parseOption {t : NumberType} {d : NumberDefinition t} :
    Throws (d.parseOption c is) ↔ c = some 53 ∧ NegativeLength is := by
  unfold NumberDefinition.parseOption
  split
  · exact iff_of_false (mt throws_readOption.mp not_throws_ok) (by simp)
  · exact iff_of_false (mt throws_readOption.mp not_throws_ok) (by simp)
  · exact iff_of_false (mt throws_readOption.mp not_throws_ok) (by simp)
  · exact iff_of_false (mt throws_readOption.mp not_throws_ok) (by simp)
  · exact iff_of_false (mt throws_readOption.mp not_throws_ok) (by simp)
  · exact (throws_readOption.trans throws_readTinyString).trans (by simp)
  · next h => exact iff_of_false (not_throws_next) fun hc => h hc.1

/-- The unit. -/
def NumberDefinition.Meets {t : NumberType} (d : NumberDefinition t) (is : IStream) : Prop :=
  ListMeets parseOption (fun _ c is => c = some 53 ∧ NegativeLength is) d is

theorem UriDefinition.throws_parseOption {d : UriDefinition} :
    Throws (d.parseOption c is) ↔ (c = some 49 ∨ c = some 50) ∧ NegativeLength is := by
  unfold UriDefinition.parseOption
  split
  · exact iff_of_false (mt throws_readOption.mp not_throws_ok) (by simp)
  · exact (throws_readOption.trans throws_readTinyString).trans (by simp)
  · exact (throws_readOption.trans throws_readTinyString).trans (by simp)
  · next h h' => exact iff_of_false (not_throws_next) fun hc => hc.1.elim h h'

/-- The filter and the schemas. -/
def UriDefinition.Meets (d : UriDefinition) (is : IStream) : Prop :=
  ListMeets parseOption (fun _ c is => (c = some 49 ∨ c = some 50) ∧ NegativeLength is) d is

/-- The entries of an enum. -/
def EnumDefinition.EntriesMeet (d : EnumDefinition) (is : IStream) : Prop :=
  NegativeLength is ∨ ∃ option is₁ s is', readTinyString is = .ok (option, is₁) ∧ is₁.eof = false ∧
    Reaches entriesBody (option, { d with options := d.options.fill [] }) is₁ s is' ∧ s.1 ≠ [] ∧ NegativeLength is'

theorem EnumDefinition.throws_entriesBody {s : Bytes × EnumDefinition} :
    Throws (entriesBody s is) ↔ s.1 ≠ [] ∧ NegativeLength is := by
  unfold entriesBody
  split
  · next h => exact iff_of_false (fun ⟨e, he⟩ => absurd he (by simp [out])) fun hs => hs.1 h
  · next h =>
    refine Iff.trans ?_ (and_iff_right h).symm
    rw [← throws_readTinyString]
    cases readTinyString is with
    | error e => exact iff_of_true ⟨e, rfl⟩ ⟨e, rfl⟩
    | ok r =>
      refine iff_of_false ?_ not_throws_ok
      rintro ⟨e, he⟩
      dsimp only at he
      split at he <;> simp [out] at he

theorem EnumDefinition.throws_parseOption {d : EnumDefinition} (his : is.Steady) :
    Throws (d.parseOption c is) ↔ c = some 48 ∧ NegativeLength is ∨ c = some 49 ∧ d.EntriesMeet is := by
  unfold EnumDefinition.parseOption
  split
  · exact (throws_readOption.trans throws_readTinyString).trans (by simp)
  · dsimp only
    have hread := local_readTinyString is his
    have hthrow : Throws (readTinyString is) ↔ NegativeLength is := throws_readTinyString
    simp only [EntriesMeet, Option.some.injEq, show (49 : UInt8) ≠ 48 by decide, false_and, false_or, true_and]
    cases hr : readTinyString is with
    | error e =>
      rw [hr] at hthrow
      exact iff_of_true ⟨e, rfl⟩ (Or.inl (hthrow.mp ⟨e, rfl⟩))
    | ok r =>
      obtain ⟨option, is₁⟩ := r
      rw [hr] at hthrow hread
      have hno : ¬NegativeLength is := fun h => not_throws_ok (hthrow.mpr h)
      dsimp only
      split
      · next he =>
        refine iff_of_false (not_throws_next) ?_
        rintro (h | ⟨_, _, s, is', h, he', -⟩)
        · exact hno h
        · cases h
          exact absurd (he.symm.trans he') (by simp)
      · have hloop := throws_loop_iff parseEntries_runsBody local_entriesBody entriesBody_takes _
          (option, { d with options := d.options.fill [] }) is₁ hread.1.steady (Nat.lt_succ_self _)
        refine hloop.trans ⟨?_, ?_⟩
        · rintro ⟨s, is', hreach, h⟩
          exact Or.inr ⟨option, is₁, s, is', rfl, by simp_all, hreach, throws_entriesBody.mp h⟩
        · rintro (h | ⟨_, _, s, is', h, -, hreach, hbad⟩)
          · exact absurd h hno
          · cases h
            exact ⟨s, is', hreach, throws_entriesBody.mpr hbad⟩
  · exact iff_of_false (mt throws_readOption.mp not_throws_ok) (by simp)
  · next h h' _ => exact iff_of_false (not_throws_next) fun hc => hc.elim (fun hc => h hc.1) fun hc => h' hc.1

/-- The type definition has a string of a negative length. -/
def TypeDefinition.Meets : {τ : ValueType} → TypeDefinition τ → IStream → Prop
  | .number _, d, is => NumberDefinition.Meets d is
  | .range _, d, is => d.element.Meets is
  | .uri, d, is => UriDefinition.Meets d is
  | .enum, d, is => ListMeets EnumDefinition.parseOption
      (fun d c is => c = some 48 ∧ NegativeLength is ∨ c = some 49 ∧ d.EntriesMeet is) d is
  | _, _, _ => False

theorem NumberDefinition.throws_parseOptions {t : NumberType} {d : NumberDefinition t} (his : is.Steady) :
    Throws (d.parseOptions is) ↔ d.Meets is :=
  throws_optionList_iff NumberDefinition.local_parseOption (fun _ => NumberDefinition.throws_parseOption)
    (fun h => by simp [h.1]) d his

/-- A list whose turns do not throw. -/
private theorem not_throws_optionList {σ : Type} {turn : σ → Option UInt8 → IStream → Turn σ}
    (h : ∀ s c, Local (turn s c))
    (hno : ∀ s c is, ¬Throws (turn s c is)) (s : σ) (his : is.Steady) : ¬Throws (optionList turn s is) := by
  have hiff : Throws (optionList turn s is) ↔ ListMeets turn (fun _ _ _ => False) s is :=
    throws_optionList_iff h (fun _ => iff_of_false (hno _ _ _) id) (fun h => h.elim) s his
  rw [hiff]
  rintro ⟨_, _, _, h⟩
  exact h

theorem DefaultDefinition.not_throws_parseOption {α : Type} {read : Reader α} (h : ∀ is, ¬Throws (read is))
    (d : DefaultDefinition α) (c : Option UInt8) (is : IStream) : ¬Throws (DefaultDefinition.parseOption read d c is) := by
  unfold DefaultDefinition.parseOption
  split
  · exact mt throws_readOption.mp (h is)
  · exact not_throws_next

theorem StringDefinition.not_throws_parseOption (d : StringDefinition) (c : Option UInt8) (is : IStream) :
    ¬Throws (d.parseOption c is) := by
  unfold StringDefinition.parseOption
  split
  · exact mt throws_readOption.mp not_throws_ok
  · exact mt throws_readOption.mp not_throws_ok
  · exact not_throws_next

theorem RangeDefinition.not_throws_parseOption {t : NumberType} (d : RangeDefinition t) (c : Option UInt8)
    (is : IStream) :
    ¬Throws (d.parseOption c is) := by
  unfold RangeDefinition.parseOption
  split
  · dsimp only
    split
    · exact not_throws_next
    · split
      · exact not_throws_next
      · exact not_throws_next
  · exact not_throws_next

/-- A type definition that is read throws exactly if it gets to a string of a negative length. -/
theorem TypeDefinition.throws_parseOptions {τ : ValueType} (hτ : ∀ n, τ ≠ .custom n) {d : TypeDefinition τ}
    (his : is.Steady) : Throws (d.parseOptions is) ↔ d.Meets is := by
  have hdefault : ∀ {α : Type} {read : Reader α} {d : DefaultDefinition α}, Local read → (∀ is, ¬Throws (read is)) →
      ¬Throws (optionList (DefaultDefinition.parseOption read) d is) := fun hl hno =>
    not_throws_optionList (DefaultDefinition.local_parseOption hl) (DefaultDefinition.not_throws_parseOption hno) _ his
  cases τ with
  | boolean => exact iff_of_false (hdefault local_readBool fun _ => not_throws_ok) id
  | number t => exact NumberDefinition.throws_parseOptions his
  | string =>
    exact iff_of_false (not_throws_optionList StringDefinition.local_parseOption
      StringDefinition.not_throws_parseOption _ his) id
  | enum =>
    exact throws_optionList_iff EnumDefinition.local_parseOption EnumDefinition.throws_parseOption
      (fun h => by rcases h with h | h <;> simp [h.1]) _ his
  | rgb | rgba | ipv4 => exact iff_of_false (hdefault (local_readBits 4) fun _ => not_throws_ok) id
  | ipv6 => exact iff_of_false (hdefault local_readIPv6 fun _ => not_throws_ok) id
  | uri =>
    exact throws_optionList_iff UriDefinition.local_parseOption (fun _ => UriDefinition.throws_parseOption)
      (fun h => by rcases h.1 with h | h <;> simp [h]) _ his
  | range t =>
    show Throws (RangeDefinition.parseOptions d is) ↔ NumberDefinition.Meets d.element is
    rw [← NumberDefinition.throws_parseOptions his]
    have hlocal := local_optionList NumberDefinition.local_parseOption d.element is his
    unfold RangeDefinition.parseOptions NumberDefinition.parseOptions
    cases hr : optionList NumberDefinition.parseOption d.element is with
    | throw e el => exact iff_of_true ⟨e, rfl⟩ ⟨e, rfl⟩
    | done el is' =>
      rw [hr] at hlocal
      refine iff_of_false (not_throws_optionList RangeDefinition.local_parseOption
        RangeDefinition.not_throws_parseOption _ hlocal.1.steady) ?_
      rintro ⟨e, he⟩
      exact absurd he (by simp [out])
  | custom n => exact absurd rfl (hτ n)

/-- The definition of a parameter has a string of a negative length. -/
def Kind.Meets : Kind → IStream → Prop
  | value _ d _, is => d.Meets is
  | _, _ => False

theorem Kind.throws_parseDefinition {k : Kind} (hk : ∀ n d v, k ≠ .value (.custom n) d v) (his : is.Steady) :
    Throws (k.parseDefinition is) ↔ k.Meets is := by
  have hget : ∀ k : Kind, ¬Throws (Outcome.done k is.get.2) := fun k ⟨e, he⟩ => absurd he (by simp [out])
  cases k with
  | value τ d v =>
    have hd : Throws (d.parseOptions is) ↔ d.Meets is :=
      TypeDefinition.throws_parseOptions (fun n hn => by subst hn; exact hk n d v rfl) his
    rw [Meets, ← hd, parseDefinition]
    cases d.parseOptions is <;> rfl
  | bang | group | invalid => exact iff_of_false (hget _) id

end Definitions

/-! ### Options -/

section Options

variable {σ : Type} {is : IStream}

/-- A language table has a text that cannot be read. -/
def TextsMeet (read : Reader Bytes) (fill : Bytes → Bytes → σ → σ) (s : σ) (is : IStream) : Prop :=
  ∃ s' is', Reaches (textsBody read fill) (is.peek.1, s) is.peek.2 s' is' ∧ s'.1 ≠ none ∧ s'.1 ≠ some 0 ∧
    (is'.read 3).2.eof = false ∧ Throws (read (is'.read 3).2)

variable {read : Reader Bytes} {fill : Bytes → Bytes → σ → σ}

theorem throws_textsBody {s : Option UInt8 × σ} : Throws (textsBody read fill s is) ↔
    s.1 ≠ none ∧ s.1 ≠ some 0 ∧ (is.read 3).2.eof = false ∧ Throws (read (is.read 3).2) := by
  have hstop : ∀ s (is : IStream), ¬Throws (Again.stop (.next s is) : Again (Option UInt8 × σ) (Turn σ)) :=
    fun _ _ ⟨e, he⟩ => absurd he (by simp [out])
  unfold textsBody
  split
  · next h => exact iff_of_false (hstop _ _) fun hs => h.elim hs.1 hs.2.1
  · next h =>
    rw [not_or] at h
    dsimp only
    split
    · next he => exact iff_of_false (hstop _ _) fun hs => by simp [hs.2.2.1] at he
    · next he =>
      refine Iff.trans ?_ (and_iff_right h.1).symm
      refine Iff.trans ?_ (and_iff_right h.2).symm
      refine Iff.trans ?_ (and_iff_right (by simpa using he)).symm
      cases read (is.read 3).2 with
      | error e => exact iff_of_true ⟨e, rfl⟩ ⟨e, rfl⟩
      | ok r =>
        refine iff_of_false ?_ not_throws_ok
        rintro ⟨e, he⟩
        dsimp only at he
        split at he <;> simp [out] at he

theorem throws_parseText (h : Local read) (s : σ) (his : is.Steady) :
    Throws (parseText read fill s is) ↔ TextsMeet read fill s is := by
  have hpeek := local_pair local_peek his
  have hbody : ∀ s, Local (textsBody read fill s) := local_textsBody h
  have hloop := throws_loop_iff parseTexts_runsBody hbody (textsBody_takes h) (is.rest.length + 1) (is.peek.1, s)
    is.peek.2 hpeek.1.steady (Nat.lt_succ_of_le hpeek.1.length)
  have hmeets : Throws (parseTexts read fill (is.rest.length + 1) is.peek.1 s is.peek.2) ↔ TextsMeet read fill s is :=
    hloop.trans (exists_congr fun s' => exists_congr fun is' => and_congr_right fun _ => throws_textsBody)
  rw [← hmeets]
  unfold parseText
  dsimp only
  split
  · next he =>
    -- at the end there is no entry
    have hnone : is.peek.1 = none := by
      unfold IStream.peek at he ⊢
      split at he
      · next hgood =>
        rw [if_pos hgood]
        cases hr : is.rest with
        | nil => rfl
        | cons c rest => simp_all [IStream.good]
      · next hgood => rw [if_neg hgood]
    rw [hnone, parseTexts, if_pos (Or.inl rfl)]
  · cases parseTexts read fill (is.rest.length + 1) is.peek.1 s is.peek.2 with
    | next s' is' =>
      refine iff_of_false ?_ not_throws_next
      dsimp only
      split
      · exact not_throws_next
      · exact not_throws_next
    | leave s' is' => exact Iff.rfl
    | throw e s' => exact Iff.rfl

/-- The label, the tags, the userid, and the value of an enum. -/
def OptionMeets (s : σ × Parameter) (c : Option UInt8) (is : IStream) : Prop :=
  c = some 33 ∧ TextsMeet readTinyString (fun c t s => (s.1, { s.2 with label := s.2.label.fill c t })) s is ∨
    (c = some 35 ∨ c = some 40) ∧ NegativeLength is ∨
    c = some 32 ∧ (∃ d v, s.2.kind = .value .enum d v) ∧ NegativeLength is

theorem not_throws_parseParent {env : ParseEnv σ} {s : σ × Parameter} : ¬Throws (parseParent env s is) := by
  unfold parseParent
  dsimp only
  split_ifs
  · exact not_throws_next
  · exact not_throws_next
  · split
    · exact not_throws_next
    · split
      · split
        · exact not_throws_leave
        · exact not_throws_next
      · exact not_throws_next

theorem throws_handleOption {s : σ × Parameter} {c : Option UInt8} :
    Throws (handleOption s c is) ↔ c = some 32 ∧ (∃ d v, s.2.kind = .value .enum d v) ∧ NegativeLength is := by
  unfold handleOption
  split
  · next τ d v hk =>
    split
    · next hc =>
      have hvalue : Throws (readValue τ is) ↔ τ = .enum ∧ NegativeLength is := throws_readValue
      rw [hk, and_iff_right hc]
      have henum : (∃ d' v', Kind.value τ d v = Kind.value .enum d' v') ↔ τ = .enum := by
        constructor
        · rintro ⟨d', v', h⟩
          cases h
          rfl
        · rintro rfl
          exact ⟨d, v, rfl⟩
      rw [henum, ← hvalue]
      cases readValue τ is with
      | error e => exact iff_of_true ⟨e, rfl⟩ ⟨e, rfl⟩
      | ok r =>
        refine iff_of_false ?_ not_throws_ok
        dsimp only
        split
        · exact not_throws_leave
        · exact not_throws_next
    · next hc => exact iff_of_false not_throws_leave fun h => hc h.1
  · next hno => exact iff_of_false not_throws_leave fun ⟨_, ⟨d, v, hk⟩, _⟩ => hno _ _ _ hk

/-- One option of a parameter throws exactly if it has a string of a negative length. -/
theorem throws_parseOption {env : ParseEnv σ} {s : σ × Parameter} {c : Option UInt8} (his : is.Steady) :
    Throws (parseOption env s c is) ↔ OptionMeets s c is := by
  unfold parseOption OptionMeets
  split
  · exact (throws_parseText local_readTinyString s his).trans (by simp)
  · refine iff_of_false (fun h => ?_) (by simp)
    obtain ⟨_, _, -, -, -, -, ht⟩ := (throws_parseText local_readShortString s his).mp h
    exact not_throws_ok ht
  · exact (throws_readOption.trans throws_readTinyString).trans (by simp)
  · exact iff_of_false (mt throws_readOption.mp not_throws_ok) (by simp)
  · exact iff_of_false not_throws_parseParent (by simp)
  · exact iff_of_false not_throws_next (by simp)
  · exact iff_of_false not_throws_next (by simp)
  · exact (throws_readOption.trans throws_readTinyString).trans (by simp)
  · exact iff_of_false (mt throws_readOption.mp not_throws_ok) (by simp)
  · next h33 _ h35 _ _ _ _ h40 _ =>
    refine throws_handleOption.trans ⟨fun h => Or.inr (Or.inr h), ?_⟩
    rintro (h | h | h)
    · exact absurd h.1 h33
    · exact absurd h.1 (not_or.mpr ⟨h35, h40⟩)
    · exact h

end Options

/-! ### Parameters and packets -/

section Packets

variable {σ : Type} {env : ParseEnv σ} {mem : Memory} {is : IStream}

/-- The definition of the parameter or one of its options has a string of a negative length. -/
def ProxyMeets (env : ParseEnv σ) (mem : Memory) (id : Id) (type : ParameterType) (s : σ) (is : IStream) : Prop :=
  (Parameter.create mem id type).kind.Meets is ∨
    ∃ k is', (Parameter.create mem id type).kind.parseDefinition is = .done k is' ∧
      ListMeets (parseOption env) OptionMeets (s, { Parameter.create mem id type with kind := k, managed := true }) is'

theorem throws_map {τ : Type} {f : σ → τ} {o : Outcome σ} : Throws (o.map f) ↔ Throws o := by
  cases o <;> exact Iff.rfl

theorem throws_parseProxy {id : Id} {type : ParameterType} (ht : ∀ n, type ≠ .value (.custom n)) {s : σ}
    (his : is.Steady) : Throws (parseProxy env mem id type s is) ↔ ProxyMeets env mem id type s is := by
  have hk := kind_create_ne_custom mem id ht
  have hlocal := Kind.local_parseDefinition hk is his
  unfold parseProxy ProxyMeets
  rw [← Kind.throws_parseDefinition hk his]
  dsimp only
  cases hr : (Parameter.create mem id type).kind.parseDefinition is with
  | throw e k => exact iff_of_true ⟨e, rfl⟩ (Or.inl ⟨e, rfl⟩)
  | done k is' =>
    rw [hr] at hlocal
    have hno : ¬Throws (Outcome.done k is') := fun ⟨e, he⟩ => absurd he (by simp [out])
    have hlist := throws_optionList_iff (local_parseOption env) throws_parseOption
      (fun h => by rcases h with h | h | h <;> [simp [h.1]; (rcases h.1 with h | h <;> simp [h]); simp [h.1]])
      (s, { Parameter.create mem id type with kind := k, managed := true }) hlocal.1.steady
    refine throws_map.trans (hlist.trans ⟨fun h => Or.inr ⟨k, is', rfl, h⟩, ?_⟩)
    rintro (h | ⟨_, _, h, hm⟩)
    · exact absurd h hno
    · cases h
      exact hm

/-- A parameter of a known type has a string of a negative length. -/
def ParameterMeets (env : ParseEnv σ) (mem : Memory) (s : σ) (is : IStream) : Prop :=
  let id := readInt16 is
  id.2.eof = false ∧ ∃ d t, id.2.get.1 = some d ∧ d < datatypeMax ∧ (readParameterType d id.2.get.2).1 = some t ∧
    ProxyMeets env mem id.1 t s (readParameterType d id.2.get.2).2

theorem throws_parseParameter {s : σ} (his : is.Steady) :
    Throws (parseParameter env mem s is) ↔ ParameterMeets env mem s is := by
  have hdone : ∀ (is : IStream), ¬Throws (Outcome.done (s, (none : Option Parameter)) is) :=
    fun _ ⟨e, he⟩ => absurd he (by simp [out])
  have hid := local_pair local_readInt16 his
  have hget := local_pair local_get hid.1.steady
  unfold parseParameter ParameterMeets
  dsimp only
  split
  · next he => exact iff_of_false (hdone _) fun h => by simp [h.1] at he
  · next he =>
    refine Iff.trans ?_ (and_iff_right (by simpa using he)).symm
    cases hd : (readInt16 is).2.get.1 with
    | none => exact iff_of_false (hdone _) (by simp)
    | some d =>
      dsimp only
      have htype := local_pair (local_readParameterType d) hget.1.steady
      split
      · next hmax =>
        refine iff_of_false (hdone _) ?_
        rintro ⟨d', t, hd', hlt, -⟩
        rw [← Option.some.inj hd'] at hlt
        exact absurd hlt (UInt8.not_lt.mpr hmax)
      · next hmax =>
        have hne := readParameterType_ne_custom d (readInt16 is).2.get.2
        rcases hr : readParameterType d (readInt16 is).2.get.2 with ⟨_ | t, is'⟩ <;> rw [hr] at htype hne
        · refine iff_of_false (hdone _) ?_
          rintro ⟨d', t, hd', -, ht, -⟩
          rw [← Option.some.inj hd', hr] at ht
          exact absurd ht (by simp)
        · have hproxy : Throws (parseProxy env mem (readInt16 is).1 t s is') ↔
              ProxyMeets env mem (readInt16 is).1 t s is' :=
            throws_parseProxy (fun n hn => hne n (congrArg some hn)) htype.1.steady
          refine hproxy.trans ⟨fun h => ⟨d, t, rfl, UInt8.not_le.mp hmax, by rw [hr], by rw [hr]; exact h⟩, ?_⟩
          rintro ⟨d', t', hd', -, ht', h⟩
          obtain rfl := Option.some.inj hd'
          rw [hr] at ht' h
          obtain rfl := Option.some.inj ht'
          exact h

/-- The version or the application id. -/
def InfoMeets (is : IStream) : Prop :=
  NegativeLength is ∨ ∃ version is₁ s is', readTinyString is = .ok (version, is₁) ∧
    Reaches infoBody (version, []) is₁ s is' ∧ is'.get.1 = some 26 ∧ NegativeLength is'.get.2

theorem throws_infoBody {s : Bytes × Bytes} (his : is.Steady) :
    Throws (infoBody s is) ↔ is.get.1 = some 26 ∧ NegativeLength is.get.2 := by
  have hstop : ∀ (is : IStream), ¬Throws (Again.stop (.done s is) : Again (Bytes × Bytes) (Outcome (Bytes × Bytes))) :=
    fun _ ⟨e, he⟩ => absurd he (by simp [out])
  have hget := local_pair local_get his
  have hnone : is.get.2.eof = true → ¬(is.get.1 = some 26 ∧ NegativeLength is.get.2) := fun he h => by
    simp [get_of_eof he] at h
  unfold infoBody
  dsimp only
  split_ifs with h1 h2 h3 h4
  · exact iff_of_false (hstop _) (hnone (hget.1.eof h1))
  · exact iff_of_false (hstop _) fun h => by simp [h.1] at h2
  · exact iff_of_false (hstop _) (hnone ((Bool.or_eq_true_iff.mp h3).elim id hget.1.steady))
  · rw [and_iff_right h4, ← throws_readTinyString]
    cases readTinyString is.get.2 with
    | error e => exact iff_of_true ⟨e, rfl⟩ ⟨e, rfl⟩
    | ok r => exact iff_of_false (fun ⟨e, he⟩ => absurd he (by simp [out])) not_throws_ok
  · exact iff_of_false (fun ⟨e, he⟩ => absurd he (by simp [out])) fun h => h4 h.1

theorem throws_parseInfo (his : is.Steady) : Throws (parseInfo is) ↔ InfoMeets is := by
  have hread := local_readTinyString is his
  have hthrow : Throws (readTinyString is) ↔ NegativeLength is := throws_readTinyString
  unfold parseInfo InfoMeets
  rw [← hthrow]
  cases hr : readTinyString is with
  | error e => exact iff_of_true ⟨e, rfl⟩ (Or.inl ⟨e, rfl⟩)
  | ok r =>
    obtain ⟨version, is₁⟩ := r
    rw [hr] at hread
    have hloop := throws_loop_iff parseInfoOptions_runsBody local_infoBody infoBody_takes _ (version, []) is₁
      hread.1.steady (Nat.lt_succ_self _)
    refine hloop.trans ⟨?_, ?_⟩
    · rintro ⟨s, is', hreach, h⟩
      exact Or.inr ⟨version, is₁, s, is', rfl, hreach,
        (throws_infoBody (hreach.steady local_infoBody hread.1.steady)).mp h⟩
    · rintro (h | ⟨_, _, s, is', h, hreach, hm⟩)
      · exact absurd h not_throws_ok
      · cases h
        exact ⟨s, is', hreach, (throws_infoBody (hreach.steady local_infoBody hread.1.steady)).mpr hm⟩

/-- The data of a packet. -/
def DataMeets (env : ParseEnv σ) (mem : Memory) (s : σ) (k : Packet) (is : IStream) : Prop :=
  match k.command with
  | .info => InfoMeets is
  | .update => ParameterMeets env mem s is
  | .init | .discover | .remove | .updateValue => False

theorem throws_parseData {s : σ} {k : Packet} (his : is.Steady) :
    Throws (parseData env mem s k is) ↔ DataMeets env mem s k is := by
  have hdone : ∀ (k : Packet) (is : IStream), ¬Throws (Outcome.done (s, k) is) :=
    fun _ _ ⟨e, he⟩ => absurd he (by simp [out])
  unfold parseData DataMeets
  cases k.command with
  | info => exact throws_map.trans (throws_parseInfo his)
  | update => exact throws_map.trans (throws_parseParameter his)
  | init | remove | discover | updateValue => exact iff_of_false (hdone _ _) id

theorem throws_packetBody {x : σ × Packet} (his : is.Steady) :
    Throws (packetBody env mem x is) ↔
      is.get.1 = some 18 ∧ x.2.data.isSome = false ∧ DataMeets env mem x.1 x.2 is.get.2 := by
  have hstop : ∀ (v : Verdict) (is : IStream),
      ¬Throws (Again.stop (.done ⟨x.1, some x.2, v⟩ is) : Again (σ × Packet) (Outcome (Parsed σ))) :=
    fun _ _ ⟨e, he⟩ => absurd he (by simp [out])
  have hagain : ∀ (x : σ × Packet) (is : IStream), ¬Throws (Again.again x is : Again (σ × Packet) (Outcome (Parsed σ))) :=
    fun _ _ ⟨e, he⟩ => absurd he (by simp [out])
  have hget := local_pair local_get his
  have hnone : is.get.2.eof = true → is.get.1 ≠ some 18 := fun he h => by simp [get_of_eof he] at h
  unfold packetBody
  dsimp only
  split_ifs with h1 h2 h3 h4 h5 h6 h7
  · exact iff_of_false (hstop _ _) fun h => hnone (hget.1.eof h1) h.1
  · exact iff_of_false (hstop _ _) fun h => by simp [h.1] at h2
  · exact iff_of_false (hstop _ _) fun h => hnone ((Bool.or_eq_true_iff.mp h3).elim id hget.1.steady) h.1
  · exact iff_of_false (hagain _ _) fun h => by simp [h.1] at h4
  · exact iff_of_false (hagain _ _) fun h => by simp [h.1] at h4
  · exact iff_of_false (hstop _ _) fun h => by simp [h.2.1] at h7
  · refine Iff.trans ?_ (and_iff_right h6).symm
    refine Iff.trans ?_ (and_iff_right (by simpa using h7)).symm
    rw [← throws_parseData hget.1.steady]
    cases parseData env mem x.1 x.2 is.get.2 with
    | throw e s => exact iff_of_true ⟨e, rfl⟩ ⟨e, rfl⟩
    | done s is' => exact iff_of_false (hagain _ _) fun ⟨e, he⟩ => absurd he (by simp [out])
  · exact iff_of_false (hstop _ _) fun h => h6 h.1

/-- The parse of the message gets to a string with a length byte above 127. -/
def MeetsNegativeLength (env : ParseEnv σ) (mem : Memory) (s : σ) (is : IStream) : Prop :=
  match is.get.1.bind Command.ofCode with
  | none => False
  | some .updateValue =>
    let type := (readInt16 is.get.2).2.get
    type.1 = some (ValueType.datatype .enum) ∧ NegativeLength type.2
  | some c => ∃ x is', Reaches (packetBody env mem) (s, { command := c }) is.get.2 x is' ∧ is'.get.1 = some 18 ∧
      x.2.data.isSome = false ∧ DataMeets env mem x.1 x.2 is'.get.2

theorem parameterType_enum_iff {d : UInt8} : parameterType d = some (.value .enum) ↔ d = ValueType.datatype .enum := by
  refine ⟨fun h => ?_, fun h => by rw [h]; rfl⟩
  unfold parameterType at h
  split at h <;> simp_all [ValueType.datatype]

/-- Only the value of an enum stops the reading of an `UPDATEVALUE` packet. -/
theorem parseUpdateValue_error_iff : (∃ e, parseUpdateValue mem is = .error e) ↔
    (readInt16 is).2.get.1 = some (ValueType.datatype .enum) ∧ NegativeLength (readInt16 is).2.get.2 := by
  unfold parseUpdateValue
  dsimp only
  cases hd : (readInt16 is).2.get.1 with
  | none => exact iff_of_false (by simp) (by simp)
  | some d =>
    rw [Option.bind_some, Option.some.injEq, ← parameterType_enum_iff]
    split
    · next τ hτ =>
      have hvalue : Throws (readValue τ (readInt16 is).2.get.2) ↔ τ = .enum ∧ NegativeLength (readInt16 is).2.get.2 :=
        throws_readValue
      have henum : parameterType d = some (.value .enum) ↔ τ = .enum := by simp [hτ]
      rw [henum, ← hvalue]
      cases readValue τ (readInt16 is).2.get.2 with
      | error e => exact iff_of_true ⟨e, rfl⟩ ⟨e, rfl⟩
      | ok r => exact iff_of_false (by simp) not_throws_ok
    · next hno => exact iff_of_false (by simp) fun h => hno _ h.1

/-- A parse ends in a packet or an empty option exactly if it meets no negative length. -/
theorem parsePacket_returns_iff {s : σ} (his : is.Steady) :
    ((parsePacket env mem s is).verdict = .accepted ∨ (parsePacket env mem s is).verdict = .rejected) ↔
      ¬MeetsNegativeLength env mem s is := by
  have hget := local_pair local_get his
  have hverdict : ∀ v : Verdict, v = .accepted ∨ v = .rejected ↔ ¬∃ e, v = .threw e := by
    intro v
    cases v <;> simp
  rw [hverdict, not_iff_not]
  unfold parsePacket MeetsNegativeLength
  dsimp only
  cases is.get.1.bind Command.ofCode with
  | none => exact iff_of_false (by simp) id
  | some c =>
    have hloop : ∀ c : Command, (∃ e, (parsePacketOptions env mem (is.get.2.rest.length + 1) s { command := c }
        is.get.2).verdict = .threw e) ↔
        ∃ x is', Reaches (packetBody env mem) (s, { command := c }) is.get.2 x is' ∧ is'.get.1 = some 18 ∧
          x.2.data.isSome = false ∧ DataMeets env mem x.1 x.2 is'.get.2 := by
      intro c
      rw [← state_packetLoop _ (s, _)]
      simp only [← verdict_packetLoop]
      refine (throws_loop_iff packetLoop_runsBody local_packetBody packetBody_takes _ (s, { command := c }) is.get.2
        hget.1.steady (Nat.lt_succ_self _)).trans ?_
      exact exists_congr fun x => exists_congr fun is' => and_congr_right fun hreach =>
        throws_packetBody (hreach.steady local_packetBody hget.1.steady)
    cases c with
    | updateValue =>
      have hvalue : (∃ e, parseUpdateValue mem is.get.2 = .error e) ↔ _ := parseUpdateValue_error_iff
      refine Iff.trans ?_ hvalue
      rcases parseUpdateValue mem is.get.2 with e | _ | k <;> simp
    | info | init | discover | update | remove => exact hloop _

/-- No loop of the parser runs forever. -/
theorem parsePacket_ne_hang {s : σ} (his : is.Steady) : (parsePacket env mem s is).verdict ≠ .threw .hang := by
  have hget := local_pair local_get his
  unfold parsePacket
  dsimp only
  split
  · simp
  · have hid := local_pair local_readInt16 hget.1.steady
    have htype := local_pair local_get hid.1.steady
    unfold parseUpdateValue
    dsimp only
    cases (readInt16 is.get.2).2.get.1.bind parameterType with
    | none => simp
    | some type =>
      cases type with
      | value τ =>
        have hvalue := local_readValue τ _ htype.1.steady
        dsimp only
        cases hr : readValue τ (readInt16 is.get.2).2.get.2 with
        | error e =>
          rw [hr] at hvalue
          exact fun h => hvalue (Verdict.threw.inj h)
        | ok r => simp
      | bang | group | invalid => simp
  · next c _ _ =>
    have hlocal : Local fun is => packetLoop env mem (is.rest.length + 1) (s, { command := c }) is :=
      local_loop packetLoop_runsBody local_packetBody packetBody_takes _
    have hloop := hlocal is.get.2 hget.1.steady
    intro h
    rw [← state_packetLoop _ (s, _), ← verdict_packetLoop] at h
    unfold LocalAt at hloop
    rw [h] at hloop
    exact hloop rfl

end Packets

namespace Store

/-- `Packet::parse` ends in a packet or an empty option exactly if it does not get to a string with a length byte above
127, whatever the bytes, the manager and the memory. -/
theorem parse_returns_iff (s : Store) (ch : Chance) (data : Bytes) :
    ((s.parse ch data).verdict = .accepted ∨ (s.parse ch data).verdict = .rejected) ↔
      ¬MeetsNegativeLength storeEnv ch.mem s (stream ch.junk data) := by
  rw [verdict_parse]
  exact parsePacket_returns_iff (steady_stream ch.junk data)

theorem parse_ne_hang (s : Store) (ch : Chance) (data : Bytes) : (s.parse ch data).verdict ≠ .threw .hang := by
  rw [verdict_parse]
  exact parsePacket_ne_hang (steady_stream ch.junk data)

/-- Version information whose version should have 128 bytes. -/
def longVersion : Bytes := [1, 18, 128]

theorem longVersion_throws :
    ¬∀ (s : Store) (ch : Chance) (data : Bytes),
      (s.parse ch data).verdict = .accepted ∨ (s.parse ch data).verdict = .rejected :=
  fun h => absurd (h (empty {}) ⟨{}, fun _ => 0⟩ longVersion) (by decide)

end Store

end RabbitControl
