import RabbitControl.LocalParsers
import RabbitControl.OptionRoundTrip

/-!
# Enum definitions read back

The writer of an enum definition puts the number of its entries in front of them, in two bytes; the reader looks for
an empty string behind them.  So an enum definition comes back exactly if it has no entries
(`EnumDefinition.readsBack_iff`).

That the first byte of the number is taken for the length of a first entry might be made up for by accident.  What the
entries cost in bytes leaves one way only: the reader would have to get all of them from the bytes that start with
their number.  Then these bytes have period two (`periodic_of_shift`), and the lengths of the entries do not fit.
-/

namespace RabbitControl

open Lib IStream

/-- The entries of an enum as they are written. -/
def entryBytes (l : List Bytes) : Bytes := l.flatMap writeTinyString

/-- Entries that can be written and read one by one. -/
def Entries (l : List Bytes) : Prop := ∀ w ∈ l, w ≠ [] ∧ w.length ≤ 127

theorem writeTinyString_short {w : Bytes} (h : w.length ≤ 127) : writeTinyString w = UInt8.ofNat w.length :: w := by
  have hdiv : w.length / 256 ^ 0 = w.length := by simp
  rw [writeTinyString, if_neg (by omega), encodeBE, hdiv]
  rfl

theorem entryBytes_cons {w : Bytes} (l : List Bytes) (h : w.length ≤ 127) :
    entryBytes (w :: l) = UInt8.ofNat w.length :: (w ++ entryBytes l) := by
  rw [entryBytes, List.flatMap_cons, writeTinyString_short h]
  rfl

/-! ### Periods -/

/-- A list that is its own continuation behind two elements alternates between them. -/
theorem periodic_of_shift {l r s : Bytes} {a b c : UInt8} (h : a :: b :: (l ++ r) = l ++ c :: s) :
    (∀ i, i < l.length → l[i]? = some (if i % 2 = 0 then a else b)) ∧
      (2 ≤ l.length → c = if l.length % 2 = 0 then a else b) := by
  have hat : ∀ i, (l ++ c :: s)[i + 2]? = (l ++ r)[i]? := by
    intro i
    rw [← h]
    rfl
  have hperiod : ∀ i, i < l.length → l[i]? = some (if i % 2 = 0 then a else b) := by
    intro i
    induction i using Nat.strongRecOn with
    | _ i ih =>
      intro hi
      have hl : (l ++ c :: s)[i]? = l[i]? := List.getElem?_append_left hi
      rcases i with _ | _ | i
      · rw [← hl, ← h]
        rfl
      · rw [← hl, ← h]
        rfl
      · have hr : (l ++ r)[i]? = l[i]? := List.getElem?_append_left (by omega)
        rw [← hl, hat, hr, ih i (by omega) (by omega)]
        congr 1
        have hmod : (i + 1 + 1) % 2 = i % 2 := by omega
        rw [hmod]
  refine ⟨hperiod, fun hlength => ?_⟩
  obtain ⟨n, hn⟩ : ∃ n, l.length = n + 2 := ⟨l.length - 2, by omega⟩
  have hc : (l ++ c :: s)[n + 2]? = some c := by
    rw [← hn, List.getElem?_append_right (Nat.le_refl _)]
    simp
  have hr : (l ++ r)[n]? = l[n]? := List.getElem?_append_left (by omega)
  rw [hat, hr, hperiod n (by omega)] at hc
  rw [← Option.some.inj hc, hn]
  have hmod : (n + 2) % 2 = n % 2 := by omega
  rw [hmod]

/-- Entries whose bytes alternate between an odd length and zero have an even number of bytes. -/
theorem even_length_entryBytes {l : List Bytes} (hl : Entries l) {a : UInt8} (ha : a.toNat % 2 = 1)
    (h : ∀ i, i < (entryBytes l).length → (entryBytes l)[i]? = some (if i % 2 = 0 then a else 0)) :
    (entryBytes l).length % 2 = 0 := by
  induction l with
  | nil => rfl
  | cons w l ih =>
    have hw := (hl w List.mem_cons_self).2
    rw [entryBytes_cons l hw] at h ⊢
    have hlength : w.length = a.toNat := by
      have h0 := h 0 (by simp)
      rw [List.getElem?_cons_zero, Option.some.injEq] at h0
      rw [if_pos rfl] at h0
      rw [← h0, UInt8.toNat_ofNat_of_lt' (by show w.length < 256; omega)]
    have hrest : ∀ i, i < (entryBytes l).length → (entryBytes l)[i]? = some (if i % 2 = 0 then a else 0) := by
      intro i hi
      have hi' := h (i + w.length + 1) (by simp; omega)
      rw [List.getElem?_cons_succ, List.getElem?_append_right (by omega), Nat.add_sub_cancel] at hi'
      rw [hi']
      have hmod : (i + w.length + 1) % 2 = i % 2 := by omega
      rw [hmod]
    have heven := ih (fun v hv => hl v (List.mem_cons_of_mem _ hv)) hrest
    simp only [List.length_cons, List.length_append]
    omega

/-- The bytes of entries behind the number of entries never start with these entries and an empty one. -/
theorem entries_not_shifted {l : List Bytes} (hl : Entries l) (hne : l ≠ []) (hcount : l.length < 65536) {r s : Bytes} :
    encodeBE 2 l.length ++ entryBytes l ++ r ≠ entryBytes l ++ 0 :: s := by
  intro h
  set hi := UInt8.ofNat (l.length / 256 ^ 1) with hhi
  set lo := UInt8.ofNat (l.length / 256 ^ 0) with hlo
  have hbytes : encodeBE 2 l.length ++ entryBytes l ++ r = hi :: lo :: (entryBytes l ++ r) := by
    simp [encodeBE, hhi, hlo]
  obtain ⟨hperiod, hend⟩ := periodic_of_shift (hbytes.symm.trans h)
  have hhi' : hi.toNat = l.length / 256 := by
    rw [hhi, UInt8.toNat_ofNat_of_lt' (by show _ < 256; omega)]
    simp
  have hlo' : lo.toNat = l.length % 256 := by
    rw [hlo]
    simp
  obtain ⟨w, l', rfl⟩ := List.exists_cons_of_ne_nil hne
  obtain ⟨hwne, hw⟩ := hl w List.mem_cons_self
  have hwpos : 0 < w.length := List.length_pos_iff.mpr hwne
  have hcons := entryBytes_cons l' hw
  have hlength : (entryBytes (w :: l')).length = 1 + w.length + (entryBytes l').length := by
    rw [hcons, List.length_cons, List.length_append]
    omega
  have hfirst : hi.toNat = w.length := by
    have h0 := hperiod 0 (by omega)
    rw [hcons, List.getElem?_cons_zero, Option.some.injEq, if_pos rfl] at h0
    rw [← h0, UInt8.toNat_ofNat_of_lt' (by show w.length < 256; omega)]
  -- the empty entry is the last byte but one
  have hodd : (entryBytes (w :: l')).length % 2 = 1 ∧ lo = 0 := by
    have hzero := hend (by omega)
    split at hzero
    · rw [← hzero] at hfirst
      simp at hfirst
      omega
    · exact ⟨by omega, hzero.symm⟩
  rw [hodd.2] at hlo' hperiod
  simp only [List.length_cons] at hhi' hlo' hcount
  have hlo0 : (0 : UInt8).toNat = 0 := rfl
  rw [hlo0] at hlo'
  obtain ⟨v, l'', rfl⟩ : ∃ v l'', l' = v :: l'' := by
    refine List.exists_cons_of_ne_nil fun hnil => ?_
    rw [hnil, List.length_nil] at hhi' hlo'
    omega
  obtain ⟨hvne, hv⟩ := hl v (List.mem_cons_of_mem _ List.mem_cons_self)
  have hvpos : 0 < v.length := List.length_pos_iff.mpr hvne
  have hwodd : hi.toNat % 2 = 1 := by
    by_contra heven
    have hat := hperiod (w.length + 1) (by rw [hlength, entryBytes_cons l'' hv, List.length_cons]; omega)
    rw [hcons, List.getElem?_cons_succ, List.getElem?_append_right (Nat.le_refl _), Nat.sub_self,
      entryBytes_cons l'' hv,
      List.getElem?_cons_zero, Option.some.injEq, if_neg (by omega)] at hat
    have hzero := congrArg UInt8.toNat hat
    rw [UInt8.toNat_ofNat_of_lt' (by show v.length < 256; omega), hlo0] at hzero
    omega
  have heven := even_length_entryBytes hl hwodd hperiod
  omega

/-! ### Reading entries -/

/-- What a good stream held in front of a tiny string that was read before its end. -/
theorem bytes_of_readTinyString {is is' : IStream} {s : Bytes} (hgood : is.good = true)
    (h : readTinyString is = .ok (s, is')) (he : is'.eof = false) :
    s.length ≤ 127 ∧ is.rest = writeTinyString s ++ is'.rest ∧ is'.good = true := by
  obtain ⟨rest, eof, fail, junk⟩ := is
  obtain ⟨rfl, rfl⟩ : eof = false ∧ fail = false := by simpa [IStream.good] using hgood
  cases rest with
  | nil =>
    have hlength := length_tinyString (fun hf => hf) h he
    simp at hlength
  | cons c rest =>
    have hbe : ({ rest := c :: rest, junk := junk } : IStream).readBE 1 = (c.toNat, { rest := rest, junk := junk }) := by
      simp [IStream.readBE, IStream.readInto, IStream.read, IStream.good, decodeBE]
    unfold readTinyString at h
    rw [hbe] at h
    dsimp only at h
    split at h
    · exact absurd h (by simp)
    · next hsize =>
      by_cases hle : c.toNat ≤ rest.length
      · have hread : readChars c.toNat { rest := rest, junk := junk } =
            (rest.take c.toNat, { rest := rest.drop c.toNat, junk := junk }) := by
          simp [readChars, IStream.read, IStream.good, hle]
        rw [hread] at h
        obtain ⟨hs, his'⟩ := Prod.ext_iff.mp (Except.ok.inj h)
        have hlength : (rest.take c.toNat).length = c.toNat := by simp [hle]
        dsimp only at hs his'
        rw [← hs, ← his']
        refine ⟨by omega, ?_, rfl⟩
        rw [writeTinyString_short (by omega), hlength, UInt8.ofNat_toNat, List.cons_append, List.take_append_drop]
      · have hread : (readChars c.toNat { rest := rest, junk := junk }).2.eof = true := by
          simp [readChars, IStream.read, IStream.good, hle]
        rw [Except.ok.inj h] at hread
        exact absurd (hread.symm.trans he) (by simp)

namespace EnumDefinition

/-- The loop over the entries has read what it adds, up to an empty entry. -/
theorem bytes_of_parseEntries {n : Nat} {option : Bytes} {d d' : EnumDefinition} {is is' : IStream}
    (hgood : is.good = true) (hoption : option.length ≤ 127) (h : parseEntries n option d is = .next d' is')
    (he : is'.eof = false) :
    ∃ l, d' = { d with options := d.options.fill (d.options.content ++ l) } ∧ Entries l ∧
      writeTinyString option ++ is.rest = entryBytes l ++ 0 :: is'.rest := by
  induction n generalizing option d is with
  | zero => exact absurd h (by simp [parseEntries])
  | succ n ih =>
    rw [parseEntries] at h
    split at h
    · next hnil =>
      obtain ⟨rfl, rfl⟩ := Turn.next.inj h
      refine ⟨[], by simp [Block.fill], fun w hw => absurd hw (by simp), ?_⟩
      rw [hnil]
      rfl
    · next hne =>
      dsimp only at h
      cases hr : readTinyString is with
      | error e => rw [hr] at h; exact absurd h (by simp)
      | ok r =>
        rw [hr] at h
        dsimp only at h
        split at h
        · next heof =>
          obtain ⟨-, rfl⟩ := Turn.next.inj h
          exact absurd (heof.symm.trans he) (by simp)
        · next heof =>
          obtain ⟨hshort, hbytes, hgood'⟩ := bytes_of_readTinyString hgood hr (by simpa using heof)
          obtain ⟨l, hd, hl, hrest⟩ := ih hgood' hshort h
          refine ⟨option :: l, ?_, ?_, ?_⟩
          · rw [hd]
            simp [Block.fill]
          · intro w hw
            rcases List.mem_cons.mp hw with rfl | hw
            · exact ⟨hne, hoption⟩
            · exact hl w hw
          · rw [hbytes, hrest, entryBytes, entryBytes, List.flatMap_cons, List.append_assoc]

private theorem parseOption_entries (d : EnumDefinition) (is : IStream) :
    d.parseOption (some 49) is =
      match readTinyString is with
      | .error e => .throw e { d with options := d.options.fill [] }
      | .ok (option, is) =>
        if is.eof then .next { d with options := d.options.fill [] } is
        else parseEntries (is.rest.length + 1) option { d with options := d.options.fill [] } is :=
  rfl

/-- So has the option of the entries. -/
theorem bytes_of_entries {d d' : EnumDefinition} {is is' : IStream} (hgood : is.good = true)
    (h : d.parseOption (some 49) is = .next d' is') (he : is'.eof = false) :
    ∃ l, d' = { d with options := d.options.fill l } ∧ Entries l ∧ is.rest = entryBytes l ++ 0 :: is'.rest := by
  rw [parseOption_entries] at h
  cases hr : readTinyString is with
  | error e => rw [hr] at h; exact absurd h (by simp)
  | ok r =>
    rw [hr] at h
    dsimp only at h
    split at h
    · next heof =>
      obtain ⟨-, rfl⟩ := Turn.next.inj h
      exact absurd (heof.symm.trans he) (by simp)
    · next heof =>
      obtain ⟨hshort, hbytes, hgood'⟩ := bytes_of_readTinyString hgood hr (by simpa using heof)
      obtain ⟨l, hd, hl, hrest⟩ := bytes_of_parseEntries hgood' hshort h he
      refine ⟨l, ?_, hl, hbytes.trans hrest⟩
      rw [hd]
      rfl

/-- The options of an enum never end the list. -/
theorem parseOption_ne_leave (d d' : EnumDefinition) (opt : Option UInt8) (is is' : IStream) :
    d.parseOption opt is ≠ .leave d' is' := by
  have hentries : ∀ n option (d : EnumDefinition) is, parseEntries n option d is ≠ .leave d' is' := by
    intro n
    induction n with
    | zero => exact fun _ _ _ => by simp [parseEntries]
    | succ n ih =>
      intro option d is
      rw [parseEntries]
      split
      · simp
      · dsimp only
        split
        · simp
        · split
          · simp
          · exact ih _ _ _
  have hread : ∀ {α : Type} (read : Reader α) (set : α → EnumDefinition → EnumDefinition),
      readOption read set d is ≠ .leave d' is' := by
    intro α read set
    unfold readOption
    split
    · simp
    · split <;> simp
  unfold parseOption
  split
  · exact hread _ _
  · dsimp only
    split
    · simp
    · split
      · simp
      · exact hentries _ _ _ _
  · exact hread _ _
  · simp

/-! ### What entries cost -/

/-- The bytes that the entries, unless they are the entries `l`, and the multiselect flag take. -/
def entryCost (l : List Bytes) (d : EnumDefinition) : Nat :=
  (if d.options.content = l then 0 else 2 + (entryBytes d.options.content).length) +
    if d.multiselect.has then 2 else 0

theorem cost_parseOption (l : List Bytes) {d d' : EnumDefinition} {opt : Option UInt8} {is is' : IStream}
    (his : is.Steady) (h : d.parseOption opt is = .next d' is') (he : is'.eof = false) :
    d'.entryCost l + is'.rest.length ≤ d.entryCost l + is.rest.length + 1 := by
  have hleft := local_parseOption d opt is his
  rw [h] at hleft
  have hlength := hleft.1.length
  have hgood := his.good (hleft.1.eof_false he)
  by_cases h49 : opt = some 49
  · subst h49
    obtain ⟨l', hd, -, hrest⟩ := bytes_of_entries hgood h he
    have hbytes := congrArg List.length hrest
    rw [List.length_append, List.length_cons] at hbytes
    subst hd
    have hcost : entryCost l { d with options := d.options.fill l' } =
        (if l' = l then 0 else 2 + (entryBytes l').length) + if d.multiselect.has then 2 else 0 := rfl
    rw [hcost, entryCost]
    split_ifs <;> omega
  by_cases h50 : opt = some 50
  · subst h50
    change readOption readBool (fun v d => { d with multiselect := d.multiselect.fill v }) d is = .next d' is' at h
    rw [readOption, readBool] at h
    dsimp only at h
    split at h
    · next heof =>
      obtain ⟨-, rfl⟩ := Turn.next.inj h
      exact absurd (heof.symm.trans he) (by simp)
    · obtain ⟨rfl, rfl⟩ := Turn.next.inj h
      have hbyte := length_readBE his he
      simp only [entryCost, Slot.fill, if_true]
      split_ifs <;> omega
  · have hcost : d'.entryCost l = d.entryCost l := by
      unfold parseOption at h
      split at h
      · unfold readOption at h
        split at h
        · exact absurd h (by simp)
        · split at h <;> obtain ⟨rfl, -⟩ := Turn.next.inj h <;> rfl
      · exact absurd rfl h49
      · exact absurd rfl h50
      · obtain ⟨rfl, -⟩ := Turn.next.inj h
        rfl
    omega

/-! ### Whole definitions -/

/-- The strings of an enum are short enough to be read one by one, and their number can be written. -/
structure Readable (d : EnumDefinition) : Prop where
  defaultValue : ∀ s ∈ d.defaultValue.get?, s.length ≤ 127
  entries : Entries d.options.content
  count : d.options.content.length < 65536

/-- A fresh enum definition reads what follows the type byte of `d` as `d`, and nothing of the rest. -/
def ReadsBack (mem : Memory) (rest : Bytes) (junk : Nat → UInt8) (d : EnumDefinition) : Prop :=
  ∃ body, (@TypeDefinition.write true .enum d).1.bytes = ValueType.mandatory .enum ++ body ∧
    ∃ d', d.Returned true d' ∧ (TypeDefinition.make mem .enum).parseOptions { rest := body ++ rest, junk := junk } =
      .done d' { rest := rest, junk := junk }

section ReadBack

variable {d : EnumDefinition}

/-- The default comes first. -/
private theorem consumes_default (hd : d.Readable) (into : EnumDefinition) :
    Consumes parseOption into
      (fieldBytes (d.defaultValue.write .default writeTinyString (writeTinyString []) true).1)
      { into with defaultValue := into.defaultValue.receive (d.defaultValue.sent true []) } :=
  Slot.consumes_write (fun s => { into with defaultValue := s }) rfl (fun _ => rfl) rfl
    fun _ hv => reads_tinyString (Slot.length_sent hd.defaultValue hv)

private theorem consumes_multiselect (into : EnumDefinition) :
    Consumes parseOption into (fieldBytes (d.multiselect.write .multiselect writeBool (writeBool false) true).1)
      { into with multiselect := into.multiselect.receive (d.multiselect.sent true false) } :=
  Slot.consumes_write (fun s => { into with multiselect := s }) rfl (fun _ => rfl) rfl fun v _ => reads_bool v

/-- The bytes of a definition without changes, behind the type. -/
private theorem body_eq {body : Bytes}
    (h : (@TypeDefinition.write true .enum d).1.bytes = ValueType.mandatory .enum ++ body) (rest : Bytes) :
    body ++ rest = fieldBytes (d.defaultValue.write .default writeTinyString (writeTinyString []) true).1 ++
      (fieldBytes (d.options.write .entries writeEntries (encodeBE 2 0) true).1 ++
        (fieldBytes (d.multiselect.write .multiselect writeBool (writeBool false) true).1 ++ 0 :: rest)) := by
  have hbytes : (@TypeDefinition.write true .enum d).1.bytes = ValueType.mandatory .enum ++
      (fieldBytes (EnumDefinition.write true d).1 ++ [0]) := by
    simp [TypeDefinition.write, DefinitionBody.bytes, ValueType.mandatory, ValueType.datatype]
  rw [List.append_cancel_left (h.symm.trans hbytes), EnumDefinition.write]
  simp [fieldBytes_append]

/-- Without entries the definition is read back. -/
theorem readsBack_of_empty (hd : d.Readable) (hunchanged : @TypeDefinition.anyOptionChanged .enum d = false)
    (hempty : d.options.content = []) (mem : Memory) (rest : Bytes) (junk : Nat → UInt8) :
    d.ReadsBack mem rest junk := by
  have hchanged : d.options.changed = false := by
    simp only [TypeDefinition.anyOptionChanged, Bool.or_eq_false_iff] at hunchanged
    exact hunchanged.1.2
  have hentries : (d.options.write .entries writeEntries (encodeBE 2 0) true).1 = [] := by
    simp [Block.write, writeOption, Block.has, hempty, hchanged]
  let d' : EnumDefinition :=
    { defaultValue := ({ content := [] } : Slot Bytes).receive (d.defaultValue.sent true [])
      multiselect := ({ content := false } : Slot Bool).receive (d.multiselect.sent true false) }
  refine ⟨fieldBytes (EnumDefinition.write true d).1 ++ [0], ?_, d', ?_, ?_⟩
  · simp [TypeDefinition.write, DefinitionBody.bytes, ValueType.mandatory, ValueType.datatype]
  · exact ⟨Slot.get?_receive rfl _, by simp [d', hempty], Slot.get?_receive rfl _⟩
  · have hwrite : fieldBytes (EnumDefinition.write true d).1 =
        fieldBytes (d.defaultValue.write .default writeTinyString (writeTinyString []) true).1 ++
          fieldBytes (d.multiselect.write .multiselect writeBool (writeBool false) true).1 := by
      rw [EnumDefinition.write, hentries]
      simp [fieldBytes_append]
    have h := (consumes_default hd {}).append (consumes_multiselect (d := d) _)
    rw [hwrite, List.append_assoc]
    exact optionList_of_consumes h rest junk

/-- With entries it is not. -/
theorem empty_of_readsBack (hd : d.Readable) (hunchanged : @TypeDefinition.anyOptionChanged .enum d = false)
    {mem : Memory} {rest : Bytes} {junk : Nat → UInt8}
    (h : d.ReadsBack mem rest junk) : d.options.content = [] := by
  by_contra hne
  obtain ⟨body, hbytes, d', hreturned, hparse⟩ := h
  have hchanged : d.multiselect.changed = false := by
    simp only [TypeDefinition.anyOptionChanged, Bool.or_eq_false_iff] at hunchanged
    exact hunchanged.2
  have hhas : d.options.has = true := by simpa [Block.has] using hne
  have hoptions : d'.options.content = d.options.content := hreturned.options
  set first : EnumDefinition := { defaultValue := ({ content := [] } : Slot Bytes).receive (d.defaultValue.sent true []) }
    with hfirst
  set more := fieldBytes (d.multiselect.write .multiselect writeBool (writeBool false) true).1 ++ 0 :: rest with hmore
  have hentries : fieldBytes (d.options.write .entries writeEntries (encodeBE 2 0) true).1 ++ more =
      49 :: (encodeBE 2 d.options.content.length ++ entryBytes d.options.content ++ more) := by
    simp [Block.write, writeOption, hhas, fieldBytes, Field.bytes, writeEntries, entryBytes, OptionId.code]
  -- the default is read as it was written
  have hbody := body_eq hbytes rest
  rw [hentries] at hbody
  obtain ⟨m, hm, hloop⟩ := consumes_default hd {}
    (49 :: (encodeBE 2 d.options.content.length ++ entryBytes d.options.content ++ more)) junk
    ((body ++ rest).length + 1) (by rw [hbody]; simp only [List.length_append]; omega)
  rw [← hbody] at hloop
  have hend := hloop.symm.trans hparse
  obtain ⟨m, rfl⟩ : ∃ k, m = k + 1 := ⟨m - 1, by omega⟩
  -- then come the entries
  rw [optionLoop, IStream.get_cons] at hend
  dsimp only at hend
  rw [if_neg (by simp), if_neg (by simp), if_neg (by decide)] at hend
  cases hturn : parseOption first (some 49)
    { rest := encodeBE 2 d.options.content.length ++ entryBytes d.options.content ++ more, junk := junk } with
  | throw e s =>
    rw [hturn] at hend
    exact absurd hend (by simp)
  | leave s is => exact parseOption_ne_leave _ _ _ _ _ hturn
  | next s is =>
    rw [hturn] at hend
    dsimp only at hend
    have heof : is.eof = false := by
      by_contra hc
      rw [Bool.not_eq_false] at hc
      cases m with
      | zero => exact absurd hend (by simp [optionLoop])
      | succ m =>
        rw [optionLoop, if_pos hc] at hend
        rw [(Outcome.done.inj hend).2] at hc
        exact absurd hc (by simp)
    obtain ⟨l, hs, hl, hrest⟩ := bytes_of_entries rfl hturn heof
    have hleft := local_parseOption first (some 49)
      { rest := encodeBE 2 d.options.content.length ++ entryBytes d.options.content ++ more, junk := junk } (fun hf => hf)
    rw [hturn] at hleft
    by_cases heq : d.options.content = l
    · -- the number of the entries is not part of the entries
      rw [← heq] at hrest
      exact entries_not_shifted hd.entries hne hd.count hrest
    · -- other entries have to be read behind them
      have hcost := cost_optionLoop (entryCost l) local_parseOption (fun his ht he => cost_parseOption l his ht he)
        (fun _ ht _ => absurd ht (parseOption_ne_leave _ _ _ _ _)) hleft.1.steady hend rfl
      have hzero : s.entryCost l = 0 := by
        rw [hs]
        simp [entryCost, Block.fill, hfirst]
      have hd' : d'.entryCost l = 2 + (entryBytes d.options.content).length + if d.multiselect.has then 2 else 0 := by
        have hm : d'.multiselect.has = d.multiselect.has := by
          have h := congrArg Option.isSome hreturned.multiselect
          rwa [Slot.sent_unchanged hchanged, Slot.isSome_get?, Slot.isSome_get?] at h
        rw [entryCost, hoptions, if_neg heq, hm]
      have hlength := congrArg List.length hrest
      have hmultiselect : (fieldBytes (d.multiselect.write .multiselect writeBool (writeBool false) true).1).length =
          if d.multiselect.has then 2 else 0 := by
        by_cases hh : d.multiselect.has = true
        · simp [Slot.write, writeOption, hh, fieldBytes, Field.bytes, writeBool]
        · simp [Slot.write, writeOption, hh, hchanged, fieldBytes]
      rw [hzero, hd'] at hcost
      simp only [List.length_append, List.length_cons, length_encodeBE, hmore, hmultiselect] at hlength hcost
      omega

/-- An enum definition is read back exactly if it has no entries. -/
theorem readsBack_iff (hd : d.Readable) (hunchanged : @TypeDefinition.anyOptionChanged .enum d = false) (mem : Memory)
    (rest : Bytes) (junk : Nat → UInt8) : d.ReadsBack mem rest junk ↔ d.options.content = [] :=
  ⟨empty_of_readsBack hd hunchanged, fun h => readsBack_of_empty hd hunchanged h mem rest junk⟩

/-- A default and a multiselect flag are read back. -/
theorem readsBack_default :
    ReadsBack {} [1] (fun _ => 0) { defaultValue := ⟨true, [97], false⟩, multiselect := ⟨true, true, false⟩ } := by
  refine (readsBack_iff ⟨fun s hs => ?_, fun w hw => absurd hw (by simp), by simp⟩ rfl {} [1] _).mpr rfl
  obtain rfl := Option.some.inj hs
  decide

/-- A single entry is not. -/
theorem entry_not_read :
    ¬∀ {d : EnumDefinition}, d.Readable → @TypeDefinition.anyOptionChanged .enum d = false →
      ∀ mem rest junk, d.ReadsBack mem rest junk := by
  intro h
  have hd : Readable { options := { content := [[97]] } } :=
    ⟨fun s hs => absurd hs (by simp [Slot.get?]), fun w hw => by obtain rfl := List.mem_singleton.mp hw; decide, by decide⟩
  exact absurd (empty_of_readsBack hd rfl (h hd rfl {} [] fun _ => 0)) (by simp)

end ReadBack

end EnumDefinition

end RabbitControl
