import RabbitControl.Lib.Reading
import RabbitControl.Lib.TreeMap
import RabbitControl.ParameterParser

/-!
# Reading back what was written

What the parsers make of the bytes that the writers emit.  Strings come back if the reader can take their length; an
option that is written comes back as the content that is sent for it (`Slot.sent`), which for a cleared option is a
neutral one.
-/

namespace RabbitControl

open Lib

/-! ### Values -/

section Values

theorem reads_bits {n : Nat} (v : BitVec (8 * n)) : Reads (readBits n) (encodeBE n v.toNat) v := by
  intro tail junk
  have hv : BitVec.ofNat (8 * n) (v.toNat % 256 ^ n) = v := by
    rw [← decodeBE_encodeBE, ofNat_decodeBE_encodeBE]
  rw [readBits, IStream.readBE_encodeBE, hv]

theorem reads_bool (b : Bool) : Reads readBool (writeBool b) b := by
  intro tail junk
  cases b <;> rfl

theorem reads_get (c : UInt8) : Reads readGet [c] c := fun _ _ => rfl

@[simp] theorem readChars_append (s tail : Bytes) (junk : Nat → UInt8) :
    readChars s.length { rest := s ++ tail, junk := junk } = (s, { rest := tail, junk := junk }) := by
  simp [readChars]

/-- The one-byte length is read as a signed character. -/
theorem reads_tinyString {s : Bytes} (h : s.length ≤ 127) : Reads readTinyString (writeTinyString s) s := by
  intro tail junk
  have hwrite : writeTinyString s = encodeBE 1 s.length ++ s := if_neg (by omega)
  have hmod : s.length % 256 ^ 1 = s.length := Nat.mod_eq_of_lt (by omega)
  rw [readTinyString, hwrite, List.append_assoc, IStream.readBE_encodeBE, hmod]
  dsimp only
  rw [if_neg (by omega), readChars_append]

theorem reads_shortString {s : Bytes} (h : s.length ≤ 65534) : Reads readShortString (writeShortString s) s := by
  intro tail junk
  have hwrite : writeShortString s = encodeBE 2 s.length ++ s := if_neg (by omega)
  have hmod : s.length % 256 ^ 2 = s.length := Nat.mod_eq_of_lt (by omega)
  rw [readShortString, hwrite, List.append_assoc, IStream.readBE_encodeBE, hmod]
  dsimp only
  rw [readChars_append]

theorem reads_longString {s : Bytes} (h : s.length < 4294967296) :
    Reads readLongString (encodeBE 4 s.length ++ s) s := by
  intro tail junk
  have hmod : s.length % 256 ^ 4 = s.length := Nat.mod_eq_of_lt (by omega)
  rw [readLongString, List.append_assoc, IStream.readBE_encodeBE, hmod]
  dsimp only
  rw [readChars_append]

/-- `writeString` cuts off what its length cannot count. -/
theorem reads_string (s : Bytes) : Reads readLongString (writeString s) (s.take 4294967295) := by
  have hwrite : writeString s = encodeBE 4 (s.take 4294967295).length ++ s.take 4294967295 := by
    rw [writeString, List.length_take]
    split
    · next h => rw [Nat.min_eq_left h]
    · next h => rw [List.take_of_length_le (by omega), Nat.min_eq_right (by omega)]
  rw [hwrite]
  exact reads_longString (by rw [List.length_take]; omega)

theorem reads_IPv6 (a : IPv6) : Reads readIPv6 (writeIPv6 a) a := by
  intro tail junk
  have hword : ∀ (x : BitVec 32), BitVec.ofNat 32 (x.toNat % 256 ^ 4) = x := by
    intro x
    have h := ofNat_decodeBE_encodeBE (n := 4) x
    rwa [decodeBE_encodeBE] at h
  rw [writeIPv6, readIPv6]
  simp only [List.append_assoc, IStream.readBE_encodeBE, hword]

theorem reads_range (t : NumberType) (r : t.Val × t.Val) :
    Reads (readRange t) (encodeBE t.size r.1.toNat ++ encodeBE t.size r.2.toNat) r := by
  intro tail junk
  have hword : ∀ x : t.Val, BitVec.ofNat (8 * t.size) (x.toNat % 256 ^ t.size) = x := by
    intro x
    rw [← decodeBE_encodeBE, ofNat_decodeBE_encodeBE]
  rw [readRange, List.append_assoc]
  simp only [IStream.readBE_encodeBE, hword]

theorem reads_vector {n : Nat} (v : Vector UInt8 n) : Reads (readVector n) v.toList v := by
  intro tail junk
  have hlength : v.toList.length = n := by simp
  have hread : ({ rest := v.toList ++ tail, junk := junk } : IStream).readInto n =
      (v.toList, { rest := tail, junk := junk }) := by
    rw [← IStream.readInto_append v.toList, hlength]
  have hv : Vector.ofFn (fun i : Fin n => v.toList.getD i 0) = v := by
    ext i hi
    simp [List.getD]
  rw [readVector, hread, hv]

/-- The reader can take the length of the value. -/
def ValueType.Fits : (τ : ValueType) → τ.Val → Prop
  | .string, s | .uri, s => s.length < 4294967296
  | _, _ => True

theorem reads_value {τ : ValueType} (hτ : τ ≠ .enum) {v : τ.Val} (hv : τ.Fits v) :
    Reads (readValue τ) (writeValue τ v) v := by
  cases τ with
  | boolean => exact reads_bool v
  | number t => exact reads_bits v
  | string | uri => exact reads_longString hv
  | rgb | rgba | ipv4 => exact reads_bits (n := 4) v
  | ipv6 => exact reads_IPv6 v
  | range t => exact reads_range t v
  | custom n => exact reads_vector v
  | enum => exact absurd rfl hτ

theorem readInt16_append (v : Id) (tail : Bytes) (junk : Nat → UInt8) :
    readInt16 { rest := writeInt16 v ++ tail, junk := junk } = (v, { rest := tail, junk := junk }) := by
  have hv : Int16.ofBitVec (BitVec.ofNat 16 (v.toBitVec.toNat % 256 ^ 2)) = v := by
    have h := ofNat_decodeBE_encodeBE (n := 2) v.toBitVec
    rw [decodeBE_encodeBE] at h
    exact congrArg Int16.ofBitVec h
  rw [readInt16, writeInt16, IStream.readBE_encodeBE]
  exact congrArg (·, _) hv

end Values

/-! ### Options -/

section Slots

variable {α σ : Type} {turn : σ → Option UInt8 → IStream → Turn σ} {s : σ} {opt : OptionId} {all : Bool}

theorem fieldBytes_append (fs gs : List Field) : fieldBytes (fs ++ gs) = fieldBytes fs ++ fieldBytes gs :=
  List.flatMap_append

theorem OptionId.code_ne_zero (o : OptionId) : o.code ≠ 0 := by
  rcases o with _ | _ | _ | _ | _ | _ | _ | _ | _ | o | _ | _ | _ | _ | _ | _ | _ | _
  case number => cases o <;> decide
  all_goals decide

/-- What a writer sends for a slot: its content, or a neutral one if it was cleared. -/
def Slot.sent (all : Bool) (neutral : α) (s : Slot α) : Option α :=
  if s.has then if all || s.changed then some s.content else none
  else if s.changed then some neutral else none

/-- What a reader does with what it gets for a slot. -/
def Slot.receive (v : Option α) (s : Slot α) : Slot α := v.elim s fun v => s.fill v

/-- An option that is written is one option more to read, or none. -/
theorem consumes_writeOption {present changed : Bool} {payload cleared : Bytes} {s' : σ}
    (hpayload : present = true → (all || changed) = true → TurnsOn turn s opt.code payload s')
    (hcleared : present = false → changed = true → TurnsOn turn s opt.code cleared s')
    (hnone : (if present then all || changed else changed) = false → s' = s) :
    Consumes turn s (fieldBytes (writeOption opt present changed all payload cleared).1) s' := by
  have hfield : ∀ l : Bytes, fieldBytes [⟨opt, l⟩] = opt.code :: l := fun l => by simp [fieldBytes, Field.bytes]
  unfold writeOption
  split
  · next hp =>
    split
    · next hc => rw [hfield]; exact (hpayload hp hc).consumes opt.code_ne_zero
    · next hc => rw [hnone (by simpa [hp] using hc)]; exact .nil s
  · next hp =>
    rw [Bool.not_eq_true] at hp
    split
    · next hc => rw [hfield]; exact (hcleared hp hc).consumes opt.code_ne_zero
    · next hc => rw [hnone (by simpa [hp] using hc)]; exact .nil s

section Slot

variable {slot into : Slot α} {enc : α → Bytes} {cleared : Bytes} {neutral : α} {read : Reader α}

/-- A slot is read as what is sent for it, up to what `trim` makes of it. -/
theorem Slot.consumes_turns (put : Slot α → σ) (trim : α → α) (hput : put into = s) (hcleared : cleared = enc neutral)
    (hturn : ∀ v, slot.sent all neutral = some v → TurnsOn turn s opt.code (enc v) (put (into.fill (trim v)))) :
    Consumes turn s (fieldBytes (slot.write opt enc cleared all).1)
      (put (into.receive ((slot.sent all neutral).map trim))) := by
  refine consumes_writeOption (fun hp hc => ?_) (fun hp hc => ?_) fun hn => ?_
  · have hs : slot.sent all neutral = some slot.content := by rw [sent, if_pos hp, if_pos hc]
    have h := hturn _ hs
    rwa [← show into.receive ((slot.sent all neutral).map trim) = into.fill (trim slot.content) by rw [hs]; rfl] at h
  · have hs : slot.sent all neutral = some neutral := by rw [sent, if_neg (by simp [hp]), if_pos hc]
    have h := hturn _ hs
    rw [hcleared]
    rwa [← show into.receive ((slot.sent all neutral).map trim) = into.fill (trim neutral) by rw [hs]; rfl] at h
  · have hs : slot.sent all neutral = none := by
      unfold sent
      cases hh : slot.has <;> simp_all
    rw [hs]
    exact hput

theorem Slot.consumes_trimmed (put : Slot α → σ) (trim : α → α) (hput : put into = s)
    (hturn : ∀ is, turn s (some opt.code) is = readOption read (fun v _ => put (into.fill v)) s is)
    (hcleared : cleared = enc neutral) (hread : ∀ v, Reads read (enc v) (trim v)) :
    Consumes turn s (fieldBytes (slot.write opt enc cleared all).1)
      (put (into.receive ((slot.sent all neutral).map trim))) :=
  consumes_turns put trim hput hcleared fun v _ => (hread v).turnsOn hturn

theorem Slot.consumes_write (put : Slot α → σ) (hput : put into = s)
    (hturn : ∀ is, turn s (some opt.code) is = readOption read (fun v _ => put (into.fill v)) s is)
    (hcleared : cleared = enc neutral) (hread : ∀ v, slot.sent all neutral = some v → Reads read (enc v) v) :
    Consumes turn s (fieldBytes (slot.write opt enc cleared all).1) (put (into.receive (slot.sent all neutral))) := by
  have h : Consumes turn s (fieldBytes (slot.write opt enc cleared all).1)
      (put (into.receive ((slot.sent all neutral).map id))) :=
    consumes_turns put id hput hcleared fun v hv => (hread v hv).turnsOn hturn
  rwa [Option.map_id] at h

theorem Slot.get?_receive (h : into.has = false) (v : Option α) : (into.receive v).get? = v := by
  cases v with
  | none => simp [receive, get?, h]
  | some v => simp [receive, fill, get?]

end Slot

/-- A list is read as what it holds. -/
theorem Block.consumes_write {block : Block α} {enc : List α → Bytes} {cleared : Bytes} (put : List α → σ)
    (hput : put [] = s)
    (hturn : block.has = true → TurnsOn turn s opt.code (enc block.content) (put block.content))
    (hcleared : TurnsOn turn s opt.code cleared (put [])) :
    Consumes turn s (fieldBytes (block.write opt enc cleared all).1)
      (put (if all || block.changed then block.content else [])) := by
  have habsent : block.has = false → block.content = [] := by
    intro h
    simpa [has] using h
  refine consumes_writeOption (fun hp hc => ?_) (fun hp hc => ?_) fun hn => ?_
  · rw [if_pos hc]
    exact hturn hp
  · rw [habsent hp, ite_self]
    exact hcleared
  · have hnil : (if all || block.changed then block.content else []) = [] := by
      cases hp : block.has with
      | false => rw [habsent hp, ite_self]
      | true => rw [if_neg (by simpa [hp] using hn)]
    rw [hnil, hput]

end Slots

/-! ### Texts -/

namespace Text

/-- What is written of a text, entry by entry; the plain text has the code `any`. -/
def entries (t : Text) : List (Bytes × Bytes) :=
  (if t.has then [([97, 110, 121], t.content)] else []) ++ t.languages.toList

/-- The texts are short enough to be read, and the codes are three bytes that are not zero and not `any`. -/
structure Readable (n : Nat) (t : Text) : Prop where
  plain : t.has = true → t.content.length ≤ n
  code : ∀ {c s : Bytes}, t.languages[c]? = some s → c.length = 3 ∧ 0 ∉ c ∧ c ≠ [97, 110, 121]
  language : ∀ {c s : Bytes}, t.languages[c]? = some s → s.length ≤ n

/-- Store what was read of a text. -/
def receive (es : List (Bytes × Bytes)) (t : Text) : Text := es.foldl (fun t e => t.fill e.1 e.2) t

variable {t : Text} {n : Nat} {e : Bytes × Bytes}

theorem mem_languages (h : e ∈ t.languages.toList) : t.languages[e.1]? = some e.2 :=
  Std.ExtTreeMap.mem_toList_iff_getElem?_eq_some.mp h

theorem Readable.entry (h : t.Readable n) (he : e ∈ t.entries) : (e.1.length = 3 ∧ 0 ∉ e.1) ∧ e.2.length ≤ n := by
  rw [entries, List.mem_append] at he
  rcases he with he | he
  · by_cases hp : t.has = true
    · rw [if_pos hp, List.mem_singleton] at he
      rw [he]
      exact ⟨⟨rfl, by simp⟩, h.plain hp⟩
    · rw [if_neg hp] at he
      simp at he
  · have hc := h.code (mem_languages he)
    exact ⟨⟨hc.1, hc.2.1⟩, h.language (mem_languages he)⟩

theorem payload_eq (h : t.Readable n) (writeStr : Bytes → Bytes) :
    t.payload writeStr = (t.entries.flatMap fun e => e.1 ++ writeStr e.2) ++ [0] := by
  have hlanguages : (t.languages.toList.flatMap fun l => if l.1.length < 3 then [] else l.1.take 3 ++ writeStr l.2) =
      t.languages.toList.flatMap fun l => l.1 ++ writeStr l.2 := by
    rw [List.flatMap_def, List.flatMap_def]
    refine congrArg List.flatten (List.map_congr_left fun l hl => ?_)
    have hlen := (h.code (mem_languages hl)).1
    rw [if_neg (by omega), List.take_of_length_le (by omega)]
  rw [payload, hlanguages, entries, List.flatMap_append]
  cases t.has <;> simp

/-- A fresh text is filled with what the text shows. -/
theorem receive_entries (h : t.Readable n) :
    receive t.entries {} = { has := t.has, content := if t.has then t.content else [], languages := t.languages } := by
  have hfold : ∀ (l : List (Bytes × Bytes)) (u : Text), (∀ e ∈ l, e.1 ≠ [97, 110, 121]) →
      l.foldl (fun t e => t.fill e.1 e.2) u =
        { u with languages := l.foldl (fun (m : Std.ExtTreeMap Bytes Bytes) e => m.insert e.1 e.2) u.languages } := by
    intro l
    induction l with
    | nil => exact fun _ _ => rfl
    | cons e l ih =>
      intro u hl
      have he : u.fill e.1 e.2 = { u with languages := u.languages.insert e.1 e.2 } :=
        if_neg (hl e List.mem_cons_self)
      rw [List.foldl_cons, ih _ fun e' he' => hl e' (List.mem_cons_of_mem _ he'), he]
      rfl
  have hcode : ∀ e ∈ t.languages.toList, e.1 ≠ [97, 110, 121] := fun e he => (h.code (mem_languages he)).2.2
  have hplain : (if t.has then [(([97, 110, 121] : Bytes), t.content)] else []).foldl (fun (t : Text) e => t.fill e.1 e.2) {} =
      { has := t.has, content := if t.has then t.content else [] } := by
    cases t.has <;> rfl
  rw [receive, entries, List.foldl_append, hplain, hfold _ _ hcode]
  dsimp only
  rw [foldl_insert_toList]

/-- The entries that are written of a text, or that it is cleared. -/
def sent (all : Bool) (t : Text) : List (Bytes × Bytes) := if t.present && (all || t.changed) then t.entries else []

end Text

section Texts

variable {σ : Type} {turn : σ → Option UInt8 → IStream → Turn σ} {s : σ} {opt : OptionId} {all : Bool}
  {read : Reader Bytes} {fill : Bytes → Bytes → σ → σ} {writeStr : Bytes → Bytes}

/-- The entries are read one after the other, up to the closing zero. -/
private theorem parseTexts_entries (es : List (Bytes × Bytes)) (hcode : ∀ e ∈ es, e.1.length = 3 ∧ 0 ∉ e.1)
    (hread : ∀ e ∈ es, Reads read (writeStr e.2) e.2) (s : σ) (tail : Bytes) (junk : Nat → UInt8) {n : Nat}
    (hn : es.length < n) :
    parseTexts read fill n ((es.flatMap fun e => e.1 ++ writeStr e.2) ++ 0 :: tail).head? s
        { rest := (es.flatMap fun e => e.1 ++ writeStr e.2) ++ 0 :: tail, junk := junk } =
      .next (es.foldl (fun s e => fill e.1 e.2 s) s) { rest := 0 :: tail, junk := junk } := by
  induction es generalizing s n with
  | nil =>
    obtain ⟨m, rfl⟩ : ∃ m, n = m + 1 := ⟨n - 1, by simp at hn; omega⟩
    rfl
  | cons e es ih =>
    obtain ⟨m, rfl⟩ : ∃ m, n = m + 1 := ⟨n - 1, by simp at hn; omega⟩
    obtain ⟨hlen, hzero⟩ := hcode e List.mem_cons_self
    obtain ⟨c, cs, hc⟩ : ∃ c cs, e.1 = c :: cs := List.exists_cons_of_length_pos (by omega)
    have hne : some c ≠ some 0 := fun h => hzero (by rw [hc, Option.some.inj h]; exact List.mem_cons_self)
    have htake : e.1.takeWhile (· != 0) = e.1 := by
      rw [List.takeWhile_eq_self_iff]
      intro x hx
      simpa using fun h : x = 0 => hzero (h ▸ hx)
    set more := (es.flatMap fun e => e.1 ++ writeStr e.2) ++ 0 :: tail with hmore
    have hbytes : ((e :: es).flatMap fun e => e.1 ++ writeStr e.2) ++ 0 :: tail = e.1 ++ (writeStr e.2 ++ more) := by
      rw [List.flatMap_cons, hmore]
      simp only [List.append_assoc]
    have hpeek : ({ rest := more, junk := junk } : IStream).peek = (more.head?, { rest := more, junk := junk }) := by
      have hpos : more ≠ [] := by rw [hmore]; simp
      cases hm : more with
      | nil => exact absurd hm hpos
      | cons => rfl
    rw [hbytes]
    have hthree : ({ rest := e.1 ++ (writeStr e.2 ++ more), junk := junk } : IStream).read 3 =
        (e.1, { rest := writeStr e.2 ++ more, junk := junk }) := by
      rw [← hlen, IStream.read_append]
    unfold parseTexts
    rw [if_neg (by rw [hc]; simpa using hne), hthree]
    dsimp only
    rw [if_neg (by simp), hread e List.mem_cons_self]
    dsimp only
    rw [if_neg (by simp), hpeek, htake]
    exact ih (fun e' he' => hcode e' (List.mem_cons_of_mem _ he')) (fun e' he' => hread e' (List.mem_cons_of_mem _ he'))
      _ (by simp at hn; omega)

theorem turnsOn_entries (writeStr : Bytes → Bytes) (es : List (Bytes × Bytes)) {c : UInt8}
    (hcode : ∀ e ∈ es, e.1.length = 3 ∧ 0 ∉ e.1)
    (hread : ∀ e ∈ es, Reads read (writeStr e.2) e.2) (hturn : ∀ is, turn s (some c) is = parseText read fill s is) :
    TurnsOn turn s c ((es.flatMap fun e => e.1 ++ writeStr e.2) ++ [0]) (es.foldl (fun s e => fill e.1 e.2 s) s) := by
  intro tail junk
  have hbytes : (es.flatMap fun e => e.1 ++ writeStr e.2) ++ [0] ++ tail =
      (es.flatMap fun e => e.1 ++ writeStr e.2) ++ 0 :: tail := by simp
  set l := (es.flatMap fun e => e.1 ++ writeStr e.2) ++ 0 :: tail with hl
  have hlen : es.length < l.length + 1 := by
    have hes : es.length ≤ (es.flatMap fun e => e.1 ++ writeStr e.2).length := by
      clear hl hread hturn hbytes l
      induction es with
      | nil => simp
      | cons e es ih =>
        have he := (hcode e List.mem_cons_self).1
        have h := ih fun e' he' => hcode e' (List.mem_cons_of_mem _ he')
        rw [List.flatMap_cons, List.length_cons, List.length_append, List.length_append]
        omega
    rw [hl, List.length_append]
    omega
  have hpeek : ({ rest := l, junk := junk } : IStream).peek = (l.head?, { rest := l, junk := junk }) := by
    have hpos : l ≠ [] := by rw [hl]; simp
    cases hm : l with
    | nil => exact absurd hm hpos
    | cons => rfl
  rw [hturn, hbytes, parseText, hpeek]
  dsimp only
  rw [if_neg (by simp), parseTexts_entries es hcode hread s tail junk hlen]
  rfl

/-- A text is read as what is sent of it. -/
theorem Text.consumes_write {t : Text} {n : Nat} (h : t.Readable n)
    (hread : ∀ {s : Bytes}, s.length ≤ n → Reads read (writeStr s) s)
    (hturn : ∀ is, turn s (some opt.code) is = parseText read fill s is) :
    Consumes turn s (fieldBytes (t.write opt writeStr all).1) ((t.sent all).foldl (fun s e => fill e.1 e.2 s) s) := by
  refine consumes_writeOption (fun hp hc => ?_) (fun hp hc => ?_) fun hn => ?_
  · rw [sent, if_pos (by simp [hp, hc]), payload_eq h]
    exact turnsOn_entries writeStr _ (fun e he => (h.entry he).1) (fun e he => hread (h.entry he).2) hturn
  · rw [sent, if_neg (by simp [hp])]
    exact turnsOn_entries writeStr [] (by simp) (by simp) hturn
  · rw [sent, if_neg]
    · rfl
    · cases hp : t.present <;> simp_all

end Texts

end RabbitControl
