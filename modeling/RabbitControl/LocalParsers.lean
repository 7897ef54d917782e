import RabbitControl.Lib.Local
import RabbitControl.Packet

/-!
# The parsers are local

No parser of a packet loops forever, gives back what it has read, or looks beyond it (`local_parseData`).  The one
reader that is not local, `istream::get` into a buffer, is that of the custom types, which are never parsed.
-/

namespace RabbitControl

open Lib Result

/-! ### Values -/

theorem local_readInt16 : Local readInt16 :=
  (local_readBE 2).bind fun n => local_pure (Int16.ofBitVec (BitVec.ofNat 16 n))

theorem local_readChars (n : Nat) : Local (readChars n) :=
  (local_read n).bind fun l => local_pure (l ++ List.replicate (n - l.length) 0)

theorem local_readTinyString : Local readTinyString :=
  (local_readBE 1).bind fun n =>
    (local_const (r := (.error .lengthError : Except Stop (Bytes × IStream))) rfl (by decide)).ite (n ≥ 128)
      (local_readChars n).of_ok

/-- A string that is read before the end of the stream has taken at least its length. -/
theorem length_readTinyString {is is' : IStream} {l : Bytes} (h : is.Steady) (hr : readTinyString is = .ok (l, is'))
    (he : is'.eof = false) : is'.rest.length < is.rest.length := by
  unfold readTinyString at hr
  dsimp only at hr
  split at hr
  · exact absurd hr (by simp)
  · have hbe := local_pair (local_readBE 1) h
    have hchars := local_pair (local_readChars (is.readBE 1).1) hbe.1.steady
    rw [(Except.ok.inj hr)] at hchars
    have hlength := length_readBE h (hchars.1.eof_false he)
    have hle := hchars.1.length
    dsimp only at hle
    omega

theorem local_readShortString : Local readShortString := (local_readBE 2).bind fun n => (local_readChars n).of_ok

theorem local_readLongString : Local readLongString := (local_readBE 4).bind fun n => (local_readChars n).of_ok

theorem local_readBits (n : Nat) : Local (readBits n) :=
  (local_readBE n).bind fun v => (local_pure (BitVec.ofNat (8 * n) v)).of_ok

theorem local_readBool : Local readBool := (local_readBE 1).bind fun v => (local_pure (v != 0)).of_ok

theorem local_readIPv6 : Local readIPv6 :=
  (local_readBE 4).bind fun a => (local_readBE 4).bind fun b => (local_readBE 4).bind fun c =>
    (local_readBE 4).bind fun d => (local_pure (⟨.ofNat 32 a, .ofNat 32 b, .ofNat 32 c, .ofNat 32 d⟩ : IPv6)).of_ok

theorem local_readRange (t : NumberType) : Local (readRange t) :=
  (local_readBE t.size).bind fun a => (local_readBE t.size).bind fun b =>
    (local_pure ((BitVec.ofNat _ a, BitVec.ofNat _ b) : t.Val × t.Val)).of_ok

theorem local_readVector (n : Nat) : Local (readVector n) :=
  (local_readInto n).bind fun l => (local_pure (Vector.ofFn fun i => l.getD i 0)).of_ok

theorem local_readValue (τ : ValueType) : Local (readValue τ) := by
  cases τ with
  | boolean => exact local_readBool
  | number t => exact local_readBits t.size
  | string | uri => exact local_readLongString
  | enum => exact local_readTinyString
  | rgb | rgba | ipv4 => exact local_readBits 4
  | ipv6 => exact local_readIPv6
  | range t => exact local_readRange t
  | custom n => exact local_readVector n

/-! ### Type definitions -/

theorem NumberDefinition.local_parseOption {t : NumberType} (d : NumberDefinition t) (opt : Option UInt8) :
    Local (d.parseOption opt) := by
  unfold NumberDefinition.parseOption
  split
  · exact (local_readBits _).readOption
  · exact (local_readBits _).readOption
  · exact (local_readBits _).readOption
  · exact (local_readBits _).readOption
  · exact (local_get.bind fun c => (local_pure (c.getD 0)).of_ok).readOption
  · exact local_readTinyString.readOption
  · exact local_next d

theorem DefaultDefinition.local_parseOption {α : Type} {read : Reader α} (h : Local read) (d : DefaultDefinition α)
    (opt : Option UInt8) : Local (DefaultDefinition.parseOption read d opt) := by
  unfold DefaultDefinition.parseOption
  split
  · exact h.readOption
  · exact local_next d

theorem StringDefinition.local_parseOption (d : StringDefinition) (opt : Option UInt8) : Local (d.parseOption opt) := by
  unfold StringDefinition.parseOption
  split
  · exact local_readLongString.readOption
  · exact local_readLongString.readOption
  · exact local_next d

theorem UriDefinition.local_parseOption (d : UriDefinition) (opt : Option UInt8) : Local (d.parseOption opt) := by
  unfold UriDefinition.parseOption
  split
  · exact local_readLongString.readOption
  · exact local_readTinyString.readOption
  · exact local_readTinyString.readOption
  · exact local_next d

theorem RangeDefinition.local_parseOption {t : NumberType} (d : RangeDefinition t) (opt : Option UInt8) :
    Local (d.parseOption opt) := by
  unfold RangeDefinition.parseOption
  split
  · exact (local_readBE t.size).bind fun a => (local_next d).ite_eof <| (local_readBE t.size).bind fun b =>
      (local_next d).ite_eof <|
        local_next { d with defaultValue := d.defaultValue.fill (BitVec.ofNat _ a, BitVec.ofNat _ b) }
  · exact local_next d

/-- An enum with one more entry. -/
def EnumDefinition.addEntry (option : Bytes) (d : EnumDefinition) : EnumDefinition :=
  { d with options := d.options.fill (d.options.content ++ [option]) }

/-- The body of the loop over the entries of an enum. -/
def EnumDefinition.entriesBody (s : Bytes × EnumDefinition) (is : IStream) :
    Again (Bytes × EnumDefinition) (Turn EnumDefinition) :=
  if s.1 = [] then .stop (.next s.2 is)
  else
    match readTinyString is with
    | .error e => .stop (.throw e (s.2.addEntry s.1))
    | .ok (option, is) => if is.eof then .stop (.next (s.2.addEntry s.1) is) else .again (option, s.2.addEntry s.1) is

theorem EnumDefinition.parseEntries_runsBody :
    RunsBody (fun n (s : Bytes × EnumDefinition) is => parseEntries n s.1 s.2 is) entriesBody := by
  intro n s is
  dsimp only
  rw [parseEntries, entriesBody]
  split_ifs
  · rfl
  · dsimp only
    cases readTinyString is with
    | error e => rfl
    | ok r =>
      dsimp only
      split <;> rfl

theorem EnumDefinition.local_entriesBody (s : Bytes × EnumDefinition) : Local (entriesBody s) := by
  have hread := local_readTinyString.bindExcept
    (t := fun e => (Again.stop (Turn.throw e (s.2.addEntry s.1)) : Again (Bytes × EnumDefinition) (Turn EnumDefinition)))
    (fun _ => rfl) fun option => (local_next (s.2.addEntry s.1)).stop.ite_eof (local_again (option, s.2.addEntry s.1))
  refine ((local_next s.2).stop.ite (s.1 = []) hread).of_eq fun is => ?_
  rw [entriesBody]
  cases readTinyString is <;> rfl

theorem EnumDefinition.entriesBody_takes : Takes entriesBody := by
  intro s is s' is' his hb
  unfold entriesBody at hb
  split_ifs at hb
  cases hr : readTinyString is with
  | error e => rw [hr] at hb; exact absurd hb (by simp)
  | ok r =>
    rw [hr] at hb
    dsimp only at hb
    split_ifs at hb with he
    rw [← (Again.again.inj hb).2]
    exact length_readTinyString his hr (by simpa using he)

theorem EnumDefinition.local_parseOption (d : EnumDefinition) (opt : Option UInt8) : Local (d.parseOption opt) := by
  unfold EnumDefinition.parseOption
  split
  · exact local_readTinyString.readOption
  · set d' : EnumDefinition := { d with options := d.options.fill [] }
    have hread := local_readTinyString.bindExcept (t := fun e => Turn.throw e d') (fun _ => rfl) fun option =>
      (local_next d').ite_eof (local_loop parseEntries_runsBody local_entriesBody entriesBody_takes (option, d'))
    refine hread.of_eq fun is => ?_
    dsimp only
    cases readTinyString is <;> rfl
  · exact local_readBool.readOption
  · exact local_next d

/-- The type definitions of the types that are parsed. -/
theorem TypeDefinition.local_parseOptions {τ : ValueType} (hτ : ∀ n, τ ≠ .custom n) (d : TypeDefinition τ) :
    Local d.parseOptions := by
  cases τ with
  | boolean => exact local_optionList (DefaultDefinition.local_parseOption local_readBool) d
  | number t => exact local_optionList NumberDefinition.local_parseOption d
  | string => exact local_optionList StringDefinition.local_parseOption d
  | enum => exact local_optionList EnumDefinition.local_parseOption d
  | rgb | rgba | ipv4 => exact local_optionList (DefaultDefinition.local_parseOption (local_readBits 4)) d
  | ipv6 => exact local_optionList (DefaultDefinition.local_parseOption local_readIPv6) d
  | uri => exact local_optionList UriDefinition.local_parseOption d
  | range t =>
    have hrange := (local_optionList NumberDefinition.local_parseOption d.element).bindOutcome
      (t := fun e el => Outcome.throw e ({ d with element := el } : RangeDefinition t)) (fun _ _ => rfl)
      fun el => local_optionList RangeDefinition.local_parseOption { d with element := el }
    refine hrange.of_eq fun is => ?_
    show RangeDefinition.parseOptions d is = _
    unfold RangeDefinition.parseOptions NumberDefinition.parseOptions
    cases optionList NumberDefinition.parseOption d.element is <;> rfl
  | custom n => exact absurd rfl (hτ n)

/-- The definition of a parameter that is parsed. -/
theorem Kind.local_parseDefinition {k : Kind} (hk : ∀ n d v, k ≠ .value (.custom n) d v) : Local k.parseDefinition := by
  cases k with
  | value τ d v =>
    have hd : Local d.parseOptions := TypeDefinition.local_parseOptions (fun n hn => by subst hn; exact hk n d v rfl) d
    exact hd.map_outcome fun d => Kind.value τ d v
  | bang => exact local_get.bind fun _ => local_done Kind.bang
  | group c => exact local_get.bind fun _ => local_done (Kind.group c)
  | invalid => exact local_get.bind fun _ => local_done Kind.invalid

/-! ### Options -/

section Options

variable {σ : Type}

/-- The body of the loop over the entries of a language table. -/
def textsBody (read : Reader Bytes) (fill : Bytes → Bytes → σ → σ) (s : Option UInt8 × σ) (is : IStream) :
    Again (Option UInt8 × σ) (Turn σ) :=
  if s.1 = none ∨ s.1 = some 0 then .stop (.next s.2 is)
  else
    let code := is.read 3
    if code.2.eof then .stop (.next s.2 code.2)
    else
      match read code.2 with
      | .error e => .stop (.throw e s.2)
      | .ok (text, is) =>
        if is.eof then .stop (.next s.2 is)
        else
          let next := is.peek
          .again (next.1, fill (code.1.takeWhile (· != 0)) text s.2) next.2

variable {read : Reader Bytes} {fill : Bytes → Bytes → σ → σ}

theorem parseTexts_runsBody :
    RunsBody (fun n (s : Option UInt8 × σ) is => parseTexts read fill n s.1 s.2 is) (textsBody read fill) := by
  intro n s is
  dsimp only
  rw [parseTexts, textsBody]
  dsimp only
  split_ifs
  · rfl
  · rfl
  · cases read (is.read 3).2 with
    | error e => rfl
    | ok r =>
      dsimp only
      split <;> rfl

theorem local_textsBody (h : Local read) (s : Option UInt8 × σ) : Local (textsBody read fill s) := by
  have hread := fun code : Bytes => h.bindExcept
    (t := fun e => (Again.stop (Turn.throw e s.2) : Again (Option UInt8 × σ) (Turn σ))) (fun _ => rfl)
    fun text => (local_next s.2).stop.ite_eof <| local_peek.bind fun next =>
      local_again (next, fill (code.takeWhile (· != 0)) text s.2)
  have hcode := (local_read 3).bind fun code => (local_next s.2).stop.ite_eof (hread code)
  refine ((local_next s.2).stop.ite (s.1 = none ∨ s.1 = some 0) hcode).of_eq fun is => ?_
  rw [textsBody]
  dsimp only
  cases read (is.read 3).2 <;> rfl

theorem textsBody_takes (h : Local read) : Takes (textsBody read fill) := by
  intro s is s' is' his hb
  unfold textsBody at hb
  dsimp only at hb
  split_ifs at hb with h1 h2
  have hcode := local_pair (local_read 3) his
  have hlength := (length_read his (by simpa using h2)).2
  have hread := h _ hcode.1.steady
  cases hr : read (is.read 3).2 with
  | error e => rw [hr] at hb; exact absurd hb (by simp)
  | ok r =>
    rw [hr] at hb hread
    dsimp only at hb
    split_ifs at hb
    have hpeek := local_pair local_peek hread.1.steady
    rw [← (Again.again.inj hb).2]
    have hle := hpeek.1.length
    have hle' := hread.1.length
    omega

theorem local_parseText (h : Local read) (s : σ) : Local (parseText read fill s) := by
  have hbody : ∀ s, Local (textsBody read fill s) := local_textsBody h
  have hloop := fun peek : Option UInt8 => local_loop parseTexts_runsBody hbody (textsBody_takes h) (peek, s)
  have hend := fun peek => (hloop peek).bindTurn (t := fun e s => Turn.throw e s) (fun _ _ => rfl)
    (g := fun s is => if is.eof then .next s is else .next s is.get.2)
    (fun s => (local_next s).ite_eof (local_get.bind fun _ => local_next s)) local_leave
  refine (local_peek.bind fun peek => (local_next s).ite_eof (hend peek)).of_eq fun is => ?_
  have hrest : is.peek.2.rest = is.rest := by
    unfold IStream.peek
    split
    · split <;> simp_all
    · rfl
  rw [parseText, hrest]
  split
  · rfl
  · cases parseTexts read fill (is.rest.length + 1) is.peek.1 s is.peek.2 <;> rfl

/-- The group that a `PARENTID` option names is entered. -/
private theorem local_enterGroup (env : ParseEnv σ) (s : σ × Parameter) (group : Option Ref) :
    Local fun is => match group with
      | none => (.next s is : Turn (σ × Parameter))
      | some g =>
        match s.2.parent with
        | some p =>
          if env.idOf s.1 g = env.idOf s.1 p then .leave s is
          else
            let s := env.removeChild p s
            .next (s.1, { s.2 with parent := some g }) is
        | none => .next (s.1, { s.2 with parent := some g }) is := by
  split
  · exact local_next s
  · split
    · exact (local_leave s).ite _ (local_next _)
    · exact local_next _

theorem local_parseParent (env : ParseEnv σ) (s : σ × Parameter) : Local (parseParent env s) :=
  (local_readInt16.bind fun id => (local_next s).ite_eof <| (local_next s).ite (id = 0) <|
    local_enterGroup env s (env.getGroup s.1 id)).of_eq fun _ => rfl

theorem local_handleOption (s : σ × Parameter) (opt : Option UInt8) : Local (handleOption s opt) := by
  unfold handleOption
  split
  · next τ d v _ =>
    split
    · have hread := (local_readValue τ).bindExcept (t := fun e => Turn.throw e s) (fun _ => rfl) fun x =>
        (local_leave s).ite_eof (local_next (s.1, { s.2 with kind := .value τ d (v.fill x) }))
      refine hread.of_eq fun is => ?_
      cases readValue τ is <;> rfl
    · exact local_leave s
  · exact local_leave s

/-- One option of a parameter. -/
theorem local_parseOption (env : ParseEnv σ) (s : σ × Parameter) (opt : Option UInt8) :
    Local (parseOption env s opt) := by
  unfold parseOption
  split
  · exact local_parseText local_readTinyString s
  · exact local_parseText local_readShortString s
  · exact local_readTinyString.readOption
  · exact (local_readBits 4).readOption
  · exact local_parseParent env s
  · exact local_next s
  · exact (local_readBE 4).bind fun size => (local_read size).bind fun data =>
      local_next (s.1, { s.2 with userdata := s.2.userdata.fill (data ++
        (s.2.userdata.content.take size ++ List.replicate (size - s.2.userdata.content.length) 0).drop data.length) })
  · exact local_readTinyString.readOption
  · exact local_readBool.readOption
  · exact local_handleOption s opt

end Options

/-! ### Parameters -/

section Parameters

variable {σ : Type} {env : ParseEnv σ} {mem : Memory}

theorem parameterType_ne_custom {d : UInt8} {n : Nat} : parameterType d ≠ some (.value (.custom n)) := by
  unfold parameterType
  split <;> simp

theorem local_readParameterType (d : UInt8) : Local (readParameterType d) := by
  unfold readParameterType
  exact (local_get.bind fun c =>
    local_pure ((c.bind NumberType.ofDatatype).map fun t => ParameterType.value (.range t))).ite _ (local_pure _)

/-- No custom parameter is created. -/
theorem readParameterType_ne_custom (d : UInt8) (is : IStream) :
    ∀ n, (readParameterType d is).1 ≠ some (.value (.custom n)) := by
  intro n
  unfold readParameterType
  split
  · dsimp only
    cases (is.get.1.bind NumberType.ofDatatype) with
    | none => simp
    | some t => simp
  · exact parameterType_ne_custom

theorem kind_create_ne_custom (mem : Memory) (id : Id) {type : ParameterType} (ht : ∀ n, type ≠ .value (.custom n)) :
    ∀ n d v, (Parameter.create mem id type).kind ≠ .value (.custom n) d v := by
  intro n d v h
  cases type with
  | value τ =>
    rw [Parameter.create, Kind.make] at h
    have hτ : τ = .custom n := (Kind.value.inj h).1
    exact ht n (by rw [hτ])
  | bang | group | invalid => exact absurd h (by simp [Parameter.create, Kind.make])

theorem local_parseProxy (id : Id) {type : ParameterType} (ht : ∀ n, type ≠ .value (.custom n)) (s : σ) :
    Local (parseProxy env mem id type s) := by
  have hk := kind_create_ne_custom mem id ht
  have hlist := fun k => (local_optionList (local_parseOption env)
    (s, { Parameter.create mem id type with kind := k, managed := true })).map_outcome fun s => (s.1, some s.2)
  have h := (Kind.local_parseDefinition hk).bindOutcome
    (t := fun e k => Outcome.throw e (s, some { Parameter.create mem id type with kind := k })) (fun _ _ => rfl) hlist
  refine h.of_eq fun is => ?_
  rw [parseProxy]
  dsimp only
  cases (Parameter.create mem id type).kind.parseDefinition is <;> rfl

/-- A proxy of the type that was read, if there is one. -/
private theorem local_proxyOf (env : ParseEnv σ) (mem : Memory) (s : σ) (id : Id) (type : Option ParameterType)
    (ht : ∀ n, type ≠ some (.value (.custom n))) :
    Local fun is => match type with
      | none => (.done (s, none) is : Outcome (σ × Option Parameter))
      | some t => parseProxy env mem id t s is := by
  cases type with
  | none => exact local_done (s, none)
  | some t => exact local_parseProxy id (fun n hn => ht n (congrArg some hn)) s

/-- What `ParameterParser::parse` does once it has read the byte of the type. -/
private theorem local_typedParameter (env : ParseEnv σ) (mem : Memory) (s : σ) (id : Id) (datatype : Option UInt8) :
    Local fun is => match datatype with
      | none => (.done (s, none) is : Outcome (σ × Option Parameter))
      | some d =>
        if d ≥ datatypeMax then .done (s, none) is
        else
          match (readParameterType d is).1 with
          | none => .done (s, none) (readParameterType d is).2
          | some t => parseProxy env mem id t s (readParameterType d is).2 := by
  cases datatype with
  | none => exact local_done (s, none)
  | some d =>
    exact (local_done (s, none)).ite (d ≥ datatypeMax)
      ((local_readParameterType d).bindOf (readParameterType_ne_custom d) (local_proxyOf env mem s id))

theorem local_parseParameter (s : σ) : Local (parseParameter env mem s) := by
  refine (local_readInt16.bind fun id =>
    (local_done (s, none)).ite_eof (local_get.bind (local_typedParameter env mem s id))).of_eq fun is => ?_
  rw [parseParameter]
  dsimp only
  split
  · rfl
  · cases (readInt16 is).2.get.1 with
    | none => rfl
    | some d =>
      dsimp only
      split
      · rfl
      · rcases readParameterType d (readInt16 is).2.get.2 with ⟨_ | t, is'⟩ <;> rfl

/-! ### Packets -/

/-- The body of the option loop of version information. -/
def infoBody (s : Bytes × Bytes) (is : IStream) : Again (Bytes × Bytes) (Outcome (Bytes × Bytes)) :=
  if is.eof then .stop (.done s is)
  else
    let opt := is.get
    if opt.1 = some 0 then .stop (.done s opt.2)
    else if opt.2.eof || opt.2.fail then .stop (.done s opt.2)
    else if opt.1 = some 26 then
      match readTinyString opt.2 with
      | .error e => .stop (.throw e s)
      | .ok (a, is) => .again (s.1, a) is
    else .again s opt.2

theorem parseInfoOptions_runsBody : RunsBody parseInfoOptions infoBody := by
  intro n s is
  rw [parseInfoOptions, infoBody]
  dsimp only
  split_ifs
  · rfl
  · rfl
  · rfl
  · cases readTinyString is.get.2 <;> rfl
  · rfl

theorem local_infoBody (s : Bytes × Bytes) : Local (infoBody s) := by
  have hstop : Local fun is => (Again.stop (.done s is) : Again (Bytes × Bytes) (Outcome (Bytes × Bytes))) :=
    (local_done s).stop
  have hread := local_readTinyString.bindExcept
    (t := fun e => (Again.stop (Outcome.throw e s) : Again (Bytes × Bytes) (Outcome (Bytes × Bytes)))) (fun _ => rfl)
    fun a => local_again (s.1, a)
  have hopt := fun c : Option UInt8 => hstop.ite (c = some 0) <|
    hstop.ite_state (b := fun is => is.eof || is.fail) (fun _ _ => rfl) <| hread.ite (c = some 26) (local_again s)
  refine (hstop.ite_eof (local_get.bind hopt)).of_eq fun is => ?_
  rw [infoBody]
  dsimp only
  cases readTinyString is.get.2 <;> rfl

theorem infoBody_takes : Takes infoBody := by
  intro s is s' is' his hb
  unfold infoBody at hb
  dsimp only at hb
  split_ifs at hb with h1 h2 h3 h4
  · have hget := local_pair local_get his
    have hlength := length_get his (by simp_all)
    have hread := local_readTinyString _ hget.1.steady
    cases hr : readTinyString is.get.2 with
    | error e => rw [hr] at hb; exact absurd hb (by simp)
    | ok r =>
      rw [hr] at hb hread
      rw [← (Again.again.inj hb).2]
      have hle := hread.1.length
      omega
  · have hlength := length_get his (by simp_all)
    rw [← (Again.again.inj hb).2]
    omega

theorem local_parseInfo : Local parseInfo := by
  have h := local_readTinyString.bindExcept (t := fun e => (Outcome.throw e ([], []) : Outcome (Bytes × Bytes)))
    (fun _ => rfl) fun version => local_loop parseInfoOptions_runsBody local_infoBody infoBody_takes (version, [])
  refine h.of_eq fun is => ?_
  rw [parseInfo]
  cases readTinyString is <;> rfl

/-- The data of a packet. -/
theorem local_parseData (s : σ) (k : Packet) : Local (parseData env mem s k) := by
  unfold parseData
  split
  · exact local_parseInfo.map_outcome fun i => (s, { k with data := some (.info i.1 i.2) })
  · exact local_readInt16.bind fun id => local_done (s, { k with data := some (.id id) })
  · exact local_readInt16.bind fun id => local_done (s, { k with data := some (.id id) })
  · exact (local_parseParameter s).map_outcome fun r => (r.1, { k with data := r.2.map .parameter })
  · exact local_done (s, k)
  · exact local_done (s, k)

/-- The body of the option loop of a packet. -/
def packetBody (env : ParseEnv σ) (mem : Memory) (s : σ × Packet) (is : IStream) :
    Again (σ × Packet) (Outcome (Parsed σ)) :=
  if is.eof then .stop (.done ⟨s.1, some s.2, .accepted⟩ is)
  else
    let opt := is.get
    if opt.1 = some 0 then .stop (.done ⟨s.1, some s.2, .accepted⟩ opt.2)
    else if opt.2.eof || opt.2.fail then .stop (.done ⟨s.1, some s.2, .rejected⟩ opt.2)
    else if opt.1 = some 17 then
      let v := opt.2.readBE 8
      if v.2.eof then .again s v.2 else .again (s.1, { s.2 with timestamp := some v.1 }) v.2
    else if opt.1 = some 18 then
      if s.2.data.isSome then .stop (.done ⟨s.1, some s.2, .rejected⟩ opt.2)
      else
        match parseData env mem s.1 s.2 opt.2 with
        | .throw e s => .stop (.throw e ⟨s.1, some s.2, .threw e⟩)
        | .done s is => .again s is
    else .stop (.done ⟨s.1, some s.2, .accepted⟩ opt.2)

/-- The option loop of a packet, with the stream that it leaves. -/
def packetLoop (env : ParseEnv σ) (mem : Memory) : Nat → σ × Packet → IStream → Outcome (Parsed σ) :=
  runBody (packetBody env mem) fun s => .throw .hang ⟨s.1, some s.2, .threw .hang⟩

theorem state_packetLoop (n : Nat) (s : σ × Packet) (is : IStream) :
    (packetLoop env mem n s is).state = parsePacketOptions env mem n s.1 s.2 is := by
  induction n generalizing s is with
  | zero => rfl
  | succ n ih =>
    rw [packetLoop, runBody, parsePacketOptions, packetBody]
    dsimp only
    split_ifs
    · rfl
    · rfl
    · rfl
    · exact ih ..
    · exact ih ..
    · rfl
    · cases parseData env mem s.1 s.2 is.get.2 with
      | throw e s => rfl
      | done s is => exact ih s is
    · rfl

/-- The loop throws exactly if its verdict says so. -/
theorem verdict_packetLoop (n : Nat) (s : σ × Packet) (is : IStream) (e : Stop) :
    out (packetLoop env mem n s is) = .error e ↔ (packetLoop env mem n s is).state.verdict = .threw e := by
  induction n generalizing s is with
  | zero => simp [packetLoop, runBody, out, eq_comm]
  | succ n ih =>
    rw [packetLoop, runBody]
    cases hb : packetBody env mem s is with
    | again s' is' => exact ih s' is'
    | stop r =>
      dsimp only
      unfold packetBody at hb
      dsimp only at hb
      split_ifs at hb
      · rw [← Again.stop.inj hb]; simp [out]
      · rw [← Again.stop.inj hb]; simp [out]
      · rw [← Again.stop.inj hb]; simp [out]
      · rw [← Again.stop.inj hb]; simp [out]
      · cases hd : parseData env mem s.1 s.2 is.get.2 with
        | throw e' s' =>
          rw [hd] at hb
          rw [← Again.stop.inj hb]
          simp [out]
        | done s' is' => rw [hd] at hb; exact absurd hb (by simp)
      · rw [← Again.stop.inj hb]; simp [out]

theorem local_packetBody (s : σ × Packet) : Local (packetBody env mem s) := by
  have hstop : ∀ v, Local fun is =>
      (Again.stop (.done ⟨s.1, some s.2, v⟩ is) : Again (σ × Packet) (Outcome (Parsed σ))) := fun v =>
    (local_done (⟨s.1, some s.2, v⟩ : Parsed σ)).stop
  have hagain : ∀ s, Local fun is => (Again.again s is : Again (σ × Packet) (Outcome (Parsed σ))) := local_again
  have htime := (local_readBE 8).bind fun v => (hagain s).ite_eof (hagain (s.1, { s.2 with timestamp := some v }))
  have hparse : Local (parseData env mem s.1 s.2) := local_parseData s.1 s.2
  have hdata := hparse.bindOutcome
    (t := fun e s => (Again.stop (.throw e ⟨s.1, some s.2, .threw e⟩) : Again (σ × Packet) (Outcome (Parsed σ))))
    (fun _ _ => rfl) hagain
  have hopt := fun c : Option UInt8 => (hstop .accepted).ite (c = some 0) <|
    (hstop .rejected).ite_state (b := fun is => is.eof || is.fail) (fun _ _ => rfl) <| htime.ite (c = some 17) <|
      Local.ite (c = some 18) ((hstop .rejected).ite (s.2.data.isSome = true) hdata) (hstop .accepted)
  refine ((hstop .accepted).ite_eof (local_get.bind hopt)).of_eq fun is => ?_
  rw [packetBody]
  dsimp only
  cases parseData env mem s.1 s.2 is.get.2 <;> rfl

theorem packetBody_takes : Takes (packetBody env mem) := by
  intro s is s' is' his hb
  unfold packetBody at hb
  dsimp only at hb
  split_ifs at hb with h1 h2 h3 h4 h5 h6 h7
  all_goals
    have hget := local_pair local_get his
    have hlength := length_get his (by simp_all)
  · have htime := local_pair (local_readBE 8) hget.1.steady
    rw [← (Again.again.inj hb).2]
    have hle := htime.1.length
    omega
  · have htime := local_pair (local_readBE 8) hget.1.steady
    rw [← (Again.again.inj hb).2]
    have hle := htime.1.length
    omega
  · have hparse : Local (parseData env mem s.1 s.2) := local_parseData s.1 s.2
    have hdata := hparse _ hget.1.steady
    cases hd : parseData env mem s.1 s.2 is.get.2 with
    | throw e s => rw [hd] at hb; exact absurd hb (by simp)
    | done s is =>
      rw [hd] at hb hdata
      rw [← (Again.again.inj hb).2]
      have hle := hdata.1.length
      omega

theorem packetLoop_runsBody : RunsBody (packetLoop env mem) (packetBody env mem) := fun _ _ _ => rfl

end Parameters

theorem steady_stream (junk : Nat → UInt8) (p : Bytes) : (stream junk p).Steady := fun h => absurd h (by simp [stream])

theorem Store.verdict_parse (s : Store) (ch : Chance) (p : Bytes) :
    (s.parse ch p).verdict = (parsePacket storeEnv ch.mem s (stream ch.junk p)).verdict := by
  unfold parse
  dsimp only
  split <;> rfl

end RabbitControl
