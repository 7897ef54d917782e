import RabbitControl.StoreLemmas
import RabbitControl.PacketLemmas

/-!
# The id that a packet names

Whatever memory holds and whatever is cached, a message is read as a parameter under one id at most, `announcedId`.
A packet that a server or a client writes for a parameter announces the id of that parameter.
-/

namespace RabbitControl

open Lib

/-! ### Good streams -/

section Stream

variable {junk : Nat → UInt8} {data : Bytes} {n : Nat}

@[simp] theorem get_stream_cons (c : UInt8) (data : Bytes) :
    (stream junk (c :: data)).get = (some c, stream junk data) := rfl

theorem readBE_stream (h : n ≤ data.length) :
    (stream junk data).readBE n = (decodeBE (data.take n), stream junk (data.drop n)) := by
  have hr : (stream junk data).read n = (data.take n, stream junk (data.drop n)) := by
    simp [stream, IStream.read, IStream.good, h]
  have hn : n - (data.take n).length = 0 := by rw [List.length_take]; omega
  simp only [IStream.readBE, IStream.readInto, hr, hn]
  simp [stream]

theorem eof_readBE_stream (h : data.length < n) : ((stream junk data).readBE n).2.eof = true := by
  have hn : ¬n ≤ data.length := by omega
  simp [stream, IStream.readBE, IStream.readInto, IStream.read, IStream.good, hn]

end Stream

/-! ### Announced ids -/

def bytesId (hi lo : UInt8) : Id := Int16.ofBitVec (BitVec.ofNat 16 (decodeBE [hi, lo]))

/-- The id of a parameter of a known type, and what follows if the type is not known. -/
def announcedParameter : Bytes → Option Id × Bytes
  | hi :: lo :: d :: rest =>
    if d ≥ datatypeMax then (none, rest)
    else if d = 45 then
      match rest with
      | e :: rest => (if (NumberType.ofDatatype e).isSome then some (bytesId hi lo) else none, rest)
      | [] => (none, [])
    else (if (parameterType d).isSome then some (bytesId hi lo) else none, rest)
  | _ => (none, [])

/-- Timestamps and parameters of an unknown type may come first. -/
def announcedOptions : Nat → Bytes → Option Id
  | 0, _ => none
  | n + 1, opt :: rest =>
    if opt = 17 then announcedOptions n (rest.drop 8)
    else if opt = 18 then
      match announcedParameter rest with
      | (some id, _) => some id
      | (none, rest) => announcedOptions n rest
    else none
  | _ + 1, [] => none

def announcedId (data : Bytes) : Option Id :=
  match commandOf data, data.tail with
  | some .update, rest => announcedOptions (rest.length + 1) rest
  | some .updateValue, hi :: lo :: _ => some (bytesId hi lo)
  | _, _ => none

/-- The id and the type of a parameter. -/
def Parameter.identity (p : Parameter) : Id × UInt8 := (p.parameterId, p.getDatatype)

theorem Parameter.known_of_identity {p q : Parameter} (h : p.identity = q.identity) : p.known = q.known := by
  rw [known, known, show p.getDatatype = q.getDatatype from congrArg Prod.snd h]

/-- The types that a parser creates are known. -/
theorem known_create_of_datatype {d : UInt8} {type : ParameterType} (h : parameterType d = some type) (mem : Memory)
    (id : Id) : (Parameter.create mem id type).known = true := by
  unfold parameterType at h
  split at h
  all_goals first | (obtain rfl := Option.some.inj h; rfl) | skip
  obtain ⟨τ, -, rfl⟩ := Option.map_eq_some_iff.mp h
  cases τ <;> rfl

/-- Only updates announce a parameter. -/
theorem command_of_announcedId {data : Bytes} {i : Id} (h : announcedId data = some i) :
    commandOf data = some .update ∨ commandOf data = some .updateValue := by
  unfold announcedId at h
  split at h
  all_goals first | exact Or.inl (by assumption) | exact Or.inr (by assumption) | simp at h

section Parse

variable {σ : Type} {env : ParseEnv σ} {mem : Memory}

/-- What holds after an option: only user data, an user id or a value change more than the texts, the order, the parent
and the readonly flag of the proxy. -/
theorem parseOption_keeps {P : σ × Parameter → Prop} {opt : Option UInt8}
    (hset : ∀ {s : σ} {p q : Parameter}, q.parameterId = p.parameterId → q.kind = p.kind → q.userdata = p.userdata →
      q.userid = p.userid → P (s, p) → P (s, q))
    (huserdata : opt = some 39 → ∀ s b, P s → P (s.1, { s.2 with userdata := b }))
    (huserid : opt = some 40 → ∀ s b, P s → P (s.1, { s.2 with userid := b }))
    (hvalue : ∀ {s : σ × Parameter} {τ : ValueType} {d : TypeDefinition τ} {v : Slot τ.Val} {x : τ.Val} {is is' : IStream},
      s.2.kind = .value τ d v → readValue τ is = .ok (x, is') → P s → P (s.1, { s.2 with kind := .value τ d (v.fill x) }))
    (hleave : ∀ g s, P s → P (env.removeChild g s)) (s : σ × Parameter) (is : IStream) (h : P s) :
    P (parseOption env s opt is).state := by
  have htexts : ∀ (read : Reader Bytes) (fill : Bytes → Bytes → σ × Parameter → σ × Parameter),
      (∀ c v s, P s → P (fill c v s)) → ∀ (n : Nat) (peek : Option UInt8)
      (s : σ × Parameter) (is : IStream), P s → P (parseTexts read fill n peek s is).state := by
    intro read fill hfill n
    induction n with
    | zero => exact fun _ _ _ h => h
    | succ n ih =>
      intro peek s is h
      unfold parseTexts
      dsimp only
      repeat' split
      all_goals first | exact h | exact ih _ _ _ (hfill _ _ _ h)
  have htext : ∀ (read : Reader Bytes) (fill : Bytes → Bytes → σ × Parameter → σ × Parameter),
      (∀ c v s, P s → P (fill c v s)) → P (parseText read fill s is).state := by
    intro read fill hfill
    have ht := htexts read fill hfill (is.rest.length + 1) is.peek.1 s is.peek.2 h
    unfold parseText
    dsimp only
    split
    · exact h
    · split
      · next heq => rw [heq] at ht; split <;> exact ht
      · exact ht
  have hread : ∀ {α : Type} (read : Reader α) (set : α → σ × Parameter → σ × Parameter),
      (∀ v s, P s → P (set v s)) → P (readOption read set s is).state := by
    intro α read set hs
    rcases readOption_state read set s is with hr | ⟨v, hr⟩ <;> rw [hr]
    · exact h
    · exact hs v s h
  unfold parseOption
  split
  · exact htext _ _ fun _ _ _ => hset rfl rfl rfl rfl
  · exact htext _ _ fun _ _ _ => hset rfl rfl rfl rfl
  · exact hread _ _ fun _ _ => hset rfl rfl rfl rfl
  · exact hread _ _ fun _ _ => hset rfl rfl rfl rfl
  · have hparent : ∀ s : σ × Parameter, P s → ∀ g, P (s.1, { s.2 with parent := g }) :=
      fun s hs _ => hset (p := s.2) rfl rfl rfl rfl hs
    unfold parseParent
    dsimp only
    repeat' split
    all_goals first | exact h | exact hparent _ h _ | exact hparent _ (hleave _ _ h) _
  · exact h
  · exact huserdata rfl s _ h
  · exact hread _ _ fun v s => huserid rfl s (s.2.userid.fill v)
  · exact hread _ _ fun _ _ => hset rfl rfl rfl rfl
  · unfold handleOption
    split
    · next τ d v hk =>
      split
      · cases hr : readValue τ is with
        | error e => exact h
        | ok r =>
          dsimp only
          split
          · exact h
          · exact hvalue hk hr h
      · exact h
    · exact h

/-- What changes of the proxy keep, as long as it stays what it is, and what leaving a group keeps, holds after every
option. -/
theorem parseOption_forall {P : σ × Parameter → Prop}
    (hset : ∀ {s : σ} {p q : Parameter}, q.identity = p.identity → P (s, p) → P (s, q))
    (hleave : ∀ g s, P s → P (env.removeChild g s)) (s : σ × Parameter) (opt : Option UInt8) (is : IStream)
    (h : P s) : P (parseOption env s opt is).state := by
  refine parseOption_keeps (fun hid hk _ _ => hset ?_) (fun _ _ _ => hset rfl) (fun _ _ _ => hset rfl)
    (fun {s τ d v x _ _} hk _ => hset ?_) hleave s is h
  · simp only [Parameter.identity, Parameter.getDatatype, hid, hk]
  · simp only [Parameter.identity, Parameter.getDatatype, hk]
    rfl

/-- The parser of options keeps the id and the type of the proxy. -/
private theorem identity_parseOption (henv : ∀ g s, (env.removeChild g s).2.identity = s.2.identity)
    (s : σ × Parameter) (opt : Option UInt8) (is : IStream) :
    (parseOption env s opt is).state.2.identity = s.2.identity :=
  parseOption_forall (P := fun x => x.2.identity = s.2.identity) (fun hq hp => hq.trans hp)
    (fun g x hx => (henv g x).trans hx) s opt is rfl

/-- What leaving a group keeps of the state holds after the parse of a packet. -/
theorem parsePacket_forall {P : σ → Prop} (henv : ∀ g s, P s.1 → P (env.removeChild g s).1) {s : σ} (is : IStream)
    (h : P s) : P (parsePacket env mem s is).state := by
  have hproxy : ∀ (id : Id) (type : ParameterType) (s : σ) (is : IStream), P s →
      P (parseProxy env mem id type s is).state.1 := by
    intro id type s is h
    unfold parseProxy
    dsimp only
    split
    · exact h
    · rw [Outcome.state_map]
      exact optionList_forall (P := fun x : σ × Parameter => P x.1)
        (fun x c is hx => parseOption_forall (P := fun x => P x.1) (fun _ hp => hp) henv x c is hx) _ _ h
  have hparameter : ∀ (s : σ) (is : IStream), P s → P (parseParameter env mem s is).state.1 := by
    intro s is h
    unfold parseParameter
    dsimp only
    repeat' split
    all_goals first | exact h | exact hproxy _ _ _ _ h
  have hdata : ∀ (s : σ) (k : Packet) (is : IStream), P s → P (parseData env mem s k is).state.1 := by
    intro s k is h
    unfold parseData
    split
    · rw [Outcome.state_map]; exact h
    · exact h
    · exact h
    · rw [Outcome.state_map]; exact hparameter s is h
    · exact h
    · exact h
  unfold parsePacket
  dsimp only
  split
  · exact h
  · split <;> exact h
  · obtain ⟨k, -, hk⟩ := parsePacketOptions_forall (P := fun s _ => P s) (fun _ _ _ h => h)
      (fun s k is _ h => hdata s k is h) _ s _ is.get.2 h
    exact hk

theorem readInt16_stream (junk : Nat → UInt8) (hi lo : UInt8) (rest : Bytes) :
    readInt16 (stream junk (hi :: lo :: rest)) = (bytesId hi lo, stream junk rest) := by
  rw [readInt16, readBE_stream (by simp)]
  rfl

private theorem datatype_parseDefinition (k : Kind) (is : IStream) :
    (k.parseDefinition is).state.datatype = k.datatype := by
  cases k with
  | value τ d v => rw [Kind.parseDefinition, Outcome.state_map]; rfl
  | _ => rfl

/-- A proxy keeps its id and its type to the end. -/
private theorem identity_parseProxy (henv : ∀ g s, (env.removeChild g s).2.identity = s.2.identity)
    (id : Id) (type : ParameterType) (s : σ) (is : IStream) :
    ∃ p, p.identity = (Parameter.create mem id type).identity ∧
      (parseProxy env mem id type s is).state.2 = some p := by
  have hdef := datatype_parseDefinition (Parameter.create mem id type).kind is
  unfold parseProxy
  dsimp only
  split
  · next heq =>
    rw [heq] at hdef
    refine ⟨_, ?_, rfl⟩
    exact congrArg (Prod.mk id) hdef
  · next k is' heq =>
    rw [heq] at hdef
    refine ⟨_, ?_, by rw [Outcome.state_map]⟩
    exact optionList_forall (P := fun x : σ × Parameter => x.2.identity = (Parameter.create mem id type).identity)
      (fun x c is hx => (identity_parseOption henv x c is).trans hx)
      (s, { Parameter.create mem id type with kind := k, managed := true }) is' (congrArg (Prod.mk id) hdef)

/-- A parameter whose id and type are there. -/
theorem parseParameter_stream (s : σ) (junk : Nat → UInt8) (hi lo d : UInt8) (rest : Bytes) :
    parseParameter env mem s (stream junk (hi :: lo :: d :: rest)) =
      if d ≥ datatypeMax then .done (s, none) (stream junk rest)
      else
        match readParameterType d (stream junk rest) with
        | (none, is) => .done (s, none) is
        | (some t, is) => parseProxy env mem (bytesId hi lo) t s is := by
  unfold parseParameter
  rw [readInt16_stream]
  rfl

private theorem announcedParameter_cons (hi lo d : UInt8) (rest : Bytes) :
    announcedParameter (hi :: lo :: d :: rest) =
      if d ≥ datatypeMax then (none, rest)
      else if d = 45 then
        match rest with
        | e :: rest => (if (NumberType.ofDatatype e).isSome then some (bytesId hi lo) else none, rest)
        | [] => (none, [])
      else (if (parameterType d).isSome then some (bytesId hi lo) else none, rest) :=
  rfl

/-- A parameter is read under the announced id, or not at all. -/
private theorem parseParameter_announced
    (henv : ∀ g s, (env.removeChild g s).2.identity = s.2.identity) (s : σ) (junk : Nat → UInt8)
    (data : Bytes) :
    (∃ p : Parameter, ((announcedParameter data).1 = some p.parameterId ∧ p.known = true) ∧
        (parseParameter env mem s (stream junk data)).state.2 = some p) ∨
      (announcedParameter data).1 = none ∧ ∃ is, parseParameter env mem s (stream junk data) = .done (s, none) is ∧
        (is.eof = true ∨ is = stream junk (announcedParameter data).2) := by
  have short : ∀ data : Bytes, data.length < 2 → ∃ is, parseParameter env mem s (stream junk data) =
      .done (s, none) is ∧ is.eof = true := by
    intro data hd
    have heof : (readInt16 (stream junk data)).2.eof = true := eof_readBE_stream hd
    unfold parseParameter
    dsimp only
    rw [if_pos heof]
    exact ⟨_, rfl, heof⟩
  match data with
  | [] =>
    obtain ⟨is, h1, h2⟩ := short [] (by simp)
    exact Or.inr ⟨rfl, is, h1, Or.inl h2⟩
  | [c] =>
    obtain ⟨is, h1, h2⟩ := short [c] (by simp)
    exact Or.inr ⟨rfl, is, h1, Or.inl h2⟩
  | [hi, lo] =>
    refine Or.inr ⟨rfl, (stream junk []).get.2, ?_, Or.inl rfl⟩
    unfold parseParameter
    rw [readInt16_stream]
    rfl
  | hi :: lo :: d :: rest =>
    rw [parseParameter_stream, announcedParameter_cons]
    by_cases hd : d ≥ datatypeMax
    · rw [if_pos hd, if_pos hd]
      exact Or.inr ⟨rfl, _, rfl, Or.inr rfl⟩
    rw [if_neg hd, if_neg hd]
    unfold readParameterType
    by_cases h45 : d = 45
    · rw [if_pos h45, if_pos h45]
      cases rest with
      | nil => exact Or.inr ⟨rfl, _, rfl, Or.inl rfl⟩
      | cons e rest =>
        rw [get_stream_cons]
        dsimp only
        rw [Option.bind_some]
        cases he : NumberType.ofDatatype e with
        | none => exact Or.inr ⟨rfl, _, rfl, Or.inr rfl⟩
        | some τ =>
          obtain ⟨p, hp, hst⟩ := identity_parseProxy henv (bytesId hi lo) (.value (.range τ)) s
            (stream junk rest)
          have hid : p.parameterId = bytesId hi lo := congrArg Prod.fst hp
          exact Or.inl ⟨p, ⟨by rw [hid]; rfl, Parameter.known_of_identity hp⟩, hst⟩
    · rw [if_neg h45, if_neg h45]
      cases ht : parameterType d with
      | none => exact Or.inr ⟨rfl, _, rfl, Or.inr rfl⟩
      | some type =>
        obtain ⟨p, hp, hst⟩ := identity_parseProxy henv (bytesId hi lo) type s (stream junk rest)
        have hid : p.parameterId = bytesId hi lo := congrArg Prod.fst hp
        have hknown := (Parameter.known_of_identity hp).trans (known_create_of_datatype ht mem (bytesId hi lo))
        exact Or.inl ⟨p, ⟨by rw [hid]; rfl, hknown⟩, hst⟩

/-- The first parameter of a packet stays its data. -/
theorem parsePacketOptions_of_data {k : Packet} {d : PacketData} (hk : k.data = some d) (n : Nat) (s : σ)
    (is : IStream) :
    ∃ k', (parsePacketOptions env mem n s k is).packet = some k' ∧ k'.data = some d :=
  parsePacketOptions_forall (P := fun _ k => k.data = some d) (fun _ _ _ h => h)
    (fun _ _ _ hn h => by rw [hn] at h; simp at h) n s k is hk

private theorem parsePacketOptions_announced
    (henv : ∀ g s, (env.removeChild g s).2.identity = s.2.identity) (n : Nat) {k k' : Packet} {p : Parameter}
    (s : σ) (junk : Nat → UInt8) (data : Bytes) (hc : k.command = .update) (hd : k.data = none)
    (h : (parsePacketOptions env mem n s k (stream junk data)).packet = some k') (hp : k'.parameter = some p) :
    announcedOptions n data = some p.parameterId ∧ p.known = true := by
  induction n generalizing s k data with
  | zero =>
    rw [parsePacketOptions] at h
    rw [← Option.some.inj h, Packet.parameter, hd] at hp
    simp at hp
  | succ n ih =>
    -- at the end of the stream there is no parameter
    have ended : ∀ {n s k'} {is : IStream} {k : Packet}, is.eof = true → k.data = none →
        (parsePacketOptions env mem n s k is).packet = some k' → k'.parameter = none := by
      intro n s k' is k heof hk h
      cases n with
      | zero =>
        rw [parsePacketOptions] at h
        rw [← Option.some.inj h, Packet.parameter, hk]
      | succ n =>
        rw [parsePacketOptions, if_pos heof] at h
        rw [← Option.some.inj h, Packet.parameter, hk]
    have none_of : ∀ {v : Verdict}, (⟨s, some k, v⟩ : Parsed σ).packet = some k' → False := by
      intro v hv
      rw [← Option.some.inj hv, Packet.parameter, hd] at hp
      simp at hp
    unfold parsePacketOptions at h
    dsimp only at h
    rw [if_neg (by simp [stream])] at h
    cases data with
    | nil => exact (none_of h).elim
    | cons opt rest =>
      rw [get_stream_cons] at h
      rw [announcedOptions]
      dsimp only at h
      split at h
      · exact (none_of h).elim
      split at h
      · exact (none_of h).elim
      split at h
      · next hopt =>
        rw [Option.some.injEq] at hopt
        rw [if_pos hopt]
        by_cases hl : 8 ≤ rest.length
        · rw [readBE_stream hl] at h
          dsimp only at h
          rw [if_neg (by simp [stream])] at h
          exact ih s (rest.drop 8) (by exact hc) (by exact hd) h
        · have heof : ((stream junk rest).readBE 8).2.eof = true := eof_readBE_stream (by omega)
          rw [if_pos heof] at h
          rw [ended heof hd h] at hp
          simp at hp
      · next hopt =>
        rw [Option.some.injEq] at hopt
        rw [if_neg hopt]
        split at h
        · next h18 =>
          rw [Option.some.injEq] at h18
          rw [if_pos h18]
          rw [if_neg (by simp [hd])] at h
          have hdata : parseData env mem s k (stream junk rest) =
              (parseParameter env mem s (stream junk rest)).map
                fun r => (r.1, { k with data := r.2.map .parameter }) := by
            rw [parseData, hc]
          rw [hdata] at h
          rcases parseParameter_announced henv s junk rest with ⟨q, ⟨hq, hqk⟩, hst⟩ | ⟨hno, is, hst, his⟩
          · -- the packet has its parameter
            have hk' : ∃ d, k'.data = some d ∧ d = .parameter q := by
              generalize parseParameter env mem s (stream junk rest) = o at h hst
              cases o with
              | throw e x =>
                simp only [Outcome.map, Outcome.state] at h hst
                rw [← Option.some.inj h, hst]
                exact ⟨_, rfl, rfl⟩
              | done x is =>
                simp only [Outcome.map, Outcome.state] at h hst
                rw [hst] at h
                obtain ⟨k₂, h1, h2⟩ := parsePacketOptions_of_data
                  (k := { k with data := some (.parameter q) }) rfl n x.1 is
                rw [Option.map_some, h1] at h
                exact ⟨_, by rw [← Option.some.inj h]; exact h2, rfl⟩
            obtain ⟨d, hkd, rfl⟩ := hk'
            rw [Packet.parameter, hkd] at hp
            rcases hann : announcedParameter rest with ⟨_ | id, rest'⟩
            · rw [hann] at hq; simp at hq
            · rw [hann] at hq
              rw [← Option.some.inj hp]
              exact ⟨hq, hqk⟩
          · rw [hst] at h
            rcases hann : announcedParameter rest with ⟨_ | id, rest'⟩
            · rw [hann] at his
              dsimp only [Outcome.map] at h
              rcases his with heof | rfl
              · rw [ended heof rfl h] at hp
                simp at hp
              · exact ih s rest' (by exact hc) (by rfl) h
            · rw [hann] at hno; simp at hno
        · exact (none_of h).elim

private theorem tail_of_parseUpdateValue {junk : Nat → UInt8} {data : Bytes} {p : Parameter}
    (h : parseUpdateValue mem (stream junk data) = .ok (some p)) :
    ∃ hi lo rest, data = hi :: lo :: rest ∧ p.parameterId = bytesId hi lo ∧ p.known = true := by
  -- in a short packet the stream has ended before the datatype
  have short : ∀ data : Bytes, data.length < 2 → parseUpdateValue mem (stream junk data) = .ok none := by
    intro data hd
    have heof : (readInt16 (stream junk data)).2.eof = true := eof_readBE_stream hd
    have hget : (readInt16 (stream junk data)).2.get.1 = none := by simp [IStream.get, IStream.good, heof]
    simp only [parseUpdateValue, hget, Option.bind_none]
  match data with
  | [] => rw [short _ (by simp)] at h; simp at h
  | [c] => rw [short _ (by simp)] at h; simp at h
  | hi :: lo :: rest =>
    refine ⟨hi, lo, rest, rfl, ?_⟩
    unfold parseUpdateValue at h
    rw [readInt16_stream] at h
    dsimp only at h
    split at h
    · next τ hτ =>
      split at h
      · simp at h
      · next v _ _ =>
        obtain ⟨d, -, hd⟩ := Option.bind_eq_some_iff.mp hτ
        have hshape := Parameter.shape_apply (.create mem (bytesId hi lo) (.value τ)) (.setValue v)
        rw [← Option.some.inj (Except.ok.inj h)]
        refine ⟨congrArg Shape.id hshape, ?_⟩
        rw [Parameter.known_of_identity (congrArg (fun s : Shape => (s.id, s.datatype)) hshape)]
        exact known_create_of_datatype hd mem _
    · simp at h

/-- A message is read as a parameter of a known type under the announced id, or not as a parameter. -/
theorem announcedId_of_parsePacket (henv : ∀ g s, (env.removeChild g s).2.identity = s.2.identity) {s : σ}
    {junk : Nat → UInt8} {data : Bytes} {k : Packet} {p : Parameter}
    (h : (parsePacket env mem s (stream junk data)).packet = some k) (hp : k.parameter = some p) :
    announcedId data = some p.parameterId ∧ p.known = true := by
  have hc := command_parsePacket h
  cases data with
  | nil => simp [commandOf] at hc
  | cons c rest =>
    have hof : Command.ofCode c = some k.command := hc
    unfold parsePacket at h
    rw [get_stream_cons] at h
    dsimp only at h
    rw [Option.bind_some, hof] at h
    by_cases hu : k.command = .update
    · rw [hu] at hof h
      rw [announcedId, hc, hu]
      exact parsePacketOptions_announced henv (rest.length + 1) s junk rest rfl rfl h hp
    by_cases hv : k.command = .updateValue
    · rw [hv] at hof h
      dsimp only at h
      split at h
      · simp at h
      · simp at h
      · next q hq =>
        obtain ⟨hi, lo, rest', rfl, hid, hk⟩ := tail_of_parseUpdateValue hq
        rw [← Option.some.inj h, Packet.parameter] at hp
        rw [announcedId, hc, hv, ← Option.some.inj hp, hid]
        exact ⟨rfl, hk⟩
    · have hp' : k.parameter = none := parameter_parsePacket
        (by rw [parsePacket, get_stream_cons]; dsimp only; rw [Option.bind_some, hof]; exact h)
        (by rw [hc]; exact fun heq => hu (Option.some.inj heq)) (by rw [hc]; exact fun heq => hv (Option.some.inj heq))
      rw [hp'] at hp
      simp at hp

end Parse

/-- The parameter that a store parses. -/
theorem Store.identity_of_parse {s : Store} {ch : Chance} {data : Bytes} {p : Parameter}
    (h : (s.parse ch data).packet.bind Packet.parameter = some p) :
    announcedId data = some p.parameterId ∧ p.known = true := by
  obtain ⟨k, hk, hp⟩ := Option.bind_eq_some_iff.mp h
  rw [Store.packet_parse] at hk
  refine announcedId_of_parsePacket (fun g x => ?_) hk hp
  have hf := Store.frame_removeChild (x.1.put x.1.next x.2) g x.1.next
  have hx : (x.1.put x.1.next x.2).heap x.1.next = x.2 := if_pos rfl
  have hid : ((x.1.put x.1.next x.2).removeChild g x.1.next).idOf x.1.next = x.2.parameterId :=
    (hf.idOf x.1.next).trans (congrArg Parameter.parameterId hx)
  exact Prod.ext hid ((hf.datatype x.1.next).trans (congrArg Parameter.getDatatype hx))

/-! ### Outgoing packets -/

theorem bytesId_writeInt16 (i : Id) : ∃ hi lo, writeInt16 i = [hi, lo] ∧ bytesId hi lo = i := by
  refine ⟨_, _, rfl, ?_⟩
  have h := ofNat_decodeBE_encodeBE (n := 2) i.toBitVec
  exact congrArg Int16.ofBitVec h

private theorem announced_mandatory {τ : ValueType} (hτ : τ.datatype ≠ 1) (hi lo : UInt8) (tail : Bytes) :
    (announcedParameter (hi :: lo :: (τ.mandatory ++ tail))).1 = some (bytesId hi lo) := by
  cases τ with
  | number t => cases t <;> rfl
  | range t => cases t <;> rfl
  | custom n => exact absurd rfl hτ
  | _ => rfl

private theorem bytes_definition {τ : ValueType} (d : TypeDefinition τ) (all : Bool) :
    ∃ rest, (d.write all).1.bytes = τ.mandatory ++ rest := by
  cases τ with
  | range t => exact ⟨fieldBytes (RangeDefinition.write all d).1.1 ++ [0] ++ fieldBytes (RangeDefinition.write all d).1.2 ++
      [0], by simp [DefinitionBody.bytes, TypeDefinition.write, ValueType.mandatory]⟩
  | _ => exact ⟨_, by rw [DefinitionBody.bytes, List.append_assoc, List.append_assoc]; rfl⟩

/-- The body of a parameter: its id, and something that a parser takes for a known type. -/
private theorem bytes_write {p : Parameter} (hk : p.known = true) (idOf : Ref → Id) (all : Bool) :
    ∃ rest, (p.write idOf all).1.bytes = writeInt16 p.parameterId ++ rest ∧
      ∀ hi lo tail, (announcedParameter (hi :: lo :: (rest ++ tail))).1 = some (bytesId hi lo) := by
  rw [Parameter.known, Bool.and_eq_true, bne_iff_ne, bne_iff_ne, Parameter.getDatatype] at hk
  by_cases h : p.onlyValueChanged = true
  · obtain ⟨τ, d, s, hkind, -, hw⟩ := Parameter.write_of_onlyValueChanged idOf all h
    rw [hkind] at hk
    rw [hw]
    refine ⟨τ.mandatory ++ writeValue τ s.content, by simp [Body.bytes], fun hi lo tail => ?_⟩
    rw [List.append_assoc]
    exact announced_mandatory hk.1 hi lo _
  · rw [Parameter.write_of_not_onlyValueChanged _ (by simpa using h), Parameter.writeFull]
    dsimp only [Body.bytes]
    rcases hkind : p.kind with ⟨τ, d, s⟩ | _ | c | _
    · rw [hkind] at hk
      obtain ⟨rest, hrest⟩ := bytes_definition d all
      refine ⟨(d.write all).1.bytes ++ (fieldBytes ((Kind.value τ d s).write all).1.2 ++
        fieldBytes (p.writeOptions idOf all).1 ++ [0]), ?_, fun hi lo tail => ?_⟩
      · simp [Kind.write, fieldBytes]
      · rw [hrest, List.append_assoc, List.append_assoc]
        exact announced_mandatory hk.1 hi lo _
    · exact ⟨_, by simp only [List.append_assoc]; rfl, fun _ _ _ => rfl⟩
    · exact ⟨_, by simp only [List.append_assoc]; rfl, fun _ _ _ => rfl⟩
    · rw [hkind] at hk
      exact absurd rfl hk.2

/-- A packet for a parameter of a known type announces its id. -/
theorem announcedId_write {p : Parameter} (hk : p.known = true) (idOf : Ref → Id) (all : Bool) {c : Command}
    (hc : c = .update ∨ c = .updateValue) :
    announcedId (Message.bytes ⟨c, .parameter (p.write idOf all).1⟩) = some p.parameterId := by
  obtain ⟨rest, hb, hann⟩ := bytes_write hk idOf all
  obtain ⟨hi, lo, hid, hi'⟩ := bytesId_writeInt16 p.parameterId
  rw [hid] at hb
  rcases hc with rfl | rfl
  · have hbytes : Message.bytes ⟨.update, .parameter (p.write idOf all).1⟩ = 4 :: 18 :: hi :: lo :: (rest ++ [0]) := by
      simp only [Message.bytes, MessageData.bytes, hb]
      rfl
    rw [hbytes]
    have hfirst := hann hi lo [0]
    rcases hrest : announcedParameter (hi :: lo :: (rest ++ [0])) with ⟨_ | i, tail⟩
    · rw [hrest] at hfirst; simp at hfirst
    · rw [hrest] at hfirst
      show announcedOptions _ (18 :: _) = _
      rw [announcedOptions, if_neg (by decide), if_pos rfl, hrest]
      exact hfirst.trans (congrArg some hi')
  · have hbytes : Message.bytes ⟨.updateValue, .parameter (p.write idOf all).1⟩ = 6 :: hi :: lo :: rest := by
      simp only [Message.bytes, hb]
      rfl
    rw [hbytes, ← hi']
    rfl

/-- A `REMOVE` packet is read as it was written. -/
theorem parse_remove (s : Store) (ch : Chance) (i : Id) :
    s.parse ch (Message.bytes ⟨.remove, .id i⟩) =
      ⟨s, some { command := .remove, data := some (.id i) }, .accepted⟩ := by
  obtain ⟨hi, lo, hid, rfl⟩ := bytesId_writeInt16 i
  have hbytes : Message.bytes ⟨.remove, .id (bytesId hi lo)⟩ = [5, 18, hi, lo, 0] := by
    simp only [Message.bytes, MessageData.bytes, hid]
    rfl
  have hc : commandOf [5, 18, hi, lo, 0] = some .remove := rfl
  rw [hbytes, Store.parse_of_command (by rw [hc]; decide) (by rw [hc]; decide)]
  rfl

end RabbitControl
