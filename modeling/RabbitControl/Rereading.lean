import RabbitControl.ParseFrame
import RabbitControl.Transporters

/-!
# Reading a message again

A message that is read to its terminator is read in the same way whatever memory holds behind it
(`dryParse_of_junk`), and in every store that finds the same groups under the same ids (`dryParse_congr`).
-/

namespace RabbitControl

open Lib IStream

/-! ### The memory behind a message -/

section Junk

variable {σ : Type} {env : ParseEnv σ} {mem : Memory}

theorem append_stream (junk junk' : Nat → UInt8) (data : Bytes) :
    (stream junk data).append ⟨[], junk'⟩ = stream junk' data := by
  simp [IStream.append, stream]

/-- A loop that comes back leaves the stream that a scan leaves. -/
theorem scanPacketOptions_of_done {n : Nat} {x : σ × Packet} {is is' : IStream} {u : Parsed σ}
    (h : packetLoop env mem n x is = .done u is') : scanPacketOptions env mem n x.1 x.2 is = (u, is') := by
  induction n generalizing x is with
  | zero => exact absurd h (by simp [packetLoop, runBody])
  | succ n ih =>
    rw [packetLoop, runBody, packetBody] at h
    rw [scanPacketOptions]
    dsimp only at h ⊢
    split_ifs at h ⊢
    · obtain ⟨rfl, rfl⟩ := Outcome.done.inj h
      rfl
    · obtain ⟨rfl, rfl⟩ := Outcome.done.inj h
      rfl
    · obtain ⟨rfl, rfl⟩ := Outcome.done.inj h
      rfl
    · exact ih h
    · exact ih h
    · obtain ⟨rfl, rfl⟩ := Outcome.done.inj h
      rfl
    · cases hd : parseData env mem x.1 x.2 is.get.2 with
      | throw e s => rw [hd] at h; exact absurd h (by simp)
      | done s is' => rw [hd] at h; exact ih h
    · obtain ⟨rfl, rfl⟩ := Outcome.done.inj h
      rfl

/-- The option loop of a packet that comes to its end in the stream comes to the same with other memory behind. -/
theorem packetLoop_of_junk {x : σ × Packet} {junk : Nat → UInt8} {data : Bytes} {u : Parsed σ} {is : IStream}
    (h : packetLoop env mem (data.length + 1) x (stream junk data) = .done u is) (heof : is.eof = false)
    (junk' : Nat → UInt8) : (packetLoop env mem (data.length + 1) x (stream junk' data)).state = u := by
  have hlocal : Local fun is => packetLoop env mem (is.rest.length + 1) x is :=
    local_loop packetLoop_runsBody local_packetBody packetBody_takes x
  have hloop := hlocal (stream junk data) (steady_stream junk data)
  have hdone : packetLoop env mem ((stream junk data).rest.length + 1) x (stream junk data) = .done u is := h
  unfold LocalAt at hloop
  dsimp only at hloop
  rw [hdone] at hloop
  have hagain := hloop.2 heof ⟨[], junk'⟩
  rw [append_stream] at hagain
  exact congrArg Outcome.state hagain

/-- So does an `UPDATEVALUE` packet whose value is read before the end of the stream. -/
theorem parseUpdateValue_of_junk {junk : Nat → UInt8} {data : Bytes} {p : Parameter}
    (h : parseUpdateValue mem (stream junk data) = .ok (some p))
    (heof : (leftUpdateValue (stream junk data)).eof = false) (junk' : Nat → UInt8) :
    parseUpdateValue mem (stream junk' data) = .ok (some p) := by
  obtain ⟨hleft, hid⟩ := local_pair local_readInt16 (steady_stream junk data)
  obtain ⟨hleft', htype⟩ := local_pair local_get hleft.steady
  unfold parseUpdateValue at h
  unfold leftUpdateValue at heof
  dsimp only at h heof
  split at h
  · next τ hτ =>
    rw [hτ] at heof
    dsimp only at heof
    have hvalue := local_readValue τ _ hleft'.steady
    cases hr : readValue τ (readInt16 (stream junk data)).2.get.2 with
    | error e => rw [hr] at h; exact absurd h (by simp)
    | ok r =>
      rw [hr] at h hvalue heof
      obtain ⟨hleft'', hread⟩ : Left _ r.2 ∧ _ := hvalue
      have hget := hleft''.eof_false heof
      have hid' := hid (hleft'.eof_false hget) ⟨[], junk'⟩
      have htype' := htype hget ⟨[], junk'⟩
      have hread' : readValue τ (append ⟨[], junk'⟩ (readInt16 (stream junk data)).2.get.2) =
          .ok (r.1, append ⟨[], junk'⟩ r.2) := hread heof ⟨[], junk'⟩
      rw [append_stream] at hid'
      unfold parseUpdateValue
      rw [hid']
      dsimp only
      rw [htype']
      dsimp only
      rw [hτ]
      dsimp only
      rw [hread']
      exact h
  · exact absurd h (by simp)

end Junk

namespace Store

/-- A message that is accepted and not read past its end is read in the same way with other memory behind it. -/
theorem dryParse_of_junk {s : Store} (hs : s.Allocated) {mem : Memory} {junk : Nat → UInt8} {data : Bytes}
    (hacc : (s.parse ⟨mem, junk⟩ data).verdict = .accepted) (heof : (s.left ⟨mem, junk⟩ data).eof = false)
    (junk' : Nat → UInt8) : s.dryParse ⟨mem, junk'⟩ data = s.dryParse ⟨mem, junk⟩ data := by
  rw [verdict_parse] at hacc
  unfold left at heof
  dsimp only at hacc heof
  cases data with
  | nil => exact absurd hacc (by simp [parsePacket, stream, IStream.get, IStream.good])
  | cons c data =>
    have hcommand : ∀ {σ : Type} (env : ParseEnv σ) (s : σ) (junk : Nat → UInt8) (c' : Command),
        Command.ofCode c = some c' → c' ≠ .updateValue → parsePacket env mem s (stream junk (c :: data)) =
          (packetLoop env mem (data.length + 1) (s, { command := c' }) (stream junk data)).state := by
      intro σ env s junk c' hc hv
      rw [parsePacket, get_stream_cons, state_packetLoop]
      dsimp only
      rw [Option.bind_some, hc]
      cases c' <;> first | rfl | exact absurd rfl hv
    cases hc : Command.ofCode c with
    | none =>
      rw [parsePacket, get_stream_cons] at hacc
      dsimp only at hacc
      rw [Option.bind_some, hc] at hacc
      exact absurd hacc (by simp)
    | some c' =>
      by_cases hv : c' = .updateValue
      · subst hv
        rw [parsePacket, get_stream_cons] at hacc
        rw [scanPacket, get_stream_cons] at heof
        dsimp only at hacc heof
        rw [Option.bind_some, hc] at hacc heof
        dsimp only at hacc heof
        split at hacc
        · exact absurd hacc (by simp)
        · exact absurd hacc (by simp)
        · next p hp =>
          unfold dryParse
          rw [parsePacket, parsePacket, get_stream_cons, get_stream_cons]
          dsimp only
          rw [Option.bind_some, hc]
          dsimp only
          rw [parseUpdateValue_of_junk hp heof junk', hp]
      · rw [hcommand storeEnv s junk c' hc hv] at hacc
        rw [scanPacket, get_stream_cons] at heof
        dsimp only at heof
        rw [Option.bind_some, hc] at heof
        have hsim := packetLoop_sim hs mem (data.length + 1) { command := c' } rfl (stream junk data)
        cases hloop : packetLoop storeEnv mem (data.length + 1) (s, { command := c' }) (stream junk data) with
        | throw e u =>
          have hout : Result.out (packetLoop storeEnv mem (data.length + 1) (s, { command := c' }) (stream junk data)) =
              .error e := by
            rw [hloop]
            rfl
          rw [(verdict_packetLoop _ _ _ e).mp hout] at hacc
          exact absurd hacc (by simp)
        | done u is =>
          have hscan := scanPacketOptions_of_done hloop
          have heof' : is.eof = false := by
            rw [← congrArg (fun r => r.2.eof) hscan]
            cases c' <;> first | exact absurd rfl hv | exact heof
          rw [hloop] at hsim
          obtain ⟨v, hdry, -⟩ : ∃ v, packetLoop (dryEnv s) mem (data.length + 1) ([], { command := c' })
              (stream junk data) = .done v is ∧ SimParsed s u v := hsim.to_done
          unfold dryParse
          rw [hcommand (dryEnv s) [] junk' c' hc hv, hcommand (dryEnv s) [] junk c' hc hv,
            packetLoop_of_junk hdry heof' junk', hdry]
          rfl

end Store

/-! ### The store that is asked for groups -/

section Stores

variable {s t : Store}

/-- The two stores answer the lookups of a parser alike. -/
structure Answers (s t : Store) : Prop where
  getGroup : ∀ id, t.getGroup id = s.getGroup id
  idOf : ∀ g, s.HasGroup g → t.idOf g = s.idOf g

/-- A state of the dry parse that some parse of the store stands beside. -/
private def Shadowed (s : Store) (x : List Ref × Parameter) : Prop := ∃ z, SimPair s z x

private theorem parseParent_congr (h : Answers s t) {x : List Ref × Parameter} (hx : Shadowed s x) (is : IStream) :
    parseParent (dryEnv t) x is = parseParent (dryEnv s) x is := by
  obtain ⟨z, hz⟩ := hx
  unfold parseParent
  dsimp only
  have hg : (dryEnv t).getGroup x.1 (readInt16 is).1 = (dryEnv s).getGroup x.1 (readInt16 is).1 := h.getGroup _
  rw [hg]
  cases hgroup : (dryEnv s).getGroup x.1 (readInt16 is).1 with
  | none => rfl
  | some g =>
    cases hparent : x.2.parent with
    | none => rfl
    | some o =>
      have hidg : (dryEnv t).idOf x.1 g = (dryEnv s).idOf x.1 g := h.idOf g ⟨_, hgroup⟩
      have hido : (dryEnv t).idOf x.1 o = (dryEnv s).idOf x.1 o := h.idOf o (Sim.parent hz o hparent)
      dsimp only
      rw [hidg, hido]
      rfl

private theorem parseOption_congr (h : Answers s t) {x : List Ref × Parameter} (hx : Shadowed s x)
    (opt : Option UInt8) (is : IStream) : parseOption (dryEnv t) x opt is = parseOption (dryEnv s) x opt is := by
  unfold parseOption
  split <;> first | rfl | exact parseParent_congr h hx is

private theorem optionList_congr (hs : s.Allocated) (h : Answers s t) {q : Parameter} (hq : q.parent = none)
    (hc : q.children = ∅) (is : IStream) :
    optionList (parseOption (dryEnv t)) ([], q) is = optionList (parseOption (dryEnv s)) ([], q) is := by
  have hrel : Outcome.Rel (fun x y => x = y ∧ Shadowed s x) (optionList (parseOption (dryEnv t)) ([], q) is)
      (optionList (parseOption (dryEnv s)) ([], q) is) := by
    refine optionList_rel (fun x y c is hxy => ?_) _ _ is ⟨rfl, (s, q), Sim.refl hq hc⟩
    obtain ⟨rfl, hx⟩ := hxy
    rw [parseOption_congr h hx]
    obtain ⟨z, hz⟩ := hx
    exact Turn.rel_self ⟨_, (parseOption_sim hs c is hz).state⟩
  exact hrel.eq

private theorem parseParameter_congr (hs : s.Allocated) (h : Answers s t) (mem : Memory) (is : IStream) :
    parseParameter (dryEnv t) mem [] is = parseParameter (dryEnv s) mem [] is := by
  have hproxy : ∀ id type is, parseProxy (dryEnv t) mem id type [] is = parseProxy (dryEnv s) mem id type [] is := by
    intro id type is
    unfold parseProxy
    dsimp only
    split
    · rfl
    · next k is' hk =>
      have hc : ({ Parameter.create mem id type with kind := k, managed := true } : Parameter).children = ∅ :=
        children_parseDefinition hk
      rw [optionList_congr hs h rfl hc]
  unfold parseParameter
  simp only [hproxy]

private theorem parseData_congr (hs : s.Allocated) (h : Answers s t) (mem : Memory) (k : Packet) (is : IStream) :
    parseData (dryEnv t) mem [] k is = parseData (dryEnv s) mem [] k is := by
  unfold parseData
  rw [parseParameter_congr hs h]

/-- A packet that has no data after its `DATA` option has found no group to leave. -/
private theorem left_parseData (hs : s.Allocated) {mem : Memory} {k : Packet} {is is' : IStream}
    {x : List Ref × Packet} (hx : parseData (dryEnv s) mem [] k is = .done x is') : x.2.data = none → x.1 = [] := by
  intro hnone
  unfold parseData at hx
  split at hx
  · cases hi : parseInfo is with
    | done i is'' => rw [hi] at hx; rw [← (Outcome.done.inj hx).1]
    | throw e i => rw [hi] at hx; exact absurd hx (by simp [Outcome.map])
  · rw [← (Outcome.done.inj hx).1]
  · rw [← (Outcome.done.inj hx).1]
  · have hsim := parseParameter_sim hs mem is
    cases hd : parseParameter (dryEnv s) mem [] is with
    | throw e y => rw [hd] at hx; exact absurd hx (by simp [Outcome.map])
    | done y is'' =>
      rw [hd] at hx hsim
      obtain ⟨z, -, hres⟩ := hsim.of_done
      rw [← (Outcome.done.inj hx).1] at hnone ⊢
      rcases hres with ⟨-, hy⟩ | ⟨p, q, -, hq, -⟩
      · rw [hy]
      · dsimp only at hnone
        rw [hq] at hnone
        exact absurd hnone (by simp)
  · rw [← (Outcome.done.inj hx).1]
  · rw [← (Outcome.done.inj hx).1]

private theorem parsePacketOptions_congr (hs : s.Allocated) (h : Answers s t) (mem : Memory) (n : Nat)
    {l : List Ref} {k : Packet} (hl : k.data = none → l = []) (is : IStream) :
    parsePacketOptions (dryEnv t) mem n l k is = parsePacketOptions (dryEnv s) mem n l k is := by
  induction n generalizing l k is with
  | zero => rfl
  | succ n ih =>
    unfold parsePacketOptions
    dsimp only
    split_ifs with _ _ _ _ _ _ hdata
    · rfl
    · rfl
    · rfl
    · exact ih hl _
    · exact ih (k := { k with timestamp := some (is.get.2.readBE 8).1 }) hl _
    · rfl
    · have hnone : k.data = none := by simpa using hdata
      rw [hl hnone, parseData_congr hs h]
      cases hd : parseData (dryEnv s) mem [] k is.get.2 with
      | throw e x => rfl
      | done x is' => exact ih (left_parseData hs hd) is'
    · rfl

/-- Stores that give a parser the same answers are read into in the same way. -/
theorem Store.dryParse_congr (hs : s.Allocated) (h : Answers s t) (ch : Chance) (data : Bytes) :
    t.dryParse ch data = s.dryParse ch data := by
  unfold Store.dryParse parsePacket
  simp only [parsePacketOptions_congr hs h ch.mem _ (l := []) (fun _ => rfl)]

end Stores

end RabbitControl
