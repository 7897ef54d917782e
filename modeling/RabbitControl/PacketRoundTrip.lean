import RabbitControl.LocalParsers
import RabbitControl.ReadBack

/-!
# Packets read back

`Packet::write` for a packet that is not sent by a server or client of the model as well, that is with a timestamp and
with either value of `all`, and `Packet::parse` with the stream that it leaves.  A packet without a parameter is read
back as it was written and its bytes end where it ends, so that packets can follow one another
(`packets_read_back`).
-/

namespace RabbitControl

open Lib IStream

/-! ### Writer -/

/-- `InfoData::write`. -/
def writeInfoData (all : Bool) (version applicationId : Bytes) : Bytes :=
  writeTinyString version ++ (if all || applicationId ≠ [] then 26 :: writeTinyString applicationId else []) ++ [0]

/-- `write` of the data of a packet. -/
def PacketData.write (idOf : Ref → Id) (all : Bool) : PacketData → Bytes
  | parameter p => (p.write idOf all).1.bytes
  | id i => writeInt16 i
  | info v a => writeInfoData all v a

/-- The timestamp and the data of a packet. -/
def Packet.writeOptions (idOf : Ref → Id) (all : Bool) (k : Packet) : Bytes :=
  (k.timestamp.elim [] fun t => 17 :: encodeBE 8 t) ++ k.data.elim [] fun d => 18 :: d.write idOf all

/-- `Packet::write`. -/
def Packet.write (idOf : Ref → Id) (all : Bool) (k : Packet) : Bytes :=
  k.command.code ::
    match k.command with
    | .updateValue =>
      match k.data with
      | some (.parameter p) => (p.write idOf all).1.bytes
      | _ => []
    | _ => k.writeOptions idOf all ++ [0]

/-- The packet behind a message without a parameter. -/
def Message.packet (m : Message) : Packet where
  command := m.command
  data :=
    match m.data with
    | .none | .parameter _ => none
    | .id i => some (.id i)
    | .info v a => some (.info v a)

/-- Messages without a parameter are packets written with `all` unset. -/
theorem Message.write_packet {m : Message} (h : ∀ b, m.data ≠ .parameter b) (idOf : Ref → Id) :
    m.packet.write idOf false = m.bytes := by
  obtain ⟨c, d⟩ := m
  have hinfo : ∀ v a, writeInfoData false v a = writeInfo v a := by
    intro v a
    by_cases ha : a = [] <;> simp [writeInfoData, writeInfo, ha]
  cases d with
  | parameter b => exact absurd rfl (h b)
  | none => cases c <;> rfl
  | id i => cases c <;> rfl
  | info v a => cases c <;> simp [Message.packet, Packet.write, Packet.writeOptions, PacketData.write, Message.bytes,
      MessageData.bytes, hinfo]

/-! ### Reader -/

section Read

variable {σ : Type}

/-- `ParameterParser::parseUpdateValue` with the stream that it leaves. -/
def readUpdateValue (mem : Memory) (is : IStream) : Except Stop (Option Parameter × IStream) :=
  let id := readInt16 is
  let type := id.2.get
  match type.1.bind parameterType with
  | some (.value τ) =>
    match readValue τ type.2 with
    | .error e => .error e
    | .ok (v, is) => .ok (some ((Parameter.create mem id.1 (.value τ)).apply (.setValue v)).1, is)
  | _ => .ok (none, type.2)

/-- `Packet::parse` with the stream that it leaves. -/
def readPacket (env : ParseEnv σ) (mem : Memory) (s : σ) (is : IStream) : Outcome (Parsed σ) :=
  let command := is.get
  match command.1.bind Command.ofCode with
  | none => .done ⟨s, none, .rejected⟩ command.2
  | some .updateValue =>
    match readUpdateValue mem command.2 with
    | .error e => .throw e ⟨s, none, .threw e⟩
    | .ok (none, is) => .done ⟨s, none, .rejected⟩ is
    | .ok (some p, is) => .done ⟨s, some { command := .updateValue, data := some (.parameter p) }, .accepted⟩ is
  | some c => packetLoop env mem (command.2.rest.length + 1) (s, { command := c }) command.2

/-- One packet after the other, as long as they are accepted. -/
def readPackets (env : ParseEnv σ) (mem : Memory) : Nat → σ → IStream → List Packet × IStream
  | 0, _, is => ([], is)
  | n + 1, s, is =>
    match readPacket env mem s is with
    | .done ⟨s, some k, .accepted⟩ is =>
      let r := readPackets env mem n s is
      (k :: r.1, r.2)
    | .done _ is => ([], is)
    | .throw _ _ => ([], is)

variable {env : ParseEnv σ} {mem : Memory} {s : σ}

theorem readUpdateValue_fst (is : IStream) :
    (readUpdateValue mem is).map Prod.fst = parseUpdateValue mem is := by
  unfold readUpdateValue parseUpdateValue
  dsimp only
  generalize (readInt16 is).2.get.1.bind parameterType = type
  rcases type with _ | τ | _ | _ | _
  case some.value =>
    dsimp only
    cases readValue τ (readInt16 is).2.get.2 <;> rfl
  all_goals rfl

theorem state_readPacket (is : IStream) : (readPacket env mem s is).state = parsePacket env mem s is := by
  unfold readPacket parsePacket
  dsimp only
  generalize is.get.1.bind Command.ofCode = c
  rcases c with _ | c
  · rfl
  by_cases hc : c = .updateValue
  · subst hc
    rw [← readUpdateValue_fst]
    rcases readUpdateValue mem is.get.2 with e | ⟨_ | p, is'⟩ <;> rfl
  · cases c with
    | updateValue => exact absurd rfl hc
    | info | init | discover | update | remove => exact state_packetLoop ..

/-! ### Turns of the option loop -/

variable {k : Packet} {tail : Bytes} {junk : Nat → UInt8}

/-- The loop takes a timestamp. -/
theorem packetBody_timestamp {t : Nat} (ht : t < 2 ^ 64) :
    packetBody env mem (s, k) (stream junk (17 :: (encodeBE 8 t ++ tail))) =
      .again (s, { k with timestamp := some t }) (stream junk tail) := by
  have hread : (stream junk (encodeBE 8 t ++ tail)).readBE 8 = (t % 256 ^ 8, stream junk tail) := readBE_encodeBE 8 t
  have hmod : t % 256 ^ 8 = t := Nat.mod_eq_of_lt ht
  have hget : (stream junk (17 :: (encodeBE 8 t ++ tail))).get = (some 17, stream junk (encodeBE 8 t ++ tail)) := rfl
  rw [packetBody, if_neg (by simp [stream]), hget]
  dsimp only
  rw [if_neg (by decide), if_neg (by simp [stream]), if_pos rfl, hread, hmod, if_neg (by simp [stream])]

/-- The loop takes data that are read. -/
theorem packetBody_data {l : Bytes} {d : PacketData} (hk : k.data = none)
    (hread : parseData env mem s k (stream junk (l ++ tail)) = .done (s, { k with data := some d }) (stream junk tail)) :
    packetBody env mem (s, k) (stream junk (18 :: (l ++ tail))) =
      .again (s, { k with data := some d }) (stream junk tail) := by
  have hget : (stream junk (18 :: (l ++ tail))).get = (some 18, stream junk (l ++ tail)) := rfl
  rw [packetBody, if_neg (by simp [stream]), hget]
  dsimp only
  rw [if_neg (by decide), if_neg (by simp [stream]), if_neg (by decide), if_pos rfl, if_neg (by simp [hk]), hread]

/-- The loop ends at the terminator. -/
theorem packetBody_terminator :
    packetBody env mem (s, k) (stream junk (0 :: tail)) = .stop (.done ⟨s, some k, .accepted⟩ (stream junk tail)) := rfl

/-- Version information is read back. -/
theorem parseInfo_write (all : Bool) {version applicationId : Bytes} (hv : version.length ≤ 127)
    (ha : applicationId.length ≤ 127) :
    parseInfo (stream junk (writeInfoData all version applicationId ++ tail)) =
      .done (version, applicationId) (stream junk tail) := by
  have hversion : ∀ tail, readTinyString (stream junk (writeTinyString version ++ tail)) =
      .ok (version, stream junk tail) := fun tail => reads_tinyString hv tail junk
  have hid : readTinyString (stream junk (writeTinyString applicationId ++ 0 :: tail)) =
      .ok (applicationId, stream junk (0 :: tail)) := reads_tinyString ha (0 :: tail) junk
  have hend : ∀ n s, parseInfoOptions (n + 1) s (stream junk (0 :: tail)) = .done s (stream junk tail) := fun _ _ => rfl
  by_cases hw : (all || applicationId ≠ []) = true
  · have hbytes : writeInfoData all version applicationId ++ tail =
        writeTinyString version ++ (26 :: (writeTinyString applicationId ++ 0 :: tail)) := by
      rw [writeInfoData, if_pos hw]
      simp
    have hturn : ∀ n,
        parseInfoOptions (n + 1) (version, []) (stream junk (26 :: (writeTinyString applicationId ++ 0 :: tail))) =
        parseInfoOptions n (version, applicationId) (stream junk (0 :: tail)) := by
      intro n
      have hget : (stream junk (26 :: (writeTinyString applicationId ++ 0 :: tail))).get =
          (some 26, stream junk (writeTinyString applicationId ++ 0 :: tail)) := rfl
      rw [parseInfoOptions, if_neg (by simp [stream]), hget]
      dsimp only
      rw [if_neg (by decide), if_neg (by simp [stream]), if_pos rfl, hid]
    have hlength : ∃ n, (stream junk (26 :: (writeTinyString applicationId ++ 0 :: tail))).rest.length = n + 1 :=
      ⟨_, rfl⟩
    obtain ⟨n, hn⟩ := hlength
    rw [parseInfo, hbytes, hversion]
    dsimp only
    rw [hn, hturn, hend]
  · have hnil : applicationId = [] := by simp_all
    have hbytes : writeInfoData all version applicationId ++ tail = writeTinyString version ++ 0 :: tail := by
      rw [writeInfoData, if_neg hw]
      simp
    rw [parseInfo, hbytes, hversion]
    dsimp only
    rw [hend, hnil]

end Read

/-! ### Whole packets -/

/-- What the data of a packet without a parameter may be, command by command. -/
inductive PlainData : Command → Option PacketData → Prop
  | noData {c : Command} (hc : c ≠ .update ∧ c ≠ .updateValue) : PlainData c none
  | info {version applicationId : Bytes} (hv : version.length ≤ 127) (ha : applicationId.length ≤ 127) :
      PlainData .info (some (.info version applicationId))
  | init (id : Id) : PlainData .init (some (.id id))
  | remove (id : Id) : PlainData .remove (some (.id id))

/-- A packet without a parameter. -/
structure Packet.Plain (k : Packet) : Prop where
  data : PlainData k.command k.data
  timestamp : ∀ t, k.timestamp = some t → t < 2 ^ 64

section RoundTrip

variable {σ : Type} {env : ParseEnv σ} {mem : Memory} {s : σ} {k : Packet} {tail : Bytes} {junk : Nat → UInt8}

/-- The data of a packet without a parameter are read back. -/
theorem parseData_write {d : PacketData} {idOf : Ref → Id} {all : Bool} (h : PlainData k.command (some d)) :
    parseData env mem s k (stream junk (d.write idOf all ++ tail)) =
      .done (s, { k with data := some d }) (stream junk tail) := by
  have hid : ∀ id, readInt16 (stream junk (writeInt16 id ++ tail)) = (id, stream junk tail) :=
    fun id => readInt16_append id tail junk
  obtain ⟨c, t, data⟩ := k
  cases h with
  | info hv ha => exact congrArg (Outcome.map _) (parseInfo_write all hv ha)
  | init id =>
    show Outcome.done _ _ = _
    rw [PacketData.write, hid]
  | remove id =>
    show Outcome.done _ _ = _
    rw [PacketData.write, hid]

/-- The option loop gets to the terminator with the whole packet. -/
theorem reaches_write (h : k.Plain) (idOf : Ref → Id) (all : Bool) :
    Reaches (packetBody env mem) (s, { command := k.command })
      (stream junk (k.writeOptions idOf all ++ 0 :: tail)) (s, k) (stream junk (0 :: tail)) := by
  obtain ⟨c, t, data⟩ := k
  have hdata : Reaches (packetBody env mem) (s, { command := c, timestamp := t })
      (stream junk ((data.elim [] fun d => 18 :: d.write idOf all) ++ 0 :: tail)) (s, ⟨c, t, data⟩)
      (stream junk (0 :: tail)) := by
    cases data with
    | none => exact .refl _ _
    | some d => exact .step (packetBody_data rfl (parseData_write h.data)) (.refl _ _)
  cases t with
  | none => exact hdata
  | some t =>
    rw [Packet.writeOptions, List.append_assoc]
    exact .step (packetBody_timestamp (h.timestamp t rfl)) hdata

/-- A packet without a parameter is read back, and nothing of what follows it is read. -/
theorem readPacket_write (h : k.Plain) (idOf : Ref → Id) (all : Bool) :
    readPacket env mem s (stream junk (k.write idOf all ++ tail)) =
      .done ⟨s, some k, .accepted⟩ (stream junk tail) := by
  have hcommand : k.command ≠ .updateValue := by
    intro hc
    obtain ⟨c, t, data⟩ := k
    obtain rfl : c = .updateValue := hc
    cases h.data with
    | noData hc => exact hc.2 rfl
  have hbytes : k.write idOf all ++ tail = k.command.code :: (k.writeOptions idOf all ++ 0 :: tail) := by
    have hwrite : k.write idOf all = k.command.code :: (k.writeOptions idOf all ++ [0]) := by
      unfold Packet.write
      split
      · next hc => exact absurd hc hcommand
      · rfl
    rw [hwrite, List.cons_append, List.append_assoc]
    rfl
  have hloop : ∀ n, (stream junk (k.writeOptions idOf all ++ 0 :: tail)).rest.length < n →
      packetLoop env mem n (s, { command := k.command }) (stream junk (k.writeOptions idOf all ++ 0 :: tail)) =
        .done ⟨s, some k, .accepted⟩ (stream junk tail) := fun n hn =>
    (reaches_write h idOf all).runs (runBody_runsBody _) local_packetBody packetBody_takes (fun hf => hf)
      packetBody_terminator hn
  have hget : (stream junk (k.command.code :: (k.writeOptions idOf all ++ 0 :: tail))).get =
      (some k.command.code, stream junk (k.writeOptions idOf all ++ 0 :: tail)) := rfl
  have hcode : (some k.command.code).bind Command.ofCode = some k.command := by cases k.command <;> rfl
  rw [readPacket, hbytes, hget]
  dsimp only
  rw [hcode]
  cases hc : k.command with
  | updateValue => exact absurd hc hcommand
  | info | init | discover | update | remove =>
    rw [hc] at hloop
    exact hloop _ (Nat.lt_succ_self _)

/-- An `UPDATE` packet with a parameter that is read. -/
theorem readPacket_update {l : Bytes} {p : Parameter}
    (hread : parseParameter env mem s (stream junk (l ++ 0 :: tail)) = .done (s, some p) (stream junk (0 :: tail))) :
    readPacket env mem s (stream junk (4 :: 18 :: (l ++ 0 :: tail))) =
      .done ⟨s, some { command := .update, data := some (.parameter p) }, .accepted⟩ (stream junk tail) := by
  have hdata : Reaches (packetBody env mem) (s, { command := .update }) (stream junk (18 :: (l ++ 0 :: tail)))
      (s, { command := .update, data := some (.parameter p) }) (stream junk (0 :: tail)) := by
    refine .step (packetBody_data rfl ?_) (.refl _ _)
    exact congrArg (Outcome.map _) hread
  have hget : (stream junk (4 :: 18 :: (l ++ 0 :: tail))).get = (some 4, stream junk (18 :: (l ++ 0 :: tail))) := rfl
  rw [readPacket, hget]
  exact hdata.runs (runBody_runsBody _) local_packetBody packetBody_takes (fun hf => hf) packetBody_terminator
    (Nat.lt_succ_self _)

theorem readPackets_write (idOf : Ref → Id) (packets : List (Packet × Bool)) (h : ∀ k ∈ packets, k.1.Plain) :
    readPackets env mem packets.length s (stream junk ((packets.flatMap fun k => k.1.write idOf k.2) ++ tail)) =
      (packets.map Prod.fst, stream junk tail) := by
  induction packets with
  | nil => rfl
  | cons k packets ih =>
    rw [List.flatMap_cons, List.append_assoc, List.length_cons, readPackets,
      readPacket_write (h k List.mem_cons_self) idOf k.2]
    dsimp only
    rw [ih fun k hk => h k (List.mem_cons_of_mem _ hk)]
    rfl

/-- A packet without a parameter is read back whatever follows it, and so are packets one after the other. -/
theorem packets_read_back (env : ParseEnv σ) (mem : Memory) (s : σ) (junk : Nat → UInt8) (idOf : Ref → Id)
    (rest : Bytes) (packets : List (Packet × Bool)) (h : ∀ k ∈ packets, k.1.Plain) :
    (∀ k ∈ packets, readPacket env mem s (stream junk (k.1.write idOf k.2 ++ rest)) =
      .done ⟨s, some k.1, .accepted⟩ (stream junk rest)) ∧
    readPackets env mem packets.length s (stream junk ((packets.flatMap fun k => k.1.write idOf k.2) ++ rest)) =
      (packets.map Prod.fst, stream junk rest) :=
  ⟨fun k hk => readPacket_write (h k hk) idOf k.2, readPackets_write idOf packets h⟩

/-- Version information with a timestamp, and the removal of a parameter. -/
theorem packets_read_back_info :
    (readPackets (dryEnv (.empty {})) {} 2 [] (stream (fun _ => 0)
      ([1, 17, 0, 0, 0, 0, 0, 0, 2, 1, 18, 1, 49, 26, 1, 65, 0, 0, 5, 18, 255, 255, 0] ++ [18, 0]))).2.rest =
        [18, 0] := by
  have h := (packets_read_back (dryEnv (.empty {})) {} [] (fun _ => 0) (fun _ => 0) [18, 0]
    [({ command := .info, timestamp := some 513, data := some (.info [49] [65]) }, true),
      ({ command := .remove, data := some (.id (-1)) }, false)] (by
    intro k hk
    simp only [List.mem_cons, List.not_mem_nil, or_false] at hk
    rcases hk with rfl | rfl
    · exact ⟨.info (by decide) (by decide), fun t ht => by rw [← Option.some.inj ht]; decide⟩
    · exact ⟨.remove (-1), fun t ht => absurd ht (by simp)⟩)).2
  exact congrArg (fun r => r.2.rest) h

end RoundTrip

end RabbitControl
