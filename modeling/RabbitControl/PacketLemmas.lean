import RabbitControl.Packet

/-!
# What a packet is read as

The first byte of a message decides on the command, and only an `UPDATE` packet has the store looked at.
-/

namespace RabbitControl

open Lib

section Options

variable {σ : Type} {env : ParseEnv σ} {mem : Memory}

/-- What the reading of the data and of a timestamp preserves holds of the parsed packet. -/
theorem parsePacketOptions_forall {P : σ → Packet → Prop}
    (htime : ∀ s k v, P s k → P s { k with timestamp := some v })
    (hdata : ∀ s k is, k.data = none → P s k →
      P (parseData env mem s k is).state.1 (parseData env mem s k is).state.2)
    (n : Nat) (s : σ) (k : Packet) (is : IStream) (h : P s k) :
    ∃ k', (parsePacketOptions env mem n s k is).packet = some k' ∧
      P (parsePacketOptions env mem n s k is).state k' := by
  induction n generalizing s k is with
  | zero => exact ⟨k, rfl, h⟩
  | succ n ih =>
    unfold parsePacketOptions
    dsimp only
    split
    · exact ⟨k, rfl, h⟩
    split
    · exact ⟨k, rfl, h⟩
    split
    · exact ⟨k, rfl, h⟩
    split
    · split
      · exact ih _ _ _ h
      · exact ih _ _ _ (htime _ _ _ h)
    split
    · split
      · exact ⟨k, rfl, h⟩
      · next hn =>
        have hd := hdata s k is.get.2 (by simpa using hn) h
        split <;> rename_i heq <;> rw [heq] at hd
        · exact ⟨_, rfl, hd⟩
        · exact ih _ _ _ hd
    · exact ⟨k, rfl, h⟩

theorem command_parseData (s : σ) (k : Packet) (is : IStream) :
    (parseData env mem s k is).state.2.command = k.command := by
  unfold parseData
  split <;> simp_all

/-- Only the data of an `UPDATE` packet is a parameter, and reading other data leaves the state alone. -/
theorem parseData_of_ne_update {s : σ} {k : Packet} {is : IStream} (hk : k.command ≠ .update)
    (hp : k.parameter = none) :
    (parseData env mem s k is).state.1 = s ∧ (parseData env mem s k is).state.2.parameter = none := by
  unfold parseData
  split <;> simp_all [Packet.parameter]

theorem command_parsePacketOptions (n : Nat) (s : σ) (k : Packet) (is : IStream) :
    ∃ k', (parsePacketOptions env mem n s k is).packet = some k' ∧ k'.command = k.command :=
  parsePacketOptions_forall (P := fun _ k' => k'.command = k.command) (fun _ _ _ h => h)
    (fun s k' is _ h => by rw [command_parseData, h]) n s k is rfl

/-- A packet of another command than `UPDATE` is read without the store. -/
theorem parsePacketOptions_of_ne_update {k : Packet} (hk : k.command ≠ .update) (hp : k.parameter = none) (n : Nat)
    (s : σ) (is : IStream) :
    ∃ k', (parsePacketOptions env mem n s k is).packet = some k' ∧ k'.command = k.command ∧ k'.parameter = none ∧
      (parsePacketOptions env mem n s k is).state = s := by
  refine parsePacketOptions_forall
    (P := fun s' k' => k'.command = k.command ∧ k'.parameter = none ∧ s' = s) (fun _ _ _ h => h)
    (fun s' k' is _ h => ?_) n s k is ⟨rfl, hp, rfl⟩
  obtain ⟨hs, hpar⟩ : (parseData env mem s' k' is).state.1 = s' ∧
    (parseData env mem s' k' is).state.2.parameter = none :=
    parseData_of_ne_update (h.1 ▸ hk) h.2.1
  exact ⟨by rw [command_parseData, h.1], hpar, by rw [hs, h.2.2]⟩

end Options

/-! ### Whole packets -/

section Parse

variable {σ : Type} {env : ParseEnv σ} {mem : Memory} {s : σ} {junk : Nat → UInt8} {data : Bytes} {k : Packet}

theorem get_stream (junk : Nat → UInt8) (data : Bytes) : (stream junk data).get.1 = data.head? := by
  cases data <;> rfl

/-- A packet that is read at all has the command of its first byte. -/
theorem command_parsePacket (h : (parsePacket env mem s (stream junk data)).packet = some k) :
    commandOf data = some k.command := by
  rw [commandOf, ← get_stream junk]
  unfold parsePacket at h
  dsimp only at h
  split at h
  · simp at h
  · next hc =>
    rw [hc]
    split at h
    · simp at h
    · simp at h
    · rw [← Option.some.inj h]
  · next c _ hc =>
    rw [hc]
    obtain ⟨k', hk', hcmd⟩ := command_parsePacketOptions
      ((stream junk data).get.2.rest.length + 1) s { command := c } (stream junk data).get.2
    rw [h] at hk'
    rw [Option.some.inj hk', hcmd]

/-- Only an `UPDATE` packet has the store looked at. -/
theorem state_parsePacket (h : commandOf data ≠ some .update) :
    (parsePacket env mem s (stream junk data)).state = s := by
  rw [commandOf, ← get_stream junk] at h
  unfold parsePacket
  dsimp only
  split
  · rfl
  · split <;> rfl
  · next c _ hc =>
    obtain ⟨k', -, -, -, hs⟩ := parsePacketOptions_of_ne_update (k := { command := c })
      (fun hcu => h (by rw [hc]; exact congrArg some hcu)) rfl ((stream junk data).get.2.rest.length + 1) s
      (stream junk data).get.2
    exact hs

/-- Only `UPDATE` and `UPDATEVALUE` packets hold a parameter. -/
theorem parameter_parsePacket (h : (parsePacket env mem s (stream junk data)).packet = some k)
    (hu : commandOf data ≠ some .update) (hv : commandOf data ≠ some .updateValue) : k.parameter = none := by
  rw [commandOf, ← get_stream junk] at hu hv
  unfold parsePacket at h
  dsimp only at h
  split at h
  · simp at h
  · next hc => exact absurd hc hv
  · next c _ hc =>
    obtain ⟨k', hk', -, hp, -⟩ := parsePacketOptions_of_ne_update (k := { command := c })
      (fun hcu => hu (by rw [hc]; exact congrArg some hcu)) rfl ((stream junk data).get.2.rest.length + 1) s
      (stream junk data).get.2
    rw [h] at hk'
    rw [Option.some.inj hk', hp]

/-- A packet that is neither of the two updates is read up to some point at least. -/
theorem exists_packet_parsePacket {c : Command} (hc : commandOf data = some c) (hv : c ≠ .updateValue) :
    ∃ k, (parsePacket env mem s (stream junk data)).packet = some k := by
  rw [commandOf, ← get_stream junk] at hc
  unfold parsePacket
  dsimp only
  split
  · next hn => rw [hn] at hc; simp at hc
  · next hn => rw [hn] at hc; exact absurd (Option.some.inj hc).symm hv
  · next c' _ hn =>
    obtain ⟨k', hk', -⟩ := command_parsePacketOptions
      ((stream junk data).get.2.rest.length + 1) s { command := c' } (stream junk data).get.2
    exact ⟨k', hk'⟩

end Parse

/-- Reading a packet without a parameter leaves the store as it is. -/
theorem Store.parse_of_command {s : Store} {ch : Chance} {data : Bytes} (hu : commandOf data ≠ some .update)
    (hv : commandOf data ≠ some .updateValue) : s.parse ch data = parsePacket storeEnv ch.mem s (stream ch.junk data) := by
  unfold Store.parse
  dsimp only
  cases hk : (parsePacket storeEnv ch.mem s (stream ch.junk data)).packet with
  | none => rfl
  | some k => rw [Option.bind_some, parameter_parsePacket hk hu hv]

theorem Store.state_parse_of_command {s : Store} {ch : Chance} {data : Bytes} (hu : commandOf data ≠ some .update)
    (hv : commandOf data ≠ some .updateValue) : (s.parse ch data).state = s := by
  rw [Store.parse_of_command hu hv, state_parsePacket hu]

theorem Store.packet_parse (s : Store) (ch : Chance) (data : Bytes) :
    (s.parse ch data).packet = (parsePacket storeEnv ch.mem s (stream ch.junk data)).packet := by
  unfold Store.parse
  dsimp only
  split <;> rfl

/-- A packet that `Packet::parse` comes back with has the command of its first byte. -/
theorem Store.command_parse {s : Store} {ch : Chance} {data : Bytes} {k : Packet}
    (h : (s.parse ch data).packet = some k) : commandOf data = some k.command :=
  command_parsePacket ((s.packet_parse ch data).symm.trans h)

theorem Packet.data_of_parameter {k : Packet} {p : Parameter} (h : k.parameter = some p) :
    k.data = some (.parameter p) := by
  unfold Packet.parameter at h
  split at h
  · next heq => rw [heq, Option.some.inj h]
  · simp at h

/-- A parameter comes with one of the two update commands. -/
theorem Store.command_of_parameter {s : Store} {ch : Chance} {data : Bytes} {k : Packet} {p : Parameter}
    (h : (s.parse ch data).packet = some k) (hp : k.parameter = some p) :
    k.command = .update ∨ k.command = .updateValue := by
  have hc := Store.command_parse h
  by_contra hno
  rw [not_or] at hno
  rw [Store.packet_parse] at h
  rw [parameter_parsePacket h (by simpa [hc] using hno.1) (by simpa [hc] using hno.2)] at hp
  simp at hp

end RabbitControl
