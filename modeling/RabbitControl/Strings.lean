import RabbitControl.Packet
import RabbitControl.ReadBack

/-!
# Strings on the wire

The three kinds of strings with a length in front.  The writer of tiny and of short strings sends a limit in four bytes
where the reader takes one or two, and the reader takes the one-byte length for a signed character.  So tiny strings
come back up to 127 bytes and short ones up to 65534 bytes (`strings_read_iff`); long strings always come back, cut off
at their limit.
-/

namespace RabbitControl

open Lib

/-- The string that was written is read, cut off at its limit, and what follows is left unread. -/
def ReadsString (read : Reader Bytes) (write : Bytes → Bytes) (limit : Nat) (junk : Nat → UInt8) (s rest : Bytes) :
    Prop :=
  read (stream junk (write s ++ rest)) = .ok (s.take limit, stream junk rest)

variable {junk : Nat → UInt8} {s : Bytes}

/-- A length from 128 on is negative. -/
theorem readTinyString_negative (h : 128 ≤ s.length) (hlimit : s.length < 255) (rest : Bytes) :
    readTinyString (stream junk (writeTinyString s ++ rest)) = .error .lengthError := by
  have hwrite : writeTinyString s = encodeBE 1 s.length ++ s := if_neg (by omega)
  have hmod : s.length % 256 ^ 1 = s.length := Nat.mod_eq_of_lt (by omega)
  rw [readTinyString, stream, hwrite, List.append_assoc, IStream.readBE_encodeBE, hmod]
  exact if_pos h

/-- Of a limit that is sent in four bytes the reader takes a zero. -/
theorem readTinyString_limit (h : 255 ≤ s.length) (rest : Bytes) :
    readTinyString (stream junk (writeTinyString s ++ rest)) =
      .ok ([], stream junk (0 :: 0 :: 255 :: (s.take 255 ++ rest))) := by
  have hwrite : writeTinyString s ++ rest = encodeBE 1 0 ++ (0 :: 0 :: 255 :: (s.take 255 ++ rest)) := by
    rw [writeTinyString, if_pos h]
    rfl
  rw [readTinyString, stream, hwrite, IStream.readBE_encodeBE]
  rfl

theorem readShortString_limit (h : 65535 ≤ s.length) (rest : Bytes) :
    readShortString (stream junk (writeShortString s ++ rest)) =
      .ok ([], stream junk (255 :: 255 :: (s.take 65535 ++ rest))) := by
  have hwrite : writeShortString s ++ rest = encodeBE 2 0 ++ (255 :: 255 :: (s.take 65535 ++ rest)) := by
    rw [writeShortString, if_pos h]
    rfl
  rw [readShortString, stream, hwrite, IStream.readBE_encodeBE]
  rfl

/-- Tiny strings come back up to 127 bytes, short ones up to 65534 bytes, and long ones always. -/
theorem strings_read_iff (junk : Nat → UInt8) (s rest : Bytes) :
    (ReadsString readTinyString writeTinyString 255 junk s rest ↔ s.length ≤ 127) ∧
      (ReadsString readShortString writeShortString 65535 junk s rest ↔ s.length ≤ 65534) ∧
      ReadsString readLongString writeString 4294967295 junk s rest := by
  refine ⟨⟨fun hread => ?_, fun h => ?_⟩, ⟨fun hread => ?_, fun h => ?_⟩, reads_string s rest junk⟩
  · by_contra h
    by_cases hlimit : s.length < 255
    · rw [ReadsString, readTinyString_negative (by omega) hlimit] at hread
      simp at hread
    · rw [ReadsString, readTinyString_limit (by omega)] at hread
      have hlen := congrArg (fun r => r.1.length) (Except.ok.inj hread)
      simp at hlen
      omega
  · rw [ReadsString, List.take_of_length_le (by omega)]
    exact reads_tinyString h rest junk
  · by_contra h
    rw [ReadsString, readShortString_limit (by omega)] at hread
    have hlen := congrArg (fun r => r.1.length) (Except.ok.inj hread)
    simp at hlen
    omega
  · rw [ReadsString, List.take_of_length_le (by omega)]
    exact reads_shortString h rest junk

/-- A tiny string of 128 bytes is refused. -/
theorem tinyString_refused :
    ¬∀ (junk : Nat → UInt8) (s rest : Bytes), ReadsString readTinyString writeTinyString 255 junk s rest := by
  intro h
  have hread := h (fun _ => 0) (List.replicate 128 97) []
  rw [ReadsString, readTinyString_negative (by rw [List.length_replicate]) (by rw [List.length_replicate]; decide)] at hread
  simp at hread

end RabbitControl
