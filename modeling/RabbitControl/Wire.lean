import RabbitControl.Types

/-!
# Strings and values on the wire

The overloads of `Writer::write` and of `readFromStream` (`stringstreamwriter.cpp`, `writer.h`, `stream_tools.h`).
The length of a string is written in one, two or four bytes.  The limits `UINT8_MAX` and `UINT16_MAX` that stand for
the length of a longer string are `int` literals, so the writer emits them in four bytes.  The reader takes the
one-byte length for a signed `char`.
-/

namespace RabbitControl

open Lib

/-! ### Writer -/

def writeBool (b : Bool) : Bytes := [if b then 1 else 0]

def writeTinyString (s : Bytes) : Bytes :=
  if s.length ≥ 255 then encodeBE 4 255 ++ s.take 255 else encodeBE 1 s.length ++ s

def writeShortString (s : Bytes) : Bytes :=
  if s.length ≥ 65535 then encodeBE 4 65535 ++ s.take 65535 else encodeBE 2 s.length ++ s

def writeString (s : Bytes) : Bytes :=
  if s.length ≥ 4294967295 then encodeBE 4 4294967295 ++ s.take 4294967295 else encodeBE 4 s.length ++ s

def writeIPv6 (a : IPv6) : Bytes :=
  encodeBE 4 a.a0.toNat ++ encodeBE 4 a.a1.toNat ++ encodeBE 4 a.a2.toNat ++ encodeBE 4 a.a3.toNat

/-- `out.write(value)`; a string goes through `write(s, prefix = true)`. -/
def writeValue : (τ : ValueType) → τ.Val → Bytes
  | .boolean, b => writeBool b
  | .number t, v => encodeBE t.size v.toNat
  | .string, s | .enum, s | .uri, s => encodeBE 4 s.length ++ s
  | .rgb, c | .rgba, c | .ipv4, c => encodeBE 4 c.toNat
  | .ipv6, a => writeIPv6 a
  | .range t, r => encodeBE t.size r.1.toNat ++ encodeBE t.size r.2.toNat
  | .custom _, v => v.toList

/-! ### Reader -/

def readBits (n : Nat) : Reader (BitVec (8 * n)) := fun is =>
  let r := is.readBE n
  .ok (BitVec.ofNat _ r.1, r.2)

def readBool : Reader Bool := fun is =>
  let r := is.readBE 1
  .ok (r.1 != 0, r.2)

/-- The characters of a string of length `size`; the buffer is zero-initialised. -/
def readChars (size : Nat) (is : IStream) : Bytes × IStream :=
  let r := is.read size
  (r.1 ++ List.replicate (size - r.1.length) 0, r.2)

/-- `readTinyString`: a length above 127 is a negative `char`, which `std::vector<char>(size)` refuses. -/
def readTinyString : Reader Bytes := fun is =>
  let r := is.readBE 1
  if r.1 ≥ 128 then .error .lengthError else .ok (readChars r.1 r.2)

def readShortString : Reader Bytes := fun is =>
  let r := is.readBE 2
  .ok (readChars r.1 r.2)

def readLongString : Reader Bytes := fun is =>
  let r := is.readBE 4
  .ok (readChars r.1 r.2)

def readIPv6 : Reader IPv6 := fun is =>
  let r0 := is.readBE 4
  let r1 := r0.2.readBE 4
  let r2 := r1.2.readBE 4
  let r3 := r2.2.readBE 4
  .ok (⟨.ofNat 32 r0.1, .ofNat 32 r1.1, .ofNat 32 r2.1, .ofNat 32 r3.1⟩, r3.2)

def readRange (t : NumberType) : Reader (t.Val × t.Val) := fun is =>
  let r1 := is.readBE t.size
  let r2 := r1.2.readBE t.size
  .ok ((BitVec.ofNat _ r1.1, BitVec.ofNat _ r2.1), r2.2)

def readVector (n : Nat) : Reader (Vector UInt8 n) := fun is =>
  let r := is.readInto n
  .ok (Vector.ofFn fun i => r.1.getD i 0, r.2)

/-- `readValue` of the type definition; default values are read in the same way. -/
def readValue : (τ : ValueType) → Reader τ.Val
  | .boolean => readBool
  | .number t => readBits t.size
  | .string | .uri => readLongString
  | .enum => readTinyString
  | .rgb | .rgba | .ipv4 => readBits 4
  | .ipv6 => readIPv6
  | .range t => readRange t
  | .custom n => readVector n

end RabbitControl
