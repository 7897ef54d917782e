import RabbitControl.Lib.ByteOrder
import RabbitControl.ReadBack

/-!
# Numbers on hosts of either byte order

`StringStreamWriter::write` and `readFromStream` compile to different code on hosts of different byte order
(`stringstreamwriter.cpp`, `stream_tools.h`).  The writer of a little-endian host and the readers of both agree on
big-endian bytes, and these are the ones of `writeValue` and `readBits`.  The writer of a big-endian host shifts the
other way round, and its numbers arrive with their bytes reversed: `bigEndian_iff`.
-/

namespace RabbitControl

open Lib

/-! ### Writer -/

namespace StringStreamWriter

def writeUint8 (c : BitVec 8) : Bytes := [lowByte c.toNat]

def writeInt8 (c : BitVec 8) : Bytes := [lowByte c.toInt]

/-- `static_cast<unsigned char>(v >> k)` for the given `k`. -/
def shifted {w : Nat} (v : BitVec w) (ks : List Nat) : Bytes := ks.map fun k : Nat => lowByte (v.toInt >>> k)

def writeInt16 (order : ByteOrder) (v : BitVec 16) : Bytes :=
  match order with
  | .little => shifted v [8, 0]
  | .big => shifted v [0, 8]

def writeUint16 (order : ByteOrder) (v : BitVec 16) : Bytes := writeInt16 order v

def writeInt32 (order : ByteOrder) (v : BitVec 32) : Bytes :=
  match order with
  | .little => shifted v [24, 16, 8, 0]
  | .big => shifted v [0, 8, 16, 24]

def writeUint32 (order : ByteOrder) (v : BitVec 32) : Bytes := writeInt32 order v

def writeInt64 (order : ByteOrder) (v : BitVec 64) : Bytes :=
  match order with
  | .little => shifted v [56, 48, 40, 32, 24, 16, 8, 0]
  | .big => shifted v [0, 8, 16, 24, 32, 40, 48, 56]

def writeUint64 (order : ByteOrder) (v : BitVec 64) : Bytes := writeInt64 order v

/-- A float is written as the unsigned integer with its bits. -/
def writeFloat (order : ByteOrder) (v : BitVec 32) : Bytes := writeUint32 order v

def writeDouble (order : ByteOrder) (v : BitVec 64) : Bytes := writeUint64 order v

/-- The overload of `write` for a number type. -/
def write (order : ByteOrder) : (t : NumberType) → t.Val → Bytes
  | .int8 => writeInt8
  | .uint8 => writeUint8
  | .int16 => writeInt16 order
  | .uint16 => writeUint16 order
  | .int32 => writeInt32 order
  | .uint32 => writeUint32 order
  | .int64 => writeInt64 order
  | .uint64 => writeUint64 order
  | .float32 => writeFloat order
  | .float64 => writeDouble order

/-- The shifts of an eight-byte word, say, in descending order are its bytes in big-endian order. -/
theorem shifted_descending {n : Nat} (v : BitVec (8 * n)) :
    shifted v ((List.range n).reverse.map (8 * ·)) = encodeBE n v.toNat := by
  have hbytes : ∀ m ≤ n, (List.range m).reverse.map (fun k : Nat => lowByte (v.toInt >>> (8 * k))) =
      encodeBE m v.toNat := by
    intro m hm
    induction m with
    | zero => rfl
    | succ m ih =>
      rw [List.range_succ, List.reverse_append, List.reverse_singleton, List.singleton_append, List.map_cons,
        ih (Nat.le_of_succ_le hm), lowByte_shiftRight v hm]
      rfl
  rw [shifted, List.map_map]
  exact hbytes n le_rfl

theorem shifted_ascending {n : Nat} (v : BitVec (8 * n)) :
    shifted v ((List.range n).map (8 * ·)) = (encodeBE n v.toNat).reverse := by
  rw [← shifted_descending, shifted, shifted, List.map_reverse, List.map_reverse, List.reverse_reverse]

theorem writeInt8_eq (c : BitVec 8) : writeInt8 c = encodeBE 1 c.toNat := by
  have h := shifted_descending (n := 1) c
  simpa [shifted, writeInt8] using h

theorem writeUint8_eq (c : BitVec 8) : writeUint8 c = encodeBE 1 c.toNat := by
  have hmod : c.toNat % 256 = c.toNat := Nat.mod_eq_of_lt c.isLt
  have hint : ((c.toNat : Int) % 256).toNat = c.toNat := by omega
  rw [writeUint8, lowByte, hint]
  simp [encodeBE]

/-- A little-endian host writes big-endian bytes. -/
theorem write_little (t : NumberType) (v : t.Val) : write .little t v = encodeBE t.size v.toNat := by
  cases t with
  | uint8 => exact writeUint8_eq v
  | int8 => exact writeInt8_eq v
  | int16 | uint16 => exact shifted_descending (n := 2) v
  | int32 | uint32 | float32 => exact shifted_descending (n := 4) v
  | int64 | uint64 | float64 => exact shifted_descending (n := 8) v

/-- A big-endian host writes them in reverse. -/
theorem write_big (t : NumberType) (v : t.Val) : write .big t v = (encodeBE t.size v.toNat).reverse := by
  cases t with
  | uint8 => exact (writeUint8_eq v).trans List.reverse_singleton.symm
  | int8 => exact (writeInt8_eq v).trans List.reverse_singleton.symm
  | int16 | uint16 => exact shifted_ascending (n := 2) v
  | int32 | uint32 | float32 => exact shifted_ascending (n := 4) v
  | int64 | uint64 | float64 => exact shifted_ascending (n := 8) v

end StringStreamWriter

/-! ### Reader -/

/-- The bytes of a variable in reverse. -/
def swapEndian {n : Nat} (order : ByteOrder) (u : BitVec (8 * n)) : BitVec (8 * n) :=
  order.ofMemory n (order.memory u).reverse

/-- The bytes of the stream go into the memory of a variable; a little-endian host swaps them. -/
def readFromStream (order : ByteOrder) (n : Nat) (is : IStream) : BitVec (8 * n) × IStream :=
  let r := is.readInto n
  let value := order.ofMemory n r.1
  (match order with
    | .little => swapEndian order value
    | .big => value, r.2)

theorem length_readInto (n : Nat) (is : IStream) : (is.readInto n).1.length = n := by
  have hle : (is.read n).1.length ≤ n := by
    unfold IStream.read
    split
    · split
      · exact List.length_take_le ..
      · next h => exact le_of_lt (Nat.lt_of_not_le h)
    · exact Nat.zero_le _
  rw [IStream.readInto, List.length_append, List.length_map, List.length_range]
  omega

/-- On either host the bytes of the stream are taken in big-endian order, also those that a short read leaves
unset. -/
theorem readFromStream_eq (order : ByteOrder) (n : Nat) (is : IStream) :
    readFromStream order n is = (BitVec.ofNat _ (is.readBE n).1, (is.readBE n).2) := by
  have hlen := length_readInto n is
  cases order with
  | big => rfl
  | little =>
    have hlt := decodeBE_lt (is.readInto n).1.reverse
    rw [List.length_reverse, hlen] at hlt
    have hpow : (2 : Nat) ^ (8 * n) = 256 ^ n := by rw [pow_mul]; norm_num
    have hnat : (ByteOrder.little.ofMemory n (is.readInto n).1).toNat = decodeBE (is.readInto n).1.reverse := by
      rw [ByteOrder.ofMemory, BitVec.toNat_ofNat, hpow, Nat.mod_eq_of_lt hlt]
    have hmemory : ByteOrder.little.memory (ByteOrder.little.ofMemory n (is.readInto n).1) = (is.readInto n).1 := by
      have hbytes := encodeBE_decodeBE (is.readInto n).1.reverse
      rw [List.length_reverse, hlen] at hbytes
      rw [ByteOrder.memory, hnat, hbytes, List.reverse_reverse]
    have hswap : swapEndian .little (ByteOrder.little.ofMemory n (is.readInto n).1) =
        BitVec.ofNat _ (decodeBE (is.readInto n).1) := by
      rw [swapEndian, hmemory, ByteOrder.ofMemory, List.reverse_reverse]
    exact congrArg (·, (is.readInto n).2) hswap

/-- The reader of numbers is the one of either host. -/
theorem readBits_eq (order : ByteOrder) (n : Nat) (is : IStream) : readBits n is = .ok (readFromStream order n is) := by
  rw [readFromStream_eq]
  rfl

/-! ### Agreement -/

variable {order : ByteOrder} {t : NumberType} {v : t.Val}

/-- What a host of the given byte order writes for a number are its big-endian bytes, and readers on all hosts take
it from these bytes and from those that were written. -/
structure BigEndian (order : ByteOrder) (t : NumberType) (v : t.Val) : Prop where
  written : StringStreamWriter.write order t v = encodeBE t.size v.toNat
  read : ∀ order' tail junk, readFromStream order' t.size { rest := encodeBE t.size v.toNat ++ tail, junk := junk } =
    (v, { rest := tail, junk := junk })
  agree : ∀ order' tail junk,
    readFromStream order' t.size { rest := StringStreamWriter.write order t v ++ tail, junk := junk } =
      (v, { rest := tail, junk := junk })

/-- Readers on all hosts take a number from its big-endian bytes. -/
theorem readFromStream_encodeBE (order : ByteOrder) (t : NumberType) (v : t.Val) (tail : Bytes) (junk : Nat → UInt8) :
    readFromStream order t.size { rest := encodeBE t.size v.toNat ++ tail, junk := junk } =
      (v, { rest := tail, junk := junk }) := by
  have h := reads_bits v tail junk
  rw [readBits_eq order] at h
  exact Except.ok.inj h

/-- Numbers are big-endian on the wire exactly if a little-endian host writes them or their bytes are the same in
both directions. -/
theorem bigEndian_iff (order : ByteOrder) (t : NumberType) (v : t.Val) :
    BigEndian order t v ↔ order = .little ∨ (encodeBE t.size v.toNat).reverse = encodeBE t.size v.toNat := by
  have hwritten : StringStreamWriter.write order t v = encodeBE t.size v.toNat ↔
      order = .little ∨ (encodeBE t.size v.toNat).reverse = encodeBE t.size v.toNat := by
    cases order with
    | little => simp [StringStreamWriter.write_little]
    | big => simp [StringStreamWriter.write_big]
  rw [← hwritten]
  constructor
  · exact BigEndian.written
  · intro h
    refine ⟨h, fun order' tail junk => readFromStream_encodeBE .., fun order' tail junk => ?_⟩
    rw [h]
    exact readFromStream_encodeBE ..

/-- The number one, as a `short`, of a big-endian host. -/
theorem one_not_bigEndian : ¬∀ (order : ByteOrder) (t : NumberType) (v : t.Val), BigEndian order t v := by
  intro h
  have hone := (h .big .int16 (1 : BitVec 16)).written
  revert hone
  decide

end RabbitControl
