import Mathlib

/-!
# Big-endian byte encodings

`encodeBE n x` are the `n` bytes of `x`, most significant byte first; `decodeBE` reads such a list back.  Reading
back the bytes of `x` gives `x` modulo `256 ^ n` (`decodeBE_encodeBE`), so a fixed-width word survives the trip
(`ofNat_decodeBE_encodeBE`), and every list of bytes is the encoding of its number (`encodeBE_decodeBE`).
-/

namespace Lib

/-- The `n` bytes of `x`, most significant first. -/
def encodeBE : Nat → Nat → List UInt8
  | 0, _ => []
  | n + 1, x => UInt8.ofNat (x / 256 ^ n) :: encodeBE n x

/-- The number whose bytes, most significant first, are the given ones. -/
def decodeBE (l : List UInt8) : Nat := l.foldl (fun acc b => acc * 256 + b.toNat) 0

@[simp] theorem length_encodeBE (n x : Nat) : (encodeBE n x).length = n := by
  induction n with
  | zero => rfl
  | succ n ih => simp [encodeBE, ih]

private theorem foldl_encodeBE (n x acc : Nat) :
    (encodeBE n x).foldl (fun acc b => acc * 256 + b.toNat) acc = acc * 256 ^ n + x % 256 ^ n := by
  induction n generalizing acc with
  | zero => simp [encodeBE, Nat.mod_one]
  | succ n ih =>
    have hb : (UInt8.ofNat (x / 256 ^ n)).toNat = x / 256 ^ n % 256 := by simp
    rw [encodeBE, List.foldl_cons, ih, hb, pow_succ, Nat.mod_mul]
    ring

theorem decodeBE_encodeBE (n x : Nat) : decodeBE (encodeBE n x) = x % 256 ^ n := by
  rw [decodeBE, foldl_encodeBE, Nat.zero_mul, Nat.zero_add]

theorem decodeBE_lt (l : List UInt8) : decodeBE l < 256 ^ l.length := by
  have h : ∀ acc, l.foldl (fun acc b => acc * 256 + b.toNat) acc < (acc + 1) * 256 ^ l.length := by
    induction l with
    | nil => intro acc; simp
    | cons b l ih =>
      intro acc
      have hb := b.toNat_lt
      have hle : (acc * 256 + b.toNat + 1) * 256 ^ l.length ≤ (acc + 1) * 256 * 256 ^ l.length :=
        Nat.mul_le_mul_right _ (by omega)
      rw [List.foldl_cons, List.length_cons, pow_succ']
      calc _ < (acc * 256 + b.toNat + 1) * 256 ^ l.length := ih _
        _ ≤ (acc + 1) * 256 * 256 ^ l.length := hle
        _ = (acc + 1) * (256 * 256 ^ l.length) := by rw [Nat.mul_assoc]
  simpa [decodeBE] using h 0

private theorem foldl_decodeBE (l : List UInt8) (acc : Nat) :
    l.foldl (fun acc b => acc * 256 + b.toNat) acc = acc * 256 ^ l.length + decodeBE l := by
  induction l generalizing acc with
  | nil => simp [decodeBE]
  | cons b l ih =>
    have hcons : decodeBE (b :: l) = (0 * 256 + b.toNat) * 256 ^ l.length + decodeBE l := ih _
    rw [List.foldl_cons, ih, hcons, List.length_cons, pow_succ]
    ring

theorem decodeBE_cons (b : UInt8) (l : List UInt8) :
    decodeBE (b :: l) = b.toNat * 256 ^ l.length + decodeBE l := by
  rw [decodeBE, List.foldl_cons, foldl_decodeBE, Nat.zero_mul, Nat.zero_add]

/-- Only the low bytes of a number are encoded. -/
theorem encodeBE_add (n x y : Nat) : encodeBE n (x * 256 ^ n + y) = encodeBE n y := by
  induction n generalizing x y with
  | zero => rfl
  | succ n ih =>
    have hpos : 0 < 256 ^ n := Nat.pow_pos (by decide)
    have hcarry : x * 256 ^ (n + 1) + y = x * 256 * 256 ^ n + y := by ring
    have hhead : (x * 256 * 256 ^ n + y) / 256 ^ n = x * 256 + y / 256 ^ n := by
      rw [Nat.add_comm, Nat.add_mul_div_right _ _ hpos, Nat.add_comm]
    rw [hcarry, encodeBE, encodeBE, hhead, ih]
    refine congrArg (· :: _) (UInt8.toNat_inj.mp ?_)
    simp

/-- The bytes of the number that a list encodes are the list. -/
theorem encodeBE_decodeBE (l : List UInt8) : encodeBE l.length (decodeBE l) = l := by
  induction l with
  | nil => rfl
  | cons b l ih =>
    have hpos : 0 < 256 ^ l.length := Nat.pow_pos (by decide)
    have hhead : (b.toNat * 256 ^ l.length + decodeBE l) / 256 ^ l.length = b.toNat := by
      rw [Nat.add_comm, Nat.add_mul_div_right _ _ hpos, Nat.div_eq_of_lt (decodeBE_lt l), Nat.zero_add]
    rw [decodeBE_cons, List.length_cons, encodeBE, hhead, encodeBE_add, ih, UInt8.ofNat_toNat]

/-- A word of `8 * n` bits is recovered from its bytes. -/
theorem ofNat_decodeBE_encodeBE {n : Nat} (v : BitVec (8 * n)) :
    BitVec.ofNat (8 * n) (decodeBE (encodeBE n v.toNat)) = v := by
  apply BitVec.eq_of_toNat_eq
  have h : (2 : Nat) ^ (8 * n) = 256 ^ n := by rw [pow_mul]; norm_num
  have hv : v.toNat < 256 ^ n := h ▸ v.isLt
  rw [decodeBE_encodeBE, BitVec.toNat_ofNat, h, Nat.mod_mod, Nat.mod_eq_of_lt hv]

end Lib
