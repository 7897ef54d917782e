import RabbitControl.Lib.BigEndian

/-!
# Byte orders

How a host keeps a word of `n` bytes in memory.  `memory` lists the bytes of a word from the lowest address on,
`ofMemory` is the word that is kept as given bytes.  The bytes of a signed word can be had by arithmetic shifts:
whatever sign is shifted in, the low byte of `v >> 8 * k` is byte `k` of the word (`lowByte_shiftRight`).
-/

namespace Lib

inductive ByteOrder
  | little
  | big
  deriving DecidableEq, Repr

namespace ByteOrder

variable {n : Nat}

/-- The bytes of a word, from the lowest address on. -/
def memory (order : ByteOrder) (v : BitVec (8 * n)) : List UInt8 :=
  match order with
  | little => (encodeBE n v.toNat).reverse
  | big => encodeBE n v.toNat

/-- The word of `n` bytes that memory holds. -/
def ofMemory (order : ByteOrder) (n : Nat) (l : List UInt8) : BitVec (8 * n) :=
  match order with
  | little => BitVec.ofNat _ (decodeBE l.reverse)
  | big => BitVec.ofNat _ (decodeBE l)

end ByteOrder

/-! ### Shifts -/

/-- The low byte of an integer. -/
def lowByte (v : Int) : UInt8 := UInt8.ofNat (v % 256).toNat

/-- An arithmetic shift brings byte `k` of a signed word to the low end. -/
theorem lowByte_shiftRight {n k : Nat} (v : BitVec (8 * n)) (hk : k < n) :
    lowByte (v.toInt >>> (8 * k)) = UInt8.ofNat (v.toNat / 256 ^ k) := by
  have h256 : (2 : Nat) ^ (8 * k) = 256 ^ k := by rw [pow_mul]; norm_num
  have hpos : (0 : Int) < 256 ^ k := by positivity
  -- the sign contributes a multiple of `256 ^ n`
  obtain ⟨c, hc⟩ : ∃ c : Int, v.toInt = v.toNat + c * 256 ^ (k + 1) := by
    have hn : (2 : Int) ^ (8 * n) = 256 ^ (n - (k + 1)) * 256 ^ (k + 1) := by
      rw [← pow_add, Nat.sub_add_cancel hk, pow_mul]
      norm_num
    rw [BitVec.toInt_eq_toNat_cond]
    split
    · exact ⟨0, by simp⟩
    · refine ⟨-256 ^ (n - (k + 1)), ?_⟩
      push_cast
      rw [hn]
      ring
  have hdiv : v.toInt >>> (8 * k) = ((v.toNat / 256 ^ k : Nat) : Int) + c * 256 := by
    rw [Int.shiftRight_eq_div_pow, h256, hc, pow_succ]
    push_cast
    rw [show (v.toNat : Int) + c * (256 ^ k * 256) = v.toNat + c * 256 * 256 ^ k by ring,
      Int.add_mul_ediv_right _ _ (ne_of_gt hpos)]
  rw [lowByte, hdiv, Int.add_mul_emod_self_right]
  have hnat : (((v.toNat / 256 ^ k : Nat) : Int) % 256).toNat = v.toNat / 256 ^ k % 256 := by
    rw [← Int.toNat_natCast (v.toNat / 256 ^ k % 256)]
    norm_cast
  rw [hnat]
  exact UInt8.toNat_inj.mp (by simp)

end Lib
