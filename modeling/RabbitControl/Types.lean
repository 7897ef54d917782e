import RabbitControl.Lib.InputStream

/-!
# Commands, datatypes and values

The enumerations of the protocol (`types.h`) and the value types of the parameters.  A number is kept as its bits:
integers of either sign and floats of one width share their wire form and differ in `operator==` and in
`std::numeric_limits` only.
-/

namespace RabbitControl

open Lib

/-- A `std::string` or a `std::vector<char>`. -/
abbrev Bytes := List UInt8

/-- Parameter ids are signed 16-bit integers. -/
abbrev Id := Int16

def writeInt16 (v : Int16) : Bytes := encodeBE 2 v.toBitVec.toNat

def readInt16 (is : IStream) : Int16 × IStream :=
  let r := is.readBE 2
  (Int16.ofBitVec (BitVec.ofNat 16 r.1), r.2)

/-- `command_t` without the two markers `COMMAND_INVALID` and `COMMAND_MAX_`; `init` is `COMMAND_INITIALIZE`. -/
inductive Command
  | info
  | init
  | discover
  | update
  | remove
  | updateValue
  deriving DecidableEq, Repr

def Command.code : Command → UInt8
  | info => 1
  | init => 2
  | discover => 3
  | update => 4
  | remove => 5
  | updateValue => 6

def Command.ofCode : UInt8 → Option Command
  | 1 => some info
  | 2 => some init
  | 3 => some discover
  | 4 => some update
  | 5 => some remove
  | 6 => some updateValue
  | _ => none

/-- The element types of the number parameters. -/
inductive NumberType
  | int8 | uint8 | int16 | uint16 | int32 | uint32 | int64 | uint64 | float32 | float64
  deriving DecidableEq, Repr

namespace NumberType

/-- `sizeof(T)`. -/
def size : NumberType → Nat
  | int8 | uint8 => 1
  | int16 | uint16 => 2
  | int32 | uint32 | float32 => 4
  | int64 | uint64 | float64 => 8

/-- `datatype_t` of a number type. -/
def datatype : NumberType → UInt8
  | int8 => 17
  | uint8 => 18
  | int16 => 19
  | uint16 => 20
  | int32 => 21
  | uint32 => 22
  | int64 => 23
  | uint64 => 24
  | float32 => 25
  | float64 => 26

def ofDatatype : UInt8 → Option NumberType
  | 17 => some int8
  | 18 => some uint8
  | 19 => some int16
  | 20 => some uint16
  | 21 => some int32
  | 22 => some uint32
  | 23 => some int64
  | 24 => some uint64
  | 25 => some float32
  | 26 => some float64
  | _ => none

/-- The bits of a number. -/
abbrev Val (t : NumberType) := BitVec (8 * t.size)

/-- Equality of floats with `e` exponent bits above `m` fraction bits: no NaN equals anything, and the two zeros
are equal. -/
def floatEq (e m : Nat) (a b : Nat) : Bool :=
  let isNaN := fun x : Nat => x / 2 ^ m % 2 ^ e == 2 ^ e - 1 && x % 2 ^ m != 0
  let isZero := fun x : Nat => x % 2 ^ (e + m) == 0
  !isNaN a && !isNaN b && (a == b || isZero a && isZero b)

/-- `operator==` of the number type. -/
def eqv (t : NumberType) (a b : t.Val) : Bool :=
  match t with
  | float32 => floatEq 8 23 a.toNat b.toNat
  | float64 => floatEq 11 52 a.toNat b.toNat
  | _ => a.toNat == b.toNat

/-- `std::numeric_limits<T>::min()`; for floats the smallest positive normal number. -/
def minimum : (t : NumberType) → t.Val
  | int8 => 0x80
  | int16 => 0x8000
  | int32 => 0x80000000
  | int64 => 0x8000000000000000
  | float32 => 0x00800000
  | float64 => 0x0010000000000000
  | uint8 | uint16 | uint32 | uint64 => 0

/-- `std::numeric_limits<T>::max()`. -/
def maximum : (t : NumberType) → t.Val
  | int8 => 0x7f
  | int16 => 0x7fff
  | int32 => 0x7fffffff
  | int64 => 0x7fffffffffffffff
  | uint8 => 0xff
  | uint16 => 0xffff
  | uint32 => 0xffffffff
  | uint64 => 0xffffffffffffffff
  | float32 => 0x7f7fffff
  | float64 => 0x7fefffffffffffff

end NumberType

/-- `rcp::IPv6`. -/
structure IPv6 where
  a0 : BitVec 32
  a1 : BitVec 32
  a2 : BitVec 32
  a3 : BitVec 32
  deriving DecidableEq, Repr

/-- The pairs of a C++ type and a datatype that a `ValueParameter` is instantiated at. -/
inductive ValueType
  | boolean
  | number (t : NumberType)
  | string
  | enum
  | rgb
  | rgba
  | uri
  | ipv4
  | ipv6
  | range (t : NumberType)
  | custom (size : Nat)
  deriving DecidableEq, Repr

/-- What memory holds in the members that a constructor leaves unset. -/
structure Memory where
  hasReadonly : Bool := false
  readonlyChanged : Bool := false
  ipv4 : BitVec 32 := 0
  ipv6 : IPv6 := ⟨0, 0, 0, 0⟩

namespace ValueType

/-- The values of a value type. -/
@[reducible] def Val : ValueType → Type
  | boolean => Bool
  | number t => t.Val
  | string | enum | uri => Bytes
  | rgb | rgba | ipv4 => BitVec 32
  | ipv6 => IPv6
  | range t => t.Val × t.Val
  | custom n => Vector UInt8 n

/-- `operator==` of the value type. -/
def eqv : (τ : ValueType) → τ.Val → τ.Val → Bool
  | boolean, a, b => a == b
  | number t, a, b => t.eqv a b
  | string, a, b | enum, a, b | uri, a, b => decide (a = b)
  | rgb, a, b | rgba, a, b | ipv4, a, b => a == b
  | ipv6, a, b => decide (a = b)
  | range t, a, b => t.eqv a.1 b.1 && t.eqv a.2 b.2
  | custom _, a, b => a == b

/-- `T{}`: zero for the types with an initialiser, whatever memory holds for the IP addresses. -/
def blank (mem : Memory) : (τ : ValueType) → τ.Val
  | boolean => false
  | number _ => 0
  | string | enum | uri => []
  | rgb | rgba => (0 : BitVec 32)
  | ipv4 => mem.ipv4
  | ipv6 => mem.ipv6
  | range _ => (0, 0)
  | custom n => Vector.replicate n 0

def datatype : ValueType → UInt8
  | boolean => 16
  | number t => t.datatype
  | string => 33
  | rgb => 34
  | rgba => 35
  | enum => 36
  | uri => 42
  | ipv4 => 43
  | ipv6 => 44
  | range _ => 45
  | custom _ => 1

end ValueType

/-- The datatypes of the parameters that carry no value, and the bound `DATATYPE_MAX_`. -/
def datatypeBang : UInt8 := 39
def datatypeGroup : UInt8 := 40
def datatypeMax : UInt8 := 47

end RabbitControl
