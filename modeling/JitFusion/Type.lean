/-
# Value types and the type helper

The types an expression can have (`include/type.h`) and the tables `TypeHelper` keeps about
them (`src/type.cc`): which types are numeric, integral, signed or lists, how wide a number
is, and which of two types an operator promotes to.

Every later module reads these tables, so each comes with the few facts the rest uses: an
integer type is numeric, the promotion of two numeric types is one of the two, and a
numeric type is never `kVoid`.
-/
import Mathlib.Data.List.Basic

namespace JitFusion

/-! ## 1. The enumerations -/

/-- `enum class BinaryOPType`. -/
inductive BinaryOPType
  | kAdd | kSub | kMul | kDiv | kMod
  | kLarge | kLargeEqual | kEqual | kLess | kLessEqual | kNotEqual
  | kAnd | kOr
  | kBitwiseAnd | kBitwiseOr | kBitwiseXor | kBitwiseShiftLeft | kBitwiseShiftRight
  deriving DecidableEq, Repr

/-- `enum class UnaryOPType`. -/
inductive UnaryOPType
  | kPlus | kMinus | kNot | kBitwiseNot
  deriving DecidableEq, Repr

/-- `enum class ValueType`. -/
inductive ValueType
  | kUnknown | kVoid
  | kU8 | kU16 | kU32 | kU64 | kI8 | kI16 | kI32 | kI64 | kF32 | kF64
  | kString
  | kU8List | kU16List | kU32List | kU64List | kI8List | kI16List | kI32List | kI64List
  | kF32List | kF64List | kStringList
  | kPtr
  deriving DecidableEq, Repr

/-- A `std::string` used as data rather than as a name: its bytes. -/
abbrev Bytes := List UInt8

/-- `ConstantValueType`.  A float is kept as its bit pattern. -/
inductive ConstantValueType
  | i8 (v : BitVec 8) | i16 (v : BitVec 16) | i32 (v : BitVec 32) | i64 (v : BitVec 64)
  | u8 (v : BitVec 8) | u16 (v : BitVec 16) | u32 (v : BitVec 32) | u64 (v : BitVec 64)
  | f32 (bits : BitVec 32) | f64 (bits : BitVec 64)
  | string (v : Bytes)
  deriving DecidableEq, Repr

/-- `ConstantListValueType`. -/
inductive ConstantListValueType
  | i8 (v : List (BitVec 8)) | i16 (v : List (BitVec 16))
  | i32 (v : List (BitVec 32)) | i64 (v : List (BitVec 64))
  | u8 (v : List (BitVec 8)) | u16 (v : List (BitVec 16))
  | u32 (v : List (BitVec 32)) | u64 (v : List (BitVec 64))
  | f32 (bits : List (BitVec 32)) | f64 (bits : List (BitVec 64))
  | string (v : List Bytes)
  deriving DecidableEq, Repr

/-! ## 2. `TypeHelper` -/

namespace TypeHelper

def unaryOPTypeToString : UnaryOPType → String
  | .kPlus => "+"
  | .kMinus => "-"
  | .kNot => "!"
  | .kBitwiseNot => "~"

def binaryOPTypeToString : BinaryOPType → String
  | .kAdd => "+"
  | .kSub => "-"
  | .kMul => "*"
  | .kDiv => "/"
  | .kMod => "%"
  | .kLarge => ">"
  | .kLargeEqual => ">="
  | .kEqual => "=="
  | .kLess => "<"
  | .kLessEqual => "<="
  | .kNotEqual => "!="
  | .kAnd => "&&"
  | .kOr => "||"
  | .kBitwiseAnd => "&"
  | .kBitwiseOr => "|"
  | .kBitwiseXor => "^"
  | .kBitwiseShiftLeft => "<<"
  | .kBitwiseShiftRight => ">>"

def typeToString : ValueType → String
  | .kUnknown => "unknown"
  | .kVoid => "void"
  | .kU8 => "u8"
  | .kU16 => "u16"
  | .kU32 => "u32"
  | .kU64 => "u64"
  | .kI8 => "i8"
  | .kI16 => "i16"
  | .kI32 => "i32"
  | .kI64 => "i64"
  | .kF32 => "f32"
  | .kF64 => "f64"
  | .kString => "string"
  | .kU8List => "u8list"
  | .kU16List => "u16list"
  | .kU32List => "u32list"
  | .kU64List => "u64list"
  | .kI8List => "i8list"
  | .kI16List => "i16list"
  | .kI32List => "i32list"
  | .kI64List => "i64list"
  | .kF32List => "f32list"
  | .kF64List => "f64list"
  | .kStringList => "stringlist"
  | .kPtr => "ptr"

def isNumericType : ValueType → Bool
  | .kF32 | .kF64 | .kI8 | .kI16 | .kI32 | .kI64 | .kU8 | .kU16 | .kU32 | .kU64 => true
  | _ => false

def isIntegerType : ValueType → Bool
  | .kI8 | .kI16 | .kI32 | .kI64 | .kU8 | .kU16 | .kU32 | .kU64 => true
  | _ => false

def isSignedType : ValueType → Bool
  | .kI8 | .kI16 | .kI32 | .kI64 | .kF32 | .kF64 => true
  | _ => false

def isFloatType : ValueType → Bool
  | .kF32 | .kF64 => true
  | _ => false

def isListType : ValueType → Bool
  | .kU8List | .kU16List | .kU32List | .kU64List | .kI8List | .kI16List | .kI32List
  | .kI64List | .kF32List | .kF64List | .kStringList => true
  | _ => false

def isRelationalBinaryOPType : BinaryOPType → Bool
  | .kLarge | .kLargeEqual | .kEqual | .kLess | .kLessEqual | .kNotEqual => true
  | _ => false

def isLogicalBinaryOPType : BinaryOPType → Bool
  | .kAnd | .kOr => true
  | _ => false

/-- The validator's third group: `&`, `|`, `^`, `<<`, `>>`. -/
def isBitwiseBinaryOPType : BinaryOPType → Bool
  | .kBitwiseAnd | .kBitwiseOr | .kBitwiseXor | .kBitwiseShiftLeft | .kBitwiseShiftRight => true
  | _ => false

/-- `kWeightTable` of `GetPromotedType`; every type it does not list weighs `-1`. -/
def weight : ValueType → Int
  | .kI8 => 0
  | .kU8 => 1
  | .kI16 => 2
  | .kU16 => 3
  | .kI32 => 4
  | .kU32 => 5
  | .kI64 => 6
  | .kU64 => 7
  | .kF32 => 8
  | .kF64 => 9
  | .kString => 10
  | .kI8List => 11
  | .kU8List => 12
  | .kI16List => 13
  | .kU16List => 14
  | .kI32List => 15
  | .kU32List => 16
  | .kI64List => 17
  | .kU64List => 18
  | .kF32List => 19
  | .kF64List => 20
  | .kStringList => 21
  | .kUnknown | .kVoid | .kPtr => -1

def getPromotedType (lhs rhs : ValueType) : ValueType :=
  if weight lhs > weight rhs then lhs else rhs

/-- `GetBitWidthFromType`; the source answers `-1` for a type that has no width. -/
def getBitWidthFromType : ValueType → Int
  | .kI8 | .kU8 => 8
  | .kI16 | .kU16 => 16
  | .kI32 | .kU32 => 32
  | .kI64 | .kU64 => 64
  | .kF32 => 32
  | .kF64 => 64
  | _ => -1

/-! ## 3. Facts about the tables -/

theorem isNumericType_of_isIntegerType {t : ValueType} (h : isIntegerType t = true) :
    isNumericType t = true := by
  cases t <;> simp_all [isIntegerType, isNumericType]

/-- A numeric type is an integer type or a float type, and never both. -/
theorem isFloatType_of_isNumericType {t : ValueType} (h : isNumericType t = true)
    (hi : isIntegerType t = false) : isFloatType t = true := by
  cases t <;> simp_all [isIntegerType, isNumericType, isFloatType]

theorem ne_kVoid_of_isNumericType {t : ValueType} (h : isNumericType t = true) :
    t ≠ .kVoid := by
  rintro rfl
  simp [isNumericType] at h

/-- The promotion of two types is one of the two. -/
theorem getPromotedType_eq_or (a b : ValueType) :
    getPromotedType a b = a ∨ getPromotedType a b = b := by
  unfold getPromotedType
  split <;> simp

theorem isNumericType_getPromotedType {a b : ValueType} (ha : isNumericType a = true)
    (hb : isNumericType b = true) : isNumericType (getPromotedType a b) = true := by
  rcases getPromotedType_eq_or a b with h | h <;> rw [h] <;> assumption

/-- The switch visitor starts its numeric promotion at `kUnknown`, which any type beats. -/
@[simp] theorem getPromotedType_kUnknown (t : ValueType) : getPromotedType .kUnknown t = t := by
  cases t <;> rfl

end TypeHelper

end JitFusion
