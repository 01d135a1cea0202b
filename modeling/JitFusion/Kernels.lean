/-
# Lists and the functions on them

The C functions behind the list functions of the language (`src/function/`).  A list argument is a
`ListStruct`, a pointer and a 32-bit length.  A function takes the memory it gets from the arena as
an argument, since that memory holds anything, and answers a `Call`: the list it returns, the
buffer it filled and the errors it recorded.

No function checks the pointer it gets from the arena.  `FilterByBitmap`, the concatenations and the
joins take the arena's answer as an argument as well: `room`, the number of elements there is memory
for behind the pointer, which is `0` for the null pointer.  The other functions are modelled with an
arena that gives them the memory they ask for.

The functions are templates over the element type and stay generic here.  The eight integer types
are an `IntegerType`, and a value of one is an `Int` in its range.
-/
import Mathlib.Data.Int.ModEq
import Mathlib.Data.Int.Order.Basic
import Mathlib.Order.Basic
import JitFusion.Lib.Buffer
import JitFusion.Type

namespace JitFusion

namespace Kernels

open Fill (Buffer loop)

/-! ## 1. Lists -/

/-- A `uint32_t`. -/
def u32 (n : Nat) : Nat := n % 2 ^ 32

theorem zero_lt_u32 : 0 < 2 ^ 32 := by decide

theorem u32_lt (n : Nat) : u32 n < 2 ^ 32 := Nat.mod_lt n zero_lt_u32

theorem u32_of_lt {n : Nat} (h : n < 2 ^ 32) : u32 n = n := Nat.mod_eq_of_lt h

/-- `U8ListStruct`, …, `StringListStruct`. -/
structure ListStruct (α : Type) where
  data : Nat → α
  len : Nat
  len_lt : len < 2 ^ 32

namespace ListStruct

variable {α : Type}

/-- The elements. -/
def toList (a : ListStruct α) : List α := (List.range a.len).map a.data

@[simp] theorem length_toList (a : ListStruct α) : a.toList.length = a.len := by
  rw [toList, List.length_map, List.length_range]

theorem getElem_toList (a : ListStruct α) {k : Nat} (hk : k < a.toList.length) :
    a.toList[k] = a.data k := by
  simp [toList]

theorem toList_congr {a b : ListStruct α} (hlen : a.len = b.len)
    (h : ∀ i < a.len, a.data i = b.data i) : a.toList = b.toList := by
  rw [toList, toList, ← hlen]
  exact List.map_congr_left fun i hi => h i (List.mem_range.mp hi)

/-- `{nullptr, 0}`. -/
def null (memory : Nat → α) : ListStruct α := ⟨memory, 0, zero_lt_u32⟩

/-- A list in memory. -/
def ofList [Inhabited α] (l : List α) (h : l.length < 2 ^ 32) : ListStruct α :=
  ⟨fun i => l.getD i default, l.length, h⟩

end ListStruct

/-- What a call of a kernel leaves. -/
structure Call (α : Type) where
  result : ListStruct α
  buffer : Buffer α
  errors : List String := []

namespace Call

variable {α : Type}

/-- `exec_ctx->AddError(msg); return {nullptr, 0};`, before anything is allocated. -/
def fail (memory : Nat → α) (msg : String) : Call α :=
  ⟨.null memory, .alloc memory 0, [msg]⟩

/-- The first `len` slots of the buffer. -/
def done (buffer : Buffer α) (len : Nat) (h : len < 2 ^ 32) : Call α :=
  ⟨⟨buffer.slot, len, h⟩, buffer, []⟩

end Call

/-! ## 2. Integers -/

/-- `uint8_t`, …, `int64_t`. -/
inductive IntegerType
  | uint8 | uint16 | uint32 | uint64
  | int8 | int16 | int32 | int64
  deriving DecidableEq, Repr

namespace IntegerType

def width : IntegerType → Nat
  | uint8 | int8 => 8
  | uint16 | int16 => 16
  | uint32 | int32 => 32
  | uint64 | int64 => 64

def isSigned : IntegerType → Bool
  | int8 | int16 | int32 | int64 => true
  | _ => false

/-- `std::numeric_limits<T>::lowest()` and `max()`. -/
def lowest (t : IntegerType) : Int := if t.isSigned then -2 ^ (t.width - 1) else 0

def max (t : IntegerType) : Int := t.lowest + 2 ^ t.width - 1

/-- The values of the type. -/
def Value (t : IntegerType) : Type := { v : Int // t.lowest ≤ v ∧ v ≤ t.max }

namespace Value

variable {t : IntegerType}

instance : LinearOrder t.Value :=
  inferInstanceAs (LinearOrder (Subtype fun v : Int => t.lowest ≤ v ∧ v ≤ t.max))

def toInt (v : t.Value) : Int := v.1

end Value

variable (t : IntegerType)

theorem two_pow_width_pos : (0 : Int) < 2 ^ t.width := by cases t <;> decide

/-- The value congruent to `x` modulo `2 ^ width`. -/
def wrap (x : Int) : t.Value :=
  ⟨t.lowest + (x - t.lowest) % 2 ^ t.width, by
    have h₁ := Int.emod_nonneg (x - t.lowest) t.two_pow_width_pos.ne'
    have h₂ := Int.emod_lt_of_pos (x - t.lowest) t.two_pow_width_pos
    unfold max
    omega⟩

theorem toInt_wrap (x : Int) : (t.wrap x).toInt = t.lowest + (x - t.lowest) % 2 ^ t.width := rfl

theorem wrap_modEq (x : Int) : (t.wrap x).toInt ≡ x [ZMOD 2 ^ t.width] := by
  have h := (Int.mod_modEq (x - t.lowest) (2 ^ t.width)).add_left t.lowest
  rwa [← toInt_wrap, add_sub_cancel] at h

theorem wrap_congr {x y : Int} (h : x ≡ y [ZMOD 2 ^ t.width]) : t.wrap x = t.wrap y := by
  refine Subtype.ext (congrArg (t.lowest + ·) ?_)
  exact h.sub_right t.lowest

theorem wrap_toInt (v : t.Value) : t.wrap v.toInt = v := by
  refine Subtype.ext ?_
  have h₁ : t.lowest ≤ v.toInt := v.2.1
  have h₂ : v.toInt ≤ t.lowest + 2 ^ t.width - 1 := v.2.2
  change t.lowest + (v.toInt - t.lowest) % 2 ^ t.width = v.toInt
  rw [Int.emod_eq_of_lt (by omega) (by omega)]
  omega

theorem zero_mem : t.lowest ≤ 0 ∧ 0 ≤ t.max := by cases t <;> decide

theorem one_mem : t.lowest ≤ 1 ∧ 1 ≤ t.max := by cases t <;> decide

def lowestValue : t.Value := ⟨t.lowest, le_rfl, t.zero_mem.1.trans t.zero_mem.2⟩

def maxValue : t.Value := ⟨t.max, t.zero_mem.1.trans t.zero_mem.2, le_rfl⟩

variable {t} in
theorem lowestValue_le (v : t.Value) : t.lowestValue ≤ v := v.2.1

variable {t} in
theorem le_maxValue (v : t.Value) : v ≤ t.maxValue := v.2.2

instance : Zero t.Value := ⟨0, t.zero_mem⟩

instance : One t.Value := ⟨1, t.one_mem⟩

instance : Inhabited t.Value := ⟨0⟩

instance : Add t.Value := ⟨fun a b => t.wrap (a.toInt + b.toInt)⟩

instance : Mul t.Value := ⟨fun a b => t.wrap (a.toInt * b.toInt)⟩

variable {t}

/-- The bits of a value. -/
def Value.bits (v : t.Value) : BitVec t.width := BitVec.ofInt t.width v.toInt

def ofBits (b : BitVec t.width) : t.Value := t.wrap b.toInt

instance : AndOp t.Value := ⟨fun a b => ofBits (a.bits &&& b.bits)⟩

instance : OrOp t.Value := ⟨fun a b => ofBits (a.bits ||| b.bits)⟩

instance : XorOp t.Value := ⟨fun a b => ofBits (a.bits ^^^ b.bits)⟩

theorem zero_lt_one : (0 : t.Value) < 1 := show (0 : Int) < 1 from by decide

end IntegerType

/-! ## 3. Strings -/

/-- A pointer to bytes and their number; zero bytes are bytes like others. -/
abbrev StringStruct := ListStruct UInt8

/-- `std::string_view(s.data, s.len)`. -/
def StringStruct.view (s : StringStruct) : List UInt8 := s.toList

end Kernels

end JitFusion
