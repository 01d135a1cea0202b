/-
# The IR the code generator emits

The part of LLVM's IR the code generator uses (`src/codegen/`): its types, its opcodes, its
constants and the labels of its blocks.  The function under construction and its control flow
are those of `Lib/SsaBuilder.lean`.

A value is an operand with its type.  `llvm::Value *` is an `Option Value`, with `none` the null
pointer, which is what a void node evaluates to.
-/
import Mathlib.Algebra.Ring.Nat
import Mathlib.Data.Fin.VecNotation
import JitFusion.Diagnostic
import JitFusion.Lib.SsaBuilder

namespace JitFusion

/-! ## 1. Types -/

/-- `LLVMStructType`: the two-field structs of the complex types. -/
inductive LLVMStructType
  | string_type
  | u8list_type | u16list_type | u32list_type | u64list_type
  | i8list_type | i16list_type | i32list_type | i64list_type
  | f32list_type | f64list_type
  | stringlist_type
  deriving DecidableEq, Repr

inductive LLVMType
  | void
  | int (width : Nat)
  | float
  | double
  | ptr
  | struct (s : LLVMStructType)
  deriving DecidableEq, Repr

namespace LLVMType

def isIntegerTy : LLVMType → Bool
  | int _ => true
  | _ => false

def isFloatingPointTy : LLVMType → Bool
  | float | double => true
  | _ => false

end LLVMType

/-! ## 2. Constants and opcodes -/

/-- A constant operand: a literal of the program, a list literal, or one of the constants the
generator writes itself. -/
inductive Literal
  | value (v : ConstantValueType)
  | list (l : ConstantListValueType)
  | zero (type : LLVMType)
  | bool (b : Bool)
  deriving DecidableEq, Repr

inductive ICmpPredicate
  | eq | ne | ugt | uge | ult | ule | sgt | sge | slt | sle
  deriving DecidableEq, Repr

inductive FCmpPredicate
  | oeq | one | ogt | oge | olt | ole | une
  deriving DecidableEq, Repr

inductive Opcode
  | intCast (width : Nat) (isSigned : Bool)
  | siToFP (type : LLVMType) | uiToFP (type : LLVMType)
  | fpToSI (width : Nat) | fpToUI (width : Nat)
  | fpExt | fpTrunc
  | icmp (p : ICmpPredicate) | fcmp (p : FCmpPredicate)
  | zext (width : Nat)
  | add | sub | mul | sDiv | uDiv | sRem | uRem
  | fAdd | fSub | fMul | fDiv | fRem
  | and | or | xor | shl | aShr | lShr
  | neg | fNeg | not
  /-- A call of a C function by its symbol. -/
  | call (symbol : String) (type : LLVMType)
  /-- An instruction of a registered code generation callback. -/
  | callback (id : Nat) (type : LLVMType)
  deriving DecidableEq, Repr

/-- The type of the result from the types of the operands. -/
def Opcode.resultType : Opcode → List LLVMType → LLVMType
  | .intCast width _, _ | .fpToSI width, _ | .fpToUI width, _ | .zext width, _ => .int width
  | .siToFP type, _ | .uiToFP type, _ | .call _ type, _ | .callback _ type, _ => type
  | .fpExt, _ => .double
  | .fpTrunc, _ => .float
  | .icmp _, _ | .fcmp _, _ => .int 1
  | _, type :: _ => type
  | _, [] => .void

def Literal.type : Literal → LLVMType
  | .value (.i8 _) | .value (.u8 _) => .int 8
  | .value (.i16 _) | .value (.u16 _) => .int 16
  | .value (.i32 _) | .value (.u32 _) => .int 32
  | .value (.i64 _) | .value (.u64 _) => .int 64
  | .value (.f32 _) => .float
  | .value (.f64 _) => .double
  | .value (.string _) => .struct .string_type
  | .list (.i8 _) => .struct .i8list_type
  | .list (.i16 _) => .struct .i16list_type
  | .list (.i32 _) => .struct .i32list_type
  | .list (.i64 _) => .struct .i64list_type
  | .list (.u8 _) => .struct .u8list_type
  | .list (.u16 _) => .struct .u16list_type
  | .list (.u32 _) => .struct .u32list_type
  | .list (.u64 _) => .struct .u64list_type
  | .list (.f32 _) => .struct .f32list_type
  | .list (.f64 _) => .struct .f64list_type
  | .list (.string _) => .struct .stringlist_type
  | .zero type => type
  | .bool _ => .int 1

/-! ## 3. Straight-line code and values -/

/-- Straight-line code over `n` values. -/
abbrev IRExpr (n : Nat) := Ssa.Expr Opcode Literal n

/-- The inputs of code over one value, and over two, are numerals. -/
instance neZero_one : NeZero 1 := ⟨Nat.succ_ne_zero 0⟩

instance neZero_two : NeZero 2 := ⟨Nat.succ_ne_zero 1⟩

namespace IRExpr

variable {n : Nat}

mutual

def type (inputs : Fin n → LLVMType) : IRExpr n → LLVMType
  | .input i => inputs i
  | .arg _ => .ptr
  | .const k => k.type
  | .op o args => o.resultType (types inputs args)

def types (inputs : Fin n → LLVMType) : List (IRExpr n) → List LLVMType
  | [] => []
  | x :: xs => type inputs x :: types inputs xs

end

/-- An instruction with one and with two operands. -/
def op₁ (o : Opcode) (x : IRExpr n) : IRExpr n := .op o [x]

def op₂ (o : Opcode) (x y : IRExpr n) : IRExpr n := .op o [x, y]

end IRExpr

/-- The names the generator gives to its blocks. -/
inductive Label
  | entryBB
  | scRhs | scMerge
  | then_ | else_ | merge
  | switchMerge | switchDefault | switchCond | switchThen
  | ifblockMerge | ifblockElse | ifblockCond | ifblockBody
  deriving DecidableEq, Repr

structure Value where
  operand : Ssa.Operand Literal
  type : LLVMType
  deriving DecidableEq, Repr

/-- The function under construction. -/
abbrev IRBuilder := Ssa.Builder Opcode Literal Label

abbrev IRFunction := Ssa.Cfg Opcode Literal Label

end JitFusion
