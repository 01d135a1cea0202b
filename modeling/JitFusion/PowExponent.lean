/-
# Powers with an integer exponent

`pow` with an `i32` exponent is lowered to the intrinsic `llvm.powi` by `CallBuiltinPowIFunction`
(`src/function/math_function_init.cc`), which first converts an integer base to a `double`, and the
exponent of a `double` to 16 bits.

So the exponent of the intrinsic is the one of the call if the base is an `f32` or the exponent has
16 bits (`exponent_iff`).
-/
import Mathlib.Algebra.Ring.Int.Defs
import Mathlib.Algebra.Ring.Nat
import JitFusion.CodeGen

namespace JitFusion

namespace CodeGen

/-! ## 1. The callback -/

/-- `InitPowFunc`: the signatures with an integer exponent. -/
def powISignatures : List FunctionSignature :=
  [⟨"pow", [.kF32, .kI32], .kF32⟩, ⟨"pow", [.kF64, .kI32], .kF64⟩,
    ⟨"pow", [.kI32, .kI32], .kF64⟩, ⟨"pow", [.kI64, .kI32], .kF64⟩]

/-- A conversion whose status is not looked at. -/
def convertOrKeep {n : Nat} (fromType toType : ValueType) (x : IRExpr n) : IRExpr n :=
  match numericTypeConvert fromType toType x with
  | .ok y => y
  | .error _ => x

/-- The name of an overload of the intrinsic. -/
def powiName (value power : LLVMType) : String :=
  "llvm.powi." ++ suffix value ++ "." ++ suffix power
where
  suffix : LLVMType → String
    | .float => "f32"
    | .double => "f64"
    | .int width => "i" ++ Nat.repr width
    | _ => ""

/-- `value` and `power` of `CallBuiltinPowIFunction`, for arguments of the types `types`. -/
def powIOperands (sign : FunctionSignature) (types : Fin 2 → LLVMType) : IRExpr 2 × IRExpr 2 :=
  let value : IRExpr 2 := .input 0
  let power : IRExpr 2 := .input 1
  let value :=
    if (value.type types).isIntegerTy then
      convertOrKeep (sign.paramTypes.headD .kUnknown) .kF64 value
    else value
  let power := if value.type types = .double then convertOrKeep .kI32 .kI16 power else power
  (value, power)

def callBuiltinPowIFunction (sign : FunctionSignature) (types : Fin 2 → LLVMType) : IRExpr 2 :=
  let (value, power) := powIOperands sign types
  .op₂ (.call (powiName (value.type types) (power.type types)) (value.type types)) value power

/-- The types of the arguments of a call. -/
def argTypes (sign : FunctionSignature) (i : Fin 2) : LLVMType :=
  match valueTypeToLLVMType (sign.paramTypes.getD i .kUnknown) with
  | .ok type => type
  | .error _ => .void

/-! ## 2. What the exponent is -/

/-- `CreateIntCast`: to fewer bits, or to more with the sign or with zeros. -/
def intCast {v : Nat} (w : Nat) (isSigned : Bool) (x : BitVec v) : BitVec w :=
  if isSigned then x.signExtend w else x.setWidth w

variable {V W E : Type}

/-- A machine with integers of every width. -/
structure IntegerSemantics (sem : Ssa.Semantics Opcode Literal V W E) where
  int : {w : Nat} → BitVec w → V
  int_injective : ∀ {w} {x y : BitVec w}, int x = int y → x = y
  intCast : ∀ {v} (w : Nat) (isSigned : Bool) (x : BitVec v),
    sem.op (.intCast w isSigned) [int x] = pure (int (intCast w isSigned x))

/-- The operand is of an integer type, and its value is `n`. -/
def Denotes {sem : Ssa.Semantics Opcode Literal V W E} (h : IntegerSemantics sem)
    (types : Fin 2 → LLVMType) (inputs : Fin 2 → V) (x : IRExpr 2) (n : Int) : Prop :=
  ∃ w, ∃ e : BitVec w, x.type types = .int w ∧ x.eval sem inputs = pure (h.int e) ∧ e.toInt = n

section Exponent

variable {sem : Ssa.Semantics Opcode Literal V W E} {h : IntegerSemantics sem}
  {types : Fin 2 → LLVMType} {inputs : Fin 2 → V} {x : IRExpr 2}

theorem pure_injective [Inhabited W] {a b : V}
    (heq : (pure a : Checked.M W E V) = pure b) : a = b := by
  have hrun := congrFun heq default
  cases hrun
  rfl

/-- An operand denotes one integer. -/
theorem denotes_iff [Inhabited W] {w : Nat} {e : BitVec w} (htype : x.type types = .int w)
    (heval : x.eval sem inputs = pure (h.int e)) (n : Int) :
    Denotes h types inputs x n ↔ e.toInt = n := by
  constructor
  · rintro ⟨w', e', htype', heval', rfl⟩
    obtain rfl : w = w' := by
      rw [htype] at htype'
      exact LLVMType.int.inj htype'
    rw [heval] at heval'
    rw [h.int_injective (pure_injective heval')]
  · exact fun hn => ⟨w, e, htype, heval, hn⟩

/-- 16 bits are enough for an exponent of 16 bits. -/
theorem toInt_intCast_iff (n : BitVec 32) :
    (intCast 16 true n).toInt = n.toInt ↔ -2 ^ 15 ≤ n.toInt ∧ n.toInt < 2 ^ 15 := by
  rw [intCast, if_pos rfl, BitVec.toInt_signExtend, Int.bmod_def]
  rw [show ((2 ^ min 16 32 : Nat) : Int) = 65536 from rfl]
  split
  · omega
  · omega

/-- **The exponent of an overload**: it passes through for `f32` only. -/
theorem power_eq {sign : FunctionSignature} (hsign : sign ∈ powISignatures) :
    (powIOperands sign (argTypes sign)).2 =
      if sign.paramTypes.headD .kUnknown = .kF32 then .input 1
      else .op₁ (.intCast 16 true) (.input 1) := by
  simp only [powISignatures, List.mem_cons, List.not_mem_nil, or_false] at hsign
  obtain rfl | rfl | rfl | rfl := hsign
  · rfl
  · rfl
  · rfl
  · rfl

theorem argTypes_power {sign : FunctionSignature} (hsign : sign ∈ powISignatures) :
    argTypes sign 1 = .int 32 := by
  simp only [powISignatures, List.mem_cons, List.not_mem_nil, or_false] at hsign
  obtain rfl | rfl | rfl | rfl := hsign
  · rfl
  · rfl
  · rfl
  · rfl

/-- The exponent of the call that is emitted for `pow` of `x` and `n` is `k`. -/
def ExponentIs (h : IntegerSemantics sem) (sign : FunctionSignature) (x : V) (n : BitVec 32)
    (k : Int) : Prop :=
  ∃ name type value power,
    callBuiltinPowIFunction sign (argTypes sign) = .op₂ (.call name type) value power ∧
      Denotes h (argTypes sign) ![x, h.int n] power k

theorem exponentIs_iff [Inhabited W] {sign : FunctionSignature} (hsign : sign ∈ powISignatures)
    {x : V} {n : BitVec 32} {k : Int} :
    ExponentIs h sign x n k ↔
      k = if sign.paramTypes.headD .kUnknown = .kF32 then n.toInt
        else (intCast 16 true n).toInt := by
  have hdenotes : Denotes h (argTypes sign) ![x, h.int n] (powIOperands sign (argTypes sign)).2 k ↔
      k = if sign.paramTypes.headD .kUnknown = .kF32 then n.toInt
        else (intCast 16 true n).toInt := by
    rw [power_eq hsign, eq_comm (a := k)]
    split
    · have htype : (IRExpr.type (argTypes sign) (.input 1)) = .int 32 := by
        rw [IRExpr.type, argTypes_power hsign]
      exact denotes_iff htype rfl k
    · refine denotes_iff (e := intCast 16 true n) rfl ?_ k
      simp [IRExpr.op₁, Ssa.Expr.eval, Ssa.Expr.evalArgs, h.intCast]
  rw [← hdenotes]
  constructor
  · rintro ⟨name, type, value, power, hcall, hk⟩
    obtain ⟨-, -, rfl, -⟩ := by simpa [callBuiltinPowIFunction, IRExpr.op₂] using hcall
    exact hk
  · exact fun hk => ⟨_, _, _, _, rfl, hk⟩

end Exponent

/-- `pow` with an `f32` base. -/
def powF32 : FunctionSignature := ⟨"pow", [.kF32, .kI32], .kF32⟩

/-- **The exponent passes through** exactly if the base is an `f32` or the exponent has 16 bits, and
only then it is that of the call with the base cast to `f32`. -/
theorem exponent_iff {sem : Ssa.Semantics Opcode Literal V W E} [Inhabited W]
    (h : IntegerSemantics sem) (sign : FunctionSignature) (hsign : sign ∈ powISignatures) (x y : V)
    (n : BitVec 32) :
    (ExponentIs h sign x n n.toInt ↔
      sign.paramTypes.headD .kUnknown = .kF32 ∨ -2 ^ 15 ≤ n.toInt ∧ n.toInt < 2 ^ 15) ∧
    ((∃ k, ExponentIs h sign x n k ∧ ExponentIs h powF32 y n k) ↔
      sign.paramTypes.headD .kUnknown = .kF32 ∨ -2 ^ 15 ≤ n.toInt ∧ n.toInt < 2 ^ 15) := by
  have hiff : ExponentIs h sign x n n.toInt ↔
      sign.paramTypes.headD .kUnknown = .kF32 ∨ -2 ^ 15 ≤ n.toInt ∧ n.toInt < 2 ^ 15 := by
    rw [exponentIs_iff hsign]
    split
    · next hf => exact iff_of_true rfl (.inl hf)
    · next hf => rw [eq_comm, toInt_intCast_iff, or_iff_right hf]
  have hf32 : ∀ k, ExponentIs h powF32 y n k ↔ k = n.toInt := by
    intro k
    have hpow : powF32 ∈ powISignatures := by decide
    exact exponentIs_iff hpow
  refine ⟨hiff, ?_⟩
  simpa [hf32] using hiff

/-- A machine that casts integers and does nothing else. -/
def integerMachine : Ssa.Semantics Opcode Literal (Σ w, BitVec w) Unit Unit where
  const _ := ⟨0, 0⟩
  arg _ := ⟨0, 0⟩
  truthy _ := false
  op
    | .intCast w isSigned, [⟨_, x⟩] => pure ⟨w, intCast w isSigned x⟩
    | _, _ => throw ()

theorem word_injective {w : Nat} {x y : BitVec w} (h : (⟨w, x⟩ : Σ w, BitVec w) = ⟨w, y⟩) :
    x = y := by
  simpa using h

def integerMachine_integers : IntegerSemantics integerMachine where
  int x := ⟨_, x⟩
  int_injective := word_injective
  intCast _ _ _ := rfl

/-- The exponent 10 of a `double`. -/
theorem exponent_iff_ten : ExponentIs integerMachine_integers ⟨"pow", [.kF64, .kI32], .kF64⟩
    ⟨64, 0⟩ 10 10 :=
  (exponent_iff integerMachine_integers _ (by decide) ⟨64, 0⟩ ⟨32, 0⟩ 10).1.mpr
    (.inr (by decide))

/-- The exponent 65536 of a `double` becomes 0. -/
theorem exponent_wraps : ¬ ExponentIs integerMachine_integers ⟨"pow", [.kF64, .kI32], .kF64⟩
    ⟨64, 0⟩ 65536 65536 := by
  rw [exponentIs_iff (by decide)]
  decide

end CodeGen

end JitFusion
