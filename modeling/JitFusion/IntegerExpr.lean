/-
# Integer expressions

Expressions of integer operands: arithmetic, bitwise, relational and logical operators, the unary
operators, `if`, `switch`, the scalar casts and calls of functions.  Here they are trees whose type
is known by construction (`IntegerExpr`), with an evaluator that works on numbers and keeps a log of
what it does with them.  Subtrees of other types, and what a function answers, are parameters of the
evaluator (`Oracle`).

The evaluator takes the conversion as a parameter.  With that of the code it does what the tree
does that the validator has annotated (`follows`); with the cast instead, every promotion is right.
-/
import JitFusion.IntegerConversion
import JitFusion.Typing

namespace JitFusion

open TypeHelper

/-! ## 1. Types of results -/

namespace Kernels.IntegerType

/-- `GetPromotedType`. -/
def promoted (t u : IntegerType) : IntegerType :=
  if weight t.valueType > weight u.valueType then t else u

theorem getPromotedType_valueType (t u : IntegerType) :
    getPromotedType t.valueType u.valueType = (promoted t u).valueType := by
  unfold getPromotedType promoted
  split
  · rfl
  · rfl

/-- The literal of a value. -/
def literal : (t : IntegerType) → t.Value → ConstantValueType
  | uint8, v => .u8 v.bits
  | uint16, v => .u16 v.bits
  | uint32, v => .u32 v.bits
  | uint64, v => .u64 v.bits
  | int8, v => .i8 v.bits
  | int16, v => .i16 v.bits
  | int32, v => .i32 v.bits
  | int64, v => .i64 v.bits

/-- The result of a unary operator. -/
def unaryType : UnaryOPType → IntegerType → IntegerType
  | .kPlus, t => t
  | .kMinus, .uint8 | .kMinus, .int8 | .kMinus, .uint16 | .kMinus, .int16 => int32
  | .kMinus, t => t
  | .kNot, _ => uint8
  | .kBitwiseNot, t => t

/-- The result of an arithmetic or a bitwise operator: a shift has the type of its left operand. -/
def calcType (op : BinaryOPType) (t u : IntegerType) : IntegerType :=
  if op = .kBitwiseShiftLeft ∨ op = .kBitwiseShiftRight then t else promoted t u

end Kernels.IntegerType

namespace CodeGen

open Kernels IntegerType Interpreter

/-- The operators that are neither relational nor logical. -/
def isCalcBinaryOPType (op : BinaryOPType) : Bool :=
  !isRelationalBinaryOPType op && !isLogicalBinaryOPType op

/-! ## 2. Expressions -/

/-- The name of an overload of the intrinsic. -/
def absName (width : Nat) : String := "llvm.abs.i" ++ Nat.repr width

/-- `CallBuiltinAbsFunction`, for an integer result.  The second operand of the intrinsic makes the
absolute value of the least number undefined. -/
def callBuiltinAbsFunction (sign : FunctionSignature) : IRExpr 1 :=
  .op₂ (.call (absName (intWidth sign.retType)) (.int (intWidth sign.retType)))
    (convertOrKeep (sign.paramTypes.headD .kUnknown) sign.retType (.input 0)) (.const (.bool true))

/-- A registered intrinsic: its code for an argument of type `ty` is `code`, of type `u`. -/
def IsIntrinsic (ctx : Context) (funcName : String) (ty : ValueType) (type : LLVMType)
    (u : IntegerType) (code : FunctionSignature → Option (IRExpr 1)) : Prop :=
  ∃ sign fs f, ctx.functionRegistry.getFuncBySign ⟨funcName, [ty], .kUnknown⟩ =
      .ok (sign, fs) ∧ fs.funcType = .kLLVMIntrinicFunc ∧ fs.codegenFunc = some f ∧
    sign.paramTypes = [ty] ∧ sign.retType = u.valueType ∧
    codegenFunc ctx f sign 1 (fun _ => type) = code sign

/-- The function converts its argument. -/
def IsCast (ctx : Context) (funcName : String) (t u : IntegerType) : Prop :=
  IsIntrinsic ctx funcName t.valueType (.int t.width) u fun sign => callBuiltinCastFunction sign 1

/-- The function is the absolute value, which is registered with signed results only. -/
def IsAbs (ctx : Context) (funcName : String) (t u : IntegerType) : Prop :=
  u.isSigned = true ∧ IsIntrinsic ctx funcName t.valueType (.int t.width) u fun sign =>
    some (callBuiltinAbsFunction sign)

/-- The function converts its argument, which is a float. -/
def IsTruncation (ctx : Context) (funcName : String) (ty : ValueType) (u : IntegerType) : Prop :=
  isFloatType ty = true ∧ IsIntrinsic ctx funcName ty (floatTypeOf ty) u fun sign =>
    callBuiltinCastFunction sign 1

/-- A function is registered for arguments of the types `ts`, with a result of type `u`. -/
def IsFunction (ctx : Context) (funcName : String) (ts : List ValueType) (u : IntegerType) : Prop :=
  ∃ sign fs, ctx.functionRegistry.getFuncBySign ⟨funcName, ts, .kUnknown⟩ = .ok (sign, fs) ∧
    sign.retType = u.valueType

mutual

/-- An expression of an integer type. -/
inductive IntegerExpr (ctx : Context) : IntegerType → Type
  /-- Any tree that has an integer value. -/
  | operand (t : IntegerType) (node : ExecNode) : IntegerExpr ctx t
  | unaryOP {t : IntegerType} (info : NodeInfo) (op : UnaryOPType) (child : IntegerExpr ctx t) :
      IntegerExpr ctx (unaryType op t)
  | relational {t u : IntegerType} (info : NodeInfo) (op : BinaryOPType)
      (hop : isRelationalBinaryOPType op = true) (left : IntegerExpr ctx t)
      (right : IntegerExpr ctx u) : IntegerExpr ctx .uint8
  | logical {t u : IntegerType} (info : NodeInfo) (op : BinaryOPType)
      (hop : isLogicalBinaryOPType op = true) (left : IntegerExpr ctx t)
      (right : IntegerExpr ctx u) : IntegerExpr ctx .uint8
  | calc {t u : IntegerType} (info : NodeInfo) (op : BinaryOPType)
      (hop : isCalcBinaryOPType op = true) (left : IntegerExpr ctx t) (right : IntegerExpr ctx u) :
      IntegerExpr ctx (calcType op t u)
  | cast {t : IntegerType} (u : IntegerType) (info : NodeInfo) (funcName : String)
      (hcast : IsCast ctx funcName t u) (arg : IntegerExpr ctx t) : IntegerExpr ctx u
  | abs {t : IntegerType} (u : IntegerType) (info : NodeInfo) (funcName : String)
      (habs : IsAbs ctx funcName t u) (arg : IntegerExpr ctx t) : IntegerExpr ctx u
  /-- The cast of a float. -/
  | truncation (ty : ValueType) (u : IntegerType) (info : NodeInfo) (funcName : String)
      (htrunc : IsTruncation ctx funcName ty u) (arg : ExecNode) : IntegerExpr ctx u
  /-- A call of any function that is registered with an integer result. -/
  | call {ts : List ValueType} (u : IntegerType) (info : NodeInfo) (funcName : String)
      (hfun : IsFunction ctx funcName ts u) (args : Arguments ctx ts) : IntegerExpr ctx u
  | ifNode {c t u : IntegerType} (info : NodeInfo) (cond : IntegerExpr ctx c)
      (then_ : IntegerExpr ctx t) (else_ : IntegerExpr ctx u) : IntegerExpr ctx (promoted t u)
  | switchNode {t : IntegerType} (info : NodeInfo) (branches : Branches ctx t) : IntegerExpr ctx t

/-- The arguments of a `switch`. -/
inductive Branches (ctx : Context) : IntegerType → Type
  | default_ {t : IntegerType} (value : IntegerExpr ctx t) : Branches ctx t
  | cons {c t u : IntegerType} (cond : IntegerExpr ctx c) (then_ : IntegerExpr ctx t)
      (rest : Branches ctx u) : Branches ctx (promoted t u)

/-- The arguments of a call: integer expressions, and trees of other types. -/
inductive Arguments (ctx : Context) : List ValueType → Type
  | nil : Arguments ctx []
  | cons {t : IntegerType} {ts : List ValueType} (arg : IntegerExpr ctx t)
      (rest : Arguments ctx ts) : Arguments ctx (t.valueType :: ts)
  | other {ts : List ValueType} (ty : ValueType) (node : ExecNode) (rest : Arguments ctx ts) :
      Arguments ctx (ty :: ts)

end

variable {ctx : Context}

mutual

/-- The tree of an expression. -/
def IntegerExpr.node {t : IntegerType} : IntegerExpr ctx t → ExecNode
  | .operand _ node => node
  | .unaryOP info op child => .unaryOP info op child.node
  | .relational info op _ left right | .logical info op _ left right
  | .calc info op _ left right => .binaryOP info op left.node right.node
  | .cast _ info funcName _ arg | .abs _ info funcName _ arg => .function info funcName [arg.node]
  | .truncation _ _ info funcName _ arg => .function info funcName [arg]
  | .call _ info funcName _ args => .function info funcName args.nodes
  | .ifNode info cond then_ else_ => .ifNode info [cond.node, then_.node, else_.node]
  | .switchNode info branches => .switchNode info branches.nodes

def Branches.nodes {t : IntegerType} : Branches ctx t → List ExecNode
  | .default_ value => [value.node]
  | .cons cond then_ rest => cond.node :: then_.node :: rest.nodes

def Arguments.nodes {ts : List ValueType} : Arguments ctx ts → List ExecNode
  | .nil => []
  | .cons arg rest => arg.node :: rest.nodes
  | .other _ node rest => node :: rest.nodes

end

/-- What an expression takes as given. -/
inductive Operand
  /-- A tree of an integer type. -/
  | integer (t : IntegerType) (node : ExecNode)
  /-- A tree of another type. -/
  | other (ty : ValueType) (node : ExecNode)
  /-- A function of arguments of the types `ts`. -/
  | function (funcName : String) (ts : List ValueType) (u : IntegerType)

mutual

/-- The operands of an expression. -/
def IntegerExpr.operands {t : IntegerType} : IntegerExpr ctx t → List Operand
  | .operand t node => [.integer t node]
  | .unaryOP _ _ child => child.operands
  | .relational _ _ _ left right | .logical _ _ _ left right | .calc _ _ _ left right =>
    left.operands ++ right.operands
  | .cast _ _ _ _ arg | .abs _ _ _ _ arg => arg.operands
  | .truncation ty _ _ _ _ arg => [.other ty arg]
  | @IntegerExpr.call _ ts u _ funcName _ args => .function funcName ts u :: args.operands
  | .ifNode _ cond then_ else_ => cond.operands ++ (then_.operands ++ else_.operands)
  | .switchNode _ branches => branches.operands

def Branches.operands {t : IntegerType} : Branches ctx t → List Operand
  | .default_ value => value.operands
  | .cons cond then_ rest => cond.operands ++ (then_.operands ++ rest.operands)

def Arguments.operands {ts : List ValueType} : Arguments ctx ts → List Operand
  | .nil => []
  | .cons arg rest => arg.operands ++ rest.operands
  | .other ty node rest => .other ty node :: rest.operands

end

/-! ## 3. What LLVM says of integers -/

/-- An arithmetic or bitwise instruction, or `none` where its result is undefined: a division by
zero or one that overflows, and a shift by the width or more. -/
def arithmetic {w : Nat} : Opcode → BitVec w → BitVec w → Option (BitVec w)
  | .add, x, y => some (x + y)
  | .sub, x, y => some (x - y)
  | .mul, x, y => some (x * y)
  | .sDiv, x, y => if y = 0 ∨ x = .intMin w ∧ y = -1 then none else some (x.sdiv y)
  | .uDiv, x, y => if y = 0 then none else some (x / y)
  | .sRem, x, y => if y = 0 ∨ x = .intMin w ∧ y = -1 then none else some (x.srem y)
  | .uRem, x, y => if y = 0 then none else some (x % y)
  | .and, x, y => some (x &&& y)
  | .or, x, y => some (x ||| y)
  | .xor, x, y => some (x ^^^ y)
  | .shl, x, y => if w ≤ y.toNat then none else some (x <<< y.toNat)
  | .aShr, x, y => if w ≤ y.toNat then none else some (x.sshiftRight y.toNat)
  | .lShr, x, y => if w ≤ y.toNat then none else some (x >>> y.toNat)
  | _, _, _ => none

def Opcode.isArithmetic : Opcode → Bool
  | .add | .sub | .mul | .sDiv | .uDiv | .sRem | .uRem | .and | .or | .xor | .shl | .aShr
  | .lShr => true
  | _ => false

def compare {w : Nat} : ICmpPredicate → BitVec w → BitVec w → Bool
  | .eq, x, y => x == y
  | .ne, x, y => x != y
  | .ugt, x, y => y.ult x
  | .uge, x, y => y.ule x
  | .ult, x, y => x.ult y
  | .ule, x, y => x.ule y
  | .sgt, x, y => y.slt x
  | .sge, x, y => y.sle x
  | .slt, x, y => x.slt y
  | .sle, x, y => x.sle y

/-- The absolute value, which the least number does not have. -/
def absolute {w : Nat} (x : BitVec w) : Option (BitVec w) :=
  if x = .intMin w then none else some x.abs

/-- The integer with the integral part of a float, which infinities and NaNs do not have, if the
type can represent it. -/
def ofIntegralPart (u : IntegerType) (z : Option Int) : Option (BitVec u.width) :=
  z.bind fun z => if u.lowest ≤ z ∧ z ≤ u.max then some (BitVec.ofInt u.width z) else none

variable {V W E : Type}

/-- A value, or the error of an undefined one. -/
def orUndefined (undefined : E) : Option V → Checked.M W E V
  | some v => pure v
  | none => throw undefined

/-- A machine that computes with integers as LLVM does; it stops where the result is undefined. -/
structure IntegerMachine (sem : Ssa.Semantics Opcode Literal V W E) extends
    IntegerSemantics sem where
  undefined : E
  literal : ∀ (t : IntegerType) (v : t.Value), sem.const (.value (t.literal v)) = int v.bits
  arithmetic : ∀ {w} (o : Opcode) (x y : BitVec w), Opcode.isArithmetic o = true →
    sem.op o [int x, int y] = orUndefined undefined ((CodeGen.arithmetic o x y).map int)
  icmp : ∀ {w} (p : ICmpPredicate) (x y : BitVec w),
    sem.op (.icmp p) [int x, int y] = pure (sem.const (.bool (compare p x y)))
  zext : ∀ b, sem.op (.zext 8) [sem.const (.bool b)] = pure (int (if b then 1#8 else 0#8))
  abs : ∀ {w} (x : BitVec w),
    sem.op (.call (absName w) (.int w)) [int x, sem.const (.bool true)] =
      orUndefined undefined ((absolute x).map int)
  neg : ∀ {w} (x : BitVec w), sem.op .neg [int x] = pure (int (-x))
  not : ∀ {w} (x : BitVec w), sem.op .not [int x] = pure (int (~~~x))
  zero : ∀ w, sem.const (.zero (.int w)) = int (0 : BitVec w)
  truthy : ∀ b, sem.truthy (sem.const (.bool b)) = b
  /-- The integral part of a float. -/
  integralPart : V → Option Int
  fpToInt : ∀ (u : IntegerType) (x : V),
    sem.op (if u.isSigned then .fpToSI u.width else .fpToUI u.width) [x] =
      orUndefined undefined ((ofIntegralPart u (integralPart x)).map int)

/-! ## 4. The evaluator -/

/-- A value of a type. -/
def TypedDatum (V : Type) (ty : ValueType) : Type :=
  { d : Datum V // valueTypeToLLVMType ty = .ok d.type }

/-- The values of some arguments. -/
inductive ArgumentData (V : Type) : List ValueType → Type
  | nil : ArgumentData V []
  | cons {ty : ValueType} {ts : List ValueType} (d : TypedDatum V ty) (rest : ArgumentData V ts) :
      ArgumentData V (ty :: ts)

def ArgumentData.toList {ts : List ValueType} : ArgumentData V ts → List (Datum V)
  | .nil => []
  | .cons d rest => d.1 :: rest.toList

/-- The values of the operands, and what the functions answer. -/
structure Oracle (V W E : Type) where
  values : ∀ t : IntegerType, ExecNode → Checked.M W E t.Value
  others : ∀ ty : ValueType, ExecNode → Checked.M W E (TypedDatum V ty)
  answers : ∀ (_ : String) {ts : List ValueType} (u : IntegerType), ArgumentData V ts →
    Checked.M W E u.Value

/-- What the evaluator does with numbers: it converts them from one type to another, and calculates
where the result may be undefined. -/
inductive Event
  | promotion (source target : IntegerType) (value : source.Value)
  | calculation (op : BinaryOPType) (t : IntegerType) (x y : t.Value)
  | abs (t : IntegerType) (x : t.Value)
  | truncation (u : IntegerType) (z : Option Int)

/-- A computation with a log, which an error does not lose. -/
abbrev Logged (W E α : Type) := StateT W (ExceptT E (StateM (List Event))) α

def Logged.run {α : Type} (m : Logged W E α) (w : W) (log : List Event) :
    Except E (α × W) × List Event := m w log

/-- A conversion from any integer type to any other. -/
abbrev Conversion := ∀ t u : IntegerType, t.Value → u.Value

section Eval

variable (conv : Conversion) (undefined : E)

/-- A computation that is not logged. -/
def lift {α : Type} (m : Checked.M W E α) : Logged W E α := fun w log => (m w, log)

def record (e : Event) : Logged W E Unit := fun w log => (.ok ((), w), log ++ [e])

def promote {t : IntegerType} (u : IntegerType) (v : t.Value) : Logged W E u.Value := do
  record (.promotion t u v)
  return conv t u v

/-- A result, if it is defined. -/
def result {t : IntegerType} : Option (BitVec t.width) → Logged W E t.Value
  | some z => return ofBits z
  | none => throw undefined

def unary {t : IntegerType} : (op : UnaryOPType) → t.Value → Logged W E (unaryType op t).Value
  | .kPlus, x => return x
  | .kMinus, x => do
    let x ← promote conv (unaryType .kMinus t) x
    return ofBits (-x.bits)
  | .kNot, x => return if compare .eq x.bits 0 then 1 else 0
  | .kBitwiseNot, x => return ofBits (~~~x.bits)

def relation {t u : IntegerType} (op : BinaryOPType) (x : t.Value) (y : u.Value) :
    Logged W E (IntegerType.Value .uint8) := do
  let x ← promote conv (promoted t u) x
  let y ← promote conv (promoted t u) y
  match relationalOpcode (promoted t u).valueType op with
  | some (.icmp p) => return if compare p x.bits y.bits then 1 else 0
  | _ => throw undefined

/-- The bits of a calculation. -/
def calculate {t : IntegerType} (op : BinaryOPType) (x y : t.Value) : Option (BitVec t.width) :=
  (calcOpcode t.valueType op).bind fun o => arithmetic o x.bits y.bits

def calculation {t u : IntegerType} (op : BinaryOPType) (x : t.Value) (y : u.Value) :
    Logged W E (calcType op t u).Value := do
  let x ← promote conv (calcType op t u) x
  let y ← promote conv (calcType op t u) y
  record (.calculation op _ x y)
  result undefined (calculate op x y)

def absoluteOf {t : IntegerType} (u : IntegerType) (x : t.Value) : Logged W E u.Value := do
  let x ← promote conv u x
  record (.abs u x)
  result undefined (absolute x.bits)

def truncationOf (u : IntegerType) (z : Option Int) : Logged W E u.Value := do
  record (.truncation u z)
  result undefined (ofIntegralPart u z)

/-- 1 or 0. -/
def truth (b : Bool) : IntegerType.Value .uint8 := if b then 1 else 0

variable {sem : Ssa.Semantics Opcode Literal V W E} (M : IntegerMachine sem) (oracle : Oracle V W E)

/-- An integer as an argument. -/
def IntegerMachine.typedDatum {t : IntegerType} (v : t.Value) : TypedDatum V t.valueType :=
  ⟨M.datum v, valueTypeToLLVMType_valueType t⟩

mutual

/-- The number an expression has. -/
def IntegerExpr.eval {t : IntegerType} : IntegerExpr ctx t → Logged W E t.Value
  | .operand t node => lift (oracle.values t node)
  | .unaryOP _ op child => do
    let x ← child.eval
    unary conv op x
  | .relational _ op _ left right => do
    let x ← left.eval
    let y ← right.eval
    relation conv M.undefined op x y
  | .logical _ op _ left right => do
    let x ← left.eval
    -- `and` is decided by a zero, `or` by anything else
    if decide (x.bits ≠ 0) = decide (op ≠ .kAnd) then return truth (decide (x.bits ≠ 0))
    else
      let y ← right.eval
      return truth (decide (y.bits ≠ 0))
  | .calc _ op _ left right => do
    let x ← left.eval
    let y ← right.eval
    calculation conv M.undefined op x y
  | .cast u _ _ _ arg => do
    let x ← arg.eval
    promote conv u x
  | .abs u _ _ _ arg => do
    let x ← arg.eval
    absoluteOf conv M.undefined u x
  | .truncation ty u _ _ _ arg => do
    let d ← lift (oracle.others ty arg)
    truncationOf M.undefined u (M.integralPart d.1.val)
  | .call u _ funcName _ args => do
    let ds ← args.eval
    lift (oracle.answers funcName u ds)
  | .ifNode _ cond then_ else_ => do
    let c ← cond.eval
    if c.bits = 0 then
      let x ← else_.eval
      promote conv _ x
    else
      let x ← then_.eval
      promote conv _ x
  | .switchNode (t := t) _ branches => branches.eval t

def Branches.eval {t : IntegerType} (u : IntegerType) : Branches ctx t → Logged W E u.Value
  | .default_ value => do
    let x ← value.eval
    promote conv u x
  | .cons cond then_ rest => do
    let c ← cond.eval
    if c.bits = 0 then rest.eval u
    else
      let x ← then_.eval
      promote conv u x

def Arguments.eval {ts : List ValueType} : Arguments ctx ts → Logged W E (ArgumentData V ts)
  | .nil => return .nil
  | .cons arg rest => do
    let x ← arg.eval
    let ds ← rest.eval
    return .cons (M.typedDatum x) ds
  | .other ty node rest => do
    let d ← lift (oracle.others ty node)
    let ds ← rest.eval
    return .cons d ds

end

end Eval

/-! ## 5. The code does what the evaluator does -/

section Follows

variable {α β γ δ : Type}

theorem run_bind (m : Logged W E α) (k : α → Logged W E β) (w : W) (log : List Event) :
    (m >>= k).run w log = match m.run w log with
      | (.ok (a, w'), log') => (k a).run w' log'
      | (.error e, log') => (.error e, log') := by
  rcases hrun : m.run w log with ⟨_ | ⟨a, w'⟩, log'⟩
  · unfold Logged.run at hrun
    simp only [Logged.run, bind, StateT.bind, ExceptT.bind, ExceptT.mk, hrun]
    rfl
  · unfold Logged.run at hrun
    simp only [Logged.run, bind, StateT.bind, ExceptT.bind, ExceptT.mk, hrun]
    rfl

/-- `m'` does what `m` does, and its results are the images under `r`. -/
def Follows (m : Logged W E α) (m' : Checked.M W E β) (r : α → β) : Prop :=
  ∀ w log, m'.run w = (m.run w log).1.map fun p => (r p.1, p.2)

namespace Follows

theorem pure (a : α) (r : α → β) : Follows (pure a : Logged W E α) (pure (r a)) r := fun _ _ => rfl

theorem throw (e : E) (r : α → β) : Follows (throw e : Logged W E α) (throw e) r := fun _ _ => rfl

theorem bind {m : Logged W E α} {m' : Checked.M W E β} {r : α → β} {k : α → Logged W E γ}
    {k' : β → Checked.M W E δ} {r' : γ → δ} (h : Follows m m' r)
    (hk : ∀ a, Follows (k a) (k' (r a)) r') : Follows (m >>= k) (m' >>= k') r' := by
  intro w log
  have hm := h w log
  rw [run_bind]
  rcases hrun : m.run w log with ⟨_ | ⟨a, w'⟩, log'⟩
  · rw [hrun] at hm
    exact Checked.run_bind_error hm
  · rw [hrun] at hm
    rw [Checked.run_bind_ok hm]
    exact hk a w' log'

theorem lift (m : Checked.M W E α) (r : α → β) :
    Follows (lift m) (m >>= fun a => Pure.pure (r a)) r := by
  intro w log
  rw [StateT.run_bind]
  change _ = (m.run w).map _
  cases m.run w with
  | error e => rfl
  | ok p => rfl

/-- A result is passed on. -/
theorem map {m : Logged W E α} {m' : Checked.M W E β} {r : α → β} (h : Follows m m' r)
    (f : β → δ) : Follows m (m' >>= fun b => Pure.pure (f b)) fun a => f (r a) := by
  intro w log
  rw [StateT.run_bind, h w log]
  cases (m.run w log).1 with
  | error e => rfl
  | ok p => rfl

theorem promote (conv : Conversion) {t : IntegerType} (u : IntegerType) (v : t.Value)
    (r : u.Value → β) :
    Follows (promote conv u v : Logged W E u.Value) (Pure.pure (r (conv t u v))) r := fun _ _ => rfl

/-- What is recorded is not seen. -/
theorem record_bind {e : Event} {k : Unit → Logged W E γ} {m' : Checked.M W E δ} {r' : γ → δ}
    (hk : Follows (k ()) m' r') : Follows (record e >>= k) m' r' := by
  intro w log
  rw [run_bind]
  exact hk w _

/-- A promotion is not seen. -/
theorem promote_bind {conv : Conversion} {t : IntegerType} (u : IntegerType) {v : t.Value}
    {k : u.Value → Logged W E γ} {m' : Checked.M W E δ} {r' : γ → δ}
    (hk : Follows (k (conv t u v)) m' r') : Follows (CodeGen.promote conv u v >>= k) m' r' := by
  intro w log
  rw [run_bind]
  exact hk w _

end Follows

end Follows

section Code

variable {sem : Ssa.Semantics Opcode Literal V W E} (M : IntegerMachine sem)

theorem evalCode_of_yields {n : Nat} {code : Except Status (IRExpr n)} {inputs : Fin n → Datum V}
    {x : IRExpr n} {t : IntegerType} {v : t.Value} (hcode : code = .ok x)
    (hx : Yields M.toIntegerSemantics inputs x v) :
    evalCode sem code inputs = pure (some (M.datum v)) := by
  rw [hcode, evalCode, hx.2, pure_bind, hx.1]
  rfl

/-- A condition is true unless it is zero. -/
theorem test_datum {t : IntegerType} (v : t.Value) :
    test sem (some (M.datum v)) = pure (some (decide (v.bits ≠ 0))) := by
  simp only [test, toBool, IntegerSemantics.datum, LLVMType.isIntegerTy, if_true, evalCode,
    IRExpr.op₂,
    Ssa.Expr.eval, Ssa.Expr.evalArgs, Matrix.cons_val_zero, pure_bind, M.zero, M.icmp, M.truthy,
    Option.map_some, compare]
  simp [bne, BEq.beq]

/-- A branch is converted to the type of its construct. -/
theorem convert_datum {t : IntegerType} (u : IntegerType) (v : t.Value) :
    convert sem t.valueType u.valueType (some (M.datum v)) =
      pure (some (M.datum (converted u v))) := by
  obtain ⟨y, hy, hyields⟩ := numericTypeConvert_yields
    (yields_input (h := M.toIntegerSemantics) ![M.datum v] 0 rfl) u
  simp only [convert, valueTypeToLLVMType_valueType, evalCode_of_yields M hy hyields, pure_bind,
    Option.map_some]
  rfl

theorem exists_relationalOpcode (t : IntegerType) {op : BinaryOPType}
    (hop : isRelationalBinaryOPType op = true) :
    ∃ p, relationalOpcode t.valueType op = some (.icmp p) := by
  have hby : ∀ p q f, ∃ r, byType t.valueType (Opcode.icmp p) (.icmp q) f = .icmp r := by
    intro p q f
    rw [byType, if_pos t.isIntegerType_valueType]
    split
    · exact ⟨p, rfl⟩
    · exact ⟨q, rfl⟩
  have hsome : ∀ p q f,
      ∃ r, some (byType t.valueType (Opcode.icmp p) (.icmp q) f) = some (.icmp r) :=
    fun p q f => (hby p q f).imp fun r hr => congrArg some hr
  cases op with
  | kLarge | kLargeEqual | kEqual | kLess | kLessEqual | kNotEqual => exact hsome _ _ _
  | _ => cases hop

theorem exists_calcOpcode (t : IntegerType) {op : BinaryOPType}
    (hop : isCalcBinaryOPType op = true) :
    ∃ o, calcOpcode t.valueType op = some o ∧ Opcode.isArithmetic o = true := by
  have hby : ∀ o o' f, Opcode.isArithmetic o = true → Opcode.isArithmetic o' = true →
      ∃ r, some (byType t.valueType o o' f) = some r ∧ Opcode.isArithmetic r = true := by
    intro o o' f ho ho'
    rw [byType, if_pos t.isIntegerType_valueType]
    split
    · exact ⟨o, rfl, ho⟩
    · exact ⟨o', rfl, ho'⟩
  cases op with
  | kAdd | kSub | kMul | kDiv | kMod => exact hby _ _ _ rfl rfl
  | kBitwiseAnd | kBitwiseOr | kBitwiseXor | kBitwiseShiftLeft => exact ⟨_, rfl, rfl⟩
  | kBitwiseShiftRight =>
    refine ⟨_, rfl, ?_⟩
    split
    · rfl
    · rfl
  | _ => cases hop

/-- The bits of a truth value. -/
theorem bits_bool (b : Bool) :
    (if b then (1 : IntegerType.Value .uint8) else 0).bits = if b then 1#8 else 0#8 := by
  cases b with
  | true => rfl
  | false => rfl

/-- Code with the result of a calculation. -/
theorem result_follows {n : Nat} {x : IRExpr n} {inputs : Fin n → Datum V} {t : IntegerType}
    {r : Option (BitVec t.width)} (htype : x.type (fun i => (inputs i).type) = .int t.width)
    (heval : x.eval sem (fun i => (inputs i).val) = orUndefined M.undefined (r.map M.int)) :
    Follows (result M.undefined r : Logged W E t.Value) (evalCode sem (.ok x) inputs)
      fun z => some (M.datum z) := by
  rw [evalCode, heval, htype]
  cases r with
  | none => exact .throw _ _
  | some z =>
    have hz : M.datum (ofBits z) = ⟨M.int z, .int t.width⟩ := by
      rw [IntegerSemantics.datum, bits_ofBits]
    simp only [Option.map_some, orUndefined, pure_bind]
    rw [← hz]
    exact .pure _ _

/-- **Relational operators.** -/
theorem relation_follows {t u : IntegerType} {op : BinaryOPType}
    (hop : isRelationalBinaryOPType op = true) (x : t.Value) (y : u.Value) :
    Follows (relation (fun _ => converted) M.undefined op x y : Logged W E _)
      (evalCode sem (solveBinaryOpNumericType op t.valueType u.valueType .kU8 (.input 0) (.input 1))
        ![M.datum x, M.datum y]) (fun z => some (M.datum z)) := by
  obtain ⟨p, hp⟩ := exists_relationalOpcode (promoted t u) hop
  obtain ⟨c, hc, hcx⟩ := numericTypeConvert_yields
    (yields_input (h := M.toIntegerSemantics) ![M.datum x, M.datum y] 0 rfl) (promoted t u)
  obtain ⟨d, hd, hdy⟩ := numericTypeConvert_yields
    (yields_input (h := M.toIntegerSemantics) ![M.datum x, M.datum y] 1 rfl) (promoted t u)
  have hcode : solveBinaryOpNumericType op t.valueType u.valueType .kU8 (.input 0) (.input 1) =
      .ok (.op₁ (.zext 8) (.op₂ (.icmp p) c d)) := by
    simp only [solveBinaryOpNumericType, hop, if_true, getPromotedType_valueType]
    rw [hc, hd]
    simp only [bind, Except.bind, hp]
  refine .promote_bind _ (.promote_bind _ ?_)
  simp only [hp]
  rw [evalCode_of_yields M hcode (t := .uint8) (v := if compare p (converted (promoted t u) x).bits
    (converted (promoted t u) y).bits then 1 else 0)]
  · exact .pure _ _
  · refine ⟨rfl, ?_⟩
    simp only [IRExpr.op₁, IRExpr.op₂, Ssa.Expr.eval, Ssa.Expr.evalArgs, hcx.2, hdy.2, pure_bind,
      M.icmp, M.zext, bits_bool]
    rfl

/-- **Arithmetic and bitwise operators.** -/
theorem calculation_follows {t u : IntegerType} {op : BinaryOPType}
    (hop : isCalcBinaryOPType op = true) (x : t.Value) (y : u.Value) :
    Follows (calculation (fun _ => converted) M.undefined op x y : Logged W E _)
      (evalCode sem (solveBinaryOpNumericType op t.valueType u.valueType
        (calcType op t u).valueType (.input 0) (.input 1)) ![M.datum x, M.datum y])
      (fun z => some (M.datum z)) := by
  obtain ⟨o, ho, harith⟩ := exists_calcOpcode (calcType op t u) hop
  obtain ⟨c, hc, hcx⟩ := numericTypeConvert_yields
    (yields_input (h := M.toIntegerSemantics) ![M.datum x, M.datum y] 0 rfl) (calcType op t u)
  obtain ⟨d, hd, hdy⟩ := numericTypeConvert_yields
    (yields_input (h := M.toIntegerSemantics) ![M.datum x, M.datum y] 1 rfl) (calcType op t u)
  have hrel : isRelationalBinaryOPType op = false := by
    simpa using (Bool.and_eq_true_iff.mp hop).1
  have hcode : solveBinaryOpNumericType op t.valueType u.valueType (calcType op t u).valueType
      (.input 0) (.input 1) = .ok (.op₂ o c d) := by
    simp only [solveBinaryOpNumericType, hrel]
    rw [hc, hd]
    simp [bind, Except.bind, ho]
  rw [hcode]
  refine .promote_bind _ (.promote_bind _ (.record_bind (result_follows M ?_ ?_)))
  · cases o <;> first | exact hcx.1 | cases harith
  · simp only [IRExpr.op₂, Ssa.Expr.eval, Ssa.Expr.evalArgs, hcx.2, hdy.2, pure_bind, calculate, ho,
      Option.bind_some]
    exact M.arithmetic o _ _ harith

/-- **Unary operators.** -/
theorem unary_follows {t : IntegerType} {op : UnaryOPType} (hop : op ≠ .kPlus) (v : t.Value) :
    Follows (unary (fun _ => converted) op v : Logged W E _)
      (evalCode sem (unaryOP op t.valueType (unaryType op t).valueType (.int t.width) (.input 0))
        ![M.datum v]) (fun z => some (M.datum z)) := by
  have hinput : Yields M.toIntegerSemantics ![M.datum v] (.input 0) v := yields_input _ 0 rfl
  cases op with
  | kPlus => exact absurd rfl hop
  | kMinus =>
    obtain ⟨c, hc, hcv⟩ := numericTypeConvert_yields hinput (unaryType .kMinus t)
    have hcode : unaryOP .kMinus t.valueType (unaryType .kMinus t).valueType (.int t.width)
        (.input 0) = .ok (.op₁ .neg c) := by
      simp only [unaryOP, isIntegerType_valueType, if_true]
      rw [hc]
      rfl
    refine .promote_bind _ ?_
    rw [evalCode_of_yields M hcode (v := ofBits (-(converted (unaryType .kMinus t) v).bits))]
    · exact .pure _ _
    · refine ⟨hcv.1, ?_⟩
      simp only [IRExpr.op₁, Ssa.Expr.eval, Ssa.Expr.evalArgs, hcv.2, pure_bind, M.neg, bits_ofBits]
  | kNot =>
    have hcode : unaryOP .kNot t.valueType ValueType.kU8 (.int t.width)
        (.input (0 : Fin 1)) =
          .ok (.op₁ (.zext 8) (.op₂ (.icmp .eq) (.input 0) (.const (.zero (.int t.width))))) := rfl
    have hyields : Yields M.toIntegerSemantics ![M.datum v]
        (.op₁ (.zext 8) (.op₂ (.icmp .eq) (.input 0) (.const (.zero (.int t.width)))))
        (if compare .eq v.bits 0 then 1 else 0 : IntegerType.Value .uint8) := by
      refine ⟨rfl, ?_⟩
      simp only [IRExpr.op₁, IRExpr.op₂, Ssa.Expr.eval, Ssa.Expr.evalArgs, Matrix.cons_val_zero,
        IntegerSemantics.datum, pure_bind, M.zero, M.icmp, M.zext, bits_bool]
      rfl
    exact evalCode_of_yields M hcode hyields ▸ .pure _ _
  | kBitwiseNot =>
    have hcode : unaryOP .kBitwiseNot t.valueType t.valueType (.int t.width)
        (.input (0 : Fin 1)) = .ok (.op₁ .not (.input 0)) := rfl
    have hyields : Yields M.toIntegerSemantics ![M.datum v] (.op₁ .not (.input 0))
        (ofBits (~~~v.bits)) := by
      refine ⟨rfl, ?_⟩
      simp only [IRExpr.op₁, Ssa.Expr.eval, Ssa.Expr.evalArgs, Matrix.cons_val_zero,
        IntegerSemantics.datum, pure_bind, M.not, bits_ofBits]
    exact evalCode_of_yields M hcode hyields ▸ .pure _ _

variable (sem) in
/-- A registered intrinsic is its code. -/
theorem callFunction_intrinsic {funcName : String} {ty : ValueType} {type : LLVMType}
    {u : IntegerType} {code : FunctionSignature → Option (IRExpr 1)}
    (h : IsIntrinsic ctx funcName ty type u code) {args : Fin 1 → Datum V}
    (hargs : (args 0).type = type) :
    ∃ sign : FunctionSignature, sign.paramTypes = [ty] ∧ sign.retType = u.valueType ∧
      ∀ x, code sign = some x →
        callFunction ctx sem u.valueType ⟨funcName, [ty], .kUnknown⟩ args =
          evalCode sem (.ok x) args := by
  obtain ⟨sign, fs, f, hfind, hfs, hgen, hparams, hret, hcode⟩ := h
  refine ⟨sign, hparams, hret, fun x hx => ?_⟩
  have htypes : (fun i => (args i).type) = fun _ => type := by
    funext i
    rw [Fin.eq_zero i, hargs]
  simp only [callFunction, hfind, hfs, hgen, Option.bind_some, htypes, hcode, hx]

/-- **Casts.** -/
theorem cast_follows {funcName : String} {t u : IntegerType} (h : IsCast ctx funcName t u)
    {args : Fin 1 → Datum V} {v : t.Value} (hargs : args 0 = M.datum v) :
    Follows (promote (fun _ => converted) u v : Logged W E _)
      (callFunction ctx sem u.valueType ⟨funcName, [t.valueType], .kUnknown⟩ args)
      fun z => some (M.datum z) := by
  have htype : (args 0).type = .int t.width := congrArg Datum.type hargs
  obtain ⟨sign, hparams, hret, hcall⟩ := callFunction_intrinsic sem h htype
  obtain ⟨c, hc, hcv⟩ := numericTypeConvert_yields
    (yields_input (h := M.toIntegerSemantics) args (Fin.last 0) hargs) u
  have hcode : callBuiltinCastFunction sign 1 = some c := by
    simp only [callBuiltinCastFunction, hparams, hret, List.getLastD_cons, List.getLastD_nil]
    rw [hc]
  rw [hcall c hcode, evalCode_of_yields M rfl hcv]
  exact .promote _ u v fun z => some (M.datum z)

/-- **The absolute value.** -/
theorem abs_follows {funcName : String} {t u : IntegerType} (h : IsAbs ctx funcName t u)
    {args : Fin 1 → Datum V} {v : t.Value} (hargs : args 0 = M.datum v) :
    Follows (absoluteOf (fun _ => converted) M.undefined u v : Logged W E _)
      (callFunction ctx sem u.valueType ⟨funcName, [t.valueType], .kUnknown⟩ args)
      fun z => some (M.datum z) := by
  have htype : (args 0).type = .int t.width := congrArg Datum.type hargs
  obtain ⟨sign, hparams, hret, hcall⟩ := callFunction_intrinsic sem h.2 htype
  obtain ⟨c, hc, hcv⟩ := numericTypeConvert_yields
    (yields_input (h := M.toIntegerSemantics) args 0 hargs) u
  have hcode : callBuiltinAbsFunction sign =
      .op₂ (.call (absName u.width) (.int u.width)) c (.const (.bool true)) := by
    simp only [callBuiltinAbsFunction, convertOrKeep, hparams, hret, List.headD_cons,
      intWidth_valueType]
    rw [hc]
  rw [hcall _ (congrArg some hcode)]
  refine .promote_bind _ (.record_bind (result_follows M rfl ?_))
  simp only [IRExpr.op₂, Ssa.Expr.eval, Ssa.Expr.evalArgs, hcv.2, pure_bind, M.abs]

/-- A float becomes an integer by truncation. -/
theorem numericTypeConvert_float {n : Nat} {ty : ValueType} (hfloat : isFloatType ty = true)
    (u : IntegerType) (x : IRExpr n) : numericTypeConvert ty u.valueType x =
      .ok (.op₁ (if u.isSigned then .fpToSI u.width else .fpToUI u.width) x) := by
  have hint : isIntegerType ty = false := by
    cases ty <;> first | rfl | exact nomatch hfloat
  have hne : ty ≠ u.valueType := by
    rintro rfl
    rw [isIntegerType_valueType] at hint
    cases hint
  simp only [numericTypeConvert, if_neg hne, hint, hfloat, isIntegerType_valueType,
    isSignedType_valueType, intWidth_valueType, if_true, Bool.false_eq_true, if_false]
  split
  · rfl
  · rfl

/-- **The cast of a float.** -/
theorem truncation_follows {funcName : String} {ty : ValueType} {u : IntegerType}
    (h : IsTruncation ctx funcName ty u) {args : Fin 1 → Datum V}
    (hargs : valueTypeToLLVMType ty = .ok (args 0).type) :
    Follows (truncationOf M.undefined u (M.integralPart (args 0).val) : Logged W E _)
      (callFunction ctx sem u.valueType ⟨funcName, [ty], .kUnknown⟩ args)
      fun z => some (M.datum z) := by
  obtain ⟨hfloat, hintrinsic⟩ := h
  have hllvm : valueTypeToLLVMType ty = .ok (floatTypeOf ty) := by
    cases ty <;> first | rfl | exact nomatch hfloat
  have htype : (args 0).type = floatTypeOf ty := Except.ok.inj (hargs.symm.trans hllvm)
  obtain ⟨sign, hparams, hret, hcall⟩ := callFunction_intrinsic sem hintrinsic htype
  have hcode : callBuiltinCastFunction sign 1 = some (.op₁
      (if u.isSigned then .fpToSI u.width else .fpToUI u.width) (.input (Fin.last 0))) := by
    simp only [callBuiltinCastFunction, hparams, hret, List.getLastD_cons, List.getLastD_nil]
    rw [numericTypeConvert_float hfloat]
  rw [hcall _ hcode]
  refine .record_bind (result_follows M ?_ ?_)
  · cases hs : u.isSigned <;> rfl
  · simp only [IRExpr.op₁, Ssa.Expr.eval, Ssa.Expr.evalArgs, pure_bind]
    exact M.fpToInt u _

/-- The value of `and` and `or`. -/
theorem ofBool_eq (b : Bool) : ofBool sem b = M.datum (truth b) := by
  have hliteral := M.literal .uint8 (truth b)
  cases b with
  | true => exact congrArg (Datum.mk · (.int 8)) hliteral
  | false => exact congrArg (Datum.mk · (.int 8)) hliteral

end Code

/-! ## 6. The types the validator gives -/

section Types

open Validator

variable {t u : IntegerType} {loc : SourceLocation}

theorem valueType_ne_kVoid (t : IntegerType) : t.valueType ≠ .kVoid :=
  ne_kVoid_of_isNumericType t.isNumericType_valueType

theorem unaryOPType_valueType (op : UnaryOPType) (t : IntegerType) :
    unaryOPType loc op t.valueType = .ok (unaryType op t).valueType := by
  unfold unaryOPType
  rw [if_neg (valueType_ne_kVoid t), isNumericType_valueType]
  cases op with
  | kPlus => rfl
  | kMinus => cases t <;> rfl
  | kNot => rfl
  | kBitwiseNot => simp [unaryType]

theorem binaryOPType_valueType {op : BinaryOPType} {left right : ExecNode} {ty : ValueType}
    (hl : left.getReturnType = t.valueType) (hr : right.getReturnType = u.valueType)
    (hop : isLogicalBinaryOPType op = false) (h : binaryOPType loc op left right = .ok ty) :
    ty = if isRelationalBinaryOPType op then .kU8 else (calcType op t u).valueType := by
  have hvoid : ¬ (t.valueType = .kVoid ∨ u.valueType = .kVoid) :=
    not_or.mpr ⟨valueType_ne_kVoid t, valueType_ne_kVoid u⟩
  simp only [binaryOPType, hl, hr, if_neg hvoid, hop, isNumericType_valueType,
    isIntegerType_valueType, getPromotedType_valueType, and_self, true_or, if_true] at h
  cases op with
  | kBitwiseShiftLeft | kBitwiseShiftRight =>
      simpa [isRelationalBinaryOPType, isBitwiseBinaryOPType,
      calcType] using h.symm
  | kDiv | kMod =>
    by_cases hz : isConstZero right = true
    · simp [isRelationalBinaryOPType, isBitwiseBinaryOPType, hz] at h
    · simpa [isRelationalBinaryOPType, isBitwiseBinaryOPType, hz, calcType] using h.symm
  | _ => exact (Except.ok.inj h).symm

theorem binaryOPType_logical {op : BinaryOPType} {left right : ExecNode} {ty : ValueType}
    (hop : isLogicalBinaryOPType op = true) (h : binaryOPType loc op left right = .ok ty) :
    ty = .kU8 := by
  simp only [binaryOPType, hop, if_true] at h
  split at h
  · cases h
  · split at h
    · exact (Except.ok.inj h).symm
    · cases h

theorem ifNodeType_valueType {cond then_ else_ : ExecNode} {c : IntegerType} {ty : ValueType}
    (hc : cond.getReturnType = c.valueType) (ht : then_.getReturnType = t.valueType)
    (he : else_.getReturnType = u.valueType)
    (h : ifNodeType loc [cond, then_, else_] = .ok ty) : ty = (promoted t u).valueType := by
  simpa [ifNodeType, hc, ht, he, getPromotedType_valueType] using h.symm

theorem getPromotedType_assoc (a b c : ValueType) :
    getPromotedType (getPromotedType a b) c = getPromotedType a (getPromotedType b c) := by
  unfold getPromotedType
  by_cases hab : weight a > weight b
  · by_cases hbc : weight b > weight c
    · simp [hab, hbc, hbc.trans hab]
    · simp [hab, hbc]
  · by_cases hbc : weight b > weight c
    · simp [hab, hbc]
    · have hac : ¬ weight a > weight c := by omega
      simp [hab, hbc, hac]

theorem switchNodeType_valueType {args : List ExecNode} {ty : ValueType}
    (hargs : switchBranches .kUnknown .kUnknown args = .ok (t.valueType, .kUnknown))
    (h : switchNodeType loc args = .ok ty) : ty = t.valueType := by
  have hne : t.valueType ≠ .kUnknown := by cases t <;> exact ValueType.noConfusion
  simpa [switchNodeType, hargs, hne] using h.symm

end Types

/-! ## 7. Annotated trees -/

section Spec

open Validator

variable {ctx : Context} {sem : Ssa.Semantics Opcode Literal V W E} (M : IntegerMachine sem)
  (lit : ConstantListValueType → Literal) (st : ScopeStack VarEntry) (store : Store V)
  (oracle : Oracle V W E)

/-- **An operand** is as the oracle says: a tree that the validator gives its type has a value of
the type, and a function answers with an integer. -/
def IsOperand (ctx : Context) : Operand → Prop
  | .integer t node => ∀ a s, Visits ctx.functionRegistry st node a s →
    s = st ∧ a.getReturnType = t.valueType ∧
      eval ctx sem lit a store = oracle.values t node >>= fun v => pure (some (M.datum v), store)
  | .other ty node => ∀ a s, Visits ctx.functionRegistry st node a s →
    s = st ∧ a.getReturnType = ty ∧
      eval ctx sem lit a store = oracle.others ty node >>= fun d => pure (some d.1, store)
  | .function funcName ts u => ∀ ds : ArgumentData V ts,
    callFunction ctx sem u.valueType ⟨funcName, ts, .kUnknown⟩ ds.toList.get =
      oracle.answers funcName u ds >>= fun v => pure (some (M.datum v))

variable {M lit st store oracle} in
/-- A literal is an operand. -/
theorem isOperand_constantValue {t : IntegerType} {v : t.Value} {info : NodeInfo}
    (h : oracle.values t (.constantValue info (t.literal v)) = pure v) :
    IsOperand M lit st store oracle ctx (.integer t (.constantValue info (t.literal v))) := by
  intro a s hvisits
  cases hvisits with
  | constantValue =>
    refine ⟨rfl, ?_, ?_⟩
    · cases t <;> rfl
    · rw [h, Interpreter.eval, M.literal, pure_bind, IntegerSemantics.datum]
      cases t <;> rfl

/-- A branch of an `if` or a `switch`. -/
theorem branch_follows {t : IntegerType} (u : IntegerType) {a : ExecNode} {m : Logged W E t.Value}
    (htype : a.getReturnType = t.valueType)
    (h : Follows m (eval ctx sem lit a store) fun v => (some (M.datum v), store)) :
    Follows (m >>= promote (fun _ => converted) u)
      (eval ctx sem lit a store >>= fun r =>
        convert sem a.getReturnType u.valueType r.1 >>= fun y => pure (y, r.2))
      fun v => (some (M.datum v), store) := by
  refine h.bind fun v => ?_
  rw [htype, convert_datum]
  exact .promote _ u v fun z => (some (M.datum z), store)

variable (sem) in
/-- The call of a function that is registered for the types of its arguments. -/
theorem call_visits {u : IntegerType} {ts : List ValueType} {info : NodeInfo} {funcName : String}
    {args : List ExecNode} {a : ExecNode} {s : ScopeStack VarEntry}
    (h : IsFunction ctx funcName ts u)
    (hvisits : Visits ctx.functionRegistry st (.function info funcName args) a s)
    (hargs : ∀ {as}, VisitsArgs ctx.functionRegistry st args as s →
      as.map ExecNode.getReturnType = ts) :
    a.getReturnType = u.valueType ∧ ∃ as, VisitsArgs ctx.functionRegistry st args as s ∧
      eval ctx sem lit a store = evalArgs ctx sem lit as store >>= fun r =>
        match r.1 with
        | none => pure (none, r.2)
        | some xs =>
          callFunction ctx sem u.valueType ⟨funcName, ts, .kUnknown⟩ xs.get >>= fun y =>
            pure (y, r.2) := by
  obtain ⟨sign, fs, hfind, hret⟩ := h
  cases hvisits with
  | @function _ _ _ _ _ as _ ha ht =>
    have hsign : callSignature funcName as = ⟨funcName, ts, .kUnknown⟩ := by
      rw [callSignature, hargs ha]
    rw [functionType, hsign, hfind] at ht
    cases ht
    refine ⟨hret, as, ha, ?_⟩
    rw [Interpreter.eval, hsign]
    refine bind_congr fun r => ?_
    rcases r with ⟨_ | xs, store'⟩
    · rfl
    · exact congrArg (fun ty => callFunction ctx sem ty ⟨funcName, ts, .kUnknown⟩ xs.get >>=
        fun y => pure (y, store')) hret

variable {lit st store} in
/-- A call of a function of one argument. -/
theorem call_follows {α : Type} {ty : ValueType} {u : IntegerType} {info : NodeInfo}
    {funcName : String} {arg a : ExecNode} {s : ScopeStack VarEntry} {type : LLVMType}
    {code : FunctionSignature → Option (IRExpr 1)} {m : Logged W E α} {d : α → Datum V}
    {k : α → Logged W E u.Value} (h : IsIntrinsic ctx funcName ty type u code)
    (harg : ∀ {a s}, Visits ctx.functionRegistry st arg a s →
      s = st ∧ a.getReturnType = ty ∧
        Follows m (eval ctx sem lit a store) fun v => (some (d v), store))
    (hk : ∀ v, Follows (k v)
      (callFunction ctx sem u.valueType ⟨funcName, [ty], .kUnknown⟩ [d v].get)
      fun z => some (M.datum z))
    (hvisits : Visits ctx.functionRegistry st (.function info funcName [arg]) a s) :
    s = st ∧ a.getReturnType = u.valueType ∧
      Follows (m >>= k) (eval ctx sem lit a store) fun v => (some (M.datum v), store) := by
  have hfun : IsFunction ctx funcName [ty] u := by
    obtain ⟨sign, fs, f, hfind, -, -, -, hret, -⟩ := h
    exact ⟨sign, fs, hfind, hret⟩
  have htypes : ∀ {as}, VisitsArgs ctx.functionRegistry st [arg] as s →
      as.map ExecNode.getReturnType = [ty] := by
    intro as ha
    cases ha with
    | cons ha hv hnil =>
      cases hnil
      rw [List.map_singleton, (harg ha).2.1]
  obtain ⟨htype, as, ha, heval⟩ := call_visits sem lit st store hfun hvisits htypes
  cases ha with
  | cons ha hv hnil =>
    cases hnil
    obtain ⟨hs, -, hfollows⟩ := harg ha
    refine ⟨hs, htype, ?_⟩
    rw [heval]
    simp only [Interpreter.evalArgs, bind_assoc]
    refine hfollows.bind fun v => ?_
    simp only [pure_bind, Option.map_some]
    exact (hk v).map (·, store)

/-- Whatever the validator makes of the tree has the type `t`, and the value that `m` computes. -/
def Computes (ctx : Context) {t : IntegerType} (m : Logged W E t.Value) (node : ExecNode) : Prop :=
  ∀ a s, Visits ctx.functionRegistry st node a s →
    s = st ∧ a.getReturnType = t.valueType ∧
      Follows m (eval ctx sem lit a store) fun v => (some (M.datum v), store)

section Constructors

variable {M lit st store} {info : NodeInfo}

theorem Computes.unaryOP {t : IntegerType} (op : UnaryOPType) {child : ExecNode}
    {m : Logged W E t.Value} (hchild : Computes M lit st store ctx m child) :
    Computes M lit st store ctx (m >>= fun x => unary (fun _ => converted) op x)
      (.unaryOP info op child) := by
  intro a s h
  cases h with
  | unaryOP hc ht =>
    obtain ⟨rfl, htype, hfollows⟩ := hchild _ _ hc
    rw [htype, unaryOPType_valueType] at ht
    cases ht
    refine ⟨rfl, rfl, ?_⟩
    rw [Interpreter.eval]
    refine hfollows.bind fun v => ?_
    by_cases hplus : op = .kPlus
    · subst hplus
      exact .pure _ _
    · simp only [if_neg hplus, htype]
      exact (unary_follows M hplus v).map (·, store)

section Binary

variable {t u : IntegerType} {op : BinaryOPType} {left right : ExecNode} {x : Logged W E t.Value}
  {y : Logged W E u.Value}

/-- The operands of a binary operator. -/
theorem binaryOP_visits {a : ExecNode} {s : ScopeStack VarEntry}
    (hx : Computes M lit st store ctx x left) (hy : Computes M lit st store ctx y right)
    (h : Visits ctx.functionRegistry st (.binaryOP info op left right) a s) :
    s = st ∧ ∃ l r ty, a = .binaryOP (info.setReturnType ty) op l r ∧
      binaryOPType info.loc op l r = .ok ty ∧
      (l.getReturnType = t.valueType ∧
        Follows x (eval ctx sem lit l store) fun v => (some (M.datum v), store)) ∧
      r.getReturnType = u.valueType ∧
        Follows y (eval ctx sem lit r store) fun v => (some (M.datum v), store) := by
  cases h with
  | binaryOP hl hr ht =>
    obtain ⟨hs, hleft⟩ := hx _ _ hl
    rw [hs] at hr
    obtain ⟨hs', hright⟩ := hy _ _ hr
    exact ⟨hs', _, _, _, rfl, ht, hleft, hright⟩

theorem Computes.relational (hop : isRelationalBinaryOPType op = true)
    (hx : Computes M lit st store ctx x left) (hy : Computes M lit st store ctx y right) :
    Computes M lit st store ctx
      (x >>= fun v => y >>= fun z => relation (fun _ => converted) M.undefined op v z)
      (.binaryOP info op left right) := by
  intro a s h
  obtain ⟨hs, l, r, ty, rfl, ht, ⟨hltype, hleft⟩, hrtype, hright⟩ := binaryOP_visits hx hy h
  have hlog : isLogicalBinaryOPType op = false := by cases op <;> first | rfl | cases hop
  obtain rfl := binaryOPType_valueType hltype hrtype hlog ht
  rw [hop, if_pos rfl]
  refine ⟨hs, rfl, ?_⟩
  rw [Interpreter.eval]
  refine hleft.bind fun v => ?_
  simp only [hlog, hltype, hrtype, isNumericType_valueType]
  exact hright.bind fun z => (relation_follows M hop v z).map (·, store)

theorem Computes.calc (hop : isCalcBinaryOPType op = true)
    (hx : Computes M lit st store ctx x left) (hy : Computes M lit st store ctx y right) :
    Computes M lit st store ctx
      (x >>= fun v => y >>= fun z => calculation (fun _ => converted) M.undefined op v z)
      (.binaryOP info op left right) := by
  intro a s h
  obtain ⟨hs, l, r, ty, rfl, ht, ⟨hltype, hleft⟩, hrtype, hright⟩ := binaryOP_visits hx hy h
  obtain ⟨hrel, hlog⟩ : isRelationalBinaryOPType op = false ∧
      isLogicalBinaryOPType op = false := by
    simpa [isCalcBinaryOPType] using hop
  obtain rfl := binaryOPType_valueType hltype hrtype hlog ht
  rw [hrel, if_neg Bool.false_ne_true]
  refine ⟨hs, rfl, ?_⟩
  rw [Interpreter.eval]
  refine hleft.bind fun v => ?_
  simp only [hlog, hltype, hrtype, isNumericType_valueType]
  exact hright.bind fun z => (calculation_follows M hop v z).map (·, store)

theorem Computes.logical (hop : isLogicalBinaryOPType op = true)
    (hx : Computes M lit st store ctx x left) (hy : Computes M lit st store ctx y right) :
    Computes M lit st store ctx
      (x >>= fun v =>
        if decide (v.bits ≠ 0) = decide (op ≠ .kAnd) then pure (truth (decide (v.bits ≠ 0)))
        else y >>= fun z => pure (truth (decide (z.bits ≠ 0))))
      (.binaryOP info op left right) := by
  intro a s h
  obtain ⟨hs, l, r, ty, rfl, ht, ⟨hltype, hleft⟩, hrtype, hright⟩ := binaryOP_visits hx hy h
  obtain rfl := binaryOPType_logical hop ht
  refine ⟨hs, rfl, ?_⟩
  rw [Interpreter.eval]
  refine hleft.bind fun v => ?_
  simp only [hop, if_true, test_datum, pure_bind]
  split
  · rw [ofBool_eq M]
    exact .pure _ _
  · refine hright.bind fun z => ?_
    simp only [test_datum, pure_bind, Option.map_some, ofBool_eq M]
    exact .pure _ _

end Binary

theorem Computes.ifNode {c t u : IntegerType} {cond then_ else_ : ExecNode}
    {x : Logged W E c.Value} {y : Logged W E t.Value} {z : Logged W E u.Value}
    (hx : Computes M lit st store ctx x cond) (hy : Computes M lit st store ctx y then_)
    (hz : Computes M lit st store ctx z else_) :
    Computes M lit st store ctx
      (x >>= fun v =>
        if v.bits = 0 then z >>= promote (fun _ => converted) (promoted t u)
        else y >>= promote (fun _ => converted) (promoted t u))
      (.ifNode info [cond, then_, else_]) := by
  intro a s h
  cases h with
  | ifNode hn ha ht =>
    cases ha with
    | cons hc hcv ha =>
    cases ha with
    | cons hb hbv ha =>
    cases ha with
    | cons he hev hnil =>
      cases hnil
      obtain ⟨hs, hctype, hcond⟩ := hx _ _ hc
      rw [hs] at hb
      obtain ⟨hs, hbtype, hthen⟩ := hy _ _ hb
      rw [hs] at he
      obtain ⟨hs, hetype, helse⟩ := hz _ _ he
      obtain rfl := ifNodeType_valueType hctype hbtype hetype ht
      refine ⟨hs, rfl, ?_⟩
      rw [Interpreter.eval]
      refine hcond.bind fun v => ?_
      simp only [test_datum, pure_bind]
      by_cases hzero : v.bits = 0
      · simp only [hzero, if_true]
        exact branch_follows M lit store _ hetype helse
      · simp only [hzero, if_false, ne_eq, not_false_eq_true, decide_true]
        exact branch_follows M lit store _ hbtype hthen

end Constructors

mutual

/-- **The code of an integer expression** computes its number. -/
theorem IntegerExpr.follows {t : IntegerType} : ∀ x : IntegerExpr ctx t,
    (∀ o ∈ x.operands, IsOperand M lit st store oracle ctx o) →
      Computes M lit st store ctx (x.eval (fun _ => converted) M oracle) x.node
  | .operand t node, hops => by
    intro a s h
    obtain ⟨hs, htype, heval⟩ := hops (.integer t node) (List.mem_singleton.mpr rfl) a s h
    refine ⟨hs, htype, ?_⟩
    rw [heval, IntegerExpr.eval]
    exact .lift _ _
  | .unaryOP info op child, hops => by
    rw [IntegerExpr.eval]
    exact (child.follows hops).unaryOP op
  | .relational info op hop left right, hops => by
    rw [IntegerExpr.eval]
    exact .relational hop (left.follows fun o ho => hops o (List.mem_append_left _ ho))
      (right.follows fun o ho => hops o (List.mem_append_right _ ho))
  | .logical info op hop left right, hops => by
    rw [IntegerExpr.eval]
    exact .logical hop (left.follows fun o ho => hops o (List.mem_append_left _ ho))
      (right.follows fun o ho => hops o (List.mem_append_right _ ho))
  | .calc info op hop left right, hops => by
    rw [IntegerExpr.eval]
    exact .calc hop (left.follows fun o ho => hops o (List.mem_append_left _ ho))
      (right.follows fun o ho => hops o (List.mem_append_right _ ho))
  | .cast u info funcName hcast arg, hops => by
    intro a s h
    rw [IntegerExpr.eval]
    exact call_follows M hcast (arg.follows hops _ _) (fun v => cast_follows M hcast rfl) h
  | .abs u info funcName habs arg, hops => by
    intro a s h
    rw [IntegerExpr.eval]
    exact call_follows M habs.2 (arg.follows hops _ _) (fun v => abs_follows M habs rfl) h
  | .truncation ty u info funcName htrunc arg, hops => by
    intro a s h
    rw [IntegerExpr.eval]
    have harg := hops (.other ty arg) (List.mem_singleton.mpr rfl)
    refine call_follows (d := fun d : TypedDatum V ty => d.1) M htrunc.2 (fun ha => ?_)
      (fun d => truncation_follows M htrunc d.2) h
    obtain ⟨hs, htype, heval⟩ := harg _ _ ha
    refine ⟨hs, htype, ?_⟩
    rw [heval]
    exact .lift _ _
  | @IntegerExpr.call _ ts u info funcName hfun args, hops => by
    intro a s h
    have hargs : ∀ {as s}, VisitsArgs ctx.functionRegistry st args.nodes as s → _ :=
      args.follows fun o ho => hops o (List.mem_cons_of_mem _ ho)
    obtain ⟨htype, as, ha, heval⟩ :=
      call_visits sem lit st store hfun h fun ha => (hargs ha).2.1
    obtain ⟨hs, -, hfollows⟩ := hargs ha
    refine ⟨hs, htype, ?_⟩
    rw [heval, IntegerExpr.eval]
    refine hfollows.bind fun ds => ?_
    have hanswer := hops (.function funcName ts u) List.mem_cons_self ds
    simp only [hanswer, bind_assoc, pure_bind]
    exact .lift _ _
  | .ifNode info cond then_ else_, hops => by
    rw [IntegerExpr.eval]
    exact .ifNode (cond.follows fun o ho => hops o (List.mem_append_left _ ho))
      (then_.follows fun o ho => hops o (List.mem_append_right _ (List.mem_append_left _ ho)))
      (else_.follows fun o ho => hops o (List.mem_append_right _ (List.mem_append_right _ ho)))
  | .switchNode info branches, hops => by
    intro a s h
    cases h with
    | switchNode hn ha ht =>
      obtain ⟨hs, htype, hfollows⟩ := branches.follows hops ha
      obtain rfl := switchNodeType_valueType
        ((htype .kUnknown).trans (by rw [getPromotedType_kUnknown])) ht
      refine ⟨hs, rfl, ?_⟩
      rw [Interpreter.eval, IntegerExpr.eval]
      exact hfollows t

theorem Branches.follows {t : IntegerType} : ∀ x : Branches ctx t,
    (∀ o ∈ x.operands, IsOperand M lit st store oracle ctx o) →
    ∀ {as s}, VisitsArgs ctx.functionRegistry st x.nodes as s →
      s = st ∧ (∀ numeric, switchBranches numeric .kUnknown as =
          .ok (getPromotedType numeric t.valueType, .kUnknown)) ∧
        ∀ u : IntegerType, Follows (x.eval (fun _ => converted) M oracle u)
          (evalSwitch ctx sem lit u.valueType as store) fun v => (some (M.datum v), store)
  | .default_ value, hops, as, s, h => by
    cases h with
    | cons hvalue hv hnil =>
      cases hnil
      obtain ⟨rfl, htype, hfollows⟩ := value.follows hops _ _ hvalue
      refine ⟨rfl, fun numeric => ?_, fun u => ?_⟩
      · simp [switchBranches, switchBranch, htype]
      · rw [Branches.eval]
        exact branch_follows M lit store u htype hfollows
  | .cons cond then_ rest, hops, as, s, h => by
    cases h with
    | cons hc hcv ha =>
    cases ha with
    | cons hb hbv ha =>
      obtain ⟨hs, hctype, hcond⟩ :=
        cond.follows (fun o ho => hops o (List.mem_append_left _ ho)) _ _ hc
      rw [hs] at hb
      obtain ⟨hs, hbtype, hthen⟩ := then_.follows (fun o ho =>
        hops o (List.mem_append_right _ (List.mem_append_left _ ho))) _ _ hb
      rw [hs] at ha
      obtain ⟨hs, hrtype, hrest⟩ := rest.follows (fun o ho =>
        hops o (List.mem_append_right _ (List.mem_append_right _ ho))) ha
      refine ⟨hs, fun numeric => ?_, fun u => ?_⟩
      · rw [← getPromotedType_valueType, ← getPromotedType_assoc, ← hrtype]
        simp [switchBranches, switchBranch, hctype, hbtype]
      · rw [Interpreter.evalSwitch, Branches.eval]
        refine hcond.bind fun v => ?_
        simp only [test_datum, pure_bind]
        by_cases hz : v.bits = 0
        · simp only [hz, if_true]
          exact hrest u
        · simp only [hz, if_false, ne_eq, not_false_eq_true, decide_true]
          exact branch_follows M lit store u hbtype hthen

theorem Arguments.follows {ts : List ValueType} : ∀ x : Arguments ctx ts,
    (∀ o ∈ x.operands, IsOperand M lit st store oracle ctx o) →
    ∀ {as s}, VisitsArgs ctx.functionRegistry st x.nodes as s →
      s = st ∧ as.map ExecNode.getReturnType = ts ∧
        Follows (x.eval (fun _ => converted) M oracle) (evalArgs ctx sem lit as store)
          fun ds => (some ds.toList, store)
  | .nil, _, as, s, h => by
    cases h
    exact ⟨rfl, rfl, .pure _ _⟩
  | .cons arg rest, hops, as, s, h => by
    cases h with
    | cons ha hv hs =>
      obtain ⟨hst, htype, hfollows⟩ :=
        arg.follows (fun o ho => hops o (List.mem_append_left _ ho)) _ _ ha
      rw [hst] at hs
      obtain ⟨hs, htypes, hrest⟩ :=
        rest.follows (fun o ho => hops o (List.mem_append_right _ ho)) hs
      refine ⟨hs, by rw [List.map_cons, htype, htypes], ?_⟩
      rw [Interpreter.evalArgs, Arguments.eval]
      refine hfollows.bind fun v => hrest.bind fun ds => ?_
      exact .pure _ _
  | .other ty node rest, hops, as, s, h => by
    cases h with
    | cons ha hv hs =>
      obtain ⟨hst, htype, heval⟩ := hops (.other ty node) List.mem_cons_self _ _ ha
      rw [hst] at hs
      obtain ⟨hs, htypes, hrest⟩ := rest.follows (fun o ho => hops o (List.mem_cons_of_mem _ ho)) hs
      refine ⟨hs, by rw [List.map_cons, htype, htypes], ?_⟩
      rw [Interpreter.evalArgs, Arguments.eval, heval]
      refine (Follows.lift _ _).bind fun d => hrest.bind fun ds => ?_
      exact .pure _ _

end

end Spec

end CodeGen

end JitFusion
