/-
# A direct interpreter

What an annotated tree means: its nodes are evaluated from left to right and its statements run in
order, with the variables in a store.  `and`, `or`, `if` and `switch` evaluate what they need and
nothing else, and a when-block runs the body of its first condition that is true.

The interpreter knows no blocks, no PHI nodes and no scope stack.  It shares with the code
generator what computes inside a block: the meaning of an opcode (`Ssa.Semantics`), and the
straight-line code of an operator, a conversion, a test against zero and a call.

A value carries its LLVM type.  A node that needs a value where there is none (a void operand, a
condition that is not a number) has none itself; no accepted program gets there.
-/
import JitFusion.CodeGen

namespace JitFusion

namespace Interpreter

open TypeHelper CodeGen

variable {V W E : Type}

/-! ## 1. Values and stores -/

/-- A value at run time, with its type. -/
structure Datum (V : Type) where
  val : V
  type : LLVMType

/-- The variables that are visible; a variable may hold no value. -/
abbrev Store (V : Type) := String → Option (Option (Datum V))

/-- A statement with a name binds its value. -/
def bindValue (name : String) (value : Option (Datum V)) (store : Store V) : Store V :=
  if name = "" then store else Function.update store name (some value)

/-- The value a branch has left in a variable, which keeps its type. -/
def retype (before after : Option (Datum V)) : Option (Datum V) :=
  match before, after with
  | some x, some y => some ⟨y.val, x.type⟩
  | _, after => after

/-- **Leaving a scope**: the variables that were visible before it have the values they were left
with, and the others are gone. -/
def leave (before after : Store V) : Store V := fun name =>
  (before name).map fun x => retype x ((after name).getD none)

/-! ## 2. Evaluation -/

section

variable (ctx : Context) (sem : Ssa.Semantics Opcode Literal V W E)
  (lit : ConstantListValueType → Literal)

/-- Straight-line code on values. -/
def evalCode {n : Nat} (code : Except Status (IRExpr n)) (inputs : Fin n → Datum V) :
    Checked.M W E (Option (Datum V)) :=
  match code with
  | .error _ => return none
  | .ok x => do
    let v ← x.eval sem fun i => (inputs i).val
    return some ⟨v, x.type fun i => (inputs i).type⟩

/-- Whether a value is true: an integer other than zero, or an ordered float other than zero. -/
def test (value : Option (Datum V)) : Checked.M W E (Option Bool) :=
  match value with
  | none => return none
  | some x => do
    let b ← evalCode sem (toBool "" x.type (.input 0)) ![x]
    return b.map fun b => sem.truthy b.val

/-- The value of a branch, converted from the type of its node to that of the construct. -/
def convert (fromType toType : ValueType) (value : Option (Datum V)) :
    Checked.M W E (Option (Datum V)) :=
  match value, valueTypeToLLVMType toType with
  | some x, .ok type => do
    let y ← evalCode sem (numericTypeConvert fromType toType (.input 0)) ![x]
    return y.map fun y => ⟨y.val, type⟩
  | _, _ => return none

/-- The value of `and` and `or`. -/
def ofBool (b : Bool) : Datum V := ⟨sem.const (.value (.u8 (if b then 1 else 0))), .int 8⟩

/-- A call of a registered function. -/
def callFunction (ret : ValueType) (sign : FunctionSignature) {n : Nat} (args : Fin n → Datum V) :
    Checked.M W E (Option (Datum V)) :=
  match ctx.functionRegistry.getFuncBySign sign with
  | .error _ => return none
  | .ok (sign, fs) =>
    match fs.funcType with
    | .kLLVMIntrinicFunc =>
      match fs.codegenFunc.bind fun f => codegenFunc ctx f sign n fun i => (args i).type with
      | none => return none
      | some x => evalCode sem (.ok x) args
    | .kCFunc =>
      match valueTypeToLLVMType ret with
      | .error _ => return none
      | .ok type => do
        let v ← evalCode sem (.ok (.op (.call (FunctionRegistry.callSymbolName sign fs) type)
          (callArgs n fs.needsExecCtx))) args
        return if ret = .kVoid then none else v

mutual

/-- The value of a node, and the store after it. -/
def eval : ExecNode → Store V → Checked.M W E (Option (Datum V) × Store V)
  | .entryArgument _, store => return (some ⟨sem.arg 0, .ptr⟩, store)
  | .execContext _, store => return (some ⟨sem.arg 1, .ptr⟩, store)
  | .output _, store => return (some ⟨sem.arg 2, .ptr⟩, store)
  | .constantValue _ val, store =>
    return (some ⟨sem.const (.value val), (Literal.value val).type⟩, store)
  | .constantListValue _ valList, store =>
    return (some ⟨sem.const (lit valList), (lit valList).type⟩, store)
  | .unaryOP info op child, store => do
    let (x, store) ← eval child store
    if op = .kPlus then return (x, store)
    else
      match x with
      | none => return (none, store)
      | some x =>
        let y ← evalCode sem
          (unaryOP op child.getReturnType info.returnType x.type (.input 0)) ![x]
        return (y, store)
  | .binaryOP info op left right, store => do
    let (x, store) ← eval left store
    if isLogicalBinaryOPType op then
      match ← test sem x with
      | none => return (none, store)
      | some b =>
        -- `and` is decided by a false operand, `or` by a true one
        if b = decide (op ≠ .kAnd) then return (some (ofBool sem b), store)
        else
          let (y, store) ← eval right store
          return ((← test sem y).map (ofBool sem), store)
    else
      let (y, store) ← eval right store
      match x, y with
      | some x, some y =>
        let lhs := left.getReturnType
        let rhs := right.getReturnType
        let z ← evalCode sem
          (if isNumericType lhs ∧ isNumericType rhs then
            solveBinaryOpNumericType op lhs rhs info.returnType (.input 0) (.input 1)
          else solveBinaryOpComplexType ctx.functionRegistry op lhs rhs info.returnType
            (.input 0) (.input 1)) ![x, y]
        return (z, store)
      | _, _ => return (none, store)
  | .function info funcName args, store => do
    let (xs, store) ← evalArgs args store
    match xs with
    | none => return (none, store)
    | some xs =>
      let y ← callFunction ctx sem info.returnType (Validator.callSignature funcName args) xs.get
      return (y, store)
  | .noOP _ args isolated, store => do
    let store ← evalStmts isolated args store
    return (none, store)
  | .ifNode info args, store =>
    match args with
    | [cond, then_, else_] => do
      let (c, store) ← eval cond store
      match ← test sem c with
      | none => return (none, store)
      | some true =>
        let (x, store) ← eval then_ store
        return (← convert sem then_.getReturnType info.returnType x, store)
      | some false =>
        let (x, store) ← eval else_ store
        return (← convert sem else_.getReturnType info.returnType x, store)
    | _ => return (none, store)
  | .switchNode info args, store => evalSwitch info.returnType args store
  | .ifBlock _ args, store => do
    let store ← evalBranches args store
    return (none, store)
  | .ref _ name, store => return ((store name).getD none, store)

/-- The arguments of a call, from left to right. -/
def evalArgs : List ExecNode → Store V → Checked.M W E (Option (List (Datum V)) × Store V)
  | [], store => return (some [], store)
  | arg :: args, store => do
    let (x, store) ← eval arg store
    match x with
    | none => return (none, store)
    | some x =>
      let (xs, store) ← evalArgs args store
      return (xs.map (x :: ·), store)

/-- The statements in order; what an isolated one binds is its own. -/
def evalStmts (isolated : Bool) : List (VarInfo × ExecNode) → Store V → Checked.M W E (Store V)
  | [], store => return store
  | (var, arg) :: args, store => do
    let (x, store') ← eval arg store
    evalStmts isolated args (if isolated then store else bindValue var.name x store')

/-- The conditions in order up to the first true one, and its value, or the default. -/
def evalSwitch (ret : ValueType) :
    List ExecNode → Store V → Checked.M W E (Option (Datum V) × Store V)
  | [], store => return (none, store)
  | [default_], store => do
    let (x, store) ← eval default_ store
    return (← convert sem default_.getReturnType ret x, store)
  | cond :: then_ :: args, store => do
    let (c, store) ← eval cond store
    match ← test sem c with
    | none => return (none, store)
    | some true =>
      let (x, store) ← eval then_ store
      return (← convert sem then_.getReturnType ret x, store)
    | some false => evalSwitch ret args store

/-- The conditions in order up to the first true one, and its body, or the else body, or nothing. -/
def evalBranches : List ExecNode → Store V → Checked.M W E (Store V)
  | [], store => return store
  | [body], store => do
    let (_, store') ← eval body store
    return leave store store'
  | cond :: body :: args, store => do
    let (c, store) ← eval cond store
    match ← test sem c with
    | none => return store
    | some true =>
      let (_, store') ← eval body store
      return leave store store'
    | some false => evalBranches args store

end

end

end Interpreter

end JitFusion
