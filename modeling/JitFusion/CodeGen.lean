/-
# The code generator

`CodeGen` (`src/codegen/`): the second visitor, over a tree the validator has annotated.  It
emits the instructions of every node into the function under construction, keeps the SSA value
of every variable in a scope stack, and builds the control flow of `and`/`or`, `if`, `switch`
and when-blocks.

What LLVM's `IRBuilder` does is taken as given: an operation between two branches is a
straight-line expression (`IRExpr`) that is laid out in the insertion block.  Two things the
source leaves to the standard library are parameters: the order in which an unordered set is
walked (`HashOrder`), and the code a registered callback emits.

A run can fail with a status, or dereference a null `llvm::Value *`; a `Fault` says which.
-/
import JitFusion.LlvmIr
import JitFusion.Validator

namespace JitFusion

namespace CodeGen

open TypeHelper

/-! ## 1. Types and conversions -/

def valueTypeToLLVMType : ValueType → Except Status LLVMType
  | .kVoid => .ok .void
  | .kU8 | .kI8 => .ok (.int 8)
  | .kU16 | .kI16 => .ok (.int 16)
  | .kU32 | .kI32 => .ok (.int 32)
  | .kU64 | .kI64 => .ok (.int 64)
  | .kF32 => .ok .float
  | .kF64 => .ok .double
  | .kString => .ok (.struct .string_type)
  | .kU8List => .ok (.struct .u8list_type)
  | .kI8List => .ok (.struct .i8list_type)
  | .kU16List => .ok (.struct .u16list_type)
  | .kI16List => .ok (.struct .i16list_type)
  | .kU32List => .ok (.struct .u32list_type)
  | .kI32List => .ok (.struct .i32list_type)
  | .kU64List => .ok (.struct .u64list_type)
  | .kI64List => .ok (.struct .i64list_type)
  | .kF32List => .ok (.struct .f32list_type)
  | .kF64List => .ok (.struct .f64list_type)
  | .kStringList => .ok (.struct .stringlist_type)
  | .kPtr => .ok .ptr
  | .kUnknown => .error (.runtimeError ("[internal] ValueType " ++ typeToString .kUnknown ++
      " cannot convert to llvm type (compiler bug)"))

/-- `getFloatTy` or `getDoubleTy`. -/
def floatTypeOf (t : ValueType) : LLVMType := if t = .kF32 then .float else .double

variable {n : Nat}

/-- `GetBitWidthFromType` as the width of an LLVM integer type. -/
def intWidth (t : ValueType) : Nat := (getBitWidthFromType t).toNat

def numericTypeConvert (fromType toType : ValueType) (x : IRExpr n) : Except Status (IRExpr n) :=
  let unsupported := Status.runtimeError ("[internal] unsupported numeric conversion: from " ++
    typeToString fromType ++ " to " ++ typeToString toType ++ " (compiler bug)")
  if fromType = toType then .ok x
  else if isIntegerType fromType then
    if isIntegerType toType then .ok (.op₁ (.intCast (intWidth toType) (isSignedType toType)) x)
    else if isFloatType toType then
      if isSignedType fromType then .ok (.op₁ (.siToFP (floatTypeOf toType)) x)
      else .ok (.op₁ (.uiToFP (floatTypeOf toType)) x)
    else .error unsupported
  else if isFloatType fromType then
    if isIntegerType toType then
      if isSignedType toType then .ok (.op₁ (.fpToSI (intWidth toType)) x)
      else .ok (.op₁ (.fpToUI (intWidth toType)) x)
    else if isFloatType toType then
      if getBitWidthFromType fromType < getBitWidthFromType toType then .ok (.op₁ .fpExt x)
      else if getBitWidthFromType fromType > getBitWidthFromType toType then .ok (.op₁ .fpTrunc x)
      else .ok x
    else .error unsupported
  else .error unsupported

/-- The test of a condition against zero; `what` is the construct the condition belongs to. -/
def toBool (what : String) (type : LLVMType) (x : IRExpr n) : Except Status (IRExpr n) :=
  if type.isIntegerTy then .ok (.op₂ (.icmp .ne) x (.const (.zero type)))
  else if type.isFloatingPointTy then .ok (.op₂ (.fcmp .one) x (.const (.zero type)))
  else .error (.runtimeError
    ("[internal] unsupported type for " ++ what ++ " (should be caught by validator)"))

/-! ## 2. Operators -/

/-- The signed, the unsigned or the floating-point form of an operation of type `t`. -/
def byType {α : Type} (t : ValueType) (signed unsigned float : α) : α :=
  if isIntegerType t then if isSignedType t then signed else unsigned else float

def unknownOperator (op : BinaryOPType) (lhs rhs : ValueType) : Status :=
  .runtimeError ("[internal] unknown binary operator: " ++ typeToString lhs ++ " " ++
    binaryOPTypeToString op ++ " " ++ typeToString rhs ++ " (compiler bug)")

/-- The comparison of a relational operator on operands of type `t`. -/
def relationalOpcode (t : ValueType) : BinaryOPType → Option Opcode
  | .kLarge => some (byType t (.icmp .sgt) (.icmp .ugt) (.fcmp .ogt))
  | .kLargeEqual => some (byType t (.icmp .sge) (.icmp .uge) (.fcmp .oge))
  | .kEqual => some (byType t (.icmp .eq) (.icmp .eq) (.fcmp .oeq))
  | .kLess => some (byType t (.icmp .slt) (.icmp .ult) (.fcmp .olt))
  | .kLessEqual => some (byType t (.icmp .sle) (.icmp .ule) (.fcmp .ole))
  | .kNotEqual => some (byType t (.icmp .ne) (.icmp .ne) (.fcmp .une))
  | _ => none

/-- The instruction of an arithmetic or bitwise operator of result type `t`. -/
def calcOpcode (t : ValueType) : BinaryOPType → Option Opcode
  | .kAdd => some (byType t .add .add .fAdd)
  | .kSub => some (byType t .sub .sub .fSub)
  | .kMul => some (byType t .mul .mul .fMul)
  | .kDiv => some (byType t .sDiv .uDiv .fDiv)
  | .kMod => some (byType t .sRem .uRem .fRem)
  | .kBitwiseAnd => some .and
  | .kBitwiseOr => some .or
  | .kBitwiseXor => some .xor
  | .kBitwiseShiftLeft => some .shl
  | .kBitwiseShiftRight => some (if isSignedType t then .aShr else .lShr)
  | _ => none

/-- `lhs` and `rhs` are the types of the operands, `ret` that of the node. -/
def solveBinaryOpNumericType (op : BinaryOPType) (lhs rhs ret : ValueType) (x y : IRExpr n) :
    Except Status (IRExpr n) := do
  if isRelationalBinaryOPType op then
    let tmpType := getPromotedType lhs rhs
    let x ← numericTypeConvert lhs tmpType x
    let y ← numericTypeConvert rhs tmpType y
    match relationalOpcode tmpType op with
    | some o => .ok (.op₁ (.zext 8) (.op₂ o x y))
    | none => .error (unknownOperator op lhs rhs)
  else
    let x ← numericTypeConvert lhs ret x
    let y ← numericTypeConvert rhs ret y
    match calcOpcode ret op with
    | some o => .ok (.op₂ o x y)
    | none => .error (unknownOperator op lhs rhs)

/-- `ListOrStringConcat`: a call with the execution context as last argument. -/
def listOrStringConcat (reg : FunctionRegistry) (lhs rhs ret : ValueType) (x y : IRExpr n) :
    Except Status (IRExpr n) := do
  let (sign, _) ← reg.getFuncBySign
    ⟨if ret = .kString then "StringConcat" else "ListConcat", [lhs, rhs, .kPtr], .kUnknown⟩
  let type ← valueTypeToLLVMType sign.retType
  .ok (.op (.call sign.toString type) [x, y, .arg 1])

/-- How the sign of `StringCmp` answers a relational operator. -/
def stringCmpPredicate : BinaryOPType → Option ICmpPredicate
  | .kLarge => some .sgt
  | .kLargeEqual => some .sge
  | .kEqual => some .eq
  | .kLess => some .slt
  | .kLessEqual => some .sle
  | .kNotEqual => some .ne
  | _ => none

def solveBinaryOpComplexType (reg : FunctionRegistry) (op : BinaryOPType) (lhs rhs ret : ValueType)
    (x y : IRExpr n) : Except Status (IRExpr n) := do
  if op = .kAdd then listOrStringConcat reg lhs rhs ret x y
  else if lhs ≠ .kString ∨ rhs ≠ .kString then
    .error (.runtimeError ("[internal] unknown operand type in StringCmp: " ++ typeToString ret ++
      " (compiler bug)"))
  else
    let (sign, _) ← reg.getFuncBySign ⟨"StringCmp", [.kString, .kString], .kUnknown⟩
    match stringCmpPredicate op with
    | some p =>
      .ok (.op₁ (.zext 8) (.op₂ (.icmp p) (.op₂ (.call sign.toString (.int 32)) x y)
        (.const (.zero (.int 32)))))
    | none => .error (unknownOperator op lhs rhs)

/-- A unary operator other than `+`; `child` is the type of the operand and `type` that of its
value. -/
def unaryOP (op : UnaryOPType) (child ret : ValueType) (type : LLVMType) (x : IRExpr n) :
    Except Status (IRExpr n) := do
  match op with
  | .kPlus => .ok x
  | .kMinus =>
    let x ← numericTypeConvert child ret x
    .ok (.op₁ (if isIntegerType ret then .neg else .fNeg) x)
  | .kNot =>
    let p := if type.isIntegerTy then Opcode.icmp .eq else .fcmp .oeq
    .ok (.op₁ (.zext 8) (.op₂ p x (.const (.zero type))))
  | .kBitwiseNot => .ok (.op₁ .not x)

/-! ## 3. The cache of list literals -/

def isNaN32 (b : BitVec 32) : Bool := b.extractLsb' 23 8 == 255 && b.extractLsb' 0 23 != 0

def isNaN64 (b : BitVec 64) : Bool := b.extractLsb' 52 11 == 2047 && b.extractLsb' 0 52 != 0

/-- Neither `<` nor `>`: equal numbers, the two zeros, or a NaN and anything. -/
def floatEquivalent {w : Nat} (isNaN : BitVec w → Bool) (a b : BitVec w) : Bool :=
  isNaN a || isNaN b || a == b || (a <<< 1 == 0 && b <<< 1 == 0)

def listEquivalent {α : Type} (equivalent : α → α → Bool) : List α → List α → Bool
  | [], [] => true
  | a :: as, b :: bs => equivalent a b && listEquivalent equivalent as bs
  | _, _ => false

/-- The keys `std::map<ConstantListValueType, _>` takes for one: neither is less than the other,
where variants compare by alternative first and vectors element by element. -/
def constListEquivalent : ConstantListValueType → ConstantListValueType → Bool
  | .i8 a, .i8 b | .u8 a, .u8 b => a == b
  | .i16 a, .i16 b | .u16 a, .u16 b => a == b
  | .i32 a, .i32 b | .u32 a, .u32 b => a == b
  | .i64 a, .i64 b | .u64 a, .u64 b => a == b
  | .f32 a, .f32 b => listEquivalent (floatEquivalent isNaN32) a b
  | .f64 a, .f64 b => listEquivalent (floatEquivalent isNaN64) a b
  | .string a, .string b => a == b
  | _, _ => false

/-! ## 4. The generator's state -/

/-- How a run of the generator ends early. -/
inductive Fault
  | status (s : Status)
  /-- A null `llvm::Value *` or `llvm::BasicBlock *` is used. -/
  | nullDeref
  /-- An empty `std::optional`, an empty `std::function` or a vector index out of range. -/
  | undefined
  deriving DecidableEq

/-- The builder, `scope_stack_`, `const_list_cache`, and the nodes `GetValue` has returned for:
the recorded return type of each and its value. -/
structure State where
  builder : IRBuilder
  scopeStack : ScopeStack (Option Value) := {}
  constListCache : List (ConstantListValueType × Value) := []
  visited : List (ValueType × Option Value) := []

/-- An order for the elements of an `unordered_set`. -/
structure HashOrder where
  order : List String → List String
  perm : ∀ names, (order names).Perm names.dedup

/-- The names in the order of their last occurrences. -/
def HashOrder.dedup : HashOrder := ⟨List.dedup, fun _ => .refl _⟩

/-- `IRCodeGenContext`, and what a registered callback emits: the code for a signature from the
types of its arguments, or `none` if it returns null. -/
structure Context where
  functionRegistry : FunctionRegistry
  callback : Nat → FunctionSignature → (n : Nat) → (Fin n → LLVMType) → Option (IRExpr n)
  hashOrder : HashOrder

namespace State

def insertBlock (s : State) : Nat := s.builder.insertPoint

/-- The index the next block gets. -/
def nextBlock (s : State) : Nat := s.builder.size

def createBlock (s : State) (label : Label) : State :=
  { s with builder := s.builder.createBlock label }

def setInsertPoint (s : State) (i : Nat) : State :=
  { s with builder := s.builder.setInsertPoint i }

def createBr (s : State) (target : Nat) : State :=
  { s with builder := s.builder.terminate (.br target) }

def createCondBr (s : State) (cond : Value) (thenBlock elseBlock : Nat) : State :=
  { s with builder := s.builder.terminate (.condBr cond.operand thenBlock elseBlock) }

def createRet (s : State) (value : Option Value) : State :=
  { s with builder := s.builder.terminate (.ret (value.map Value.operand)) }

/-- The instructions of `x`, which reads the values `inputs`. -/
def code {n : Nat} (s : State) (inputs : Fin n → Value) (x : IRExpr n) :
    Ssa.Expr.Code Opcode Literal (Ssa.Operand Literal) :=
  x.code (fun i => (inputs i).operand) s.builder.fresh

def emit {n : Nat} (s : State) (inputs : Fin n → Value) (x : IRExpr n) : State :=
  { s with builder := s.builder.append (s.code inputs x) }

/-- The value of what `emit` lays out. -/
def emitted {n : Nat} (s : State) (inputs : Fin n → Value) (x : IRExpr n) : Value :=
  ⟨(s.code inputs x).result, x.type fun i => (inputs i).type⟩

def createPhi (s : State) (incoming : List (Ssa.Operand Literal × Nat)) : State :=
  { s with builder := s.builder.createPhi incoming }

/-- The value of the PHI node `createPhi` creates. -/
def phi (s : State) (type : LLVMType) : Value := ⟨.reg s.builder.fresh, type⟩

def modifyScope (s : State) (f : ScopeStack (Option Value) → ScopeStack (Option Value)) : State :=
  { s with scopeStack := f s.scopeStack }

def visit (s : State) (type : ValueType) (value : Option Value) : State :=
  { s with visited := (type, value) :: s.visited }

end State

abbrev Gen (α : Type) := Checked.M State Fault α

def returnNotOk {α : Type} (x : Except Status α) : Gen α :=
  match x with
  | .ok a => pure a
  | .error st => throw (.status st)

/-- A pointer that is used. -/
def deref {α : Type} (p : Option α) : Gen α :=
  match p with
  | some a => pure a
  | none => throw .nullDeref

/-- A new block; its index. -/
def createBlock (label : Label) : Gen Nat := do
  let s ← get
  set (s.createBlock label)
  return s.nextBlock

def emit {n : Nat} (inputs : Fin n → Value) (x : IRExpr n) : Gen Value := do
  let s ← get
  set (s.emit inputs x)
  return s.emitted inputs x

def createPhi (type : LLVMType) (incoming : List (Ssa.Operand Literal × Nat)) : Gen Value := do
  let s ← get
  set (s.createPhi incoming)
  return s.phi type

def getInsertBlock : Gen Nat := do return (← get).insertBlock

/-- `GetValue`. -/
def getValue (node : ExecNode) (visit : Gen (Option Value)) : Gen (Option Value) := do
  let value ← visit
  modify (·.visit node.getReturnType value)
  return value

/-- A condition and its test against zero. -/
def getCondition (what : String) (node : ExecNode) (visit : Gen (Option Value)) : Gen Value := do
  let value ← deref (← getValue node visit)
  let x ← returnNotOk (toBool what value.type (.input 0))
  emit ![value] x

/-- A value converted to the type of the construct it is a branch of, the block it ends in, and
the branch to `mergeBlock`. -/
def getBranchValue (node : ExecNode) (visit : Gen (Option Value)) (ret : ValueType)
    (mergeBlock : Nat) : Gen (Value × Nat) := do
  let value ← deref (← getValue node visit)
  let x ← returnNotOk (numericTypeConvert node.getReturnType ret (.input 0))
  let value ← emit ![value] x
  let endBlock ← getInsertBlock
  modify (·.createBr mergeBlock)
  return (value, endBlock)

/-! ## 5. Calls -/

/-- `CallBuiltinCastFunction`, which ignores the status of the conversion. -/
def callBuiltinCastFunction (sign : FunctionSignature) : (n : Nat) → Option (IRExpr n)
  | 0 => none
  | n + 1 =>
    let x : IRExpr (n + 1) := .input (Fin.last n)
    match numericTypeConvert (sign.paramTypes.getLastD .kUnknown) sign.retType x with
    | .ok y => some y
    | .error _ => some x

def codegenFunc (ctx : Context) (f : CodeGenFunc) (sign : FunctionSignature) (n : Nat)
    (types : Fin n → LLVMType) : Option (IRExpr n) :=
  match f with
  | .callBuiltinCastFunction => callBuiltinCastFunction sign n
  | .other id => ctx.callback id sign n types

/-- The arguments of a call, and the execution context behind them where it is injected. -/
def callArgs (n : Nat) (needsExecCtx : Bool) : List (IRExpr n) :=
  (List.finRange n).map .input ++ if needsExecCtx then [.arg 1] else []

/-- The end of `Visit(FunctionNode&)`, with the arguments' values. -/
def call (ctx : Context) (ret : ValueType) (sign : FunctionSignature) (args : List Value) :
    Gen (Option Value) := do
  let (sign, fs) ← returnNotOk (ctx.functionRegistry.getFuncBySign sign)
  match fs.funcType with
  | .kLLVMIntrinicFunc =>
    match fs.codegenFunc with
    | none => throw .undefined
    | some f =>
      match codegenFunc ctx f sign args.length fun i => (args.get i).type with
      | none => return none
      | some x =>
        let value ← emit args.get x
        return some value
  | .kCFunc =>
    let type ← returnNotOk (valueTypeToLLVMType ret)
    let value ← emit args.get
      (.op (.call (FunctionRegistry.callSymbolName sign fs) type)
        (callArgs args.length fs.needsExecCtx))
    return if ret = .kVoid then none else some value

/-! ## 6. When-blocks -/

/-- `BranchInfo`. -/
structure BranchInfo where
  endBlock : Nat
  modified : Scope (Option Value)

/-- What the loop over the branches has built: the branches, the block where the remaining
conditions start, and the condition block of the last branch. -/
structure IfBranches where
  branchInfos : List BranchInfo
  prevFalseBlock : Nat
  lastCondBlock : Option Nat

/-- A body in a scope of its own. -/
def getBranchBody (node : ExecNode) (visit : Gen (Option Value)) (mergeBlock : Nat) :
    Gen BranchInfo := do
  modify (·.modifyScope ScopeStack.pushScope)
  let _ ← getValue node visit
  let modified := (← get).scopeStack.getShadowed
  let endBlock ← getInsertBlock
  modify (·.modifyScope ScopeStack.popScope)
  modify (·.createBr mergeBlock)
  return ⟨endBlock, modified⟩

/-- The entry of one branch in the PHI node of `name`. -/
def incomingOf (name : String) (original : Value) (info : BranchInfo) :
    Gen (Ssa.Operand Literal × Nat) := do
  match info.modified.lookup name with
  | none => return (original.operand, info.endBlock)
  | some value => return ((← deref value).operand, info.endBlock)

/-- The entry for the edge on which no branch is taken. -/
def fallthroughOf (hasElse : Bool) (original : Value) (branches : IfBranches) :
    Gen (List (Ssa.Operand Literal × Nat)) := do
  if hasElse then return []
  else return [(original.operand, ← deref branches.lastCondBlock)]

/-- The PHI nodes of the merge block. -/
def mergeVars (hasElse : Bool) (branches : IfBranches) : List String → Gen Unit
  | [] => return ()
  | name :: names => do
    match (← get).scopeStack.lookup name with
    | none => throw .undefined
    | some original =>
      let original ← deref original
      let incoming ← branches.branchInfos.mapM (incomingOf name original)
      let fallthrough ← fallthroughOf hasElse original branches
      let phi ← createPhi original.type (incoming ++ fallthrough)
      modify (·.modifyScope (·.set name (some phi)))
      mergeVars hasElse branches names

/-! ## 7. The visitor -/

mutual

def visit (ctx : Context) : ExecNode → Gen (Option Value)
  | .entryArgument _ => return some ⟨.arg 0, .ptr⟩
  | .execContext _ => return some ⟨.arg 1, .ptr⟩
  | .output _ => return some ⟨.arg 2, .ptr⟩
  | .constantValue _ val => return some ⟨.const (.value val), (Literal.value val).type⟩
  | .constantListValue _ valList => do
    match (← get).constListCache.find? fun e => constListEquivalent e.1 valList with
    | some e => return some e.2
    | none =>
      let value : Value := ⟨.const (.list valList), (Literal.list valList).type⟩
      modify fun s => { s with constListCache := s.constListCache ++ [(valList, value)] }
      return some value
  | .unaryOP info op child => do
    let childValue ← getValue child (visit ctx child)
    if op = .kPlus then return childValue
    else
      let childValue ← deref childValue
      let x ← returnNotOk
        (unaryOP op child.getReturnType info.returnType childValue.type (.input 0))
      let value ← emit ![childValue] x
      return some value
  | .binaryOP info op left right => do
    if isLogicalBinaryOPType op then
      -- SolveShortCircuitLogicalOp
      let evalRhsBlock ← createBlock .scRhs
      let mergeBlock ← createBlock .scMerge
      let lhsBool ← getCondition "logical operator lhs" left (visit ctx left)
      let lhsEndBlock ← getInsertBlock
      if op = .kAnd then modify (·.createCondBr lhsBool evalRhsBlock mergeBlock)
      else modify (·.createCondBr lhsBool mergeBlock evalRhsBlock)
      modify (·.setInsertPoint evalRhsBlock)
      let rhsBool ← getCondition "logical operator rhs" right (visit ctx right)
      let rhsEndBlock ← getInsertBlock
      modify (·.createBr mergeBlock)
      modify (·.setInsertPoint mergeBlock)
      let phi ← createPhi (.int 1)
        [(.const (.bool (op ≠ .kAnd)), lhsEndBlock), (rhsBool.operand, rhsEndBlock)]
      let value ← emit ![phi] (.op₁ (.zext 8) (.input 0))
      return some value
    else
      let lhsValue ← getValue left (visit ctx left)
      let rhsValue ← getValue right (visit ctx right)
      let lhsValue ← deref lhsValue
      let rhsValue ← deref rhsValue
      let lhs := left.getReturnType
      let rhs := right.getReturnType
      let x ← returnNotOk
        (if isNumericType lhs ∧ isNumericType rhs then
          solveBinaryOpNumericType op lhs rhs info.returnType (.input 0) (.input 1)
        else solveBinaryOpComplexType ctx.functionRegistry op lhs rhs info.returnType
          (.input 0) (.input 1))
      let value ← emit ![lhsValue, rhsValue] x
      return some value
  | .function info funcName args => do
    let values ← visitArgs ctx args
    call ctx info.returnType (Validator.callSignature funcName args) values
  | .noOP _ args isolated => do
    visitStmts ctx isolated args
    return none
  | .ifNode info args => do
    match args with
    | [cond, then_, else_] =>
      let retType ← returnNotOk (valueTypeToLLVMType info.returnType)
      let condValue ← getCondition "if condition" cond (visit ctx cond)
      let thenBlock ← createBlock .then_
      let elseBlock ← createBlock .else_
      let mergeBlock ← createBlock .merge
      modify (·.createCondBr condValue thenBlock elseBlock)
      modify (·.setInsertPoint thenBlock)
      let (thenValue, thenEndBlock) ←
        getBranchValue then_ (visit ctx then_) info.returnType mergeBlock
      modify (·.setInsertPoint elseBlock)
      let (elseValue, elseEndBlock) ←
        getBranchValue else_ (visit ctx else_) info.returnType mergeBlock
      modify (·.setInsertPoint mergeBlock)
      let phi ← createPhi retType
        [(thenValue.operand, thenEndBlock), (elseValue.operand, elseEndBlock)]
      return some phi
    | _ => throw .undefined
  | .switchNode info args => do
    let retType ← returnNotOk (valueTypeToLLVMType info.returnType)
    let originalBlock ← getInsertBlock
    let mergeBlock ← createBlock .switchMerge
    let (incomingValues, prevFalseBlock) ← visitSwitch ctx info.returnType mergeBlock args
    modify (·.setInsertPoint originalBlock)
    modify (·.createBr prevFalseBlock)
    modify (·.setInsertPoint mergeBlock)
    let phi ← createPhi retType (incomingValues.map fun e => (e.1.operand, e.2))
    return some phi
  | .ifBlock _ args => do
    let originalBlock ← getInsertBlock
    let mergeBlock ← createBlock .ifblockMerge
    let branches ← visitIfBranches ctx mergeBlock args
    modify (·.setInsertPoint originalBlock)
    modify (·.createBr branches.prevFalseBlock)
    modify (·.setInsertPoint mergeBlock)
    mergeVars (args.length % 2 ≠ 0) branches
      (ctx.hashOrder.order (branches.branchInfos.flatMap fun info => info.modified.keys))
    return none
  | .ref _ name => do
    match (← get).scopeStack.lookup name with
    | none => throw (.status (.runtimeError ("[internal] variable not found in codegen scope: " ++
        name ++ " (should be caught by validator)")))
    | some value => return value

/-- The arguments of a call from left to right; the type of each is read. -/
def visitArgs (ctx : Context) : List ExecNode → Gen (List Value)
  | [] => return []
  | arg :: args => do
    let value ← deref (← getValue arg (visit ctx arg))
    let values ← visitArgs ctx args
    return value :: values

/-- The statements of a `NoOPNode`. -/
def visitStmts (ctx : Context) (isolated : Bool) : List (VarInfo × ExecNode) → Gen Unit
  | [] => return ()
  | (var, arg) :: args => do
    if isolated then modify (·.modifyScope ScopeStack.pushScope)
    let value ← getValue arg (visit ctx arg)
    if var.name ≠ "" then modify (·.modifyScope (·.set var.name value))
    if isolated then modify (·.modifyScope ScopeStack.popScope)
    visitStmts ctx isolated args

/-- The branches of a switch, the default first and then from the last to the first: the
incoming values of the PHI node, and the block the next condition falls through to. -/
def visitSwitch (ctx : Context) (ret : ValueType) (mergeBlock : Nat) :
    List ExecNode → Gen (List (Value × Nat) × Nat)
  | [] => throw .undefined
  | [default_] => do
    let defaultBlock ← createBlock .switchDefault
    modify (·.setInsertPoint defaultBlock)
    let incoming ← getBranchValue default_ (visit ctx default_) ret mergeBlock
    return ([incoming], defaultBlock)
  | cond :: then_ :: args => do
    let (incomingValues, prevFalseBlock) ← visitSwitch ctx ret mergeBlock args
    let condBlock ← createBlock .switchCond
    modify (·.setInsertPoint condBlock)
    let condValue ← getCondition "switch condition" cond (visit ctx cond)
    let thenBlock ← createBlock .switchThen
    modify (·.createCondBr condValue thenBlock prevFalseBlock)
    modify (·.setInsertPoint thenBlock)
    let incoming ← getBranchValue then_ (visit ctx then_) ret mergeBlock
    return (incomingValues ++ [incoming], condBlock)

/-- The branches of a when-block, the else body first and then from the last to the first. -/
def visitIfBranches (ctx : Context) (mergeBlock : Nat) : List ExecNode → Gen IfBranches
  | [] => return ⟨[], mergeBlock, none⟩
  | [body] => do
    let elseBlock ← createBlock .ifblockElse
    modify (·.setInsertPoint elseBlock)
    let info ← getBranchBody body (visit ctx body) mergeBlock
    return ⟨[info], elseBlock, none⟩
  | cond :: body :: args => do
    let branches ← visitIfBranches ctx mergeBlock args
    let condBlock ← createBlock .ifblockCond
    modify (·.setInsertPoint condBlock)
    let condValue ← getCondition "if block condition" cond (visit ctx cond)
    let bodyBlock ← createBlock .ifblockBody
    modify (·.createCondBr condValue bodyBlock branches.prevFalseBlock)
    modify (·.setInsertPoint bodyBlock)
    let info ← getBranchBody body (visit ctx body) mergeBlock
    return ⟨branches.branchInfos ++ [info], condBlock,
      some (branches.lastCondBlock.getD condBlock)⟩

end

/-! ## 8. The entry function -/

/-- `GetEntryFunctionCallee`: the return type of the entry function. -/
def getEntryFunctionCallee : ValueType → Except Status LLVMType
  | .kUnknown => .error (unknownReturnType .kUnknown)
  | .kPtr => .error (unknownReturnType .kPtr)
  | t => valueTypeToLLVMType t
where
  unknownReturnType (t : ValueType) : Status :=
    .runtimeError ("[internal] unknown return type for entry function: " ++ typeToString t ++
      " (compiler bug)")

/-- The generator before it has emitted anything. -/
def entryState : State := { builder := { blocks := [{ label := .entryBB }], insertPoint := 0 } }

/-- `BuildEntryFunction` of an annotated root. -/
def buildEntryFunction (ctx : Context) (node : ExecNode) : Gen Unit := do
  let _ ← returnNotOk (getEntryFunctionCallee node.getReturnType)
  let value ← getValue node (visit ctx node)
  modify (·.createRet (if node.getReturnType = .kVoid then none else value))

end CodeGen

end JitFusion
