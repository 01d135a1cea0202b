/-
# The validator

`Validator` (`src/validator.cc`): one visitor over the tree that computes the return type of
every node, keeps the types of the variables in a scope stack, and stops at the first error
with a rendered diagnostic.

The visitor is a function from a tree to the tree with its return types filled in.  What it
decides at a node from the types below it is a function of its own, with the texts of its
errors, so the visitor itself only says in which order the children are visited and what
happens to the scopes.
-/
import JitFusion.ExecNode
import JitFusion.FunctionRegistry
import JitFusion.Lib.Checked
import JitFusion.ScopeStack

namespace JitFusion

namespace Validator

open TypeHelper

/-! ## 1. Errors -/

def makeParseError (loc : SourceLocation) (message : String) : Status :=
  .parseError (Diagnostic.render { level := .kError, message, loc })

def typeMismatchMessage (name : String) (oldType newType : ValueType) : String :=
  "cannot assign " ++ typeToString newType ++ " to variable '" ++ name ++ "' of type " ++
    typeToString oldType

/-! ## 2. Variables -/

structure VarEntry where
  type : ValueType
  isConst : Bool
  deriving DecidableEq, Repr

inductive SetVarResult
  | kOk | kConstReassign | kRedeclare | kTypeMismatch
  deriving DecidableEq, Repr

/-- What stands in the way of binding `name`, if anything does. -/
def checkVar (entry : Option VarEntry) (type : ValueType) (isConst : Bool) : SetVarResult :=
  match entry with
  | none => .kOk
  | some entry =>
    if entry.isConst then .kConstReassign
    else if isConst then .kRedeclare
    else if entry.type ≠ type then .kTypeMismatch
    else .kOk

/-- The result, and the scopes it leaves: a binding that is refused changes nothing. -/
def trySetVar (st : ScopeStack VarEntry) (name : String) (type : ValueType) (isConst : Bool) :
    SetVarResult × ScopeStack VarEntry :=
  match checkVar (st.lookup name) type isConst with
  | .kOk => (.kOk, st.set name ⟨type, isConst⟩)
  | result => (result, st)

/-! ## 3. The type of a node from the types below it -/

def constantValueType : ConstantValueType → ValueType
  | .i8 _ => .kI8
  | .i16 _ => .kI16
  | .i32 _ => .kI32
  | .i64 _ => .kI64
  | .u8 _ => .kU8
  | .u16 _ => .kU16
  | .u32 _ => .kU32
  | .u64 _ => .kU64
  | .f32 _ => .kF32
  | .f64 _ => .kF64
  | .string _ => .kString

def constantListValueType : ConstantListValueType → ValueType
  | .i8 _ => .kI8List
  | .i16 _ => .kI16List
  | .i32 _ => .kI32List
  | .i64 _ => .kI64List
  | .u8 _ => .kU8List
  | .u16 _ => .kU16List
  | .u32 _ => .kU32List
  | .u64 _ => .kU64List
  | .f32 _ => .kF32List
  | .f64 _ => .kF64List
  | .string _ => .kStringList

def unaryOPType (loc : SourceLocation) (op : UnaryOPType) (child : ValueType) :
    Except Status ValueType :=
  if child = .kVoid then
    .error (makeParseError loc "unary operator does not support void operand")
  else if isNumericType child = false then
    .error (makeParseError loc
      ("unary operator requires a numeric operand, got " ++ typeToString child))
  else
    match op with
    | .kPlus => .ok child
    | .kMinus =>
      match child with
      | .kI8 | .kU8 | .kI16 | .kU16 => .ok .kI32
      | .kI32 | .kU32 | .kI64 | .kU64 | .kF32 | .kF64 => .ok child
      | _ => .error (.notImplemented ("[internal] unary minus not implemented for type " ++
          typeToString child ++ " (should have been caught by the numeric-type check above)"))
    | .kNot => .ok .kU8
    | .kBitwiseNot =>
      if isIntegerType child = false then
        .error (makeParseError loc
          ("bitwise-not requires an integer operand, got " ++ typeToString child))
      else .ok child

/-- `DivZeroVisit`, with the check that the right operand is a literal at all. -/
def isConstZero : ExecNode → Bool
  | .constantValue _ (.i8 v) | .constantValue _ (.u8 v) => v == 0
  | .constantValue _ (.i16 v) | .constantValue _ (.u16 v) => v == 0
  | .constantValue _ (.i32 v) | .constantValue _ (.u32 v) => v == 0
  | .constantValue _ (.i64 v) | .constantValue _ (.u64 v) => v == 0
  | _ => false

/-- `" and "` between the two operand types, and the operator in quotes. -/
def operandsMessage (op : BinaryOPType) (lhs rhs : ValueType) : String :=
  typeToString lhs ++ " and " ++ typeToString rhs ++ " for '" ++ binaryOPTypeToString op ++ "'"

def binaryOPType (loc : SourceLocation) (op : BinaryOPType) (left right : ExecNode) :
    Except Status ValueType :=
  let lhs := left.getReturnType
  let rhs := right.getReturnType
  if lhs = .kVoid ∨ rhs = .kVoid then
    .error (makeParseError loc "binary operator does not support void operand")
  else if isLogicalBinaryOPType op then
    if isNumericType lhs ∧ isNumericType rhs then .ok .kU8
    else
      .error (makeParseError loc
        ("logical operator requires numeric operands, got " ++ operandsMessage op lhs rhs))
  else if isRelationalBinaryOPType op then
    if (isNumericType lhs ∧ isNumericType rhs) ∨ (lhs = .kString ∧ rhs = .kString) then .ok .kU8
    else
      .error (makeParseError loc
        ("relational operator requires both operands to be numeric or both to be string, got " ++
          operandsMessage op lhs rhs))
  else if isBitwiseBinaryOPType op then
    if isIntegerType lhs ∧ isIntegerType rhs then
      if op = .kBitwiseShiftLeft ∨ op = .kBitwiseShiftRight then .ok lhs
      else .ok (getPromotedType lhs rhs)
    else
      .error (makeParseError loc
        ("bitwise operator requires integer operands, got " ++ operandsMessage op lhs rhs))
  else if op = .kAdd then
    if isNumericType lhs ∧ isNumericType rhs then .ok (getPromotedType lhs rhs)
    else if lhs = .kString ∧ rhs = .kString then .ok .kString
    else if isListType lhs ∧ lhs = rhs then .ok lhs
    else
      .error (makeParseError loc
        ("operator '+' requires both operands to be numeric, both string, or two lists of the " ++
          "same type, got " ++ typeToString lhs ++ " and " ++ typeToString rhs))
  else if isNumericType lhs ∧ isNumericType rhs then
    if (op = .kDiv ∨ op = .kMod) ∧ isConstZero right then
      .error (makeParseError loc "division or modulo by constant zero")
    else .ok (getPromotedType lhs rhs)
  else
    .error (makeParseError loc
      ("arithmetic operator requires numeric operands, got " ++ operandsMessage op lhs rhs))

/-- The signature a call is looked up under. -/
def callSignature (funcName : String) (args : List ExecNode) : FunctionSignature :=
  ⟨funcName, args.map ExecNode.getReturnType, .kUnknown⟩

def functionVoidError (loc : SourceLocation) (funcName : String) (_arg : ExecNode) : Status :=
  makeParseError loc ("function '" ++ funcName ++ "' argument cannot be void")

/-- The registered return type; the registry's own error is upgraded to a diagnostic. -/
def functionType (reg : FunctionRegistry) (loc : SourceLocation) (funcName : String)
    (args : List ExecNode) : Except Status ValueType :=
  match reg.getFuncBySign (callSignature funcName args) with
  | .error st => .error (makeParseError loc st.toString)
  | .ok (sign, _) => .ok sign.retType

def ifCountError (loc : SourceLocation) (size : Nat) : Status :=
  makeParseError loc ("if expects exactly 3 arguments (condition, then, else), got " ++
    toString size)

def ifVoidError (arg : ExecNode) : Status :=
  makeParseError arg.getLocation "if argument cannot be void"

def ifNodeType (loc : SourceLocation) (args : List ExecNode) : Except Status ValueType :=
  match args with
  | [cond, then_, else_] =>
    if isNumericType cond.getReturnType = false then
      .error (makeParseError cond.getLocation
        ("if condition must be a numeric type, got " ++ typeToString cond.getReturnType))
    else if isNumericType then_.getReturnType ∧ isNumericType else_.getReturnType then
      .ok (getPromotedType then_.getReturnType else_.getReturnType)
    else if then_.getReturnType = else_.getReturnType then .ok then_.getReturnType
    else
      .error (makeParseError loc ("if branches have incompatible types: " ++
        typeToString then_.getReturnType ++ " vs " ++ typeToString else_.getReturnType))
  | _ => .error (ifCountError loc args.length)

def switchCountError (loc : SourceLocation) (size : Nat) : Status :=
  makeParseError loc ("switch expects an odd number of arguments " ++
    "(cond, then, [cond, then, ...], default), got " ++ toString size)

def switchVoidError (arg : ExecNode) : Status :=
  makeParseError arg.getLocation "switch argument cannot be void"

/-- One branch of a switch: a numeric one is promoted, the others have to agree. -/
def switchBranch (numeric complex : ValueType) (arg : ExecNode) :
    Except Status (ValueType × ValueType) :=
  if isNumericType arg.getReturnType then
    .ok (getPromotedType numeric arg.getReturnType, complex)
  else if complex ≠ .kUnknown ∧ complex ≠ arg.getReturnType then
    .error (makeParseError arg.getLocation ("switch branch has incompatible type: got " ++
      typeToString arg.getReturnType ++ ", previously seen " ++ typeToString complex))
  else .ok (numeric, arg.getReturnType)

/-- The loop over the arguments, a condition and its branch at a time; the last one is the
default. -/
def switchBranches (numeric complex : ValueType) :
    List ExecNode → Except Status (ValueType × ValueType)
  | [] => .ok (numeric, complex)
  | [default_] => switchBranch numeric complex default_
  | cond :: then_ :: rest =>
    if isNumericType cond.getReturnType = false then
      .error (makeParseError cond.getLocation
        ("switch condition must be a numeric type, got " ++ typeToString cond.getReturnType))
    else
      match switchBranch numeric complex then_ with
      | .error st => .error st
      | .ok types => switchBranches types.1 types.2 rest

def switchNodeType (loc : SourceLocation) (args : List ExecNode) : Except Status ValueType :=
  match switchBranches .kUnknown .kUnknown args with
  | .error st => .error st
  | .ok (numeric, complex) =>
    if complex ≠ .kUnknown ∧ numeric ≠ .kUnknown then
      .error (makeParseError loc ("switch branches have incompatible types: mix of numeric (" ++
        typeToString numeric ++ ") and non-numeric (" ++ typeToString complex ++ ")"))
    else .ok (if numeric = .kUnknown then complex else numeric)

/-! ## 4. Scopes -/

/-- `PushScope` and `PopScope` of a `NoOPNode`, which only an isolated one does. -/
def enterStmt (isolated : Bool) (st : ScopeStack VarEntry) : ScopeStack VarEntry :=
  if isolated then st.pushScope else st

def leaveStmt (isolated : Bool) (st : ScopeStack VarEntry) : ScopeStack VarEntry :=
  if isolated then st.popScope else st

/-- What a statement does to the scopes once its value is known; `node` is the statement. -/
def bindStmt (info : VarInfo) (node : ExecNode) (st : ScopeStack VarEntry) :
    Except Status (ScopeStack VarEntry) :=
  if info.name = "" then .ok st
  else
    match trySetVar st info.name node.getReturnType info.isConst with
    | (.kOk, st') => .ok st'
    | (.kConstReassign, _) => .error (makeParseError node.getLocation
        ("cannot reassign const variable '" ++ info.name ++ "'"))
    | (.kRedeclare, _) => .error (makeParseError node.getLocation
        ("cannot redeclare variable '" ++ info.name ++ "' with let"))
    | (.kTypeMismatch, _) => .error (makeParseError node.getLocation
        (typeMismatchMessage info.name
          (((st.lookup info.name).map VarEntry.type).getD .kUnknown) node.getReturnType))

/-- `all_shadowed[name] = new_entry.type` for every entry of `shadowed`. -/
def addShadowed (allShadowed : Scope ValueType) (shadowed : Scope VarEntry) : Scope ValueType :=
  shadowed.entries.foldl (fun acc e => acc.insert e.1 e.2.type) allShadowed

/-- The last loop of a when-block: the shadowed variables are written to the scope around it. -/
def setShadowed (st : ScopeStack VarEntry) (allShadowed : Scope ValueType) :
    ScopeStack VarEntry :=
  allShadowed.entries.foldl (fun st e => st.set e.1 ⟨e.2, false⟩) st

def ifBlockCountError (loc : SourceLocation) : Status :=
  makeParseError loc "if block must have at least a condition and a body"

def ifBlockCondError (cond : ExecNode) : Status :=
  makeParseError cond.getLocation
    ("if block condition must be a numeric type, got " ++ typeToString cond.getReturnType)

def ifBlockBodyError (body : ExecNode) : Status :=
  makeParseError body.getLocation ("if block body must be void, got " ++
    typeToString body.getReturnType)

def ifBlockElseError (body : ExecNode) : Status :=
  makeParseError body.getLocation ("if block else body must be void, got " ++
    typeToString body.getReturnType)

/-! ## 5. The visitor -/

/-- A visit: the scopes are its state, and the first error ends it. -/
abbrev M (α : Type) := Checked.M (ScopeStack VarEntry) Status α

/-- A body of a when-block in a scope of its own, and the outer variables it assigns. -/
def inBranch (error : ExecNode → Status) (body : M ExecNode) : M (ExecNode × Scope VarEntry) := do
  modify ScopeStack.pushScope
  let body ← body
  if body.getReturnType ≠ .kVoid then throw (error body)
  let shadowed := (← get).getShadowed
  modify ScopeStack.popScope
  return (body, shadowed)

mutual

def visit (reg : FunctionRegistry) : ExecNode → M ExecNode
  | .entryArgument info => return .entryArgument (info.setReturnType .kPtr)
  | .execContext info => return .execContext (info.setReturnType .kPtr)
  | .output info => return .output (info.setReturnType .kPtr)
  | .constantValue info val =>
    return .constantValue (info.setReturnType (constantValueType val)) val
  | .constantListValue info valList =>
    return .constantListValue (info.setReturnType (constantListValueType valList)) valList
  | .unaryOP info op child => do
    let child ← visit reg child
    let t ← liftM (unaryOPType info.loc op child.getReturnType)
    return .unaryOP (info.setReturnType t) op child
  | .binaryOP info op left right => do
    let left ← visit reg left
    let right ← visit reg right
    let t ← liftM (binaryOPType info.loc op left right)
    return .binaryOP (info.setReturnType t) op left right
  | .function info funcName args => do
    let args ← visitArgs reg (functionVoidError info.loc funcName) args
    let t ← liftM (functionType reg info.loc funcName args)
    return .function (info.setReturnType t) funcName args
  | .noOP info args isolated => do
    let args ← visitStmts reg isolated args
    return .noOP (info.setReturnType .kVoid) args isolated
  | .ifNode info args => do
    if args.length ≠ 3 then throw (ifCountError info.loc args.length)
    let args ← visitArgs reg ifVoidError args
    let t ← liftM (ifNodeType info.loc args)
    return .ifNode (info.setReturnType t) args
  | .switchNode info args => do
    if args.length % 2 = 0 then throw (switchCountError info.loc args.length)
    let args ← visitArgs reg switchVoidError args
    let t ← liftM (switchNodeType info.loc args)
    return .switchNode (info.setReturnType t) args
  | .ifBlock info args => do
    if args.length < 2 then throw (ifBlockCountError info.loc)
    let (args, allShadowed) ← visitBranches reg ∅ args
    modify (setShadowed · allShadowed)
    return .ifBlock (info.setReturnType .kVoid) args
  | .ref info name => do
    match (← get).lookup name with
    | none => throw (makeParseError info.loc ("variable '" ++ name ++ "' is not defined"))
    | some entry => return .ref (info.setReturnType entry.type) name

/-- The loop over arguments none of which may be void. -/
def visitArgs (reg : FunctionRegistry) (voidError : ExecNode → Status) :
    List ExecNode → M (List ExecNode)
  | [] => return []
  | arg :: args => do
    let arg ← visit reg arg
    if arg.getReturnType = .kVoid then throw (voidError arg)
    let args ← visitArgs reg voidError args
    return arg :: args

/-- The statements of a `NoOPNode`. -/
def visitStmts (reg : FunctionRegistry) (isolated : Bool) :
    List (VarInfo × ExecNode) → M (List (VarInfo × ExecNode))
  | [] => return []
  | (var, arg) :: args => do
    modify (enterStmt isolated)
    let arg ← visit reg arg
    let st ← liftM (bindStmt var arg (← get))
    set (leaveStmt isolated st)
    let args ← visitStmts reg isolated args
    return (var, arg) :: args

/-- The branches of a when-block, a condition and its body at a time; a body that is left over
is the else body. -/
def visitBranches (reg : FunctionRegistry) (allShadowed : Scope ValueType) :
    List ExecNode → M (List ExecNode × Scope ValueType)
  | [] => return ([], allShadowed)
  | [body] => do
    let (body, shadowed) ← inBranch ifBlockElseError (visit reg body)
    return ([body], addShadowed allShadowed shadowed)
  | cond :: body :: args => do
    let cond ← visit reg cond
    if isNumericType cond.getReturnType = false then throw (ifBlockCondError cond)
    let (body, shadowed) ← inBranch ifBlockBodyError (visit reg body)
    let (args, allShadowed) ← visitBranches reg (addShadowed allShadowed shadowed) args
    return (cond :: body :: args, allShadowed)

end

/-- `Validate`, on a validator whose scopes are `st`. -/
def validate (reg : FunctionRegistry) (node : ExecNode) (st : ScopeStack VarEntry := {}) :
    Except Status (ExecNode × ScopeStack VarEntry) :=
  (visit reg node).run st

end Validator

end JitFusion
