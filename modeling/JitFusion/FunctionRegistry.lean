/-
# The function registry

`FunctionSignature` and `FunctionRegistry` (`src/function_registry.cc`).  Two signatures are
the same key when their names and parameter types agree; the return type rides along and is
the one of the FIRST registration, because `unordered_map::operator[]` keeps the key it has.
So the table here maps a `SigKey` to that return type and the structure.

A registration that fails keeps what it has written so far: the two `*WithExecCtx`
registrations write two entries one after the other and can fail in between.  Every
`register*` therefore returns the status together with the registry it leaves behind.
-/
import Mathlib.Data.List.AList
import JitFusion.Diagnostic

namespace JitFusion

/-! ## 1. Signatures and structures -/

structure FunctionSignature where
  funcName : String
  paramTypes : List ValueType
  retType : ValueType
  deriving DecidableEq, Repr

/-- What `FunctionSignature::operator==` compares. -/
abbrev SigKey := String × List ValueType

namespace FunctionSignature

def key (sign : FunctionSignature) : SigKey := (sign.funcName, sign.paramTypes)

/-- The parameter list of `ToString`: the type names with `", "` between them. -/
def renderParams : List ValueType → String
  | [] => ""
  | [t] => TypeHelper.typeToString t
  | t :: ts => TypeHelper.typeToString t ++ ", " ++ renderParams ts

def toString (sign : FunctionSignature) : String :=
  sign.funcName ++ "(" ++ renderParams sign.paramTypes ++ ")"

end FunctionSignature

/-- `enum class FunctionType`. -/
inductive FunctionType
  | kLLVMIntrinicFunc | kCFunc
  deriving DecidableEq, Repr

/-- A registered code generation callback: the built-in casts, or some other one, known by
its identity. -/
inductive CodeGenFunc
  | callBuiltinCastFunction
  | other (id : Nat)
  deriving DecidableEq, Repr

/-- The four ways `func_attr_setter` is filled in. -/
inductive FuncAttrSetter
  | none | readOnly | commutant | store (index : Nat)
  deriving DecidableEq, Repr

/-- `FunctionStructure`.  A function pointer is its address, `0` the null pointer. -/
structure FunctionStructure where
  funcType : FunctionType
  cFuncPtr : Nat := 0
  codegenFunc : Option CodeGenFunc := none
  funcAttrSetter : FuncAttrSetter := .none
  needsExecCtx : Bool := false
  deriving DecidableEq, Repr

/-- `signature2funcstruct_`. -/
structure FunctionRegistry where
  signature2funcstruct : AList (fun _ : SigKey => ValueType × FunctionStructure) := ∅

namespace FunctionRegistry

/-! ## 2. Registration -/

/-- What the table holds for a key. -/
def find (reg : FunctionRegistry) (key : SigKey) : Option (ValueType × FunctionStructure) :=
  reg.signature2funcstruct.lookup key

/-- `signature2funcstruct_[func_sign] = func_struct`: an existing key object stays. -/
def assign (reg : FunctionRegistry) (sign : FunctionSignature) (fs : FunctionStructure) :
    FunctionRegistry :=
  let retType := ((reg.find sign.key).map Prod.fst).getD sign.retType
  ⟨reg.signature2funcstruct.insert sign.key (retType, fs)⟩

def registerFunc (reg : FunctionRegistry) (sign : FunctionSignature) (fs : FunctionStructure)
    (allowOverride : Bool := false) : Except Status Unit × FunctionRegistry :=
  if fs.funcType = .kLLVMIntrinicFunc ∧ fs.codegenFunc = none then
    (.error (.invalidArgument "llvm instrinic function must supply codegen function"), reg)
  else if fs.funcType = .kCFunc ∧ fs.cFuncPtr = 0 then
    (.error (.invalidArgument "c function must supply the c function address"), reg)
  else if allowOverride = false ∧ (reg.find sign.key).isSome then
    (.error (.invalidArgument ("function " ++ sign.toString ++
      " is already registered; pass allow_override=true to overwrite")), reg)
  else (.ok (), reg.assign sign fs)

def registerLLVMIntrinicFunc (reg : FunctionRegistry) (sign : FunctionSignature)
    (codegenFunc : Option CodeGenFunc) (allowOverride : Bool := false) :
    Except Status Unit × FunctionRegistry :=
  if codegenFunc = none then
    (.error (.invalidArgument "codegen function is nullptr"), reg)
  else
    reg.registerFunc sign { funcType := .kLLVMIntrinicFunc, codegenFunc } allowOverride

/-- The body shared by the C function registrations that write one entry. -/
def registerCFunc (setter : FuncAttrSetter) (reg : FunctionRegistry) (sign : FunctionSignature)
    (cFuncPtr : Nat) (allowOverride : Bool) : Except Status Unit × FunctionRegistry :=
  if cFuncPtr = 0 then
    (.error (.invalidArgument "c_func_ptr is nullptr"), reg)
  else
    reg.registerFunc sign { funcType := .kCFunc, cFuncPtr, funcAttrSetter := setter }
      allowOverride

/-- The signature with the trailing `void* exec_ctx` written out. -/
def legacySign (sign : FunctionSignature) : FunctionSignature :=
  { sign with paramTypes := sign.paramTypes ++ [.kPtr] }

/-- The body shared by the two registrations that leave `exec_ctx` to the code generator: the
signature as the user sees it, then the one with the trailing `kPtr`. -/
def registerCFuncWithExecCtx (setter : FuncAttrSetter) (reg : FunctionRegistry)
    (sign : FunctionSignature) (cFuncPtr : Nat) (allowOverride : Bool) :
    Except Status Unit × FunctionRegistry :=
  if cFuncPtr = 0 then
    (.error (.invalidArgument "c_func_ptr is nullptr"), reg)
  else
    match reg.registerFunc sign
      { funcType := .kCFunc, cFuncPtr, funcAttrSetter := setter, needsExecCtx := true }
      allowOverride with
    | (.error st, reg') => (.error st, reg')
    | (.ok (), reg') =>
      reg'.registerFunc (legacySign sign)
        { funcType := .kCFunc, cFuncPtr, funcAttrSetter := setter, needsExecCtx := false }
        allowOverride

def registerReadOnlyCFunc (reg : FunctionRegistry) (sign : FunctionSignature) (cFuncPtr : Nat)
    (allowOverride : Bool := false) : Except Status Unit × FunctionRegistry :=
  registerCFunc .readOnly reg sign cFuncPtr allowOverride

def registerReadOnlyCFuncWithExecCtx (reg : FunctionRegistry) (sign : FunctionSignature)
    (cFuncPtr : Nat) (allowOverride : Bool := false) : Except Status Unit × FunctionRegistry :=
  registerCFuncWithExecCtx .readOnly reg sign cFuncPtr allowOverride

def registerStoreCFunc (reg : FunctionRegistry) (sign : FunctionSignature) (cFuncPtr : Nat)
    (storeArgsIndex : Nat) (allowOverride : Bool := false) :
    Except Status Unit × FunctionRegistry :=
  registerCFunc (.store storeArgsIndex) reg sign cFuncPtr allowOverride

def registerCommutativeCFunc (reg : FunctionRegistry) (sign : FunctionSignature)
    (cFuncPtr : Nat) (allowOverride : Bool := false) : Except Status Unit × FunctionRegistry :=
  registerCFunc .commutant reg sign cFuncPtr allowOverride

def registerCommutativeCFuncWithExecCtx (reg : FunctionRegistry) (sign : FunctionSignature)
    (cFuncPtr : Nat) (allowOverride : Bool := false) : Except Status Unit × FunctionRegistry :=
  registerCFuncWithExecCtx .commutant reg sign cFuncPtr allowOverride

/-! ## 3. Resolution and linking -/

/-- `GetFuncBySign`: the signature with the registered return type, and the structure. -/
def getFuncBySign (reg : FunctionRegistry) (sign : FunctionSignature) :
    Except Status (FunctionSignature × FunctionStructure) :=
  match reg.find sign.key with
  | none => .error (.runtimeError ("function " ++ sign.toString ++ " not found"))
  | some (retType, fs) => .ok ({ sign with retType }, fs)

/-- The symbol a registered entry is linked under: intrinsics have none, and neither do the
entries that only exist for signature resolution. -/
def linkName (key : SigKey) (fs : FunctionStructure) : Option String :=
  if fs.funcType = .kLLVMIntrinicFunc then none
  else if fs.needsExecCtx then none
  else some (FunctionSignature.toString ⟨key.1, key.2, .kUnknown⟩)

/-- `symbols.try_emplace`: a name that is bound keeps its binding. -/
def tryEmplace (symbols : AList (fun _ : String => Nat)) (name : String) (addr : Nat) :
    AList (fun _ : String => Nat) :=
  if name ∈ symbols then symbols else symbols.insert name addr

/-- `MappingToJIT`: the absolute symbols handed to the JIT, under their mangled names. -/
def mappingToJIT (mangle : String → String) (reg : FunctionRegistry) :
    AList (fun _ : String => Nat) :=
  reg.signature2funcstruct.entries.foldl
    (fun symbols e => ((linkName e.1 e.2.2).map mangle).elim symbols fun name =>
      tryEmplace symbols name e.2.2.cFuncPtr) ∅

/-- The symbol `CodeGen::Visit(FunctionNode&)` calls for a resolved C function. -/
def callSymbolName (sign : FunctionSignature) (fs : FunctionStructure) : String :=
  if fs.needsExecCtx then (legacySign sign).toString else sign.toString

end FunctionRegistry

end JitFusion
