/-
# `JitCore`

The LLVM side of both engines (`src/jit_core.cc`): it owns one LLJIT instance, builds the module
of a compilation into it or installs a saved object, and looks the entry symbols up.

An LLJIT instance is a number, new for every instance a process creates, and a code address
carries the instance it was looked up in (`CodePtr`), so that an address whose instance is gone
can be told from a live one.  What LLVM and the code generator answer is an input of the model
(`BuildOutcome`, `LoadOutcome`): every step may fail.  Output parameters are part of the state,
because a step that fails leaves them as they are.
-/
import JitFusion.CompiledArtifact
import JitFusion.Lib.Fallible

namespace JitFusion

/-! ## 1. State -/

/-- A non-null host address, and the LLJIT instance whose code it points into. -/
structure CodePtr where
  jit : Nat
  addr : Nat
  deriving DecidableEq, Repr

structure ExecEngineOption where
  dumpIR : Bool := false
  fpMathMode : FPMathMode := .kFast
  enableSaveCompiled : Bool := false
  deriving DecidableEq, Repr

structure JitCore where
  option : ExecEngineOption := {}
  jit : Option Nat := none
  irCode : String := ""
  compiledObjectBytes : Bytes := []
  deriving DecidableEq, Repr

namespace JitCore

/-- `Reset`: the LLJIT is destroyed. -/
def reset (core : JitCore) : JitCore :=
  { core with jit := none, irCode := "", compiledObjectBytes := [] }

end JitCore

/-- What `BuildAndLink` and `LoadObject` work on: the core, how many LLJIT instances there have
been, and the two output parameters.  A pointer that is `none` is null. -/
structure Linking where
  core : JitCore
  created : Nat
  funcPtrs : List (Option CodePtr) := []
  retTypes : List UInt8 := []
  deriving DecidableEq, Repr

abbrev LinkM (α : Type) := Fallible.M Linking Status α

/-! ## 2. What the steps may answer -/

inductive CreateJitOutcome
  | created
  /-- `LLJITBuilder` fails: no instance. -/
  | builderFails (err : String)
  /-- The search generator fails: the instance is installed already. -/
  | generatorFails (err : String)
  deriving DecidableEq, Repr

/-- A lookup, and what it emits if it is the one that makes LLVM compile the module. -/
structure LookupOutcome where
  ir : Option String := none
  object : Option Bytes := none
  result : Except String Nat
  deriving DecidableEq

/-- A root: its return type after validation, and what generating its code answers. -/
structure NodeOutcome where
  retType : UInt8
  codegen : Except Status Unit := .ok ()
  deriving DecidableEq

structure BuildOutcome where
  validate : Except Status Unit := .ok ()
  setCFuncAttr : Except Status Unit := .ok ()
  verifyModule : Option String := none
  createJit : CreateJitOutcome := .created
  addIRModule : Option String := none
  mappingToJIT : Except Status Unit := .ok ()
  lookup : Nat → LookupOutcome

structure LoadOutcome where
  createJit : CreateJitOutcome := .created
  addObjectFile : Bytes → Option String := fun _ => none
  mappingToJIT : Except Status Unit := .ok ()
  lookup : Nat → LookupOutcome

/-! ## 3. Building and loading -/

/-- `JF_RETURN_NOT_OK`. -/
def returnNotOk (st : Except Status Unit) : LinkM Unit :=
  match st with
  | .ok () => pure ()
  | .error e => throw e

/-- `jit_ = std::move(*jit_or_err)`: a new instance. -/
def installJit : LinkM Unit :=
  modify fun l => { l with core := { l.core with jit := some l.created }, created := l.created + 1 }

def createJit : CreateJitOutcome → LinkM Unit
  | .created => installJit
  | .builderFails err => throw (.runtimeError ("Failed to create LLJIT: " ++ err))
  | .generatorFails err => do
    installJit
    throw (.runtimeError ("Failed to create DynamicLibrarySearchGenerator: " ++ err))

/-- The transforms a build installs: the IR text and the object bytes are captured when LLVM
compiles the module. -/
def capture (core : JitCore) (o : LookupOutcome) : JitCore :=
  { core with
    irCode := if core.option.dumpIR then core.irCode ++ o.ir.getD "" else core.irCode
    compiledObjectBytes :=
      if core.option.enableSaveCompiled then o.object.getD core.compiledObjectBytes
      else core.compiledObjectBytes }

/-- The loop over the symbols from the `i`-th on: each found address goes into its slot. -/
def lookupAll (emit : JitCore → LookupOutcome → JitCore) (fail : String → String → Status)
    (lookup : Nat → LookupOutcome) : Nat → List String → LinkM Unit
  | _, [] => pure ()
  | i, name :: names => do
    modify fun l => { l with core := emit l.core (lookup i) }
    match (lookup i).result with
    | .error err => throw (fail name err)
    | .ok addr =>
      modify fun l =>
        { l with funcPtrs := l.funcPtrs.set i (l.core.jit.map fun jit => ⟨jit, addr⟩) }
      lookupAll emit fail lookup (i + 1) names

/-- `vector::resize` of the pointer table: the new slots are null. -/
def resizePtrs (ptrs : List (Option CodePtr)) (n : Nat) : List (Option CodePtr) :=
  ptrs.take n ++ List.replicate (n - ptrs.length) none

/-- The loop over the roots from the `i`-th on. -/
def buildEntries : Nat → List NodeOutcome → LinkM Unit
  | _, [] => pure ()
  | i, node :: nodes => do
    modify fun l => { l with retTypes := l.retTypes.set i node.retType }
    returnNotOk node.codegen
    buildEntries (i + 1) nodes

namespace JitCore

def buildAndLink (nodes : List NodeOutcome) (symbolNames : List String) (o : BuildOutcome) :
    LinkM Unit := do
  if nodes = [] then
    throw (.parseError "BuildAndLink: nodes is empty")
  if nodes.length ≠ symbolNames.length then
    throw (.runtimeError
      "[internal] BuildAndLink: nodes.size() != symbol_names.size() (compiler bug)")
  returnNotOk o.validate
  modify fun l => { l with core := l.core.reset }
  modify fun l => { l with retTypes := resize l.retTypes nodes.length }
  buildEntries 0 nodes
  returnNotOk o.setCFuncAttr
  match o.verifyModule with
  | some info => throw (.runtimeError ("Module verification failed: " ++ info))
  | none =>
    createJit o.createJit
    match o.addIRModule with
    | some err => throw (.runtimeError ("Failed to add module to JIT: " ++ err))
    | none =>
      returnNotOk o.mappingToJIT
      modify fun l => { l with funcPtrs := resizePtrs l.funcPtrs symbolNames.length }
      lookupAll capture (fun name err => .runtimeError
        ("Failed to lookup function: " ++ name ++ ", error: " ++ err)) o.lookup 0 symbolNames

def loadObject (objectBytes : Bytes) (symbolNames : List String) (o : LoadOutcome) :
    LinkM Unit := do
  modify fun l => { l with core := l.core.reset }
  createJit o.createJit
  match o.addObjectFile objectBytes with
  | some err => throw (.runtimeError ("LoadCompiled: addObjectFile failed: " ++ err))
  | none =>
    returnNotOk o.mappingToJIT
    modify fun l => { l with funcPtrs := resizePtrs l.funcPtrs symbolNames.length }
    lookupAll (fun core _ => core) (fun name err => .runtimeError
      ("LoadCompiled: entry symbol '" ++ name ++ "' not found: " ++ err ++
        ". The FunctionRegistry is probably missing a function the artifact depends on."))
      o.lookup 0 symbolNames

end JitCore

end JitFusion
