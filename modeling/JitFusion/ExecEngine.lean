/-
# The two engines

`ExecEngine` and `BatchExecEngine` (`src/exec_engine.cc`, `src/batch_exec_engine.cc`) and the
result dispatch they share (`src/execute_dispatch.h`).  An engine owns a `JitCore` and caches the
addresses it looked up.

A call that executes code reports the pointers it jumped through (`ExecResult.invoked`), a null
pointer included: what running the code then does, apart from the errors it records in its
context, is outside the model.
-/
import JitFusion.JitCore
import JitFusion.Type

namespace JitFusion

/-! ## 1. Jumping through a pointer -/

/-- `static_cast<std::uint8_t>` of a `ValueType`. -/
def ValueType.toByte : ValueType → UInt8
  | .kUnknown => 0 | .kVoid => 1 | .kU8 => 2 | .kU16 => 3 | .kU32 => 4 | .kU64 => 5
  | .kI8 => 6 | .kI16 => 7 | .kI32 => 8 | .kI64 => 9 | .kF32 => 10 | .kF64 => 11
  | .kString => 12 | .kU8List => 13 | .kU16List => 14 | .kU32List => 15 | .kU64List => 16
  | .kI8List => 17 | .kI16List => 18 | .kI32List => 19 | .kI64List => 20 | .kF32List => 21
  | .kF64List => 22 | .kStringList => 23 | .kPtr => 24

/-- The cases of the switch in `JF_EXPAND_SWITCH_TYPE`: every type but `kUnknown` and `kPtr`. -/
def switchTypes : List ValueType :=
  [.kVoid, .kU8, .kI8, .kU16, .kI16, .kU32, .kI32, .kU64, .kI64, .kF32, .kF64, .kString,
    .kU8List, .kU16List, .kU32List, .kU64List, .kI8List, .kI16List, .kI32List, .kI64List,
    .kF32List, .kF64List, .kStringList]

/-- Whether the switch on a return type, read as a byte, takes a case that calls. -/
def dispatches (retType : UInt8) : Bool := switchTypes.any fun t => t.toByte == retType

structure ExecResult where
  status : Except Status Unit
  /-- The pointers jumped through, in order. -/
  invoked : List (Option CodePtr)
  deriving DecidableEq

/-- The status after the code ran: `errors` is the context's message, if it has errors. -/
def finish (errors : Option String) : Except Status Unit :=
  match errors with
  | none => .ok ()
  | some msg => .error (.runtimeError msg)

/-- `JF_EXPAND_SWITCH_TYPE` and the check of the context behind it. -/
def callRetType (ptr : Option CodePtr) (retType : UInt8) (errors : Option String) : ExecResult :=
  if dispatches retType then ⟨finish errors, [ptr]⟩
  else ⟨.error (.runtimeError "Unsupported return type"), []⟩

/-- The direct call of the `void*` overloads. -/
def callVoid (ptr : Option CodePtr) (errors : Option String) : ExecResult :=
  ⟨finish errors, [ptr]⟩

def kEntryFunctionName : String := "entry"

/-! ## 2. `ExecEngine` -/

/-- `created` counts the LLJIT instances so far. -/
structure ExecEngine where
  core : JitCore := {}
  created : Nat := 0
  entryFuncPtr : Option CodePtr := none
  retType : UInt8 := ValueType.kUnknown.toByte
  deriving DecidableEq, Repr

namespace ExecEngine

def compile (e : ExecEngine) (node : NodeOutcome) (o : BuildOutcome) :
    Except Status Unit × ExecEngine :=
  let e := { e with entryFuncPtr := none, retType := ValueType.kUnknown.toByte }
  match (JitCore.buildAndLink [node] [kEntryFunctionName] o).run
      { core := e.core, created := e.created } with
  | (.error st, l) => (.error st, { e with core := l.core, created := l.created })
  | (.ok (), l) => (.ok (), {
      core := l.core
      created := l.created
      entryFuncPtr := l.funcPtrs.headD none
      retType := l.retTypes.headD 0 })

def executeRetType (e : ExecEngine) (errors : Option String) : ExecResult :=
  callRetType e.entryFuncPtr e.retType errors

/-- The overload with the caller's context. -/
def executeCtxRetType (e : ExecEngine) (errors : Option String) : ExecResult :=
  callRetType e.entryFuncPtr e.retType errors

def executeVoid (e : ExecEngine) (errors : Option String) : ExecResult :=
  callVoid e.entryFuncPtr errors

def executeCtxVoid (e : ExecEngine) (errors : Option String) : ExecResult :=
  callVoid e.entryFuncPtr errors

/-- The header both engines write. -/
def artifactHeader (core : JitCore) (host : Host) (mode : ArtifactMode) (retTypes : List UInt8) :
    ArtifactHeader :=
  { llvmVersion := host.llvmVersion
    targetTriple := host.targetTriple
    cpuName := host.cpuName
    mode
    fpMathMode := core.option.fpMathMode
    perEntryRetTypes := retTypes }

def saveCompiled (e : ExecEngine) (host : Host) : Option Bytes → Except Status Bytes
  | none => .error (.invalidArgument "SaveCompiled: out must not be null")
  | some out =>
    if e.entryFuncPtr = none then
      .error (.runtimeError "SaveCompiled: nothing compiled yet. Call Compile() first.")
    else if e.core.compiledObjectBytes = [] then
      .error (.runtimeError ("SaveCompiled: no object bytes captured. Set " ++
        "ExecEngineOption::enable_save_compiled=true BEFORE calling Compile(), " ++
          "then re-compile. (Artifacts loaded via LoadCompiled also cannot be " ++
            "re-saved — the loaded bytes are intentionally not retained.)"))
    else
      serializeArtifact (artifactHeader e.core host .kSingle [e.retType])
        e.core.compiledObjectBytes (some out)

/-- The artifact a load works with, if the blob parses and suits the host. -/
def loadable (bytes : Bytes) (opts : LoadCompiledOptions) (host : Host) (mode : ArtifactMode) :
    Except Status (ArtifactHeader × Bytes) :=
  match deserializeArtifact bytes (some {}) with
  | (.error st, _) => .error st
  | (.ok (), r) =>
    match checkHostCompatibility r.out.header opts host mode with
    | .error st => .error st
    | .ok () => .ok (r.out.header, (r.out.object.map (ObjectView.bytes bytes)).getD [])

/-- `std::make_unique<JitCore>(new_opt)`: the option of the old core with the artifact's FP mode. -/
def freshCore (core : JitCore) (header : ArtifactHeader) : JitCore :=
  { option := { core.option with fpMathMode := header.fpMathMode } }

def loadCompiled (e : ExecEngine) (bytes : Bytes) (opts : LoadCompiledOptions) (host : Host)
    (o : LoadOutcome) : Except Status Unit × ExecEngine :=
  match loadable bytes opts host .kSingle with
  | .error st => (.error st, e)
  | .ok (header, obj) =>
    match (JitCore.loadObject obj [kEntryFunctionName] o).run
        { core := freshCore e.core header, created := e.created } with
    | (.error st, l) => (.error st, { e with core := l.core, created := l.created })
    | (.ok (), l) => (.ok (), {
        core := l.core
        created := l.created
        entryFuncPtr := l.funcPtrs.headD none
        retType := header.perEntryRetTypes.headD 0 })

end ExecEngine

/-! ## 3. `BatchExecEngine` -/

structure BatchExecEngine where
  core : JitCore := {}
  created : Nat := 0
  entryFuncPtrs : List (Option CodePtr) := []
  retTypes : List UInt8 := []
  deriving DecidableEq, Repr

namespace BatchExecEngine

/-- `kEntryFunctionName + std::to_string(i)` for the first `n` entries. -/
def entryNames (n : Nat) : List String :=
  (List.range n).map fun i => kEntryFunctionName ++ toString i

/-- The tables themselves are the output parameters of `BuildAndLink`. -/
def compile (e : BatchExecEngine) (nodes : List NodeOutcome) (o : BuildOutcome) :
    Except Status Unit × BatchExecEngine :=
  if nodes = [] then
    (.error (.parseError "Compile: exec_nodes is empty"), e)
  else
    let (st, l) := (JitCore.buildAndLink nodes (entryNames nodes.length) o).run
      { core := e.core, created := e.created, funcPtrs := [], retTypes := [] }
    (st, ⟨l.core, l.created, l.funcPtrs, l.retTypes⟩)

def indexOutOfRange : ExecResult := ⟨.error (.runtimeError "ExecuteAt: index out of range"), []⟩

/-- `ret_types_[index]` of a shorter table is an out-of-range read; it is a null call here. -/
def executeAtRetType (e : BatchExecEngine) (index : Nat) (errors : Option String) : ExecResult :=
  match e.entryFuncPtrs[index]? with
  | none => indexOutOfRange
  | some ptr =>
    match e.retTypes[index]? with
    | none => callVoid none errors
    | some retType => callRetType ptr retType errors

def executeAtCtxRetType (e : BatchExecEngine) (index : Nat) (errors : Option String) :
    ExecResult := e.executeAtRetType index errors

def executeAtVoid (e : BatchExecEngine) (index : Nat) (errors : Option String) : ExecResult :=
  match e.entryFuncPtrs[index]? with
  | none => indexOutOfRange
  | some ptr => callVoid ptr errors

def executeAtCtxVoid (e : BatchExecEngine) (index : Nat) (errors : Option String) : ExecResult :=
  e.executeAtVoid index errors

/-- The loop of the `ExecuteAll` overloads over the results of `ExecuteAt`. -/
def collect (results : List ExecResult) : ExecResult :=
  let errors := results.filterMap fun r =>
    match r.status with
    | .ok () => none
    | .error st => some st.toString
  ⟨if errors = [] then .ok () else .error (.runtimeError (String.intercalate "| " errors)),
    results.flatMap ExecResult.invoked⟩

/-- `executeAt` at every index, each call with the errors its context ends up with. -/
def executeAll (e : BatchExecEngine) (executeAt : Nat → Option String → ExecResult)
    (errors : Nat → Option String) : ExecResult :=
  collect ((List.range e.entryFuncPtrs.length).map fun i => executeAt i (errors i))

def executeAllRetType (e : BatchExecEngine) := e.executeAll e.executeAtRetType
def executeAllCtxRetType (e : BatchExecEngine) := e.executeAll e.executeAtCtxRetType
def executeAllVoid (e : BatchExecEngine) := e.executeAll e.executeAtVoid
def executeAllCtxVoid (e : BatchExecEngine) := e.executeAll e.executeAtCtxVoid

def saveCompiled (e : BatchExecEngine) (host : Host) : Option Bytes → Except Status Bytes
  | none => .error (.invalidArgument "SaveCompiled: out must not be null")
  | some out =>
    if e.entryFuncPtrs = [] then
      .error (.runtimeError "SaveCompiled: nothing compiled yet. Call Compile() first.")
    else if e.core.compiledObjectBytes = [] then
      .error (.runtimeError ("SaveCompiled: no object bytes captured. Set " ++
        "ExecEngineOption::enable_save_compiled=true BEFORE calling Compile(), " ++
          "then re-compile. (Artifacts loaded via LoadCompiled also cannot be " ++
            "re-saved — the loaded bytes are intentionally not retained.)"))
    else
      serializeArtifact (ExecEngine.artifactHeader e.core host .kBatch e.retTypes)
        e.core.compiledObjectBytes (some out)

def loadCompiled (e : BatchExecEngine) (bytes : Bytes) (opts : LoadCompiledOptions) (host : Host)
    (o : LoadOutcome) : Except Status Unit × BatchExecEngine :=
  match ExecEngine.loadable bytes opts host .kBatch with
  | .error st => (.error st, e)
  | .ok (header, obj) =>
    match (JitCore.loadObject obj (entryNames header.perEntryRetTypes.length) o).run
        { core := ExecEngine.freshCore e.core header, created := e.created } with
    | (.error st, l) => (.error st, { e with core := l.core, created := l.created })
    | (.ok (), l) => (.ok (), ⟨l.core, l.created, l.funcPtrs, header.perEntryRetTypes⟩)

end BatchExecEngine

end JitFusion
