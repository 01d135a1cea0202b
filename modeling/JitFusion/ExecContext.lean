/-
# Executing on a context

`ExecContext` (`include/exec_options.h`) and the `Execute`, `ExecuteAt` and `ExecuteAll`
overloads of both engines (`src/exec_engine.cc`, `src/batch_exec_engine.cc`), each in the form
that builds a fresh context and the form that is given one.

Compiled code is a `Kernel`.  What it reads and writes is split in three: the contents of the
entry arguments (`A`), the contents of the buffer behind `result` in the `void*` overloads
(`W`), and the `Process`, which is the context and the bytes of the memory around it.  A kernel
touches the arena by allocating and creating objects only, and the error list by adding to it;
what it answers is determined by the arguments: addresses, uninitialised bytes and the state of
the arena make no difference (`Kernel.determined`).  That holds of the runs in which allocation
succeeds, which are the ones modelled.
-/
import JitFusion.ArenaObjects
import JitFusion.ExecEngine

namespace JitFusion

/-! ## 1. Contexts -/

structure ExecContext where
  arena : World
  errors : List String := []

namespace ExecContext

/-- `explicit ExecContext(int64_t alloc_min_chunk_size)`. -/
def new (allocMinChunkSize : Nat) : ExecContext := { arena := World.start allocMinChunkSize }

def clear (ctx : ExecContext) : ExecContext := { arena := ctx.arena.reset, errors := [] }

def hasErrors (ctx : ExecContext) : Bool := !ctx.errors.isEmpty

def getErrorMessage (ctx : ExecContext) : String := String.intercalate "; " ctx.errors

end ExecContext

/-- The bytes of memory. -/
abbrev Heap := Nat → UInt8

structure Process where
  ctx : ExecContext
  heap : Heap

/-! ## 2. Results -/

/-- What a compiled function leaves in the return registers: a scalar, or the `data` and `len` of
a `StringStruct` or list structure. -/
structure Returned where
  bits : Nat := 0
  data : Nat := 0
  len : Nat := 0
  deriving DecidableEq, Repr

/-- `RetType`: a scalar of a type, the elements of a list, or strings. -/
inductive RetType
  | scalar (type : ValueType) (bits : Nat)
  | list (type : ValueType) (elements : List (List UInt8))
  | strings (values : List (List UInt8))
  | string (value : List UInt8)
  deriving DecidableEq, Repr

/-- `kElementSize` of the list structures. -/
def elementSize : ValueType → Nat
  | .kU8List => 1 | .kI8List => 1
  | .kU16List => 2 | .kI16List => 2
  | .kU32List => 4 | .kI32List => 4 | .kF32List => 4
  | .kU64List => 8 | .kI64List => 8 | .kF64List => 8
  | .kStringList => 16
  | _ => 0

def Heap.read (heap : Heap) (addr len : Nat) : List UInt8 :=
  (List.range len).map fun i => heap (addr + i)

/-- A little-endian number of `len` bytes. -/
def Heap.readNat (heap : Heap) (addr len : Nat) : Nat :=
  (heap.read addr len).foldr (fun b n => b.toNat + 256 * n) 0

/-- The arms of `JF_EXPAND_SWITCH_TYPE` after the call: payloads are copied out of memory. -/
def boxResult (type : ValueType) (heap : Heap) (r : Returned) : RetType :=
  if TypeHelper.isNumericType type then .scalar type r.bits
  else if type = .kString then .string (heap.read r.data r.len)
  else if type = .kStringList then
    .strings ((List.range r.len).map fun i =>
      let addr := r.data + i * elementSize .kStringList
      heap.read (heap.readNat addr 8) (heap.readNat (addr + 8) 4))
  else
    .list type ((List.range r.len).map fun i =>
      heap.read (r.data + i * elementSize type) (elementSize type))

/-! ## 3. Compiled code -/

/-- What a run of compiled code leaves. -/
structure KernelRun (W : Type) where
  returned : Returned
  /-- The contents of the buffer behind `result`. -/
  out : Option W
  process : Process

/-- **Compiled code**, and what is assumed of it. -/
structure Kernel (A W : Type) where
  run : A → Option W → Process → KernelRun W
  type : ValueType
  uses : ∀ a out p, ∃ us, p.ctx.arena.UsesFair us ∧
    (run a out p).process.ctx.arena = p.ctx.arena.uses us
  /-- With no errors recorded before, the answer is determined by the arguments, the errors by
  the entry arguments alone. -/
  determined : ∀ a out p p', p.ctx.errors = [] → p'.ctx.errors = [] →
    (run a out p).out = (run a out p').out ∧
      boxResult type (run a out p).process.heap (run a out p).returned
        = boxResult type (run a out p').process.heap (run a out p').returned
  errors_determined : ∀ a out out' p p', p.ctx.errors = [] → p'.ctx.errors = [] →
    (run a out p).process.ctx.errors = (run a out' p').process.ctx.errors

/-- What surrounds a call: the code behind the addresses, `exec_ctx_arena_alloc_min_chunk_size`,
the bytes of memory a fresh context finds and those a `Clear` leaves. -/
structure Runtime (A W : Type) where
  kernel : CodePtr → Kernel A W
  minChunkSize : Nat
  freshHeap : Heap
  clearedHeap : Process → Heap

/-- The status of a call and what it leaves in its output parameter. -/
structure Answer (R : Type) where
  status : Except Status Unit
  result : R

namespace Runtime

variable {A W : Type} (rt : Runtime A W)

/-- A jump through a null pointer is outside the model; here it does nothing. -/
def jump (ptr : Option CodePtr) (a : A) (out : Option W) (p : Process) : KernelRun W :=
  match ptr with
  | none => ⟨{}, out, p⟩
  | some ptr => (rt.kernel ptr).run a out p

/-- `ExecContext exec_ctx(...)`. -/
def fresh : Process := ⟨ExecContext.new rt.minChunkSize, rt.freshHeap⟩

/-- `exec_ctx.Clear()`. -/
def clear (p : Process) : Process := ⟨p.ctx.clear, rt.clearedHeap p⟩

/-- `JF_EXPAND_SWITCH_TYPE`: `none` in the default branch. -/
def expandSwitchType (ptr : Option CodePtr) (retType : UInt8) (a : A) (result : RetType)
    (p : Process) : Option (RetType × Process) :=
  match switchTypes.find? fun t => t.toByte == retType with
  | none => none
  | some type =>
    let r := rt.jump ptr a none p
    some (if type = .kVoid then result else boxResult type r.process.heap r.returned, r.process)

/-- The status of a call, from the errors its context has recorded. -/
def statusOf (ctx : ExecContext) : Except Status Unit :=
  finish (if ctx.hasErrors then some ctx.getErrorMessage else none)

def unsupported (result : RetType) : Answer RetType :=
  ⟨.error (.runtimeError "Unsupported return type"), result⟩

/-! ## 4. The overloads for one entry -/

/-- The `RetType*` form with a fresh context. -/
def callRetType (ptr : Option CodePtr) (retType : UInt8) (a : A) (result : RetType) :
    Answer RetType :=
  match rt.expandSwitchType ptr retType a result rt.fresh with
  | none => unsupported result
  | some (result, p) => ⟨statusOf p.ctx, result⟩

/-- The `RetType*` form with the caller's context. -/
def callCtxRetType (ptr : Option CodePtr) (retType : UInt8) (a : A) (result : RetType)
    (p : Process) : Answer RetType × Process :=
  match rt.expandSwitchType ptr retType a result p with
  | none => (unsupported result, p)
  | some (result, p) => (⟨statusOf p.ctx, result⟩, rt.clear p)

/-- The `void*` form with a fresh context. -/
def callVoid (ptr : Option CodePtr) (a : A) (out : Option W) : Answer (Option W) :=
  let r := rt.jump ptr a out rt.fresh
  ⟨statusOf r.process.ctx, r.out⟩

/-- The `void*` form with the caller's context. -/
def callCtxVoid (ptr : Option CodePtr) (a : A) (out : Option W) (p : Process) :
    Answer (Option W) × Process :=
  let r := rt.jump ptr a out p
  (⟨statusOf r.process.ctx, r.out⟩, rt.clear r.process)

def execute (e : ExecEngine) (a : A) (result : RetType) : Answer RetType :=
  rt.callRetType e.entryFuncPtr e.retType a result

def executeCtx (e : ExecEngine) (a : A) (result : RetType) (p : Process) :
    Answer RetType × Process :=
  rt.callCtxRetType e.entryFuncPtr e.retType a result p

def executeVoid (e : ExecEngine) (a : A) (out : Option W) : Answer (Option W) :=
  rt.callVoid e.entryFuncPtr a out

def executeCtxVoid (e : ExecEngine) (a : A) (out : Option W) (p : Process) :
    Answer (Option W) × Process :=
  rt.callCtxVoid e.entryFuncPtr a out p

def indexOutOfRange {R : Type} (result : R) : Answer R :=
  ⟨.error (.runtimeError "ExecuteAt: index out of range"), result⟩

/-- `ret_types_[index]`; the tables of a compiled engine have one length. -/
def retTypeAt (e : BatchExecEngine) (index : Nat) : UInt8 := e.retTypes.getD index 0

def executeAt (e : BatchExecEngine) (index : Nat) (a : A) (result : RetType) : Answer RetType :=
  match e.entryFuncPtrs[index]? with
  | none => indexOutOfRange result
  | some ptr => rt.callRetType ptr (retTypeAt e index) a result

def executeAtCtx (e : BatchExecEngine) (index : Nat) (a : A) (result : RetType) (p : Process) :
    Answer RetType × Process :=
  match e.entryFuncPtrs[index]? with
  | none => (indexOutOfRange result, p)
  | some ptr => rt.callCtxRetType ptr (retTypeAt e index) a result p

def executeAtVoid (e : BatchExecEngine) (index : Nat) (a : A) (out : Option W) :
    Answer (Option W) :=
  match e.entryFuncPtrs[index]? with
  | none => indexOutOfRange out
  | some ptr => rt.callVoid ptr a out

def executeAtCtxVoid (e : BatchExecEngine) (index : Nat) (a : A) (out : Option W) (p : Process) :
    Answer (Option W) × Process :=
  match e.entryFuncPtrs[index]? with
  | none => (indexOutOfRange out, p)
  | some ptr => rt.callCtxVoid ptr a out p

/-! ## 5. The overloads for all entries -/

/-- `all_errors` after one more entry. -/
def addStatus (allErrors : String) : Except Status Unit → String
  | .ok () => allErrors
  | .error st => (if allErrors = "" then allErrors else allErrors ++ "| ") ++ st.toString

/-- The status the `ExecuteAll` overloads end with. -/
def allStatus (allErrors : String) : Except Status Unit :=
  if allErrors = "" then .ok () else .error (.runtimeError allErrors)

/-- The loop over the entries: every step acts on what the steps share, and `all_errors` collects
their statuses. -/
def loop {S : Type} (step : Nat → S → Except Status Unit × S) :
    List Nat → String × S → String × S
  | [], s => s
  | i :: is, (allErrors, s) =>
    let (st, s) := step i s
    loop step is (addStatus allErrors st, s)

/-- `results->resize(n)`. -/
def resize (results : List RetType) (n : Nat) : List RetType :=
  (List.range n).map fun i => results.getD i (.scalar .kU8 0)

/-- The bodies of the four loops. -/
def stepRetType (e : BatchExecEngine) (a : A) (i : Nat) (results : List RetType) :
    Except Status Unit × List RetType :=
  let answer := rt.executeAt e i a (results.getD i (.scalar .kU8 0))
  (answer.status, results.set i answer.result)

def stepCtxRetType (e : BatchExecEngine) (a : A) (i : Nat) (s : List RetType × Process) :
    Except Status Unit × List RetType × Process :=
  let (answer, p) := rt.executeAtCtx e i a (s.1.getD i (.scalar .kU8 0)) s.2
  (answer.status, s.1.set i answer.result, p)

def stepVoid (e : BatchExecEngine) (a : A) (i : Nat) (out : Option W) :
    Except Status Unit × Option W :=
  let answer := rt.executeAtVoid e i a out
  (answer.status, answer.result)

def stepCtxVoid (e : BatchExecEngine) (a : A) (i : Nat) (s : Option W × Process) :
    Except Status Unit × Option W × Process :=
  let (answer, p) := rt.executeAtCtxVoid e i a s.1 s.2
  (answer.status, answer.result, p)

def executeAll (e : BatchExecEngine) (a : A) (results : List RetType) : Answer (List RetType) :=
  let n := e.entryFuncPtrs.length
  let (allErrors, results) := loop (rt.stepRetType e a) (List.range n) ("", resize results n)
  ⟨allStatus allErrors, results⟩

def executeAllCtx (e : BatchExecEngine) (a : A) (results : List RetType) (p : Process) :
    Answer (List RetType) × Process :=
  let n := e.entryFuncPtrs.length
  let (allErrors, results, p) :=
    loop (rt.stepCtxRetType e a) (List.range n) ("", resize results n, p)
  (⟨allStatus allErrors, results⟩, p)

def executeAllVoid (e : BatchExecEngine) (a : A) (out : Option W) : Answer (Option W) :=
  let (allErrors, out) := loop (rt.stepVoid e a) (List.range e.entryFuncPtrs.length) ("", out)
  ⟨allStatus allErrors, out⟩

def executeAllCtxVoid (e : BatchExecEngine) (a : A) (out : Option W) (p : Process) :
    Answer (Option W) × Process :=
  let (allErrors, out, p) :=
    loop (rt.stepCtxVoid e a) (List.range e.entryFuncPtrs.length) ("", out, p)
  (⟨allStatus allErrors, out⟩, p)

end Runtime

end JitFusion
