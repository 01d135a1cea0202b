/-
# The arena

`Arena` (`include/arena.h`, `src/arena.cc`): memory comes from `malloc` in chunks and is handed
out from the tail of the last one.  Addresses are numbers, `0` is the null pointer, and `size_t`
arithmetic is modulo `2 ^ 64`.  Every function that may call `malloc` takes the answer it would
get.

`World` is an arena together with the events of its life, split at the last `Reset` (the epoch).
The events are what the caller can tell: blocks returned, constructions completed, destructors
run, chunks freed or made available again.  A `Create` carries what its constructor does with
the arena, so constructions nest.
-/
import Mathlib.Algebra.Ring.Nat
import JitFusion.Diagnostic
import JitFusion.Lib.Run

namespace JitFusion

/-! ## 1. State -/

/-- Reduction to the range of `size_t` and `uintptr_t`. -/
def wrap (n : Nat) : Nat := n % 2 ^ 64

def sizeMax : Nat := 2 ^ 64 - 1

structure Chunk where
  buf : Nat
  size : Nat
  deriving DecidableEq, Repr

/-- An object, and the type whose destructor `DestroyImpl` runs on it. -/
structure Finalizer where
  obj : Nat
  fn : Nat
  deriving DecidableEq, Repr

structure Arena where
  minChunkSize : Nat := 4096
  totalBytes : Nat := 0
  availBytes : Nat := 0
  availBuf : Nat := 0
  chunks : List Chunk := []
  finalizers : List Finalizer := []
  deriving DecidableEq, Repr

/-- What `sizeof`, `alignof` and `std::is_trivially_destructible_v` say of a type, and its
identity. -/
structure ObjectType where
  id : Nat
  size : Nat
  alignment : Nat
  triviallyDestructible : Bool
  deriving DecidableEq, Repr

structure Block where
  addr : Nat
  size : Nat
  alignment : Nat
  deriving DecidableEq, Repr

inductive Event
  | returned (block : Block)
  /-- An object of a type with a destructor is constructed and its finalizer recorded. -/
  | completed (finalizer : Finalizer)
  | destroyed (finalizer : Finalizer)
  | freed (chunk : Chunk)
  /-- All of the chunk is available again. -/
  | recycled (chunk : Chunk)
  deriving DecidableEq, Repr

/-! ## 2. The functions of the arena -/

namespace Arena

def kDefaultAlignment : Nat := 8

/-- `(-addr) & mask`. -/
def padding (addr alignment : Nat) : Nat := wrap (2 ^ 64 - addr) &&& (alignment - 1)

def allocateChunk (a : Arena) (size : Nat) (malloc : Option Nat) : Except Status Unit × Arena :=
  match malloc with
  | none => (.error (.runtimeError "failure to allocate"), a)
  | some out => (.ok (), { a with
      chunks := a.chunks ++ [⟨out, size⟩]
      availBuf := out
      availBytes := size
      totalBytes := wrap (a.totalBytes + size) })

/-- The last four lines of `Allocate`. -/
def bump (a : Arena) (size pad : Nat) : Option Nat × Arena :=
  (some (a.availBuf + pad), { a with
    availBuf := a.availBuf + (size + pad)
    availBytes := wrap (a.availBytes + 2 ^ 64 - wrap (size + pad)) })

/-- What is left of the last chunk does not hold the block. -/
def needsChunk (a : Arena) (size alignment : Nat) : Prop :=
  a.availBytes < wrap (size + padding a.availBuf alignment)

instance (a : Arena) (size alignment : Nat) : Decidable (a.needsChunk size alignment) :=
  inferInstanceAs (Decidable (_ < _))

def chunkSize (a : Arena) (size alignment : Nat) : Nat :=
  max (wrap (size + alignment - 1)) a.minChunkSize

def allocate (a : Arena) (size alignment : Nat) (malloc : Option Nat) : Option Nat × Arena :=
  if size = 0 then (none, a)
  else if a.needsChunk size alignment then
    match a.allocateChunk (a.chunkSize size alignment) malloc with
    | (.error _, a) => (none, a)
    | (.ok (), a) => a.bump size (padding a.availBuf alignment)
  else a.bump size (padding a.availBuf alignment)

/-- `finalizers_.emplace_back(obj, &DestroyImpl<T>)`. -/
def emplaceFinalizer (a : Arena) (f : Finalizer) : Arena :=
  { a with finalizers := a.finalizers ++ [f] }

/-- The last registered finalizer runs first. -/
def runFinalizers (a : Arena) : List Event × Arena :=
  (a.finalizers.reverse.map .destroyed, { a with finalizers := [] })

def releaseChunks (a : Arena) (retainFirst : Bool) : List Event :=
  (if retainFirst then a.chunks.tail else a.chunks).map .freed

def reset (a : Arena) : List Event × Arena :=
  match a.chunks with
  | [] => ([], a)
  | first :: rest =>
    let (destroyed, a) := a.runFinalizers
    let freed := if rest.length > 0 then a.releaseChunks true else []
    (destroyed ++ freed ++ [.recycled first], { a with
      chunks := [first]
      availBuf := first.buf
      availBytes := first.size
      totalBytes := first.size })

/-- `~Arena`. -/
def destroy (a : Arena) : List Event :=
  let (destroyed, a) := a.runFinalizers
  destroyed ++ a.releaseChunks false

end Arena

/-! ## 3. The life of an arena -/

/-- How a `Create` that got its memory ends. -/
inductive Ending
  | completes
  | constructorThrows
  /-- `emplace_back` throws `std::bad_alloc`. -/
  | emplaceThrows
  deriving DecidableEq, Repr

/-- A call other than `Reset`, with the answer `malloc` would give it; a `Create` also with the
calls its constructor makes. -/
inductive Use
  | allocate (size alignment : Nat) (malloc : Option Nat)
  | create (type : ObjectType) (malloc : Option Nat) (constructor : List Use) (ending : Ending)

inductive Call
  | use (u : Use)
  | reset

structure World where
  arena : Arena
  /-- The events up to the last `Reset`, and since. -/
  past : List Event := []
  epoch : List Event := []

namespace World

def log (w : World) : List Event := w.past ++ w.epoch

/-- A new arena with the given `min_chunk_size`. -/
def start (minChunkSize : Nat) : World := { arena := { minChunkSize } }

def allocate (w : World) (size alignment : Nat) (malloc : Option Nat) : Option Nat × World :=
  match w.arena.allocate size alignment malloc with
  | (none, a) => (none, { w with arena := a })
  | (some p, a) => (some p, { w with
      arena := a
      epoch := w.epoch ++ [.returned ⟨p, size, alignment⟩] })

/-- The end of `Create`, after the constructor: trivially destructible types record nothing. -/
def complete (w : World) (type : ObjectType) (obj : Nat) : Ending → World
  | .completes =>
    if type.triviallyDestructible then w
    else { w with
      arena := w.arena.emplaceFinalizer ⟨obj, type.id⟩
      epoch := w.epoch ++ [.completed ⟨obj, type.id⟩] }
  | .constructorThrows => w
  | .emplaceThrows => w

def create (w : World) (type : ObjectType) (malloc : Option Nat) (constructor : World → World)
    (ending : Ending) : World :=
  match w.allocate type.size type.alignment malloc with
  | (none, w) => w
  | (some mem, w) => (constructor w).complete type mem ending

mutual

def use (w : World) : Use → World
  | .allocate size alignment malloc => (w.allocate size alignment malloc).2
  | .create type malloc constructor ending =>
    w.create type malloc (fun w => uses w constructor) ending
termination_by structural u => u

def uses (w : World) : List Use → World
  | [] => w
  | u :: us => uses (use w u) us
termination_by structural us => us

end

def reset (w : World) : World :=
  let (events, a) := w.arena.reset
  { arena := a, past := w.log ++ events, epoch := [] }

def call (w : World) : Call → World
  | .use u => w.use u
  | .reset => w.reset

/-- The world after the calls on a new arena. -/
def afterCalls (minChunkSize : Nat) (calls : List Call) : World :=
  Machine.run call (start minChunkSize) calls

/-- Everything that happens until the arena is gone. -/
def life (minChunkSize : Nat) (calls : List Call) : List Event :=
  (afterCalls minChunkSize calls).log ++ (afterCalls minChunkSize calls).arena.destroy

end World

end JitFusion
