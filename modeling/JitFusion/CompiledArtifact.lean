/-
# The compiled-artifact format

`SerializeArtifact`, `DeserializeArtifact` and `CheckHostCompatibility`
(`src/compiled_artifact.cc`).  The writer appends to a byte string.  The reader is a cursor over
the blob: every read first checks `pos_ + n > buf_.size()` in 64-bit `size_t` arithmetic, where
the sum can wrap, and then advances.

The reader's output parameters are written as the parse goes, so a failed parse leaves them half
written, and the model keeps them in the state.  The state has one thing the program does not: a
log of what the reader did to the blob and to memory (`ArtifactEvent`), so that what happens at
every step of a parse can be said about its end.
-/
import JitFusion.Diagnostic
import JitFusion.Lib.Codec

namespace JitFusion

/-! ## 1. The header -/

inductive ArtifactMode
  | kSingle | kBatch
  deriving DecidableEq, Repr

inductive FPMathMode
  | kStrict | kFast
  deriving DecidableEq, Repr

namespace ArtifactMode

/-- `static_cast<std::uint8_t>`. -/
def toByte : ArtifactMode → UInt8
  | .kSingle => 0
  | .kBatch => 1

def ofByte (b : UInt8) : Option ArtifactMode :=
  if b = 0 then some .kSingle else if b = 1 then some .kBatch else none

theorem ofByte_eq_some_iff {b : UInt8} {m : ArtifactMode} : ofByte b = some m ↔ b = m.toByte := by
  unfold ofByte
  split
  · cases m <;> simp_all [toByte]
  · split
    · cases m <;> simp_all [toByte]
    · cases m <;> simp_all [toByte]

end ArtifactMode

namespace FPMathMode

def toByte : FPMathMode → UInt8
  | .kStrict => 0
  | .kFast => 1

def ofByte (b : UInt8) : Option FPMathMode :=
  if b = 0 then some .kStrict else if b = 1 then some .kFast else none

theorem ofByte_eq_some_iff {b : UInt8} {m : FPMathMode} : ofByte b = some m ↔ b = m.toByte := by
  unfold ofByte
  split
  · cases m <;> simp_all [toByte]
  · split
    · cases m <;> simp_all [toByte]
    · cases m <;> simp_all [toByte]

end FPMathMode

structure ArtifactExtension where
  tag : UInt32
  payload : Bytes
  deriving DecidableEq, Repr

/-- The return types are the raw bytes of the `ValueType` enumeration: the reader casts each byte
without a check, and every byte is a value of the enumeration's type. -/
structure ArtifactHeader where
  llvmVersion : Bytes := []
  targetTriple : Bytes := []
  cpuName : Bytes := []
  mode : ArtifactMode := .kSingle
  fpMathMode : FPMathMode := .kFast
  perEntryRetTypes : List UInt8 := []
  extensions : List ArtifactExtension := []
  deriving DecidableEq, Repr

namespace ArtifactHeader

/-! The assignments to single fields. -/

variable (h : ArtifactHeader)

def setLlvmVersion (v : Bytes) : ArtifactHeader := { h with llvmVersion := v }
def setTargetTriple (v : Bytes) : ArtifactHeader := { h with targetTriple := v }
def setCpuName (v : Bytes) : ArtifactHeader := { h with cpuName := v }
def setMode (v : ArtifactMode) : ArtifactHeader := { h with mode := v }
def setFPMathMode (v : FPMathMode) : ArtifactHeader := { h with fpMathMode := v }
def setRetTypes (v : List UInt8) : ArtifactHeader := { h with perEntryRetTypes := v }
def setExtensions (v : List ArtifactExtension) : ArtifactHeader := { h with extensions := v }

end ArtifactHeader

def kArtifactMagic : Bytes := [0x4a, 0x46, 0x43, 0x41]
def kArtifactFooterMagic : Bytes := [0x4a, 0x46, 0x43, 0x45]
def kArtifactFormatVersion : Nat := 2

/-! ## 2. Writing -/

def appendU8 (out : Bytes) (v : UInt8) : Bytes := out ++ [v]

/-- `AppendU32LE` of `static_cast<std::uint32_t>(v)`. -/
def appendU32LE (out : Bytes) (v : Nat) : Bytes := out ++ Wire.leBytes 4 (v % 2 ^ 32)

/-- `AppendU64LE` of `static_cast<std::uint64_t>(v)`. -/
def appendU64LE (out : Bytes) (v : Nat) : Bytes := out ++ Wire.leBytes 8 (v % 2 ^ 64)

def appendBytes (out : Bytes) (data : Bytes) : Bytes := out ++ data

def appendLenPrefixedStr (out : Bytes) (s : Bytes) : Bytes :=
  appendBytes (appendU32LE out s.length) s

def appendExtension (out : Bytes) (ext : ArtifactExtension) : Bytes :=
  let out := appendU32LE out ext.tag.toNat
  let out := appendU32LE out ext.payload.length
  appendBytes out ext.payload

/-- `SerializeArtifact`: what `*out` holds afterwards.  `none` is a null `out`. -/
def serializeArtifact (header : ArtifactHeader) (objectBytes : Bytes) :
    Option Bytes → Except Status Bytes
  | none => .error (.invalidArgument "SerializeArtifact: out must not be null")
  | some out =>
    if header.perEntryRetTypes = [] then
      .error (.invalidArgument "[internal] SerializeArtifact: header has 0 entries")
    else if header.mode = .kSingle ∧ header.perEntryRetTypes.length ≠ 1 then
      .error (.invalidArgument
        ("[internal] SerializeArtifact: single-mode artifact must have exactly 1 entry, got " ++
          toString header.perEntryRetTypes.length))
    else
      let out := appendBytes out kArtifactMagic
      let out := appendU32LE out kArtifactFormatVersion
      let out := appendLenPrefixedStr out header.llvmVersion
      let out := appendLenPrefixedStr out header.targetTriple
      let out := appendLenPrefixedStr out header.cpuName
      let out := appendU8 out header.mode.toByte
      let out := appendU8 out header.fpMathMode.toByte
      let numEntries := header.perEntryRetTypes.length % 2 ^ 32
      let out := appendU32LE out numEntries
      let out := (header.perEntryRetTypes.take numEntries).foldl appendU8 out
      let out := appendU64LE out objectBytes.length
      let out := appendBytes out objectBytes
      let out := appendU32LE out header.extensions.length
      let out := header.extensions.foldl appendExtension out
      .ok (appendBytes out kArtifactFooterMagic)

/-! ## 3. Reading -/

/-- `size_t` arithmetic. -/
def sizeAdd (a b : Nat) : Nat := (a + b) % 2 ^ 64

/-- What a parse does, in the order it does it. -/
inductive ArtifactEvent
  /-- The bytes of the blob with these indices are read. -/
  | read (start len : Nat)
  /-- `pos_` goes from one value to the other. -/
  | advance (before after : Nat)
  /-- A vector is resized or reserved to `count` elements with `remaining` bytes left. -/
  | alloc (count remaining : Nat)
  deriving DecidableEq, Repr

/-- A `std::string_view` into the blob. -/
structure ObjectView where
  start : Nat
  len : Nat
  deriving DecidableEq, Repr

/-- The two output parameters.  `object` is `none` as long as the caller's view is untouched. -/
structure ArtifactOut where
  header : ArtifactHeader
  object : Option ObjectView := none
  deriving DecidableEq, Repr

structure ArtifactReader where
  pos : Nat := 0
  out : ArtifactOut
  log : List ArtifactEvent := []
  deriving DecidableEq, Repr

/-- A step of the parse: a failure keeps the state it happened in. -/
abbrev ReadM := ExceptT Status (StateM ArtifactReader)

def fail {α : Type} (msg : String) : ReadM α := throw (Status.invalidArgument msg)

def setHeader (f : ArtifactHeader → ArtifactHeader) : ReadM Unit :=
  modify fun r => { r with out := { r.out with header := f r.out.header } }

section Reader

variable (buf : Bytes)

/-- `buf_[pos_ .. pos_ + n)` is read; the cursor stays. -/
def peek (n : Nat) : ReadM Bytes := do
  let r ← get
  modify fun r => { r with log := r.log ++ [.read r.pos n] }
  return (buf.drop r.pos).take n

/-- `pos_ += n`. -/
def advance (n : Nat) : ReadM Unit :=
  modify fun r =>
    { r with pos := sizeAdd r.pos n, log := r.log ++ [.advance r.pos (sizeAdd r.pos n)] }

def readU8 : ReadM UInt8 := do
  let r ← get
  if sizeAdd r.pos 1 > buf.length then
    fail ("compiled artifact: unexpected EOF reading u8 at offset " ++ toString r.pos)
  let bs ← peek buf 1
  advance 1
  return bs.headD 0

def readU32LE : ReadM Nat := do
  let r ← get
  if sizeAdd r.pos 4 > buf.length then
    fail ("compiled artifact: unexpected EOF reading u32 at offset " ++ toString r.pos)
  let bs ← peek buf 4
  advance 4
  return Wire.leValue bs

def readU64LE : ReadM Nat := do
  let r ← get
  if sizeAdd r.pos 8 > buf.length then
    fail ("compiled artifact: unexpected EOF reading u64 at offset " ++ toString r.pos)
  let bs ← peek buf 8
  advance 8
  return Wire.leValue bs

def readLenPrefixedStr : ReadM Bytes := do
  let len ← readU32LE buf
  let r ← get
  if sizeAdd r.pos len > buf.length then
    fail ("compiled artifact: truncated string (want " ++ toString len ++ " bytes, have " ++
      toString (buf.length - r.pos) ++ ")")
  let bs ← peek buf len
  advance len
  return bs

/-- The comparison stops at the first difference; the log charges it all four bytes. -/
def readMagic (expected : Bytes) (label : String) : ReadM Unit := do
  let r ← get
  if sizeAdd r.pos 4 > buf.length then
    fail ("compiled artifact: unexpected EOF reading " ++ label ++ " magic")
  let bs ← peek buf 4
  if bs ≠ expected then
    fail ("compiled artifact: wrong " ++ label ++
      " magic (not a JitFusion compiled artifact?)")
  advance 4

/-- `ReadBytesView`: no byte is read, the cursor passes over them. -/
def readBytesView (n : Nat) : ReadM ObjectView := do
  let r ← get
  if sizeAdd r.pos n > buf.length then
    fail ("compiled artifact: truncated blob (want " ++ toString n ++ " bytes, have " ++
      toString (buf.length - r.pos) ++ ")")
  advance n
  return ⟨r.pos, n⟩

/-- The bytes a view covers. -/
def ObjectView.bytes (v : ObjectView) : Bytes := (buf.drop v.start).take v.len

/-- `ReadBytesCopy`: the bytes of the view are read. -/
def readBytesCopy (n : Nat) : ReadM Bytes := do
  let v ← readBytesView buf n
  modify fun r => { r with log := r.log ++ [.read v.start v.len] }
  return v.bytes buf

def remaining : ReadM Nat := return buf.length - (← get).pos

/-- A vector is sized to `count` elements. -/
def allocate (count : Nat) : ReadM Unit := do
  let left ← remaining buf
  modify fun r => { r with log := r.log ++ [.alloc count left] }

/-- The loop `for (i = 0; i < num_entries; ++i)`, from `i` on with `n` rounds to go. -/
def readRetTypes (i : Nat) : Nat → ReadM Unit
  | 0 => return
  | n + 1 => do
    let rtByte ← readU8 buf
    setHeader fun h => h.setRetTypes (h.perEntryRetTypes.set i rtByte)
    readRetTypes (i + 1) n

/-- The loop over the extensions, with `n` rounds to go. -/
def readExtensions : Nat → ReadM Unit
  | 0 => return
  | n + 1 => do
    let tag ← readU32LE buf
    let plen ← readU32LE buf
    let payload ← readBytesCopy buf plen
    setHeader fun h => h.setExtensions (h.extensions ++ [⟨UInt32.ofNat tag, payload⟩])
    readExtensions n

/-- `vector::resize(n)`: the new elements are zero. -/
def resize (l : List UInt8) (n : Nat) : List UInt8 := l.take n ++ List.replicate (n - l.length) 0

/-- `DeserializeArtifact` up to and with the `obj_size` field, which it returns. -/
def readCore : ReadM Nat := do
  readMagic buf kArtifactMagic "header"
  let formatVer ← readU32LE buf
  if formatVer ≠ kArtifactFormatVersion then
    fail ("compiled artifact: format version " ++ toString formatVer ++
      " not supported (this build expects " ++ toString kArtifactFormatVersion ++
        "). The artifact was produced by an incompatible jitfusion version.")
  let llvmVersion ← readLenPrefixedStr buf
  setHeader fun h => h.setLlvmVersion llvmVersion
  let targetTriple ← readLenPrefixedStr buf
  setHeader fun h => h.setTargetTriple targetTriple
  let cpuName ← readLenPrefixedStr buf
  setHeader fun h => h.setCpuName cpuName
  let modeByte ← readU8 buf
  let some mode := ArtifactMode.ofByte modeByte
    | fail ("compiled artifact: unknown mode byte " ++ toString modeByte.toNat)
  setHeader fun h => h.setMode mode
  let fpByte ← readU8 buf
  let some fpMathMode := FPMathMode.ofByte fpByte
    | fail ("compiled artifact: unknown fp_math_mode byte " ++ toString fpByte.toNat)
  setHeader fun h => h.setFPMathMode fpMathMode
  let numEntries ← readU32LE buf
  if numEntries = 0 then
    fail "compiled artifact: num_entries is 0"
  if mode = .kSingle ∧ numEntries ≠ 1 then
    fail ("compiled artifact: single-mode artifact with num_entries=" ++ toString numEntries)
  allocate buf numEntries
  setHeader fun h => h.setRetTypes (resize h.perEntryRetTypes numEntries)
  readRetTypes buf 0 numEntries
  readU64LE buf

/-- `DeserializeArtifact` after the `obj_size` field. -/
def readPayload (objSize : Nat) : ReadM Unit := do
  let view ← readBytesView buf objSize
  modify fun r => { r with out := { r.out with object := some view } }
  let extCount ← readU32LE buf
  setHeader fun h => h.setExtensions []
  allocate buf extCount
  readExtensions buf extCount
  readMagic buf kArtifactFooterMagic "footer"
  let left ← remaining buf
  if left ≠ 0 then
    fail ("compiled artifact: " ++ toString left ++ " trailing bytes after footer")

/-- `DeserializeArtifact` into an output header that holds `outHeader`: the status, and the reader
with the output parameters at the end.  `none` stands for a null output parameter. -/
def deserializeArtifact (outHeader : Option ArtifactHeader) : Except Status Unit × ArtifactReader :=
  match outHeader with
  | none => (.error (.invalidArgument "DeserializeArtifact: output pointers must not be null"),
      { out := { header := {} } })
  | some header => (readCore buf >>= readPayload buf).run { out := { header } }

end Reader

/-! ## 4. Host compatibility -/

structure LoadCompiledOptions where
  checkLlvmVersion : Bool := true
  checkTargetTriple : Bool := true
  checkCpuName : Bool := true
  deriving DecidableEq, Repr

/-- The three strings the process supplies. -/
structure Host where
  llvmVersion : Bytes
  targetTriple : Bytes
  cpuName : Bytes
  deriving DecidableEq, Repr

/-- The text a byte string prints as. -/
def textOf (bs : Bytes) : String := String.ofList (bs.map fun b => Char.ofNat b.toNat)

def checkHostCompatibility (header : ArtifactHeader) (opts : LoadCompiledOptions) (host : Host)
    (expectedMode : ArtifactMode) : Except Status Unit := do
  if opts.checkLlvmVersion ∧ header.llvmVersion ≠ host.llvmVersion then
    throw (.invalidArgument ("compiled artifact: LLVM version mismatch (artifact=" ++
      textOf header.llvmVersion ++ ", runtime=" ++ textOf host.llvmVersion ++
        "). LLVM does not guarantee object-file compatibility across versions; " ++
          "regenerate the artifact."))
  if opts.checkTargetTriple ∧ header.targetTriple ≠ host.targetTriple then
    throw (.invalidArgument ("compiled artifact: target triple mismatch (artifact=" ++
      textOf header.targetTriple ++ ", runtime=" ++ textOf host.targetTriple ++ ")"))
  if opts.checkCpuName ∧ header.cpuName ≠ host.cpuName then
    throw (.invalidArgument ("compiled artifact: host CPU mismatch (artifact=" ++
      textOf header.cpuName ++ ", runtime=" ++ textOf host.cpuName ++
        "). Regenerate the artifact on this host."))
  if header.mode ≠ expectedMode then
    let wrong := if expectedMode = .kSingle then "BatchExecEngine" else "ExecEngine"
    let right := if expectedMode = .kSingle then "ExecEngine::LoadCompiled"
      else "BatchExecEngine::LoadCompiled"
    throw (.invalidArgument ("compiled artifact: mode mismatch — this blob was saved by " ++
      wrong ++ ". Load it with " ++ right ++ " instead."))

end JitFusion
