/-
# The artifact layout, as a codec

What the format IS, apart from how it is read: the layout comment of `src/compiled_artifact.h`
as an encoding, `encodeCore` up to and with the `obj_size` field and `encodePayload` after it,
and a parser for it that works on the bytes not yet read, with no cursor and no machine
arithmetic.

* `parseArtifact_encode`, `parseArtifact_sound`: the parser accepts exactly the encodings of valid
  headers.
* `serializeArtifact_eq`: within the length limits of the format, `serializeArtifact` writes
  that encoding.
* `encode_append_inj`: an input has one reading, so its accepted prefixes coincide.
-/
import JitFusion.CompiledArtifact

namespace JitFusion
namespace ArtifactLayout

open Wire

/-! ## 1. The encoding -/

def u32 : Codec Nat := Codec.uintLE 4
def u64 : Codec Nat := Codec.uintLE 8
def str : Codec Bytes := Codec.lenPrefixed 4

def extension : Codec ArtifactExtension :=
  (u32.dpair fun _ => str).imap (fun v => ⟨UInt32.ofNat v.1, v.2⟩)
    (fun e => (e.tag.toNat, e.payload))
    (fun v hv => by
      have hlt : v.1 < 4294967296 := hv.1
      exact Prod.ext (by simp [Nat.mod_eq_of_lt hlt]) rfl)
    (fun e => by simp)

def retTypes : Codec (List UInt8) := Codec.byte.countPrefixed 4
def extensions : Codec (List ArtifactExtension) := extension.countPrefixed 4
def magic : Codec Unit := Codec.lit kArtifactMagic
def footer : Codec Unit := Codec.lit kArtifactFooterMagic

/-- The fields up to and with `obj_size`. -/
def encodeCore (h : ArtifactHeader) (objSize : Nat) : Bytes :=
  magic.encode () ++ (u32.encode kArtifactFormatVersion ++ (str.encode h.llvmVersion ++
    (str.encode h.targetTriple ++ (str.encode h.cpuName ++ (Codec.byte.encode h.mode.toByte ++
      (Codec.byte.encode h.fpMathMode.toByte ++ (retTypes.encode h.perEntryRetTypes ++
        u64.encode objSize)))))))

/-- The object bytes and what follows them. -/
def encodePayload (h : ArtifactHeader) (objectBytes : Bytes) : Bytes :=
  (Codec.bytes objectBytes.length).encode objectBytes ++
    (extensions.encode h.extensions ++ (footer.encode () ++ []))

def encode (h : ArtifactHeader) (objectBytes : Bytes) : Bytes :=
  encodeCore h objectBytes.length ++ encodePayload h objectBytes

/-- The fields before `num_entries`. -/
def encodeHead (h : ArtifactHeader) : Bytes :=
  magic.encode () ++ (u32.encode kArtifactFormatVersion ++ (str.encode h.llvmVersion ++
    (str.encode h.targetTriple ++ (str.encode h.cpuName ++ (Codec.byte.encode h.mode.toByte ++
      Codec.byte.encode h.fpMathMode.toByte)))))

theorem encodeCore_eq (h : ArtifactHeader) (n : Nat) : encodeCore h n =
    encodeHead h ++ (u32.encode h.perEntryRetTypes.length ++
      ((Codec.byte.replicate h.perEntryRetTypes.length).encode h.perEntryRetTypes ++
        u64.encode n)) := by
  have hrts : retTypes.encode h.perEntryRetTypes = u32.encode h.perEntryRetTypes.length ++
      (Codec.byte.replicate h.perEntryRetTypes.length).encode h.perEntryRetTypes := rfl
  simp only [encodeCore, encodeHead, List.append_assoc, hrts]

/-- The headers that can be followed by the count `num`. -/
structure HeadValid (h : ArtifactHeader) (num : Nat) : Prop where
  llvmVersion : h.llvmVersion.length < 2 ^ 32
  targetTriple : h.targetTriple.length < 2 ^ 32
  cpuName : h.cpuName.length < 2 ^ 32
  num_lt : num < 2 ^ 32
  num_ne_zero : num ≠ 0
  single : h.mode = .kSingle → num = 1

/-- The headers the core fields can carry. -/
structure CoreValid (h : ArtifactHeader) : Prop where
  llvmVersion : h.llvmVersion.length < 2 ^ 32
  targetTriple : h.targetTriple.length < 2 ^ 32
  cpuName : h.cpuName.length < 2 ^ 32
  retTypes : h.perEntryRetTypes.length < 2 ^ 32
  retTypes_ne_nil : h.perEntryRetTypes ≠ []
  single : h.mode = .kSingle → h.perEntryRetTypes.length = 1

theorem CoreValid.head {h : ArtifactHeader} (hv : CoreValid h) :
    HeadValid h h.perEntryRetTypes.length :=
  ⟨hv.llvmVersion, hv.targetTriple, hv.cpuName, hv.retTypes, by simpa using hv.retTypes_ne_nil,
    hv.single⟩

/-- The extension lists the extension area can carry. -/
structure ExtensionsValid (exts : List ArtifactExtension) : Prop where
  count : exts.length < 2 ^ 32
  payload : ∀ e ∈ exts, e.payload.length < 2 ^ 32

/-! ## 2. What the field codecs accept -/

theorem u32_valid {n : Nat} : u32.Valid n ↔ n < 2 ^ 32 := by
  simp [u32, Codec.uintLE]

theorem u64_valid {n : Nat} : u64.Valid n ↔ n < 2 ^ 64 := by
  simp [u64, Codec.uintLE]

theorem str_valid {bs : Bytes} : str.Valid bs ↔ bs.length < 2 ^ 32 := by
  simp [str, Codec.lenPrefixed, Codec.imap, Codec.dpair, Codec.uintLE, Codec.bytes]

theorem extension_valid {e : ArtifactExtension} :
    extension.Valid e ↔ e.payload.length < 2 ^ 32 := by
  have htag : e.tag.toNat < 2 ^ 32 := e.tag.toNat_lt
  simp [extension, Codec.imap, Codec.dpair, u32, Codec.uintLE, str_valid]
  omega

theorem extensions_valid {exts : List ArtifactExtension} :
    extensions.Valid exts ↔ ExtensionsValid exts := by
  have h : extensions.Valid exts ↔
      exts.length < 2 ^ 32 ∧ ∀ e ∈ exts, e.payload.length < 2 ^ 32 := by
    simp [extensions, Codec.countPrefixed, Codec.imap, Codec.dpair, Codec.uintLE,
      Codec.replicate, extension_valid]
  exact h.trans ⟨fun hv => ⟨hv.1, hv.2⟩, fun hv => ⟨hv.1, hv.2⟩⟩

/-! ## 3. The parser -/

/-- The output parameters as data: the object's bytes in place of the view. -/
structure Written where
  header : ArtifactHeader
  object : Option Bytes

abbrev Parse (α : Type) := Codec.Parse Written α

def put (f : ArtifactHeader → ArtifactHeader) : Parse Unit := fun s =>
  some ((), (⟨f s.1.header, s.1.object⟩, s.2))

def writeObject (object : Bytes) : Parse Unit := fun s =>
  some ((), (⟨s.1.header, some object⟩, s.2))

def require (p : Prop) [Decidable p] : Parse Unit := fun s => if p then some ((), s) else none

def ofOption {α : Type} (o : Option α) : Parse α := fun s => o.map fun v => (v, s)

def atEnd : Parse Unit := fun s => if s.2 = [] then some ((), s) else none

def parseCore : Parse Nat := do
  magic.read
  let formatVer ← u32.read
  require (formatVer = kArtifactFormatVersion)
  let llvmVersion ← str.read
  put fun h => h.setLlvmVersion llvmVersion
  let targetTriple ← str.read
  put fun h => h.setTargetTriple targetTriple
  let cpuName ← str.read
  put fun h => h.setCpuName cpuName
  let modeByte ← Codec.byte.read
  let mode ← ofOption (ArtifactMode.ofByte modeByte)
  put fun h => h.setMode mode
  let fpByte ← Codec.byte.read
  let fpMathMode ← ofOption (FPMathMode.ofByte fpByte)
  put fun h => h.setFPMathMode fpMathMode
  let numEntries ← u32.read
  require (numEntries ≠ 0)
  require (¬(mode = .kSingle ∧ numEntries ≠ 1))
  let perEntryRetTypes ← (Codec.byte.replicate numEntries).read
  put fun h => h.setRetTypes perEntryRetTypes
  u64.read

/-- `parseCore` up to the count of the entries. -/
def parseHead : Parse Nat := do
  magic.read
  let formatVer ← u32.read
  require (formatVer = kArtifactFormatVersion)
  let llvmVersion ← str.read
  put fun h => h.setLlvmVersion llvmVersion
  let targetTriple ← str.read
  put fun h => h.setTargetTriple targetTriple
  let cpuName ← str.read
  put fun h => h.setCpuName cpuName
  let modeByte ← Codec.byte.read
  let mode ← ofOption (ArtifactMode.ofByte modeByte)
  put fun h => h.setMode mode
  let fpByte ← Codec.byte.read
  let fpMathMode ← ofOption (FPMathMode.ofByte fpByte)
  put fun h => h.setFPMathMode fpMathMode
  let numEntries ← u32.read
  require (numEntries ≠ 0)
  require (¬(mode = .kSingle ∧ numEntries ≠ 1))
  return numEntries

def parseEntries (numEntries : Nat) : Parse Nat := do
  let perEntryRetTypes ← (Codec.byte.replicate numEntries).read
  put fun h => h.setRetTypes perEntryRetTypes
  u64.read

theorem parseCore_eq : parseCore = parseHead >>= parseEntries := by
  unfold parseCore parseHead
  simp only [bind_assoc, pure_bind]
  rfl

def parsePayload (objSize : Nat) : Parse Unit := do
  let object ← (Codec.bytes objSize).read
  writeObject object
  let exts ← extensions.read
  put fun h => h.setExtensions exts
  footer.read
  atEnd

theorem parse_bind_eq_some_iff {α β : Type} {p : Parse α} {q : α → Parse β}
    {s s'' : Written × Bytes} {v : β} :
    (p >>= q) s = some (v, s'') ↔ ∃ a s', p s = some (a, s') ∧ q a s' = some (v, s'') := by
  change (p s).bind (fun r => q r.1 r.2) = _ ↔ _
  simp [Option.bind_eq_some_iff]

theorem parse_require {p : Prop} [Decidable p] {s s' : Written × Bytes} {v : Unit} :
    require p s = some (v, s') ↔ p ∧ s' = s := by
  unfold require
  split <;> simp_all [eq_comm]

theorem parse_ofOption {α : Type} {o : Option α} {s s' : Written × Bytes} {v : α} :
    ofOption o s = some (v, s') ↔ o = some v ∧ s' = s := by
  simp [ofOption, eq_comm]

/-! ## 4. The parser accepts exactly the encodings -/

theorem parse_bind_of {α β : Type} {p : Parse α} {q : α → Parse β} {s s' : Written × Bytes} {v : α}
    (h : p s = some (v, s')) : (p >>= q) s = q v s' := by
  change (p s).bind (fun r => q r.1 r.2) = _
  rw [h]
  rfl

theorem read_bind {α β : Type} {c : Codec α} {q : α → Parse β} {v : α} {w : Written} {rest : Bytes}
    (hv : c.Valid v) : (c.read >>= q) (w, c.encode v ++ rest) = q v (w, rest) :=
  parse_bind_of (c.read_encode hv w rest)

theorem put_bind {β : Type} {f : ArtifactHeader → ArtifactHeader} {q : Unit → Parse β}
    {w : Written} {rest : Bytes} :
    (put f >>= q) (w, rest) = q () (⟨f w.header, w.object⟩, rest) := rfl

theorem writeObject_bind {β : Type} {o : Bytes} {q : Unit → Parse β} {w : Written}
    {rest : Bytes} : (writeObject o >>= q) (w, rest) = q () (⟨w.header, some o⟩, rest) := rfl

theorem parse_require_of {p : Prop} [Decidable p] {s : Written × Bytes} (h : p) :
    require p s = some ((), s) := if_pos h

/-- The head of a header is read back, with the count behind it. -/
theorem parseHead_encodeHead {h : ArtifactHeader} {num : Nat} (hv : HeadValid h num) (w : Written)
    (rest : Bytes) : parseHead (w, encodeHead h ++ (u32.encode num ++ rest)) =
      some (num, (⟨{ h with
        perEntryRetTypes := w.header.perEntryRetTypes
        extensions := w.header.extensions }, w.object⟩, rest)) := by
  have hsingle : ¬(h.mode = .kSingle ∧ num ≠ 1) := fun hc => hc.2 (hv.single hc.1)
  simp only [encodeHead, List.append_assoc]
  unfold parseHead
  rw [read_bind trivial, read_bind (u32_valid.mpr (by decide)),
    parse_bind_of (parse_require_of rfl),
    read_bind (str_valid.mpr hv.llvmVersion), put_bind,
    read_bind (str_valid.mpr hv.targetTriple), put_bind,
    read_bind (str_valid.mpr hv.cpuName), put_bind]
  rw [read_bind trivial,
    parse_bind_of (parse_ofOption.mpr ⟨ArtifactMode.ofByte_eq_some_iff.mpr rfl, rfl⟩), put_bind,
    read_bind trivial,
    parse_bind_of (parse_ofOption.mpr ⟨FPMathMode.ofByte_eq_some_iff.mpr rfl, rfl⟩), put_bind]
  rw [read_bind (u32_valid.mpr hv.num_lt), parse_bind_of (parse_require_of hv.num_ne_zero),
    parse_bind_of (parse_require_of hsingle)]
  rfl

/-- The core fields of a valid header are read back. -/
theorem parseCore_encodeCore {h : ArtifactHeader} {n : Nat} (hv : CoreValid h) (hn : n < 2 ^ 64)
    (w : Written) (rest : Bytes) : parseCore (w, encodeCore h n ++ rest) =
      some (n, (⟨{ h with extensions := w.header.extensions }, w.object⟩, rest)) := by
  have hall : (Codec.byte.replicate h.perEntryRetTypes.length).Valid h.perEntryRetTypes :=
    ⟨rfl, fun _ _ => trivial⟩
  rw [parseCore_eq, encodeCore_eq]
  simp only [List.append_assoc]
  rw [parse_bind_of (parseHead_encodeHead hv.head w _)]
  unfold parseEntries
  rw [read_bind hall, put_bind]
  exact u64.read_encode (u64_valid.mpr hn) _ _

theorem ofOption_some_bind {α β : Type} {v : α} {q : α → Parse β} :
    (ofOption (some v) >>= q) = q v := rfl

/-! Taking a successful parse apart, one step at a time. -/

theorem read_bind_inv {α β : Type} {c : Codec α} {q : α → Parse β} {w : Written} {b : Bytes}
    {r : β × (Written × Bytes)} (h : (c.read >>= q) (w, b) = some r) :
    ∃ v rest, c.Valid v ∧ b = c.encode v ++ rest ∧ q v (w, rest) = some r := by
  obtain ⟨v, ⟨w', rest⟩, hread, hq⟩ := parse_bind_eq_some_iff.mp h
  obtain ⟨hv, rfl, rfl⟩ := c.read_eq_some_iff.mp hread
  exact ⟨v, rest, hv, rfl, hq⟩

theorem require_bind_inv {β : Type} {p : Prop} [Decidable p] {q : Unit → Parse β}
    {s : Written × Bytes} {r : β × (Written × Bytes)} (h : (require p >>= q) s = some r) :
    p ∧ q () s = some r := by
  obtain ⟨_, s', hreq, hq⟩ := parse_bind_eq_some_iff.mp h
  obtain ⟨hp, rfl⟩ := parse_require.mp hreq
  exact ⟨hp, hq⟩

theorem ofOption_bind_inv {α β : Type} {o : Option α} {q : α → Parse β}
    {s : Written × Bytes} {r : β × (Written × Bytes)} (h : (ofOption o >>= q) s = some r) :
    ∃ v, o = some v ∧ q v s = some r := by
  obtain ⟨v, s', ho, hq⟩ := parse_bind_eq_some_iff.mp h
  obtain ⟨hv, rfl⟩ := parse_ofOption.mp ho
  exact ⟨v, hv, hq⟩

/-- **The head.**  Every check of the parser pins the bytes it covers. -/
theorem parseHead_sound {w w' : Written} {b b' : Bytes} {num : Nat}
    (h : parseHead (w, b) = some (num, (w', b'))) :
    HeadValid w'.header num ∧ w'.header.perEntryRetTypes = w.header.perEntryRetTypes ∧
      w'.header.extensions = w.header.extensions ∧ w'.object = w.object ∧
        b = encodeHead w'.header ++ (u32.encode num ++ b') := by
  unfold parseHead at h
  obtain ⟨_, b, -, rfl, h₁⟩ := read_bind_inv h
  obtain ⟨ver, b, -, rfl, h₂⟩ := read_bind_inv h₁
  obtain ⟨rfl, h₃⟩ := require_bind_inv h₂
  obtain ⟨llvm, b, hllvm, rfl, h₄⟩ := read_bind_inv h₃
  rw [put_bind] at h₄
  obtain ⟨triple, b, htriple, rfl, h₅⟩ := read_bind_inv h₄
  rw [put_bind] at h₅
  obtain ⟨cpu, b, hcpu, rfl, h₆⟩ := read_bind_inv h₅
  rw [put_bind] at h₆
  obtain ⟨modeByte, b, -, rfl, h₇⟩ := read_bind_inv h₆
  obtain ⟨mode, hmode, h₈⟩ := ofOption_bind_inv h₇
  rw [put_bind] at h₈
  obtain ⟨fpByte, b, -, rfl, h₉⟩ := read_bind_inv h₈
  obtain ⟨fp, hfp, h₁₀⟩ := ofOption_bind_inv h₉
  rw [put_bind] at h₁₀
  obtain ⟨n, b, hnum, rfl, h₁₁⟩ := read_bind_inv h₁₀
  obtain ⟨hne, h₁₂⟩ := require_bind_inv h₁₁
  obtain ⟨hsingle, h₁₃⟩ := require_bind_inv h₁₂
  obtain ⟨rfl, rfl, rfl⟩ : n = num ∧ _ = w' ∧ b = b' := by
    simpa only [Prod.mk.injEq] using Option.some.inj h₁₃
  rw [ArtifactMode.ofByte_eq_some_iff] at hmode
  rw [FPMathMode.ofByte_eq_some_iff] at hfp
  subst hmode hfp
  refine ⟨⟨str_valid.mp hllvm, str_valid.mp htriple, str_valid.mp hcpu, u32_valid.mp hnum, hne, ?_⟩,
    rfl, rfl, rfl, ?_⟩
  · intro hm
    by_contra hlen
    exact hsingle ⟨hm, hlen⟩
  · simp only [encodeHead, List.append_assoc]
    rfl

/-- **The core fields.** -/
theorem parseCore_sound {w w' : Written} {b b' : Bytes} {n : Nat}
    (h : parseCore (w, b) = some (n, (w', b'))) :
    CoreValid w'.header ∧ n < 2 ^ 64 ∧ w'.header.extensions = w.header.extensions ∧
      w'.object = w.object ∧ b = encodeCore w'.header n ++ b' := by
  rw [parseCore_eq] at h
  obtain ⟨num, ⟨w₁, b₁⟩, hhead, h₁⟩ := parse_bind_eq_some_iff.mp h
  obtain ⟨hv, -, hexts, hobj, rfl⟩ := parseHead_sound hhead
  unfold parseEntries at h₁
  obtain ⟨ts, b, ⟨rfl, -⟩, rfl, h₂⟩ := read_bind_inv h₁
  rw [put_bind] at h₂
  obtain ⟨hn, hw, hb⟩ := u64.read_eq_some_iff.mp h₂
  obtain rfl : b = u64.encode n ++ b' := hb
  obtain rfl : w' = _ := hw
  refine ⟨⟨hv.llvmVersion, hv.targetTriple, hv.cpuName, hv.num_lt, ?_, hv.single⟩, u64_valid.mp hn,
    hexts, hobj, ?_⟩
  · rintro rfl
    exact hv.num_ne_zero rfl
  · rw [encodeCore_eq]
    simp only [List.append_assoc]
    rfl

/-- The object, the extension area and the footer are read back, and nothing may follow. -/
theorem parsePayload_encodePayload {h : ArtifactHeader} {o : Bytes}
    (hv : ExtensionsValid h.extensions) (w : Written) :
    parsePayload o.length (w, encodePayload h o) =
      some ((), (⟨{ w.header with extensions := h.extensions }, some o⟩, [])) := by
  unfold parsePayload encodePayload
  rw [read_bind rfl, writeObject_bind, read_bind (extensions_valid.mpr hv), put_bind,
    read_bind trivial]
  rfl

theorem parsePayload_sound {w w' : Written} {b b' : Bytes} {n : Nat}
    (h : parsePayload n (w, b) = some ((), (w', b'))) :
    ∃ o, o.length = n ∧ w'.object = some o ∧ ExtensionsValid w'.header.extensions ∧
      w'.header = { w.header with extensions := w'.header.extensions } ∧ b' = [] ∧
        b = encodePayload w'.header o := by
  unfold parsePayload at h
  obtain ⟨o, b, hlen, rfl, h₁⟩ := read_bind_inv h
  rw [writeObject_bind] at h₁
  obtain ⟨exts, b, hexts, rfl, h₂⟩ := read_bind_inv h₁
  rw [put_bind] at h₂
  obtain ⟨_, b, -, rfl, hend⟩ := read_bind_inv h₂
  unfold atEnd at hend
  split at hend
  · next hnil =>
    simp only [Option.some.injEq, Prod.mk.injEq, true_and] at hend
    obtain ⟨rfl, rfl⟩ := hend
    obtain rfl : b = [] := hnil
    obtain rfl : o.length = n := hlen
    exact ⟨o, rfl, rfl, extensions_valid.mp hexts, rfl, rfl, rfl⟩
  · cases hend

/-! ## 5. Whole artifacts -/

def parseArtifact : Parse Unit := parseCore >>= parsePayload

/-- The artifacts the format can carry. -/
structure Encodable (h : ArtifactHeader) (objectBytes : Bytes) : Prop where
  core : CoreValid h
  exts : ExtensionsValid h.extensions
  object : objectBytes.length < 2 ^ 64

theorem parseArtifact_encode {h : ArtifactHeader} {o : Bytes} (hv : Encodable h o) (w : Written) :
    parseArtifact (w, encode h o) = some ((), (⟨h, some o⟩, [])) := by
  unfold parseArtifact encode
  rw [parse_bind_of (parseCore_encodeCore hv.core hv.object w _),
    parsePayload_encodePayload hv.exts]

/-- **Every accepted input is an encoding.** -/
theorem parseArtifact_sound {w w' : Written} {b b' : Bytes}
    (h : parseArtifact (w, b) = some ((), (w', b'))) :
    ∃ o, w'.object = some o ∧ Encodable w'.header o ∧ b' = [] ∧ b = encode w'.header o := by
  obtain ⟨n, ⟨w₁, b₁⟩, hcore, hpayload⟩ := parse_bind_eq_some_iff.mp h
  obtain ⟨hv, hn, -, -, rfl⟩ := parseCore_sound hcore
  obtain ⟨o, rfl, ho, hexts, hh, rfl, rfl⟩ := parsePayload_sound hpayload
  rw [hh] at hexts ⊢
  exact ⟨o, ho, ⟨⟨hv.1, hv.2, hv.3, hv.4, hv.5, hv.6⟩, hexts, hn⟩, rfl, rfl⟩

/-- An input has one core. -/
theorem encodeCore_append_inj {h h' : ArtifactHeader} {n n' : Nat} {r r' : Bytes}
    (hv : CoreValid h) (hv' : CoreValid h') (hn : n < 2 ^ 64) (hn' : n' < 2 ^ 64)
    (heq : encodeCore h n ++ r = encodeCore h' n' ++ r') : n = n' ∧ r = r' := by
  have hp := parseCore_encodeCore hv hn ⟨h, none⟩ r
  rw [heq, parseCore_encodeCore hv' hn' ⟨h, none⟩ r'] at hp
  simp only [Option.some.injEq, Prod.mk.injEq] at hp
  exact ⟨hp.1.symm, hp.2.2.symm⟩

/-- **No artifact is a strict prefix of another.** -/
theorem encode_append_inj {h h' : ArtifactHeader} {o o' t : Bytes} (hv : Encodable h o)
    (hv' : Encodable h' o') (heq : encode h o ++ t = encode h' o') : t = [] := by
  simp only [encode, List.append_assoc] at heq
  obtain ⟨hlen, hpayload⟩ := encodeCore_append_inj hv.core hv'.core hv.object hv'.object heq
  simp only [encodePayload, List.append_assoc] at hpayload
  obtain ⟨-, htail⟩ := List.append_inj hpayload hlen
  obtain ⟨-, hfooter⟩ := extensions.encode_append_inj (extensions_valid.mpr hv.exts)
    (extensions_valid.mpr hv'.exts) htail
  exact List.append_cancel_left hfooter

/-! ## 6. The two loops of the reader

The reader fills `per_entry_ret_types` in place and appends to `extensions` one record at a time;
the parser takes each list whole. -/

/-- Overwriting the entries from `i` on, `n` of them. -/
def parseRetTypes (i : Nat) : Nat → Parse Unit
  | 0 => return
  | n + 1 => do
    let t ← Codec.byte.read
    put fun h => h.setRetTypes (h.perEntryRetTypes.set i t)
    parseRetTypes (i + 1) n

def parseExtensions : Nat → Parse Unit
  | 0 => return
  | n + 1 => do
    let tag ← u32.read
    let plen ← u32.read
    let payload ← (Codec.bytes plen).read
    put fun h => h.setExtensions (h.extensions ++ [⟨UInt32.ofNat tag, payload⟩])
    parseExtensions n

/-- The entries before `i` stay, those from `i` on are replaced by what is read. -/
theorem parseRetTypes_eq (n : Nat) (w : Written) (b : Bytes) (pre tail : List UInt8)
    (htail : tail.length = n) (hw : w.header.perEntryRetTypes = pre ++ tail) :
    parseRetTypes pre.length n (w, b) = (Codec.byte.decodeAll n b).map fun r =>
      ((), (⟨w.header.setRetTypes (pre ++ r.1), w.object⟩, r.2)) := by
  induction n generalizing w b pre tail with
  | zero =>
    obtain rfl := List.eq_nil_of_length_eq_zero htail
    rw [List.append_nil] at hw
    simp only [Codec.decodeAll, Option.map_some, List.append_nil, ← hw]
    rfl
  | succ n ih =>
    rcases tail with _ | ⟨t₀, tail⟩
    · cases htail
    rcases b with _ | ⟨t, b⟩
    · rfl
    have hset : (pre ++ t₀ :: tail).set pre.length t = (pre ++ [t]) ++ tail := by simp
    replace ih := ih ⟨w.header.setRetTypes ((pre ++ [t]) ++ tail), w.object⟩ b (pre ++ [t]) tail
      (Nat.succ.inj htail) rfl
    rw [List.length_append, List.length_singleton] at ih
    rw [parseRetTypes, parse_bind_of rfl, put_bind]
    simp only [hw, hset]
    refine ih.trans ?_
    have hdec : Codec.byte.decodeAll (n + 1) (t :: b) =
        (Codec.byte.decodeAll n b).map fun r => (t :: r.1, r.2) := by
      change (Codec.byte.decodeAll n b).bind _ = _
      cases Codec.byte.decodeAll n b <;> rfl
    rw [hdec, Option.map_map]
    congr 1
    funext r
    simp [ArtifactHeader.setRetTypes]

/-- **Sizing the vector and filling it in place writes the entries read.** -/
theorem read_retTypes {β : Type} (n : Nat) (q : Unit → Parse β) :
    ((Codec.byte.replicate n).read >>= fun ts => put (fun h => h.setRetTypes ts) >>= q) =
      put (fun h => h.setRetTypes (resize h.perEntryRetTypes n)) >>= fun _ =>
        parseRetTypes 0 n >>= q := by
  funext ⟨w, b⟩
  have hlen : (resize w.header.perEntryRetTypes n).length = n := by simp [resize]; omega
  have h := parseRetTypes_eq n
    ⟨w.header.setRetTypes (resize w.header.perEntryRetTypes n), w.object⟩ b [] _ hlen rfl
  rw [put_bind]
  change ((Codec.byte.decodeAll n b).map _).bind _ = (parseRetTypes 0 n _).bind _
  rw [show parseRetTypes 0 n _ = _ from h]
  cases Codec.byte.decodeAll n b <;> rfl

/-- What is written before a read can be written after it. -/
theorem put_bind_read {α β : Type} (c : Codec α) (f : ArtifactHeader → ArtifactHeader)
    (q : α → Parse β) :
    (put f >>= fun _ => c.read >>= q) = c.read >>= fun v => put f >>= fun _ => q v := by
  funext ⟨w, b⟩
  change ((c.decode b).map _).bind _ = ((c.decode b).map _).bind _
  cases c.decode b <;> rfl

theorem put_bind_put (f g : ArtifactHeader → ArtifactHeader) :
    (put f >>= fun _ => put g) = put fun h => g (f h) := rfl

theorem read_extension : (extension.read : Parse ArtifactExtension) = do
    let tag ← u32.read
    let plen ← u32.read
    let payload ← (Codec.bytes plen).read
    return ⟨UInt32.ofNat tag, payload⟩ := by
  have hstr : (str.read : Parse Bytes) = _ := Codec.read_lenPrefixed 4
  have hpair : (extension.read : Parse ArtifactExtension) =
      u32.read >>= fun tag => str.read >>= fun payload => pure ⟨UInt32.ofNat tag, payload⟩ := by
    funext ⟨w, b⟩
    change (((u32.decode b).bind _).map _).map _ = ((u32.decode b).map _).bind _
    cases u32.decode b with
    | none => rfl
    | some nb =>
      change (((str.decode nb.2).bind _).map _).map _ = ((str.decode nb.2).map _).bind _
      cases str.decode nb.2 <;> rfl
  rw [hpair, hstr]
  simp only [bind_assoc]
  rfl

/-- **Appending one record at a time writes the records read.** -/
theorem parseExtensions_eq (n : Nat) : parseExtensions n = (extension.replicate n).read >>=
    fun exts => put fun h => h.setExtensions (h.extensions ++ exts) := by
  induction n with
  | zero =>
    funext s
    rcases s with ⟨w, b⟩
    change some ((), (w, b)) = some ((), (⟨w.header.setExtensions _, w.object⟩, b))
    rw [List.append_nil]
    rfl
  | succ n ih =>
    have hstep : parseExtensions (n + 1) = extension.read >>= fun e =>
        put (fun h => h.setExtensions (h.extensions ++ [e])) >>= fun _ => parseExtensions n := by
      rw [read_extension]
      simp only [bind_assoc, pure_bind]
      rfl
    rw [hstep, ih, Codec.read_replicate_succ]
    simp only [bind_assoc, pure_bind, put_bind_read, put_bind_put]
    simp [ArtifactHeader.setExtensions]

/-- The extension area as the reader takes it. -/
theorem read_extensions {β : Type} (q : Unit → Parse β) : (extensions.read >>= fun exts =>
    put (fun h => h.setExtensions exts) >>= q) = u32.read >>= fun n =>
      put (fun h => h.setExtensions []) >>= fun _ => parseExtensions n >>= q := by
  have hcount : (extensions.read : Parse (List ArtifactExtension)) = _ :=
    Codec.read_countPrefixed extension 4
  rw [hcount]
  simp only [bind_assoc, parseExtensions_eq, put_bind_read]
  rfl

/-! ## 7. The writer writes the encoding -/

theorem appendU32LE_eq {out : Bytes} {n : Nat} (h : n < 2 ^ 32) :
    appendU32LE out n = out ++ u32.encode n := by
  rw [appendU32LE, Nat.mod_eq_of_lt h]
  rfl

theorem appendLenPrefixedStr_eq {out s : Bytes} (h : s.length < 2 ^ 32) :
    appendLenPrefixedStr out s = out ++ str.encode s := by
  rw [appendLenPrefixedStr, appendU32LE_eq h, appendBytes, List.append_assoc]
  rfl

theorem appendExtension_eq {out : Bytes} {e : ArtifactExtension} (h : e.payload.length < 2 ^ 32) :
    appendExtension out e = out ++ extension.encode e := by
  simp only [appendExtension, appendU32LE_eq e.tag.toNat_lt, appendU32LE_eq h, appendBytes,
    List.append_assoc]
  rfl

/-- The loop over the return types appends them. -/
theorem foldl_appendU8 (ts : List UInt8) (out : Bytes) :
    ts.foldl appendU8 out = out ++ Codec.byte.encodeAll ts := by
  induction ts generalizing out with
  | nil => simp
  | cons t ts ih =>
    simp only [List.foldl_cons, ih, appendU8, Codec.encodeAll_cons, List.append_assoc]
    rfl

/-- The loop over the extensions appends their encodings. -/
theorem foldl_appendExtension (exts : List ArtifactExtension) (out : Bytes)
    (h : ∀ e ∈ exts, e.payload.length < 2 ^ 32) :
    exts.foldl appendExtension out = out ++ extension.encodeAll exts := by
  induction exts generalizing out with
  | nil => simp
  | cons e exts ih =>
    have he := h e List.mem_cons_self
    rw [List.foldl_cons, appendExtension_eq he, ih _ fun x hx => h x (List.mem_cons_of_mem _ hx),
      Codec.encodeAll_cons, List.append_assoc]

/-- **`serializeArtifact` writes the encoding**, after whatever `*out` held. -/
theorem serializeArtifact_eq {h : ArtifactHeader} (hv : CoreValid h)
    (hexts : ExtensionsValid h.extensions) (o out : Bytes) :
    serializeArtifact h o (some out) =
      .ok (out ++ (encodeCore h (o.length % 2 ^ 64) ++ encodePayload h o)) := by
  have hne : h.perEntryRetTypes ≠ [] := hv.retTypes_ne_nil
  have hsingle : ¬(h.mode = .kSingle ∧ h.perEntryRetTypes.length ≠ 1) :=
    fun hc => hc.2 (hv.single hc.1)
  have hmod : h.perEntryRetTypes.length % 2 ^ 32 = h.perEntryRetTypes.length :=
    Nat.mod_eq_of_lt hv.retTypes
  have hver : kArtifactFormatVersion < 2 ^ 32 := by decide
  simp only [serializeArtifact, if_neg hne, if_neg hsingle, hmod, List.take_length]
  simp only [appendU32LE_eq hver, appendLenPrefixedStr_eq hv.llvmVersion,
    appendLenPrefixedStr_eq hv.targetTriple, appendLenPrefixedStr_eq hv.cpuName,
    appendU32LE_eq hv.retTypes, appendU32LE_eq hexts.count, foldl_appendU8,
    foldl_appendExtension _ _ hexts.payload, appendBytes, appendU8, appendU64LE]
  simp only [encodeCore, encodePayload, List.append_assoc, Except.ok.injEq]
  rfl

theorem serializeArtifact_eq_encode {h : ArtifactHeader} {o : Bytes} (hv : Encodable h o) :
    serializeArtifact h o (some []) = .ok (encode h o) := by
  rw [serializeArtifact_eq hv.core hv.exts, Nat.mod_eq_of_lt hv.object]
  rfl

end ArtifactLayout
end JitFusion
