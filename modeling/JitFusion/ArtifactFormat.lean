/-
# The artifact format: round trip, canonicity, and staying inside the blob

What `ArtifactReader` says about whole artifacts.

* `deserializeArtifact_serializeArtifact`: a valid artifact is read back, whatever the output
  header held before.
* `deserializeArtifact_canonical`: if the `obj_size` field does not exceed the bytes behind it,
  an accepted blob is what the writer writes for the header and object that were read, and no
  other prefix or extension of it is accepted.
* `deserializeArtifact_insideBlob_iff`: parsing stays inside the blob EXACTLY when the `obj_size`
  field, where there is one, does not wrap the cursor.  `escapingBlob` is what happens when it
  does: 51 bytes are accepted with a view of nearly 2^64.
-/
import JitFusion.ArtifactReader

namespace JitFusion

open Wire ArtifactLayout Fallible

/-! ## 1. Reading back what was written -/

/-- What a successful parse leaves in the output parameters. -/
structure Accepted (buf : Bytes) (res : Except Status Unit × ArtifactReader) (h : ArtifactHeader)
    (o : Bytes) : Prop where
  status : res.1 = .ok ()
  header : res.2.out.header = h
  object : res.2.out.object.map (ObjectView.bytes buf) = some o

/-- The `obj_size` field, where there is one, does not exceed the bytes behind it. -/
def ObjSizeWithin (buf : Bytes) : Prop :=
  ∀ h n rest, CoreValid h → n < 2 ^ 64 → buf = encodeCore h n ++ rest → n ≤ rest.length

theorem ObjSizeWithin.fits {buf : Bytes} (h : ObjSizeWithin buf) (hsize : buf.length < 2 ^ 64) :
    ObjSizeFits buf := by
  intro hd n rest hv hn heq
  have hlen := congrArg List.length heq
  have hle := h hd n rest hv hn heq
  rw [List.length_append] at hlen
  omega

/-- The object is part of its artifact. -/
theorem objSizeWithin_encode {h : ArtifactHeader} {o : Bytes} (hv : Encodable h o) :
    ObjSizeWithin (encode h o) := by
  intro h' n rest hv' hn heq
  obtain ⟨rfl, rfl⟩ := encodeCore_append_inj hv.core hv' hv.object hn heq
  simp only [encodePayload, Codec.bytes, List.length_append]
  omega

/-- **Decoding undoes encoding.**  Whatever the output header held before, it ends up as the
header that was written, and the view covers the object bytes. -/
theorem deserializeArtifact_serializeArtifact (h : ArtifactHeader) (o : Bytes)
    (hv : CoreValid h) (hexts : ExtensionsValid h.extensions) (h₀ : ArtifactHeader) :
    ∃ blob, serializeArtifact h o (some []) = .ok blob ∧
      (blob.length < 2 ^ 64 → Accepted blob (deserializeArtifact blob (some h₀)) h o) := by
  refine ⟨_, serializeArtifact_eq hv hexts o [], fun hsize => ?_⟩
  have hobj : o.length < 2 ^ 64 := by
    simp only [encodePayload, Codec.bytes, List.length_append] at hsize
    omega
  have hblob : [] ++ (encodeCore h (o.length % 2 ^ 64) ++ encodePayload h o) = encode h o := by
    rw [Nat.mod_eq_of_lt hobj]
    rfl
  rw [hblob] at hsize ⊢
  have henc : Encodable h o := ⟨hv, hexts, hobj⟩
  have ht := tracks_deserialize h₀ hsize fun _ => (objSizeWithin_encode henc).fits hsize
  unfold Tracks at ht
  rw [parseArtifact_encode henc] at ht
  obtain ⟨_, r, hrun, -, hs, -⟩ := ht
  refine ⟨?_, ?_, ?_⟩
  · rw [deserializeArtifact, hrun]
  · rw [deserializeArtifact, hrun, hs.header]
  · rw [deserializeArtifact, hrun, hs.object]

theorem deserializeArtifact_serializeArtifact_single :
    ∃ blob, serializeArtifact
        { llvmVersion := [0x4a], perEntryRetTypes := [5], extensions := [⟨7, [1, 2]⟩] } [1, 2, 3]
          (some []) = .ok blob ∧
      (blob.length < 2 ^ 64 → Accepted blob
        (deserializeArtifact blob (some { cpuName := [9], perEntryRetTypes := [1, 1] }))
          { llvmVersion := [0x4a], perEntryRetTypes := [5], extensions := [⟨7, [1, 2]⟩] }
            [1, 2, 3]) :=
  deserializeArtifact_serializeArtifact _ _
    ⟨by decide, by decide, by decide, by decide, by decide, by decide⟩ ⟨by decide, by decide⟩ _

/-! ## 2. Blobs

A `std::string_view` cannot cover more than `PTRDIFF_MAX` bytes, so no 32-bit length can wrap the
cursor of a real blob. -/

structure Blob where
  bytes : Bytes
  size_lt : bytes.length < 2 ^ 63

theorem Blob.length_lt (b : Blob) : b.bytes.length < 2 ^ 64 :=
  b.size_lt.trans (by decide)

theorem Blob.small (b : Blob) : b.bytes.length + 2 ^ 32 ≤ 2 ^ 64 := by
  have h := b.size_lt
  omega

/-- The reader accepts a blob whose `obj_size` fits only where the parser does. -/
theorem parse_of_deserialize {b : Blob} {h₀ : ArtifactHeader} (hfits : ObjSizeFits b.bytes)
    (hok : (deserializeArtifact b.bytes (some h₀)).1 = .ok ()) :
    ∃ h o, Encodable h o ∧ b.bytes = encode h o ∧
      Accepted b.bytes (deserializeArtifact b.bytes (some h₀)) h o := by
  have ht := tracks_deserialize h₀ b.length_lt fun _ => hfits
  unfold Tracks at ht
  rw [deserializeArtifact] at hok ⊢
  cases hp : parseArtifact (⟨h₀, none⟩, b.bytes) with
  | none =>
    rw [hp] at ht
    obtain ⟨e, r, hrun, -, -⟩ := ht b.small
    rw [hrun] at hok
    cases hok
  | some vs =>
    obtain ⟨_, w, rest⟩ := vs
    rw [hp] at ht
    obtain ⟨_, r, hrun, -, hs, -⟩ := ht
    obtain ⟨o, ho, henc, -, hb⟩ := parseArtifact_sound hp
    refine ⟨w.header, o, henc, hb, ?_, ?_, ?_⟩
    · rw [hrun]
    · rw [hrun, hs.header]
    · rw [hrun, hs.object, ho]

/-! ## 3. Accepted blobs are canonical -/

/-- The field of a prefix is the field of the whole. -/
theorem ObjSizeWithin.fits_of_prefix {b b' : Blob} (h : ObjSizeWithin b.bytes)
    (hp : b'.bytes <+: b.bytes) : ObjSizeFits b'.bytes := by
  intro hd n rest hv hn heq
  obtain ⟨t, ht⟩ := hp
  have hwhole : b.bytes = encodeCore hd n ++ (rest ++ t) := by
    rw [← ht, heq, List.append_assoc]
  exact h.fits b.length_lt hd n _ hv hn hwhole

/-- The field of an artifact is the field of every extension of it. -/
theorem objSizeFits_of_extension {b' : Blob} {h : ArtifactHeader} {o : Bytes} (hv : Encodable h o)
    (hp : encode h o <+: b'.bytes) : ObjSizeFits b'.bytes := by
  intro hd n rest hv' hn heq
  obtain ⟨t, ht⟩ := hp
  have hsplit : encodeCore h o.length ++ (encodePayload h o ++ t) = encodeCore hd n ++ rest := by
    rw [← List.append_assoc, ← heq, ← ht]
    rfl
  obtain ⟨rfl, rfl⟩ := encodeCore_append_inj hv.core hv' hv.object hn hsplit
  have hlen := congrArg List.length heq
  have hlt := b'.length_lt
  simp only [encodePayload, Codec.bytes, List.length_append] at hlen
  omega

/-- **Exactly the documented layout is accepted.**  If `obj_size` does not exceed the bytes behind
it, an accepted blob is what `serializeArtifact` writes for the header and object that were read,
and no strict prefix and no strict extension of it is accepted. -/
theorem deserializeArtifact_canonical (b : Blob) (hobj : ObjSizeWithin b.bytes)
    (h₀ h : ArtifactHeader) (o : Bytes)
    (hacc : Accepted b.bytes (deserializeArtifact b.bytes (some h₀)) h o) :
    serializeArtifact h o (some []) = .ok b.bytes ∧
      ∀ (b' : Blob) (h₁ : ArtifactHeader), b'.bytes <+: b.bytes ∨ b.bytes <+: b'.bytes →
        b'.bytes ≠ b.bytes → (deserializeArtifact b'.bytes (some h₁)).1 ≠ .ok () := by
  obtain ⟨h', o', henc, hb, hacc'⟩ := parse_of_deserialize (hobj.fits b.length_lt) hacc.status
  obtain rfl : h' = h := hacc'.header.symm.trans hacc.header
  obtain rfl : o' = o := Option.some.inj (hacc'.object.symm.trans hacc.object)
  refine ⟨by rw [serializeArtifact_eq_encode henc, hb], ?_⟩
  intro b' h₁ hp hne hok
  have hfits : ObjSizeFits b'.bytes := by
    rcases hp with hp | hp
    · exact hobj.fits_of_prefix hp
    · rw [hb] at hp
      exact objSizeFits_of_extension henc hp
  obtain ⟨h'', o'', henc', hb', -⟩ := parse_of_deserialize hfits hok
  refine hne ?_
  rw [hb, hb'] at hp ⊢
  rcases hp with ⟨t, ht⟩ | ⟨t, ht⟩
  · rw [← ht, encode_append_inj henc' henc ht, List.append_nil]
  · rw [← ht, encode_append_inj henc henc' ht, List.append_nil]

/-- An artifact with an entry of type `kI32`, a two-byte object and an unknown extension. -/
def sampleHeader : ArtifactHeader :=
  { cpuName := [0x78], perEntryRetTypes := [7], extensions := [⟨3, [0]⟩] }

def sampleBlob : Blob := ⟨encode sampleHeader [0xaa, 0xbb], by decide⟩

theorem deserializeArtifact_canonical_sampleBlob :
    serializeArtifact sampleHeader [0xaa, 0xbb] (some []) = .ok sampleBlob.bytes ∧
      ∀ (b' : Blob) (h₁ : ArtifactHeader),
        b'.bytes <+: sampleBlob.bytes ∨ sampleBlob.bytes <+: b'.bytes →
          b'.bytes ≠ sampleBlob.bytes → (deserializeArtifact b'.bytes (some h₁)).1 ≠ .ok () :=
  deserializeArtifact_canonical sampleBlob
    (objSizeWithin_encode ⟨⟨by decide, by decide, by decide, by decide, by decide, by decide⟩,
      ⟨by decide, by decide⟩, by decide⟩)
    {} sampleHeader [0xaa, 0xbb]
    ⟨by decide +kernel, by decide +kernel, by decide +kernel⟩

/-! ## 4. Staying inside the blob -/

/-- At every step the cursor stayed inside and did not go back, every byte read was there, and a
view that was handed out is part of the blob. -/
def InsideBlob (buf : Bytes) (res : Except Status Unit × ArtifactReader) : Prop :=
  (∀ e ∈ res.2.log, e.Inside buf.length) ∧
    (res.1 = .ok () → ∃ v, res.2.out.object = some v ∧ v.start + v.len ≤ buf.length)

/-- The log only grows. -/
def Logs {α : Type} (m : ReadM α) : Prop := ∀ r, r.log <+: (m.run r).2.log

theorem Logs.bind {α β : Type} {m : ReadM α} {f : α → ReadM β} (hm : Logs m)
    (hf : ∀ v, Logs (f v)) : Logs (m >>= f) := by
  intro r
  have h := hm r
  rw [run_bind_eq]
  split
  · next v r' hrun =>
    rw [hrun] at h
    exact h.trans (hf v r')
  · next e r' hrun =>
    rw [hrun] at h
    exact h

theorem Logs.ite {α : Type} {c : Prop} [Decidable c] {m m' : ReadM α} (hm : Logs m)
    (hm' : Logs m') : Logs (if c then m else m') := by
  split
  · exact hm
  · exact hm'

theorem logs_fail {α : Type} (msg : String) : Logs (fail msg : ReadM α) := fun r =>
  List.prefix_refl r.log

theorem Consumes.logs {α : Type} {buf : Bytes} {m : ReadM α} {n : Nat} {g : Bytes → α}
    (h : Consumes buf m n g) : Logs m := by
  intro r
  by_cases hroom : sizeAdd r.pos n > buf.length
  · obtain ⟨msg, hrun⟩ := (h r).1 hroom
    rewrite [hrun]
    exact List.prefix_refl r.log
  · rw [(h r).2 hroom]
    exact (List.prefix_append _ _).trans (List.prefix_append _ _)

section Logs

variable (buf : Bytes)

theorem logs_readBytesView (n : Nat) : Logs (readBytesView buf n) := by
  intro r
  rw [readBytesView_run]
  split
  · exact List.prefix_refl r.log
  · exact List.prefix_append _ _

theorem logs_readMagic (expected : Bytes) (label : String) :
    Logs (readMagic buf expected label) := by
  intro r
  rw [readMagic_run]
  split
  · exact List.prefix_refl r.log
  · split
    · exact List.prefix_append _ _
    · rw [ArtifactReader.consumed, List.append_assoc]
      exact List.prefix_append _ _

theorem logs_setHeader (f : ArtifactHeader → ArtifactHeader) : Logs (setHeader f) := fun r =>
  List.prefix_refl r.log

theorem logs_allocate (n : Nat) : Logs (allocate buf n) := fun r =>
  List.prefix_append r.log [.alloc n (buf.length - r.pos)]

theorem logs_readExtensions (n : Nat) : Logs (readExtensions buf n) := by
  induction n with
  | zero => exact fun r => List.prefix_refl r.log
  | succ n ih =>
    refine consumes_u32.logs.bind fun tag => consumes_u32.logs.bind fun plen => ?_
    refine Logs.bind ?_ fun payload => (logs_setHeader _).bind fun _ => ih
    exact (logs_readBytesView buf plen).bind fun v r => List.prefix_append _ _

/-- Whatever comes after the object view, what was logged stays logged. -/
theorem logs_after_view (view : ObjectView) : Logs (do
    modify fun r => { r with out := { r.out with object := some view } }
    let extCount ← readU32LE buf
    setHeader fun h => h.setExtensions []
    allocate buf extCount
    readExtensions buf extCount
    readMagic buf kArtifactFooterMagic "footer"
    let left ← remaining buf
    if left ≠ 0 then
      fail ("compiled artifact: " ++ toString left ++ " trailing bytes after footer")) := by
  refine Logs.bind (fun r => List.prefix_refl r.log) fun _ => ?_
  refine consumes_u32.logs.bind fun count => (logs_setHeader _).bind fun _ => ?_
  refine (logs_allocate buf count).bind fun _ => (logs_readExtensions buf count).bind fun _ => ?_
  refine (logs_readMagic buf _ _).bind fun _ => Logs.bind (fun r => List.prefix_refl r.log) ?_
  exact fun left => .ite (logs_fail _) fun r => List.prefix_refl r.log

end Logs

/-- **A wrapping `obj_size` moves the cursor back.**  The sum comes out below the cursor, so the
check passes. -/
theorem readPayload_wraps {buf : Bytes} {r : ArtifactReader} {n : Nat} (hn : n < 2 ^ 64)
    (hpos : r.pos ≤ buf.length) (hbuf : buf.length < 2 ^ 64) (hwrap : 2 ^ 64 ≤ r.pos + n) :
    ∃ after, after < r.pos ∧
      .advance r.pos after ∈ ((readPayload buf n).run r).2.log := by
  have hsum : sizeAdd r.pos n = r.pos + n - 2 ^ 64 := by
    rw [sizeAdd, Nat.mod_eq_sub_mod hwrap, Nat.mod_eq_of_lt (by omega)]
  have hview := readBytesView_run buf n r
  rw [if_neg (by omega)] at hview
  have hlog := logs_after_view buf ⟨r.pos, n⟩
    { r with pos := sizeAdd r.pos n, log := r.log ++ [.advance r.pos (sizeAdd r.pos n)] }
  refine ⟨sizeAdd r.pos n, by omega, ?_⟩
  unfold readPayload
  rw [run_bind_ok hview]
  exact hlog.subset (List.mem_append_right _ List.mem_cons_self)

/-- **Parsing stays inside the blob exactly when the `obj_size` field does not wrap.** -/
theorem deserializeArtifact_insideBlob_iff (b : Blob) (outHeader : Option ArtifactHeader) :
    InsideBlob b.bytes (deserializeArtifact b.bytes outHeader) ↔
      outHeader = none ∨ ObjSizeFits b.bytes := by
  cases outHeader with
  | none => simp [InsideBlob, deserializeArtifact]
  | some h₀ =>
    simp only [reduceCtorEq, false_or]
    constructor
    · intro hin h n rest hv hn heq
      by_contra hwrap
      have hcore := tracks_readCore b.length_lt (shows_start b.bytes h₀)
      unfold Tracks at hcore
      rw [heq, parseCore_encodeCore hv hn, ← heq] at hcore
      obtain ⟨m, r, hrun, hm, hs, -⟩ := hcore
      rw [hm] at hrun
      have hpos : r.pos = (encodeCore h n).length := hs.pos_of_append heq
      obtain ⟨after, hlt, hmem⟩ := readPayload_wraps hn hs.pos_le b.length_lt (by omega)
      have hle := (hin.1 (.advance r.pos after) (by
        rw [deserializeArtifact, run_bind_ok hrun]
        exact hmem)).1
      omega
    · intro hfits
      have ht := tracks_deserialize h₀ b.length_lt fun _ => hfits
      unfold Tracks at ht
      have hlog : ∀ r, Steps b.bytes { out := { header := h₀ } } r →
          ∀ e ∈ r.log, e.Inside b.bytes.length := by
        rintro r ⟨evs, hr, hevs⟩ e he
        rw [hr] at he
        exact hevs e (by simpa using he)
      rw [deserializeArtifact]
      cases hp : parseArtifact (⟨h₀, none⟩, b.bytes) with
      | none =>
        rw [hp] at ht
        obtain ⟨e, r, hrun, -, hsteps⟩ := ht b.small
        rw [hrun]
        exact ⟨hlog r hsteps, by rintro ⟨⟩⟩
      | some vs =>
        obtain ⟨_, w, rest⟩ := vs
        rw [hp] at ht
        obtain ⟨_, r, hrun, -, hs, hsteps⟩ := ht
        obtain ⟨o, ho, -⟩ := parseArtifact_sound hp
        rw [hrun]
        refine ⟨hlog r hsteps, fun _ => ?_⟩
        obtain ⟨v, hv, -⟩ := Option.map_eq_some_iff.mp (hs.object.trans ho)
        exact ⟨v, hv, hs.view v hv⟩

/-- `obj_size` is 2^64 - 27, which takes the cursor from 47 back to 20, into the middle of
`cpu_name`.  The bytes there read as an extension area whose one payload is the rest of the core,
up to the footer. -/
def escapingBlob : Blob where
  bytes := kArtifactMagic ++ [2, 0, 0, 0, 0, 0, 0, 0, 0, 0, 0, 0, 12, 0, 0, 0] ++
    [1, 0, 0, 0, 0, 0, 0, 0, 15, 0, 0, 0] ++ [0, 0, 1, 0, 0, 0, 0] ++
      [0xe5, 0xff, 0xff, 0xff, 0xff, 0xff, 0xff, 0xff] ++ kArtifactFooterMagic
  size_lt := by decide

theorem escapingBlob_not_insideBlob :
    (deserializeArtifact escapingBlob.bytes (some {})).1 = .ok () ∧
      (deserializeArtifact escapingBlob.bytes (some {})).2.out.object =
        some ⟨47, 2 ^ 64 - 27⟩ ∧
      ¬InsideBlob escapingBlob.bytes (deserializeArtifact escapingBlob.bytes (some {})) := by
  have hview : (deserializeArtifact escapingBlob.bytes (some {})).2.out.object =
      some ⟨47, 2 ^ 64 - 27⟩ := by decide +kernel
  have hok : (deserializeArtifact escapingBlob.bytes (some {})).1 = .ok () := by
    decide +kernel
  refine ⟨hok, hview, fun hin => ?_⟩
  obtain ⟨v, hv, hle⟩ := hin.2 hok
  obtain rfl := Option.some.inj (hview.symm.trans hv)
  exact absurd hle (by decide)

end JitFusion
