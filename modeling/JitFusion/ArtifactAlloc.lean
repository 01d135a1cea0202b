/-
# The sizes an artifact asks for

`DeserializeArtifact` sizes two vectors before it has seen an element, `per_entry_ret_types` by
`num_entries` and `extensions` by the extension count.  Neither count is compared with the bytes
that are left, so a short blob can ask for 2^32 - 1 elements, and what such a vector throws is not
the `kInvalidArgument` that the header promises.

`deserializeArtifact_modest_iff` says when that does not happen: exactly if each count that the
parse reaches is at most the number of bytes behind it.
-/
import JitFusion.ArtifactFormat

namespace JitFusion

open Wire ArtifactLayout Fallible

/-! ## 1. Steps that size nothing -/

/-- The sizes asked for, each with the number of bytes that were left. -/
def allocs (log : List ArtifactEvent) : List (Nat × Nat) :=
  log.filterMap fun
    | .alloc count left => some (count, left)
    | _ => none

@[simp] theorem allocs_append (l l' : List ArtifactEvent) :
    allocs (l ++ l') = allocs l ++ allocs l' :=
  List.filterMap_append

/-- A step that sizes no vector, and fails with `kInvalidArgument` only. -/
structure Plain {α : Type} (m : ReadM α) : Prop where
  log : ∀ r, allocs (m.run r).2.log = allocs r.log
  rejects : ∀ r e, (m.run r).1 = .error e → e.code = .kInvalidArgument

section Plain

variable {α β : Type} {buf : Bytes}

theorem Plain.bind {m : ReadM α} {f : α → ReadM β} (hm : Plain m) (hf : ∀ v, Plain (f v)) :
    Plain (m >>= f) := by
  refine ⟨fun r => ?_, fun r e he => ?_⟩
  · have h := hm.log r
    rw [run_bind_eq]
    split
    · next v r' hrun =>
      rw [hrun] at h
      exact ((hf v).log r').trans h
    · next e r' hrun =>
      rw [hrun] at h
      exact h
  · rw [run_bind_eq] at he
    split at he
    · next v r' hrun => exact (hf v).rejects r' e he
    · next e' r' hrun =>
      obtain rfl : e' = e := Except.error.inj he
      exact hm.rejects r e' (congrArg Prod.fst hrun)

theorem Plain.ite {c : Prop} [Decidable c] {m m' : ReadM α} (hm : Plain m) (hm' : Plain m') :
    Plain (if c then m else m') := by
  split
  · exact hm
  · exact hm'

theorem plain_pure (v : α) : Plain (pure v : ReadM α) :=
  ⟨fun _ => rfl, fun _ _ h => nomatch h⟩

theorem plain_fail (msg : String) : Plain (fail msg : ReadM α) := by
  refine ⟨fun _ => rfl, fun r e he => ?_⟩
  obtain rfl : Status.invalidArgument msg = e := Except.error.inj he
  rfl

/-- A check, which fails or goes on. -/
theorem Plain.guard {c : Prop} [Decidable c] {msg : String} {m : ReadM α} (hm : Plain m) :
    Plain (if c then fail msg >>= fun _ : Unit => m else m) :=
  .ite ((plain_fail msg).bind fun _ => hm) hm

theorem plain_modify {f : ArtifactReader → ArtifactReader}
    (h : ∀ r, allocs (f r).log = allocs r.log) :
    Plain (modify f : ReadM Unit) :=
  ⟨h, fun _ _ h => nomatch h⟩

theorem plain_setHeader (f : ArtifactHeader → ArtifactHeader) : Plain (setHeader f) :=
  plain_modify fun _ => rfl

/-- A checked read. -/
theorem Consumes.plain {m : ReadM α} {n : Nat} {g : Bytes → α} (h : Consumes buf m n g) :
    Plain m := by
  refine ⟨fun r => ?_, fun r e he => ?_⟩
  · by_cases hroom : sizeAdd r.pos n > buf.length
    · obtain ⟨msg, hrun⟩ := (h r).1 hroom
      rewrite [hrun]
      rfl
    · rw [(h r).2 hroom]
      simp [ArtifactReader.consumed, allocs]
  · by_cases hroom : sizeAdd r.pos n > buf.length
    · obtain ⟨msg, hrun⟩ := (h r).1 hroom
      rewrite [hrun] at he
      obtain rfl : Status.invalidArgument msg = e := Except.error.inj he
      rfl
    · rw [(h r).2 hroom] at he
      cases he

theorem plain_str : Plain (readLenPrefixedStr buf) :=
  consumes_u32.plain.bind fun n => (consumes_bytes n fun pos =>
    "compiled artifact: truncated string (want " ++ toString n ++ " bytes, have " ++
      toString (buf.length - pos) ++ ")").plain

theorem plain_readMagic (expected : Bytes) (label : String) :
    Plain (readMagic buf expected label) := by
  refine ⟨fun r => ?_, fun r e he => ?_⟩
  · rw [readMagic_run]
    split
    · rfl
    · split
      · simp [allocs]
      · simp [ArtifactReader.consumed, allocs]
  · rw [readMagic_run] at he
    split at he
    · obtain rfl := Except.error.inj he
      rfl
    · split at he
      · obtain rfl := Except.error.inj he
        rfl
      · cases he

theorem plain_readBytesView (n : Nat) : Plain (readBytesView buf n) := by
  refine ⟨fun r => ?_, fun r e he => ?_⟩
  · rw [readBytesView_run]
    split
    · rfl
    · simp [allocs]
  · rw [readBytesView_run] at he
    split at he
    · obtain rfl := Except.error.inj he
      rfl
    · cases he

theorem plain_readRetTypes (i n : Nat) : Plain (readRetTypes buf i n) := by
  induction n generalizing i with
  | zero => exact plain_pure ()
  | succ n ih =>
    exact consumes_u8.plain.bind fun _ => (plain_setHeader _).bind fun _ => ih (i + 1)

theorem plain_readExtensions (n : Nat) : Plain (readExtensions buf n) := by
  induction n with
  | zero => exact plain_pure ()
  | succ n ih =>
    refine consumes_u32.plain.bind fun tag => consumes_u32.plain.bind fun plen => ?_
    refine Plain.bind ?_ fun payload => (plain_setHeader _).bind fun _ => ih
    exact (plain_readBytesView plen).bind fun _ =>
      (plain_modify fun r => by simp [allocs]).bind fun _ => plain_pure _

/-- Between the sizing of the first vector and the end of the core. -/
theorem plain_readEntries (num : Nat) : Plain (readEntries buf num) :=
  (plain_setHeader _).bind fun _ => (plain_readRetTypes 0 num).bind fun _ => consumes_u64.plain

/-- Up to the first count. -/
theorem plain_readHead : Plain (readHead buf) := by
  unfold readHead
  refine (plain_readMagic _ _).bind fun _ => consumes_u32.plain.bind fun ver => ?_
  refine Plain.guard (plain_str.bind fun _ => (plain_setHeader _).bind fun _ => ?_)
  refine plain_str.bind fun _ => (plain_setHeader _).bind fun _ => ?_
  refine plain_str.bind fun _ => (plain_setHeader _).bind fun _ => ?_
  refine consumes_u8.plain.bind fun modeByte => ?_
  split
  · refine (plain_setHeader _).bind fun _ => consumes_u8.plain.bind fun fpByte => ?_
    split
    · refine (plain_setHeader _).bind fun _ => consumes_u32.plain.bind fun num => ?_
      exact Plain.guard (Plain.guard (plain_pure num))
    · exact plain_fail _
  · exact plain_fail _

end Plain

/-! ## 2. The two counts -/

/-- If a count comes next, there are at least as many bytes behind it. -/
def CountFits (bs : Bytes) : Prop :=
  ∀ count rest, count < 2 ^ 32 → bs = u32.encode count ++ rest → count ≤ rest.length

/-- The count of the entries fits: wherever the blob begins with a head and a count that belong
together. -/
def EntryCountFits (buf : Bytes) : Prop :=
  ∀ h num rest, HeadValid h num → buf = encodeHead h ++ (u32.encode num ++ rest) →
    num ≤ rest.length

/-- The count of the extensions fits: wherever the blob begins with core fields, the count is
looked for `obj_size` bytes behind them, in 64-bit arithmetic. -/
def ExtCountFits (buf : Bytes) : Prop :=
  ∀ h n, CoreValid h → n < 2 ^ 64 → encodeCore h n <+: buf →
    CountFits (buf.drop (sizeAdd (encodeCore h n).length n))

theorem u32_decode (bs : Bytes) :
    u32.decode bs = if 4 ≤ bs.length then some (leValue (bs.take 4), bs.drop 4) else none := rfl

theorem countFits_of_short {bs : Bytes} (h : bs.length < 4) : CountFits bs := by
  intro count rest hcount heq
  have hdec := u32.decode_encode (u32_valid.mpr hcount) rest
  rw [← heq, u32_decode, if_neg (by omega)] at hdec
  cases hdec

theorem countFits_iff {bs : Bytes} (h : 4 ≤ bs.length) :
    CountFits bs ↔ leValue (bs.take 4) ≤ bs.length - 4 := by
  have hdec : u32.decode bs = some (leValue (bs.take 4), bs.drop 4) := by
    rw [u32_decode, if_pos h]
  obtain ⟨hvalid, hbs⟩ := u32.decode_sound hdec
  constructor
  · intro hfits
    have hle := hfits _ _ (u32_valid.mp hvalid) hbs
    rwa [List.length_drop] at hle
  · intro hle count rest hcount heq
    have hdec' := u32.decode_encode (u32_valid.mpr hcount) rest
    rw [← heq, hdec, Option.some.injEq, Prod.mk.injEq] at hdec'
    rw [← hdec'.1, ← hdec'.2, List.length_drop]
    exact hle

/-! ## 3. The parse -/

/-- `DeserializeArtifact` after `obj_size` up to the extension count. -/
def readExtCount (buf : Bytes) (objSize : Nat) : ReadM Nat := do
  let view ← readBytesView buf objSize
  modify fun r => { r with out := { r.out with object := some view } }
  let extCount ← readU32LE buf
  setHeader fun h => h.setExtensions []
  return extCount

/-- `DeserializeArtifact` behind the extension count. -/
def readTail (buf : Bytes) (extCount : Nat) : ReadM Unit := do
  readExtensions buf extCount
  readMagic buf kArtifactFooterMagic "footer"
  let left ← remaining buf
  if left ≠ 0 then
    fail ("compiled artifact: " ++ toString left ++ " trailing bytes after footer")

theorem readPayload_eq (buf : Bytes) (n : Nat) : readPayload buf n =
    readExtCount buf n >>= fun extCount => allocate buf extCount >>= fun _ =>
      readTail buf extCount := by
  unfold readPayload readExtCount readTail
  simp only [bind_assoc, pure_bind]

section Parse

variable {buf : Bytes} {r : ArtifactReader}

theorem allocate_run (count : Nat) : (allocate buf count).run r =
    (.ok (), { r with log := r.log ++ [.alloc count (buf.length - r.pos)] }) := rfl

theorem plain_readTail (count : Nat) : Plain (readTail buf count) :=
  (plain_readExtensions count).bind fun _ => (plain_readMagic _ _).bind fun _ =>
    Plain.bind ⟨fun _ => rfl, fun _ _ h => nomatch h⟩ fun _ => .ite (plain_fail _) (plain_pure ())

theorem plain_readExtCount (n : Nat) : Plain (readExtCount buf n) := by
  unfold readExtCount
  refine (plain_readBytesView n).bind fun view => ?_
  refine Plain.bind (plain_modify fun _ => rfl) fun _ => ?_
  exact consumes_u32.plain.bind fun _ => (plain_setHeader _).bind fun _ => plain_pure _

/-- From `r` on, `res` asked for the sizes `sizes` and fails with `kInvalidArgument` only. -/
structure AsksFor {α : Type} (sizes : List (Nat × Nat)) (r : ArtifactReader)
    (res : Except Status α × ArtifactReader) : Prop where
  log : allocs res.2.log = allocs r.log ++ sizes
  rejects : ∀ e, res.1 = .error e → e.code = .kInvalidArgument

theorem Plain.asksFor {α : Type} {m : ReadM α} (h : Plain m) : AsksFor [] r (m.run r) :=
  ⟨(h.log r).trans (List.append_nil _).symm, h.rejects r⟩

variable (buf) in
/-- A count that was read, the vector sized by it, and the rest. -/
theorem asksFor_count {α : Type} {m : ReadM Nat} {k : Nat → ReadM α} {r' : ArtifactReader}
    {count : Nat} {sizes : List (Nat × Nat)} (hm : Plain m) (hrun : m.run r = (.ok count, r'))
    (hk : AsksFor sizes { r' with log := r'.log ++ [.alloc count (buf.length - r'.pos)] }
      ((k count).run { r' with log := r'.log ++ [.alloc count (buf.length - r'.pos)] })) :
    AsksFor ((count, buf.length - r'.pos) :: sizes) r
      ((m >>= fun count => allocate buf count >>= fun _ => k count).run r) := by
  have hlog := hm.log r
  rw [hrun] at hlog
  rw [run_bind_ok hrun, run_bind_ok (allocate_run count)]
  refine ⟨?_, hk.rejects⟩
  rw [hk.log, allocs_append, hlog, List.append_assoc]
  rfl

/-- **The extension count**, wherever the cursor ends up. -/
theorem readPayload_asksFor (hbuf : buf.length < 2 ^ 63) (n : Nat) :
    ∃ sizes, AsksFor sizes r ((readPayload buf n).run r) ∧
      ((∀ p ∈ sizes, p.1 ≤ p.2) ↔ CountFits (buf.drop (sizeAdd r.pos n))) := by
  have hview := readBytesView_run buf n r
  have hplain : AsksFor [] r ((readExtCount buf n).run r) := (plain_readExtCount n).asksFor
  rw [readPayload_eq]
  by_cases hroom : sizeAdd r.pos n > buf.length
  · -- the cursor would leave the blob
    rw [if_pos hroom] at hview
    have hrun : (readExtCount buf n).run r = (.error _, r) := run_bind_error hview
    rw [hrun] at hplain
    refine ⟨[], ?_, iff_of_true (by simp) (countFits_of_short ?_)⟩
    · rw [run_bind_error hrun]
      exact ⟨hplain.log, fun e he => hplain.rejects e (congrArg _ (Except.error.inj he))⟩
    · rw [List.length_drop]
      omega
  · rw [if_neg hroom] at hview
    let r₂ : ArtifactReader :=
      { r with
        pos := sizeAdd r.pos n
        log := r.log ++ [.advance r.pos (sizeAdd r.pos n)]
        out := { r.out with object := some ⟨r.pos, n⟩ } }
    have hstart : (readExtCount buf n).run r = (readU32LE buf >>= fun extCount =>
        setHeader (fun h => h.setExtensions []) >>= fun _ => pure extCount).run r₂ := by
      unfold readExtCount
      rw [run_bind_ok hview]
      rfl
    have hlen := List.length_drop (l := buf) (i := sizeAdd r.pos n)
    have hsum : sizeAdd (sizeAdd r.pos n) 4 = sizeAdd r.pos n + 4 :=
      Nat.mod_eq_of_lt (by omega)
    have hread : Consumes buf (readU32LE buf) 4 leValue := consumes_u32
    obtain ⟨hno, hyes⟩ := hread r₂
    by_cases hcount : sizeAdd r₂.pos 4 > buf.length
    · obtain ⟨msg, hrun⟩ := hno hcount
      rw [hstart, run_bind_error hrun] at hplain
      refine ⟨[], ?_, iff_of_true (by simp) (countFits_of_short ?_)⟩
      · rw [run_bind_error (hstart.trans (run_bind_error hrun))]
        exact ⟨hplain.log, fun e he => hplain.rejects e (congrArg _ (Except.error.inj he))⟩
      · change sizeAdd (sizeAdd r.pos n) 4 > buf.length at hcount
        omega
    · have hrun := hstart.trans (run_bind_ok (hyes hcount))
      change ¬ sizeAdd (sizeAdd r.pos n) 4 > buf.length at hcount
      refine ⟨_, asksFor_count buf (plain_readExtCount n) hrun (plain_readTail _).asksFor, ?_⟩
      rw [countFits_iff (by omega), hlen, Nat.sub_sub, ← hsum]
      exact List.forall_mem_singleton

theorem AsksFor.bind_error {α β : Type} {m : ReadM α} {f : α → ReadM β} {e : Status}
    {r' : ArtifactReader} {sizes : List (Nat × Nat)} (hrun : m.run r = (.error e, r'))
    (h : AsksFor sizes r (m.run r)) : AsksFor sizes r ((m >>= f).run r) := by
  rw [run_bind_error hrun]
  rw [hrun] at h
  exact ⟨h.log, fun e he => h.rejects e (congrArg _ (Except.error.inj he))⟩

theorem AsksFor.bind_ok {α β : Type} {m : ReadM α} {f : α → ReadM β} {v : α} {r' : ArtifactReader}
    {sizes : List (Nat × Nat)} (hm : Plain m) (hrun : m.run r = (.ok v, r'))
    (h : AsksFor sizes r' ((f v).run r')) : AsksFor sizes r ((m >>= f).run r) := by
  have hlog := hm.log r
  rw [hrun] at hlog
  rw [run_bind_ok hrun]
  exact ⟨by rw [h.log, hlog], h.rejects⟩

end Parse

/-- A head and a count that belong together begin the blob in one way. -/
theorem entryCountFits_iff {buf : Bytes} {w w' : Written} {num : Nat} {rest : Bytes}
    (h : parseHead (w, buf) = some (num, (w', rest))) :
    EntryCountFits buf ↔ num ≤ rest.length := by
  obtain ⟨hv, -, -, -, heq⟩ := parseHead_sound h
  constructor
  · intro hfits
    exact hfits _ _ _ hv heq
  · rintro hle h' num' rest' hv' rfl
    rw [parseHead_encodeHead hv', Option.some.injEq, Prod.mk.injEq, Prod.mk.injEq] at h
    rw [h.1, h.2.2]
    exact hle

theorem entryCountFits_of_none {buf : Bytes} {w : Written} (h : parseHead (w, buf) = none) :
    EntryCountFits buf := by
  rintro h' num' rest' hv' rfl
  rw [parseHead_encodeHead hv'] at h
  cases h

theorem extCountFits_iff {buf : Bytes} {w w' : Written} {n : Nat} {rest : Bytes}
    (h : parseCore (w, buf) = some (n, (w', rest))) :
    ExtCountFits buf ↔
      CountFits (buf.drop (sizeAdd (encodeCore w'.header n).length n)) := by
  obtain ⟨hv, hn, -, -, heq⟩ := parseCore_sound h
  constructor
  · intro hfits
    exact hfits _ _ hv hn ⟨rest, heq.symm⟩
  · rintro hfits h' n' hv' hn' ⟨rest', heq'⟩
    obtain ⟨rfl, rfl⟩ := encodeCore_append_inj hv hv' hn hn' (heq.symm.trans heq'.symm)
    have hcore : encodeCore w'.header n = encodeCore h' n :=
      List.append_cancel_right (heq.symm.trans heq'.symm)
    rwa [← hcore]

theorem extCountFits_of_none {buf : Bytes} {w : Written} (h : parseCore (w, buf) = none) :
    ExtCountFits buf := by
  rintro h' n' hv' hn' ⟨rest', rfl⟩
  rw [parseCore_encodeCore hv' hn'] at h
  cases h

/-! ## 4. The result -/

/-- Every vector is sized to at most as many elements as there are bytes left, and a blob is
rejected with `kInvalidArgument` only. -/
structure Modest (res : Except Status Unit × ArtifactReader) : Prop where
  sizes : ∀ p ∈ allocs res.2.log, p.1 ≤ p.2
  rejects : ∀ e, res.1 = .error e → e.code = .kInvalidArgument

theorem AsksFor.modest_iff {r : ArtifactReader} {sizes : List (Nat × Nat)}
    {res : Except Status Unit × ArtifactReader} (hr : allocs r.log = [])
    (h : AsksFor sizes r res) : Modest res ↔ ∀ p ∈ sizes, p.1 ≤ p.2 := by
  have hsizes : allocs res.2.log = sizes := by rw [h.log, hr, List.nil_append]
  exact ⟨fun hm => hsizes ▸ hm.sizes, fun hm => ⟨hsizes ▸ hm, h.rejects⟩⟩

/-- **A parse is modest exactly if the two counts fit.** -/
theorem deserializeArtifact_modest_iff (b : Blob) (outHeader : Option ArtifactHeader) :
    Modest (deserializeArtifact b.bytes outHeader) ↔
      outHeader = none ∨ (EntryCountFits b.bytes ∧ ExtCountFits b.bytes) := by
  cases outHeader with
  | none =>
    refine iff_of_true ⟨by simp [deserializeArtifact, allocs], fun e he => ?_⟩ (.inl rfl)
    obtain rfl := Except.error.inj he
    rfl
  | some h₀ =>
    have hhead := tracks_readHead b.length_lt (shows_start b.bytes h₀)
    unfold Tracks at hhead
    rw [deserializeArtifact, readCore_eq, or_iff_right (by simp)]
    simp only [bind_assoc]
    cases hp : parseHead (⟨h₀, none⟩, b.bytes) with
    | none =>
      rw [hp] at hhead
      obtain ⟨e, r, hrun, -, -⟩ := hhead b.small
      have hcore : parseCore (⟨h₀, none⟩, b.bytes) = none := by
        rw [parseCore_eq]
        exact congrArg (Option.bind · _) hp
      rw [(plain_readHead.asksFor.bind_error hrun).modest_iff rfl]
      exact iff_of_true (by simp) ⟨entryCountFits_of_none hp, extCountFits_of_none hcore⟩
    | some vs =>
      obtain ⟨_, w, rest⟩ := vs
      rw [hp] at hhead
      obtain ⟨num, r, hrun, rfl, hs, -⟩ := hhead
      have hleft : b.bytes.length - r.pos = rest.length := hs.length_rest.symm
      let r₁ : ArtifactReader :=
        { r with log := r.log ++ [.alloc num (b.bytes.length - r.pos)] }
      have hs₁ : Shows b.bytes r₁ (w, rest) := ⟨hs.1, hs.2, hs.3, hs.4, hs.5⟩
      have hentries := tracks_readEntries b.length_lt num hs₁
      unfold Tracks at hentries
      rw [entryCountFits_iff hp]
      cases hq : parseEntries num (w, rest) with
      | none =>
        rw [hq] at hentries
        obtain ⟨e, r₂, hrun₂, -, -⟩ := hentries b.small
        have hcore : parseCore (⟨h₀, none⟩, b.bytes) = none := by
          rw [parseCore_eq, parse_bind_of hp, hq]
        have hasks := asksFor_count b.bytes
          (k := fun num => readEntries b.bytes num >>= readPayload b.bytes) plain_readHead hrun
          ((plain_readEntries num).asksFor.bind_error hrun₂)
        rw [hasks.modest_iff rfl, hleft, List.forall_mem_singleton,
          and_iff_left (extCountFits_of_none hcore)]
      | some vs =>
        obtain ⟨_, w', rest'⟩ := vs
        rw [hq] at hentries
        obtain ⟨n, r₂, hrun₂, rfl, hs₂, -⟩ := hentries
        have hcore : parseCore (⟨h₀, none⟩, b.bytes) = some (n, (w', rest')) := by
          rw [parseCore_eq, parse_bind_of hp, hq]
        obtain ⟨-, -, -, -, heq⟩ := parseCore_sound hcore
        obtain ⟨sizes, hpayload, hfits⟩ := readPayload_asksFor (r := r₂) b.size_lt n
        have hasks := asksFor_count b.bytes
          (k := fun num => readEntries b.bytes num >>= readPayload b.bytes) plain_readHead hrun
          (.bind_ok (plain_readEntries num) hrun₂ hpayload)
        rw [hasks.modest_iff rfl, hleft, List.forall_mem_cons, hfits, extCountFits_iff hcore,
          hs₂.pos_of_append heq]

/-- A batch artifact that ends behind `num_entries`, which is 2^32 - 1. -/
def greedyBlob : Blob where
  bytes := kArtifactMagic ++ [2, 0, 0, 0, 0, 0, 0, 0, 0, 0, 0, 0, 0, 0, 0, 0, 1, 0] ++
    [0xff, 0xff, 0xff, 0xff]
  size_lt := by decide

/-- The vector is sized to 2^32 - 1 entries with no byte left. -/
theorem greedyBlob_not_modest : ¬ Modest (deserializeArtifact greedyBlob.bytes (some {})) := by
  intro h
  have hmem : (2 ^ 32 - 1, 0) ∈ allocs (deserializeArtifact greedyBlob.bytes (some {})).2.log := by
    decide +kernel
  exact absurd (h.sizes _ hmem) (by decide)

end JitFusion
