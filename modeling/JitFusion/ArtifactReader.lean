/-
# The artifact reader follows the artifact layout

`deserializeArtifact` moves a cursor over the blob and checks every read in wrapping 64-bit
arithmetic; `ArtifactLayout.parseArtifact` takes bytes off the front of a list.  `Tracks` says
that a step of the first follows a step of the second: where the parser succeeds the reader
succeeds with the same value, and where the parser fails the reader fails with
`kInvalidArgument`; either way it has only read and passed bytes that are there
(`ArtifactEvent.Inside`).

Every step tracks its parser, with one proviso for `readBytesView objSize`: the sum
`pos_ + objSize` must not wrap.  It is the one check whose operand is a full 64-bit field of the
blob.  `tracks_deserialize` is the whole parse, under that proviso (`ObjSizeFits`).
-/
import JitFusion.ArtifactLayout
import JitFusion.Lib.Fallible

namespace JitFusion

open Wire ArtifactLayout Fallible

/-! ## 1. Staying inside -/

/-- What an event may do to a blob of `size` bytes. -/
def ArtifactEvent.Inside (size : Nat) : ArtifactEvent → Prop
  | .read start len => ∀ i, start ≤ i → i < start + len → i < size
  | .advance before after => before ≤ after ∧ after ≤ size
  | .alloc _ _ => True

/-- The log of `r'` is that of `r` and then events inside the blob. -/
def Steps (buf : Bytes) (r r' : ArtifactReader) : Prop :=
  ∃ evs, r'.log = r.log ++ evs ∧ ∀ e ∈ evs, e.Inside buf.length

theorem Steps.refl (buf : Bytes) (r : ArtifactReader) : Steps buf r r := ⟨[], by simp⟩

theorem Steps.of_log_eq {buf : Bytes} {r r' : ArtifactReader} (h : r'.log = r.log) :
    Steps buf r r' := ⟨[], by simp [h]⟩

theorem Steps.trans {buf : Bytes} {r r' r'' : ArtifactReader} (h : Steps buf r r')
    (h' : Steps buf r' r'') : Steps buf r r'' := by
  obtain ⟨evs, hlog, hin⟩ := h
  obtain ⟨evs', hlog', hin'⟩ := h'
  refine ⟨evs ++ evs', by rw [hlog', hlog, List.append_assoc], fun e he => ?_⟩
  rcases List.mem_append.mp he with he | he
  · exact hin e he
  · exact hin' e he

/-- The reader stands where the parser does: the same bytes to come, the same output. -/
structure Shows (buf : Bytes) (r : ArtifactReader) (s : Written × Bytes) : Prop where
  pos_le : r.pos ≤ buf.length
  rest : buf.drop r.pos = s.2
  header : r.out.header = s.1.header
  object : r.out.object.map (ObjectView.bytes buf) = s.1.object
  view : ∀ v, r.out.object = some v → v.start + v.len ≤ buf.length

/-- `m` at the reader follows `p` at the parser's state, and their values are related by `R`.
The failing case needs a blob small enough for a 32-bit field not to wrap the cursor. -/
def Tracks {α α' : Type} (buf : Bytes) (R : α → α' → Prop) (m : ReadM α) (p : Parse α')
    (r : ArtifactReader) (s : Written × Bytes) : Prop :=
  match p s with
  | some (v', s') =>
    ∃ v r', m.run r = (.ok v, r') ∧ R v v' ∧ Shows buf r' s' ∧ Steps buf r r'
  | none => buf.length + 2 ^ 32 ≤ 2 ^ 64 →
      ∃ e r', m.run r = (.error e, r') ∧ e.code = .kInvalidArgument ∧ Steps buf r r'

/-! ## 2. Sequencing -/

section Sequencing

variable {α α' β β' : Type} {buf : Bytes} {R : α → α' → Prop} {R' : β → β' → Prop} {m : ReadM α}
  {f : α → ReadM β} {p : Parse α'} {q : α' → Parse β'} {r r' : ArtifactReader}
  {s s' : Written × Bytes} {v : α} {v' : α'}

theorem Tracks.of_some (hp : p s = some (v', s')) (hm : m.run r = (.ok v, r')) (hv : R v v')
    (hs : Shows buf r' s') (hsteps : Steps buf r r') : Tracks buf R m p r s := by
  unfold Tracks
  rw [hp]
  exact ⟨v, r', hm, hv, hs, hsteps⟩

theorem Tracks.of_none {e : Status} (hp : p s = none) (hm : m.run r = (.error e, r'))
    (he : e.code = .kInvalidArgument) (hsteps : Steps buf r r') : Tracks buf R m p r s := by
  unfold Tracks
  rw [hp]
  exact fun _ => ⟨e, r', hm, he, hsteps⟩

/-- A value that is computed and not read. -/
theorem Tracks.pure (hv : R v v') (hs : Shows buf r s) :
    Tracks buf R (Pure.pure v) (Pure.pure v') r s :=
  .of_some rfl rfl hv hs (.refl buf r)

/-- A silent step in front: only the steps of the rest count. -/
theorem Tracks.of_run_eq {m' : ReadM α} (h : Tracks buf R m p r' s) (hrun : m'.run r = m.run r')
    (hsteps : Steps buf r r') : Tracks buf R m' p r s := by
  unfold Tracks at h ⊢
  rw [hrun]
  cases hp : p s with
  | none =>
    rw [hp] at h
    intro hsmall
    obtain ⟨e, r'', hm, hcode, hsteps'⟩ := h hsmall
    exact ⟨e, r'', hm, hcode, hsteps.trans hsteps'⟩
  | some vs =>
    rw [hp] at h
    obtain ⟨v, r'', hm, hv, hshows, hsteps'⟩ := h
    exact ⟨v, r'', hm, hv, hshows, hsteps.trans hsteps'⟩

/-- **Sequencing keeps the reader on the parser's track.** -/
theorem Tracks.bind (h : Tracks buf R m p r s)
    (hf : ∀ v v' r' s', p s = some (v', s') → R v v' → Shows buf r' s' →
      Tracks buf R' (f v) (q v') r' s') :
    Tracks buf R' (m >>= f) (p >>= q) r s := by
  unfold Tracks at h
  cases hp : p s with
  | none =>
    rw [hp] at h
    have hpq : (p >>= q) s = none := by
      change (p s).bind _ = none
      rw [hp]
      rfl
    unfold Tracks
    rw [hpq]
    intro hsmall
    obtain ⟨e, r', hm, hcode, hsteps⟩ := h hsmall
    exact ⟨e, r', run_bind_error hm, hcode, hsteps⟩
  | some vs =>
    obtain ⟨v', s'⟩ := vs
    rw [hp] at h
    obtain ⟨v, r', hm, hv, hshows, hsteps⟩ := h
    have hrest := (hf v v' r' s' hp hv hshows).of_run_eq (run_bind_ok hm) hsteps
    unfold Tracks at hrest ⊢
    rw [parse_bind_of hp]
    exact hrest

/-- A step that only logs or writes, with the parser standing still. -/
theorem Tracks.silent_bind {mu : ReadM Unit} {g : Unit → ReadM β} {pq : Parse β'}
    (hm : mu.run r = (.ok (), r')) (hsteps : Steps buf r r') (hg : Tracks buf R' (g ()) pq r' s) :
    Tracks buf R' (mu >>= g) pq r s :=
  hg.of_run_eq (run_bind_ok hm) hsteps

end Sequencing

/-! ## 3. Checked reads -/

/-- The reader after reading and passing `n` bytes. -/
def ArtifactReader.consumed (r : ArtifactReader) (n : Nat) : ArtifactReader :=
  { r with
    pos := sizeAdd r.pos n
    log := r.log ++ [.read r.pos n] ++ [.advance r.pos (sizeAdd r.pos n)] }

/-- `m` is a checked read of `n` bytes, with the value `g` makes of them. -/
def Consumes {α : Type} (buf : Bytes) (m : ReadM α) (n : Nat) (g : Bytes → α) : Prop :=
  ∀ r : ArtifactReader,
    (sizeAdd r.pos n > buf.length → ∃ msg, m.run r = (.error (.invalidArgument msg), r)) ∧
    (¬sizeAdd r.pos n > buf.length →
      m.run r = (.ok (g ((buf.drop r.pos).take n)), r.consumed n))

section Reads

variable {buf : Bytes} {r : ArtifactReader} {s : Written × Bytes}

/-- Without wrapping, the check `pos_ + n > buf_.size()` says that too few bytes are left. -/
theorem sizeAdd_gt_iff (size : Nat) {pos n : Nat} (h : pos + n < 2 ^ 64) :
    sizeAdd pos n > size ↔ size < pos + n := by
  rw [sizeAdd, Nat.mod_eq_of_lt h]

theorem Shows.length_rest (hs : Shows buf r s) : s.2.length = buf.length - r.pos := by
  rw [← hs.rest, List.length_drop]

theorem inside_read {n : Nat} (h : r.pos + n ≤ buf.length) :
    (ArtifactEvent.read r.pos n).Inside buf.length := fun i _ hi => by omega

theorem inside_advance {n : Nat} (h : r.pos + n ≤ buf.length) (h64 : r.pos + n < 2 ^ 64) :
    (ArtifactEvent.advance r.pos (sizeAdd r.pos n)).Inside buf.length := by
  rw [ArtifactEvent.Inside, sizeAdd, Nat.mod_eq_of_lt h64]
  omega

/-- A reader moved over `n` bytes that are there shows what the parser sees after them. -/
theorem Shows.move {r' : ArtifactReader} {n : Nat} (hs : Shows buf r s)
    (h : r.pos + n ≤ buf.length) (hpos : r'.pos = r.pos + n) (hout : r'.out = r.out) :
    Shows buf r' (s.1, s.2.drop n) where
  pos_le := by omega
  rest := by rw [hpos, ← hs.rest, List.drop_drop]
  header := by rw [hout, hs.header]
  object := by rw [hout, hs.object]
  view := by rw [hout]; exact hs.view

/-- **A checked read follows the codec that takes as many bytes.** -/
theorem Consumes.tracks {α : Type} {m : ReadM α} {n : Nat} {g : Bytes → α} {c : Codec α}
    (hm : Consumes buf m n g)
    (hc : ∀ b, c.decode b = if n ≤ b.length then some (g (b.take n), b.drop n) else none)
    (hn : n < 2 ^ 32) (hbuf : buf.length < 2 ^ 64) (hs : Shows buf r s) :
    Tracks buf Eq m c.read r s := by
  have hlen := hs.length_rest
  have hpos := hs.pos_le
  by_cases hroom : r.pos + n ≤ buf.length
  · have h64 : r.pos + n < 2 ^ 64 := by omega
    have hdec : c.read s = some (g ((buf.drop r.pos).take n), (s.1, s.2.drop n)) := by
      rw [Codec.read, hc, if_pos (by omega), hs.rest]
      rfl
    have hcheck : ¬sizeAdd r.pos n > buf.length := by
      rw [sizeAdd_gt_iff _ h64]
      omega
    refine .of_some hdec ((hm r).2 hcheck) rfl ?_ ?_
    · exact hs.move hroom (Nat.mod_eq_of_lt h64) rfl
    · refine ⟨_, by rw [ArtifactReader.consumed, List.append_assoc], ?_⟩
      rintro e he
      rcases List.mem_append.mp he with he | he
      · rw [List.mem_singleton.mp he]
        exact inside_read hroom
      · rw [List.mem_singleton.mp he]
        exact inside_advance hroom h64
  · have hdec : c.read s = none := by
      rw [Codec.read, hc, if_neg (by omega)]
      rfl
    unfold Tracks
    rw [hdec]
    intro hsmall
    have hcheck : sizeAdd r.pos n > buf.length := by
      rw [sizeAdd_gt_iff _ (by omega)]
      omega
    obtain ⟨msg, hrun⟩ := (hm r).1 hcheck
    exact ⟨_, r, hrun, rfl, .refl buf r⟩

theorem consumes_u8 : Consumes buf (readU8 buf) 1 fun bs => bs.headD 0 := by
  intro r
  unfold readU8
  rw [run_bind_ok (run_get r)]
  split
  · next h => exact ⟨fun _ => ⟨_, rfl⟩, fun hn => absurd h hn⟩
  · next h => exact ⟨fun hn => absurd hn h, fun _ => rfl⟩

theorem consumes_u32 : Consumes buf (readU32LE buf) 4 leValue := by
  intro r
  unfold readU32LE
  rw [run_bind_ok (run_get r)]
  split
  · next h => exact ⟨fun _ => ⟨_, rfl⟩, fun hn => absurd h hn⟩
  · next h => exact ⟨fun hn => absurd hn h, fun _ => rfl⟩

theorem consumes_u64 : Consumes buf (readU64LE buf) 8 leValue := by
  intro r
  unfold readU64LE
  rw [run_bind_ok (run_get r)]
  split
  · next h => exact ⟨fun _ => ⟨_, rfl⟩, fun hn => absurd h hn⟩
  · next h => exact ⟨fun hn => absurd hn h, fun _ => rfl⟩

theorem tracks_u8 (hbuf : buf.length < 2 ^ 64) (hs : Shows buf r s) :
    Tracks buf Eq (readU8 buf) Codec.byte.read r s := by
  refine consumes_u8.tracks (fun b => ?_) (by decide) hbuf hs
  cases b <;> simp [Codec.byte]

theorem tracks_u32 (hbuf : buf.length < 2 ^ 64) (hs : Shows buf r s) :
    Tracks buf Eq (readU32LE buf) u32.read r s :=
  consumes_u32.tracks (fun _ => rfl) (by decide) hbuf hs

theorem tracks_u64 (hbuf : buf.length < 2 ^ 64) (hs : Shows buf r s) :
    Tracks buf Eq (readU64LE buf) u64.read r s :=
  consumes_u64.tracks (fun _ => rfl) (by decide) hbuf hs

/-- The bytes of a string, after its length. -/
theorem consumes_bytes (n : Nat) (msg : Nat → String) : Consumes buf (do
    let r ← get
    if sizeAdd r.pos n > buf.length then
      fail (msg r.pos)
    let bs ← peek buf n
    advance n
    return bs) n id := by
  intro r
  rw [run_bind_ok (run_get r)]
  split
  · next h => exact ⟨fun _ => ⟨_, rfl⟩, fun hn => absurd h hn⟩
  · next h => exact ⟨fun hn => absurd hn h, fun _ => rfl⟩

theorem tracks_str (hbuf : buf.length < 2 ^ 64) (hs : Shows buf r s) :
    Tracks buf Eq (readLenPrefixedStr buf) str.read r s := by
  rw [show str = Codec.lenPrefixed 4 from rfl, Codec.read_lenPrefixed]
  refine (tracks_u32 hbuf hs).bind ?_
  rintro n _ r' s' hp rfl hs'
  have hn : n < 2 ^ 32 := u32_valid.mp (u32.read_eq_some_iff.mp hp).1
  have hdec : ∀ b, (Codec.bytes n).decode b =
      if n ≤ b.length then some (id (b.take n), b.drop n) else none := fun _ => rfl
  exact (consumes_bytes n fun pos => "compiled artifact: truncated string (want " ++ toString n ++
    " bytes, have " ++ toString (buf.length - pos) ++ ")").tracks hdec hn hbuf hs'

theorem tracks_setHeader {f : ArtifactHeader → ArtifactHeader} (hs : Shows buf r s) :
    Tracks buf Eq (setHeader f) (put f) r s :=
  .of_some rfl rfl rfl ⟨hs.pos_le, hs.rest, congrArg f hs.header, hs.object, hs.view⟩
    (.of_log_eq rfl)

theorem readMagic_run (buf expected : Bytes) (label : String) (r : ArtifactReader) :
    (readMagic buf expected label).run r =
      if sizeAdd r.pos 4 > buf.length then
        (.error (.invalidArgument
          ("compiled artifact: unexpected EOF reading " ++ label ++ " magic")), r)
      else if (buf.drop r.pos).take 4 ≠ expected then
        (.error (.invalidArgument ("compiled artifact: wrong " ++ label ++
          " magic (not a JitFusion compiled artifact?)")),
            { r with log := r.log ++ [.read r.pos 4] })
      else (.ok (), r.consumed 4) := by
  have hpeek : (peek buf 4).run r =
      (.ok ((buf.drop r.pos).take 4), { r with log := r.log ++ [.read r.pos 4] }) := rfl
  unfold readMagic
  rw [run_bind_ok (run_get r)]
  split
  · rfl
  · change (peek buf 4 >>= _).run r = _
    rw [run_bind_ok hpeek]
    split
    · rfl
    · rfl

theorem steps_read {n : Nat} (h : r.pos + n ≤ buf.length) :
    Steps buf r { r with log := r.log ++ [.read r.pos n] } := by
  refine ⟨[.read r.pos n], rfl, fun e he => ?_⟩
  rw [List.mem_singleton.mp he]
  exact inside_read h

theorem steps_consumed {n : Nat} (h : r.pos + n ≤ buf.length) (h64 : r.pos + n < 2 ^ 64) :
    Steps buf r (r.consumed n) := by
  refine (steps_read h).trans ⟨[.advance r.pos (sizeAdd r.pos n)], rfl, fun e he => ?_⟩
  rw [List.mem_singleton.mp he]
  exact inside_advance h h64

/-- A literal of four bytes: too few bytes left, or a difference, both of which the parser sees
as a wrong literal. -/
theorem tracks_magic {expected : Bytes} (label : String) (hlen : expected.length = 4)
    (hbuf : buf.length < 2 ^ 64) (hs : Shows buf r s) :
    Tracks buf Eq (readMagic buf expected label) (Codec.lit expected).read r s := by
  have hrest := hs.length_rest
  have hpos := hs.pos_le
  have hrun := readMagic_run buf expected label r
  by_cases hroom : r.pos + 4 ≤ buf.length
  · have h64 : r.pos + 4 < 2 ^ 64 := by omega
    have hcheck : ¬sizeAdd r.pos 4 > buf.length := by
      rw [sizeAdd_gt_iff _ h64]
      omega
    rw [if_neg hcheck] at hrun
    by_cases heq : (buf.drop r.pos).take 4 = expected
    · have hdec : (Codec.lit expected).read s = some ((), (s.1, s.2.drop 4)) := by
        simp [Codec.read, Codec.lit, hlen, ← hs.rest, heq]
      rw [if_neg (not_not.mpr heq)] at hrun
      exact .of_some hdec hrun rfl (hs.move hroom (Nat.mod_eq_of_lt h64) rfl)
        (steps_consumed hroom h64)
    · have hdec : (Codec.lit expected).read s = none := by
        simp [Codec.read, Codec.lit, hlen, ← hs.rest, heq]
      rw [if_pos heq] at hrun
      exact .of_none hdec hrun rfl (steps_read hroom)
  · have hdec : (Codec.lit expected).read s = none := by
      have hne : s.2.take 4 ≠ expected := by
        rintro rfl
        simp at hlen
        omega
      simp [Codec.read, Codec.lit, hlen, hne]
    unfold Tracks
    rw [hdec]
    intro hsmall
    have hcheck : sizeAdd r.pos 4 > buf.length := by
      rw [sizeAdd_gt_iff _ (by omega)]
      omega
    rw [if_pos hcheck] at hrun
    exact ⟨_, r, hrun, rfl, .refl buf r⟩

/-- What `readBytesView` does, whether the sum wraps or not. -/
theorem readBytesView_run (buf : Bytes) (n : Nat) (r : ArtifactReader) :
    (readBytesView buf n).run r =
    if sizeAdd r.pos n > buf.length then
      (.error (.invalidArgument ("compiled artifact: truncated blob (want " ++ toString n ++
        " bytes, have " ++ toString (buf.length - r.pos) ++ ")")), r)
    else (.ok ⟨r.pos, n⟩, { r with
      pos := sizeAdd r.pos n
      log := r.log ++ [.advance r.pos (sizeAdd r.pos n)] }) := by
  unfold readBytesView
  rw [run_bind_ok (run_get r)]
  split
  · rfl
  · rfl

/-- **The object view.**  Here the operand of the check can be any 64-bit number, so the sum must
be known not to wrap. -/
theorem tracks_view {n : Nat} (hbuf : buf.length < 2 ^ 64)
    (hn : buf.length + 2 ^ 32 ≤ 2 ^ 64 → r.pos + n < 2 ^ 64) (hs : Shows buf r s) :
    Tracks buf (fun v o => v.bytes buf = o ∧ v.start + v.len ≤ buf.length)
      (readBytesView buf n) (Codec.bytes n).read r s := by
  have hrest := hs.length_rest
  have hpos := hs.pos_le
  have hrun := readBytesView_run buf n r
  by_cases hroom : r.pos + n ≤ buf.length
  · have hdec : (Codec.bytes n).read s = some (s.2.take n, (s.1, s.2.drop n)) := by
      simp only [Codec.read, Codec.bytes]
      rw [if_pos (by omega)]
      rfl
    have h64 : r.pos + n < 2 ^ 64 := by omega
    have hcheck := sizeAdd_gt_iff buf.length h64
    rw [if_neg (by omega)] at hrun
    refine .of_some hdec hrun ⟨by rw [← hs.rest]; rfl, hroom⟩
      (hs.move hroom (Nat.mod_eq_of_lt h64) rfl) ⟨_, rfl, fun e he => ?_⟩
    rw [List.mem_singleton.mp he]
    exact inside_advance hroom h64
  · have hdec : (Codec.bytes n).read s = none := by
      simp only [Codec.read, Codec.bytes]
      rw [if_neg (by omega)]
      rfl
    unfold Tracks
    rw [hdec]
    intro hsmall
    have hcheck := sizeAdd_gt_iff buf.length (hn hsmall)
    rw [if_pos (by omega)] at hrun
    exact ⟨_, r, hrun, rfl, .refl buf r⟩

theorem tracks_copy {n : Nat} (hbuf : buf.length < 2 ^ 64) (hn : n < 2 ^ 32) (hs : Shows buf r s) :
    Tracks buf Eq (readBytesCopy buf n) (Codec.bytes n).read r s := by
  rw [← bind_pure (Codec.bytes n).read]
  have hpos := hs.pos_le
  refine (tracks_view hbuf (fun _ => by omega) hs).bind ?_
  rintro v o r' s' - ⟨ho, hv⟩ hs'
  refine .silent_bind rfl ⟨[.read v.start v.len], rfl, fun e he => ?_⟩
    (.pure ho ⟨hs'.1, hs'.2, hs'.3, hs'.4, hs'.5⟩)
  rw [List.mem_singleton.mp he]
  exact fun i _ hi => by omega

/-! ## 4. The whole parse -/

theorem tracks_readRetTypes (hbuf : buf.length < 2 ^ 64) (n i : Nat) {r : ArtifactReader}
    {s : Written × Bytes} (hs : Shows buf r s) :
    Tracks buf Eq (readRetTypes buf i n) (parseRetTypes i n) r s := by
  induction n generalizing i r s with
  | zero => exact .pure rfl hs
  | succ n ih =>
    refine (tracks_u8 hbuf hs).bind ?_
    rintro t _ r₁ s₁ - rfl hs₁
    refine (tracks_setHeader hs₁).bind ?_
    rintro _ _ r₂ s₂ - - hs₂
    exact ih (i + 1) hs₂

theorem tracks_readExtensions (hbuf : buf.length < 2 ^ 64) (n : Nat) {r : ArtifactReader}
    {s : Written × Bytes} (hs : Shows buf r s) :
    Tracks buf Eq (readExtensions buf n) (parseExtensions n) r s := by
  induction n generalizing r s with
  | zero => exact .pure rfl hs
  | succ n ih =>
    refine (tracks_u32 hbuf hs).bind ?_
    rintro tag _ r₁ s₁ - rfl hs₁
    refine (tracks_u32 hbuf hs₁).bind ?_
    rintro plen _ r₂ s₂ hplen rfl hs₂
    have hlt : plen < 2 ^ 32 := u32_valid.mp (u32.read_eq_some_iff.mp hplen).1
    refine (tracks_copy hbuf hlt hs₂).bind ?_
    rintro payload _ r₃ s₃ - rfl hs₃
    refine (tracks_setHeader hs₃).bind ?_
    rintro _ _ r₄ s₄ - - hs₄
    exact ih hs₄

/-- Sizing a vector reads nothing. -/
theorem tracks_allocate {β : Type} {count : Nat} {g : Unit → ReadM β} {q : Parse β}
    (hs : Shows buf r s)
    (hg : ∀ r', Shows buf r' s → Tracks buf Eq (g ()) q r' s) :
    Tracks buf Eq (allocate buf count >>= g) q r s := by
  refine .silent_bind rfl ⟨[.alloc count (buf.length - r.pos)], rfl, fun e he => ?_⟩
    (hg _ ⟨hs.1, hs.2, hs.3, hs.4, hs.5⟩)
  rw [List.mem_singleton.mp he]
  trivial

/-- A check of the reader that fails exactly when the parser's requirement does not hold. -/
theorem tracks_require {β : Type} {c p : Prop} [Decidable c] [Decidable p] {msg : String}
    {g : Unit → ReadM β} {q : Unit → Parse β} (hcp : ¬c ↔ p)
    (hg : p → Tracks buf Eq (g ()) (q ()) r s) :
    Tracks buf Eq (if c then fail msg >>= g else g ()) (require p >>= q) r s := by
  by_cases hc : c
  · have hp : (require p >>= q) s = none := by
      change (if p then _ else _ : Option _).bind _ = none
      rw [if_neg fun h => hcp.mpr h hc]
      rfl
    rw [if_pos hc]
    exact .of_none hp rfl rfl (.refl buf r)
  · have hreq : p := hcp.mp hc
    rw [if_neg hc]
    have hg := hg hreq
    unfold Tracks at hg ⊢
    rw [parse_bind_of (parse_require_of hreq)]
    exact hg

section Head

variable (buf : Bytes)

/-- `DeserializeArtifact` up to `num_entries`, which it has checked and returns. -/
def readHead : ReadM Nat := do
  readMagic buf kArtifactMagic "header"
  let formatVer ← readU32LE buf
  if formatVer ≠ kArtifactFormatVersion then
    fail ("compiled artifact: format version " ++ toString formatVer ++
      " not supported (this build expects " ++ toString kArtifactFormatVersion ++
        "). The artifact was produced by an incompatible jitfusion version.")
  let llvmVersion ← readLenPrefixedStr buf
  setHeader fun h => h.setLlvmVersion llvmVersion
  let targetTriple ← readLenPrefixedStr buf
  setHeader fun h => h.setTargetTriple targetTriple
  let cpuName ← readLenPrefixedStr buf
  setHeader fun h => h.setCpuName cpuName
  let modeByte ← readU8 buf
  let some mode := ArtifactMode.ofByte modeByte
    | fail ("compiled artifact: unknown mode byte " ++ toString modeByte.toNat)
  setHeader fun h => h.setMode mode
  let fpByte ← readU8 buf
  let some fpMathMode := FPMathMode.ofByte fpByte
    | fail ("compiled artifact: unknown fp_math_mode byte " ++ toString fpByte.toNat)
  setHeader fun h => h.setFPMathMode fpMathMode
  let numEntries ← readU32LE buf
  if numEntries = 0 then
    fail "compiled artifact: num_entries is 0"
  if mode = .kSingle ∧ numEntries ≠ 1 then
    fail ("compiled artifact: single-mode artifact with num_entries=" ++ toString numEntries)
  return numEntries

/-- From the sizing of `per_entry_ret_types` to `obj_size`. -/
def readEntries (numEntries : Nat) : ReadM Nat := do
  setHeader fun h => h.setRetTypes (resize h.perEntryRetTypes numEntries)
  readRetTypes buf 0 numEntries
  readU64LE buf

theorem readCore_eq : readCore buf = readHead buf >>= fun numEntries =>
    allocate buf numEntries >>= fun _ => readEntries buf numEntries := by
  unfold readCore readHead readEntries
  simp only [bind_assoc]
  refine bind_congr fun _ => bind_congr fun ver => ?_
  by_cases hver : ver ≠ kArtifactFormatVersion
  · rw [if_pos hver, if_pos hver]
    rfl
  · rw [if_neg hver, if_neg hver]
    simp only [bind_assoc]
    refine bind_congr fun llvm => bind_congr fun _ => bind_congr fun triple => ?_
    refine bind_congr fun _ => bind_congr fun cpu => bind_congr fun _ => ?_
    refine bind_congr fun modeByte => ?_
    cases ArtifactMode.ofByte modeByte with
    | none => rfl
    | some mode =>
      simp only [bind_assoc]
      refine bind_congr fun _ => bind_congr fun fpByte => ?_
      cases FPMathMode.ofByte fpByte with
      | none => rfl
      | some fp =>
        simp only [bind_assoc]
        refine bind_congr fun _ => bind_congr fun num => ?_
        split
        · rfl
        · split
          · rfl
          · rfl

end Head

/-- **The head is read as the parser reads it**, whatever the blob. -/
theorem tracks_readHead (hbuf : buf.length < 2 ^ 64) (hs : Shows buf r s) :
    Tracks buf Eq (readHead buf) parseHead r s := by
  unfold readHead parseHead
  refine (tracks_magic "header" rfl hbuf hs).bind ?_
  rintro _ _ r₁ s₁ - - hs₁
  refine (tracks_u32 hbuf hs₁).bind ?_
  rintro ver _ r₂ s₂ - rfl hs₂
  refine tracks_require (by simp) fun _ => ?_
  refine (tracks_str hbuf hs₂).bind ?_
  rintro llvm _ r₃ s₃ - rfl hs₃
  refine (tracks_setHeader hs₃).bind ?_
  rintro _ _ r₄ s₄ - - hs₄
  refine (tracks_str hbuf hs₄).bind ?_
  rintro triple _ r₅ s₅ - rfl hs₅
  refine (tracks_setHeader hs₅).bind ?_
  rintro _ _ r₆ s₆ - - hs₆
  refine (tracks_str hbuf hs₆).bind ?_
  rintro cpu _ r₇ s₇ - rfl hs₇
  refine (tracks_setHeader hs₇).bind ?_
  rintro _ _ r₈ s₈ - - hs₈
  refine (tracks_u8 hbuf hs₈).bind ?_
  rintro modeByte _ r₉ s₉ - rfl hs₉
  cases ArtifactMode.ofByte modeByte with
  | none => exact .of_none rfl rfl rfl (.refl buf r₉)
  | some mode =>
    rw [ofOption_some_bind]
    refine (tracks_setHeader hs₉).bind ?_
    rintro _ _ r₁₀ s₁₀ - - hs₁₀
    refine (tracks_u8 hbuf hs₁₀).bind ?_
    rintro fpByte _ r₁₁ s₁₁ - rfl hs₁₁
    cases FPMathMode.ofByte fpByte with
    | none => exact .of_none rfl rfl rfl (.refl buf r₁₁)
    | some fp =>
      rw [ofOption_some_bind]
      refine (tracks_setHeader hs₁₁).bind ?_
      rintro _ _ r₁₂ s₁₂ - - hs₁₂
      refine (tracks_u32 hbuf hs₁₂).bind ?_
      rintro num _ r₁₃ s₁₃ - rfl hs₁₃
      refine tracks_require Iff.rfl fun _ => ?_
      refine tracks_require Iff.rfl fun _ => ?_
      exact .pure rfl hs₁₃

theorem tracks_readEntries (hbuf : buf.length < 2 ^ 64) (num : Nat) (hs : Shows buf r s) :
    Tracks buf Eq (readEntries buf num) (parseEntries num) r s := by
  unfold readEntries parseEntries
  rw [read_retTypes]
  refine (tracks_setHeader hs).bind ?_
  rintro _ _ r₁ s₁ - - hs₁
  refine (tracks_readRetTypes hbuf num 0 hs₁).bind ?_
  rintro _ _ r₂ s₂ - - hs₂
  exact tracks_u64 hbuf hs₂

/-- **The core fields are read as the parser reads them**, whatever the blob. -/
theorem tracks_readCore (hbuf : buf.length < 2 ^ 64) (hs : Shows buf r s) :
    Tracks buf Eq (readCore buf) parseCore r s := by
  rw [readCore_eq, parseCore_eq]
  refine (tracks_readHead hbuf hs).bind ?_
  rintro num _ r₁ s₁ - rfl hs₁
  exact tracks_allocate hs₁ fun r₂ hs₂ => tracks_readEntries hbuf num hs₂

/-- **So is what follows `obj_size`**, if passing over the object does not wrap the cursor. -/
theorem tracks_readPayload {objSize : Nat} (hbuf : buf.length < 2 ^ 64)
    (hn : buf.length + 2 ^ 32 ≤ 2 ^ 64 → r.pos + objSize < 2 ^ 64) (hs : Shows buf r s) :
    Tracks buf Eq (readPayload buf objSize) (parsePayload objSize) r s := by
  unfold readPayload parsePayload
  refine (tracks_view hbuf hn hs).bind ?_
  rintro v o r₁ s₁ - ⟨ho, hv⟩ hs₁
  have hobj : Tracks buf Eq (modify fun r => { r with out := { r.out with object := some v } })
      (writeObject o) r₁ s₁ := by
    refine .of_some rfl rfl rfl ⟨hs₁.1, hs₁.2, hs₁.3, ?_, ?_⟩ (.of_log_eq rfl)
    · exact congrArg some ho
    · intro w hw
      cases hw
      exact hv
  refine hobj.bind ?_
  rintro _ _ r₂ s₂ - - hs₂
  rw [read_extensions]
  refine (tracks_u32 hbuf hs₂).bind ?_
  rintro count _ r₃ s₃ - rfl hs₃
  refine (tracks_setHeader hs₃).bind ?_
  rintro _ _ r₄ s₄ - - hs₄
  refine tracks_allocate hs₄ fun r₅ hs₅ => ?_
  refine (tracks_readExtensions hbuf count hs₅).bind ?_
  rintro _ _ r₆ s₆ - - hs₆
  refine (tracks_magic "footer" rfl hbuf hs₆).bind ?_
  rintro _ _ r₇ s₇ - - hs₇
  have hleft := hs₇.length_rest
  have hrun : (remaining buf).run r₇ = (.ok (buf.length - r₇.pos), r₇) := rfl
  refine Tracks.of_run_eq ?_ (run_bind_ok hrun) (.refl buf r₇)
  by_cases hend : s₇.2 = []
  · have hzero : buf.length - r₇.pos = 0 := by rw [← hleft, hend]; rfl
    rw [if_neg (not_not.mpr hzero)]
    exact .of_some (if_pos hend) rfl rfl hs₇ (.refl buf r₇)
  · have hpos : buf.length - r₇.pos ≠ 0 := by
      rw [← hleft]
      exact fun h => hend (List.eq_nil_of_length_eq_zero h)
    rw [if_pos hpos]
    exact .of_none (if_neg hend) rfl rfl (.refl buf r₇)

end Reads

/-- What the reader and the parser see at the start. -/
theorem shows_start (buf : Bytes) (h : ArtifactHeader) :
    Shows buf { out := { header := h } } (⟨h, none⟩, buf) :=
  ⟨Nat.zero_le _, rfl, rfl, rfl, by rintro v ⟨⟩⟩

/-- After the core the cursor stands behind it. -/
theorem Shows.pos_of_append {buf : Bytes} {r : ArtifactReader} {s : Written × Bytes} {pre : Bytes}
    (hs : Shows buf r s) (h : buf = pre ++ s.2) : r.pos = pre.length := by
  have hlen := hs.length_rest
  have hpos := hs.pos_le
  have hbuf := congrArg List.length h
  rw [List.length_append] at hbuf
  omega

/-- **The `obj_size` field does not wrap**: if the blob begins with core fields whose last one,
`obj_size`, is `n`, then the offset behind them plus `n` is a 64-bit number. -/
def ObjSizeFits (buf : Bytes) : Prop :=
  ∀ h n rest, CoreValid h → n < 2 ^ 64 → buf = encodeCore h n ++ rest →
    (encodeCore h n).length + n < 2 ^ 64

/-- **The reader follows the parser over the whole blob.** -/
theorem tracks_deserialize {buf : Bytes} (h₀ : ArtifactHeader) (hbuf : buf.length < 2 ^ 64)
    (hfits : buf.length + 2 ^ 32 ≤ 2 ^ 64 → ObjSizeFits buf) :
    Tracks buf Eq (readCore buf >>= readPayload buf) parseArtifact { out := { header := h₀ } }
      (⟨h₀, none⟩, buf) := by
  refine (tracks_readCore hbuf (shows_start buf h₀)).bind ?_
  rintro n _ r s hcore rfl hs
  obtain ⟨hv, hn, -, -, heq⟩ := parseCore_sound hcore
  refine tracks_readPayload hbuf (fun hsmall => ?_) hs
  rw [hs.pos_of_append heq]
  exact hfits hsmall _ n s.2 hv hn heq

end JitFusion
