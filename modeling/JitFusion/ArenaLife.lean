/-
# What an arena guarantees about its memory

For every sequence of `Allocate`, `Create` and `Reset` calls, constructors that use the arena
themselves included, and whatever `malloc` answers within its contract (`Fair`).

`Arena.Sound` relates an arena to the blocks it has returned since the last `Reset`: each is
aligned and lies within one live chunk, no two share a byte, and `availBuf`, `availBytes` describe
a tail of the last chunk that no block reaches.  A new chunk and a bump preserve it, and a `Reset`
establishes it for no blocks; so it holds all along a run (`World.arena_sound`).
-/
import JitFusion.Arena
import JitFusion.Lib.Region

namespace JitFusion

/-! ## 1. The contract of a call -/

def Chunk.region (c : Chunk) : Region := ⟨c.buf, c.size⟩

def Block.region (b : Block) : Region := ⟨b.addr, b.size⟩

namespace Arena

/-- What `avail_buf_` and `avail_bytes_` describe. -/
def tail (a : Arena) : Region := ⟨a.availBuf, a.availBytes⟩

/-- What `malloc` promises of a non-null answer: bytes whose addresses, the one past the end
included, are addresses, and that are apart from everything live. -/
structure MallocGives (a : Arena) (size p : Nat) : Prop where
  nonnull : p ≠ 0
  fits : p + size < 2 ^ 64
  fresh : ∀ c ∈ a.chunks, c.region.Apart ⟨p, size⟩

/-- What the assertions of `Allocate` ask of the caller, and its contract with `malloc`. -/
structure Request (a : Arena) (size alignment : Nat) (malloc : Option Nat) : Prop where
  pow : ∃ k, k < 64 ∧ alignment = 2 ^ k
  fits : size ≠ 0 → size ≤ sizeMax - padding a.availBuf alignment
  chunk : size ≠ 0 → a.needsChunk size alignment → size ≤ sizeMax - (alignment - 1) ∧
    ∀ p, malloc = some p → a.MallocGives (a.chunkSize size alignment) p

/-! ## 2. Alignment -/

theorem padding_eq {addr k : Nat} (hk : k < 64) :
    padding addr (2 ^ k) = (2 ^ 64 - addr) % 2 ^ k := by
  have hdvd : 2 ^ k ∣ 2 ^ 64 := Nat.pow_dvd_pow 2 hk.le
  rw [padding, Nat.and_two_pow_sub_one_eq_mod, wrap, Nat.mod_mod_of_dvd _ hdvd]

theorem padding_lt (addr : Nat) {k : Nat} (hk : k < 64) : padding addr (2 ^ k) < 2 ^ k := by
  rw [padding_eq hk]
  exact Nat.mod_lt _ (Nat.two_pow_pos k)

/-- The padding reaches the next multiple of the alignment. -/
theorem dvd_add_padding {addr k : Nat} (hk : k < 64) (haddr : addr < 2 ^ 64) :
    2 ^ k ∣ addr + padding addr (2 ^ k) := by
  have hdvd : 2 ^ k ∣ 2 ^ 64 := Nat.pow_dvd_pow 2 hk.le
  apply Nat.dvd_of_mod_eq_zero
  calc (addr + padding addr (2 ^ k)) % 2 ^ k
      = (addr + (2 ^ 64 - addr)) % 2 ^ k := by rw [padding_eq hk, Nat.add_mod_mod]
    _ = 2 ^ 64 % 2 ^ k := by rw [Nat.add_sub_cancel' haddr.le]
    _ = 0 := Nat.mod_eq_zero_of_dvd hdvd

/-! ## 3. The invariant, and what preserves it -/

/-- **The arena is sound for the blocks it has returned since the last `Reset`.** -/
structure Sound (a : Arena) (blocks : List Block) : Prop where
  chunksApart : (a.chunks.map Chunk.region).Pairwise Region.Apart
  chunksMapped : ∀ c ∈ a.chunks, c.buf ≠ 0 ∧ c.buf + c.size < 2 ^ 64
  /-- `total_bytes()` is the sum of the chunks' sizes. -/
  total : a.totalBytes = (a.chunks.map Chunk.size).sum
  /-- Nothing is available without a chunk. -/
  empty : a.chunks = [] → a.availBuf = 0 ∧ a.availBytes = 0
  /-- What is available is a tail of the last chunk. -/
  last : ∀ c, a.chunks.getLast? = some c → c.buf ≤ a.availBuf ∧ a.tail.stop = c.region.stop
  aligned : ∀ b ∈ blocks, b.alignment ∣ b.addr
  inside : ∀ b ∈ blocks, ∃ c ∈ a.chunks, b.region.Within c.region
  apart : (blocks.map Block.region).Pairwise Region.Apart
  /-- No block reaches into what is available. -/
  unused : ∀ b ∈ blocks, b.region.Apart a.tail
  nonempty : ∀ b ∈ blocks, 0 < b.size

theorem sound_start (minChunkSize : Nat) : Sound { minChunkSize } [] where
  chunksApart := .nil
  chunksMapped := by simp
  total := rfl
  empty := fun _ => ⟨rfl, rfl⟩
  last := by simp
  aligned := by simp
  inside := by simp
  apart := .nil
  unused := by simp
  nonempty := by simp

/-- The bookkeeping of finalizers is apart from that of memory. -/
theorem Sound.withFinalizers {a : Arena} {blocks : List Block} (h : a.Sound blocks)
    (fs : List Finalizer) : Sound { a with finalizers := fs } blocks :=
  ⟨h.chunksApart, h.chunksMapped, h.total, h.empty, h.last, h.aligned, h.inside, h.apart,
    h.unused, h.nonempty⟩

/-- What is available lies within the address space. -/
theorem Sound.tail_lt {a : Arena} {blocks : List Block} (h : a.Sound blocks) :
    a.availBuf + a.availBytes < 2 ^ 64 := by
  cases hlast : a.chunks.getLast? with
  | none =>
    rcases h.empty (List.getLast?_eq_none_iff.mp hlast) with ⟨hbuf, hbytes⟩
    omega
  | some c =>
    have hstop := (h.last c hlast).2
    have hmapped := (h.chunksMapped c (List.mem_of_getLast? hlast)).2
    simp only [tail, Chunk.region, Region.stop_mk] at hstop
    omega

/-- The arena with one more chunk, all of it available. -/
def withChunk (a : Arena) (p size : Nat) : Arena :=
  { a with
    chunks := a.chunks ++ [⟨p, size⟩]
    availBuf := p
    availBytes := size
    totalBytes := wrap (a.totalBytes + size) }

/-- **A new chunk keeps the invariant.**  It is apart from the old chunks, so from all blocks;
what was available in the old last chunk is given up. -/
theorem Sound.withChunk {a : Arena} {blocks : List Block} {size p : Nat} (h : a.Sound blocks)
    (hm : a.MallocGives size p) : (a.withChunk p size).Sound blocks := by
  have hchunks : ((a.withChunk p size).chunks.map Chunk.region).Pairwise Region.Apart := by
    simp only [Arena.withChunk, List.map_append, List.map_cons, List.map_nil]
    rw [List.pairwise_append]
    refine ⟨h.chunksApart, List.pairwise_singleton _ _, ?_⟩
    intro r hr s hs
    rcases List.mem_map.mp hr with ⟨c, hc, rfl⟩
    rw [List.mem_singleton.mp hs]
    exact hm.fresh c hc
  have hmapped : ∀ c ∈ (a.withChunk p size).chunks, c.buf ≠ 0 ∧ c.buf + c.size < 2 ^ 64 := by
    intro c hc
    rcases List.mem_append.mp hc with hc | hc
    · exact h.chunksMapped c hc
    · rw [List.mem_singleton.mp hc]
      exact ⟨hm.nonnull, hm.fits⟩
  refine ⟨hchunks, hmapped, ?_, ?_, ?_, h.aligned, ?_, h.apart, ?_, h.nonempty⟩
  · -- the sum of the sizes is a number of bytes of the address space, so it does not wrap
    have hpack := Region.sum_size_le 1 (2 ^ 64) hchunks (by
      intro r hr
      rcases List.mem_map.mp hr with ⟨c, hc, rfl⟩
      exact ⟨Nat.one_le_iff_ne_zero.mpr (hmapped c hc).1, (hmapped c hc).2.le⟩)
    simp only [Arena.withChunk, List.map_append, List.map_cons, List.map_nil, List.sum_append,
      List.map_map, List.sum_cons, List.sum_nil, Nat.add_zero] at hpack ⊢
    have hsum : (a.chunks.map (Region.size ∘ Chunk.region)) = a.chunks.map Chunk.size := rfl
    simp only [hsum, Chunk.region] at hpack
    rw [h.total, wrap, Nat.mod_eq_of_lt (by omega)]
  · intro hnil
    simp [Arena.withChunk] at hnil
  · intro c hc
    simp only [Arena.withChunk, List.getLast?_append, List.getLast?_singleton, Option.some_or,
      Option.some.injEq] at hc
    subst hc
    exact ⟨le_rfl, rfl⟩
  · intro b hb
    rcases h.inside b hb with ⟨c, hc, hwithin⟩
    exact ⟨c, List.mem_append_left _ hc, hwithin⟩
  · intro b hb
    rcases h.inside b hb with ⟨c, hc, hwithin⟩
    exact hwithin.apart (hm.fresh c hc)

/-- What `bump` leaves, when what is available holds the block and its padding. -/
theorem bump_eq {a : Arena} {size pad : Nat} (hfits : size + pad ≤ a.availBytes)
    (hlt : a.availBuf + a.availBytes < 2 ^ 64) : a.bump size pad = (some (a.availBuf + pad),
      { a with availBuf := a.availBuf + (size + pad)
               availBytes := a.availBytes - (size + pad) }) := by
  have hw : wrap (size + pad) = size + pad := Nat.mod_eq_of_lt (by omega)
  have hsub : wrap (a.availBytes + 2 ^ 64 - (size + pad)) = a.availBytes - (size + pad) := by
    have he : a.availBytes + 2 ^ 64 - (size + pad) = a.availBytes - (size + pad) + 2 ^ 64 := by
      omega
    rw [he, wrap, Nat.add_mod_right, Nat.mod_eq_of_lt (by omega)]
  rw [bump, hw, hsub]

/-- **A bump keeps the invariant**, with the new block among the returned ones. -/
theorem Sound.bump {a : Arena} {blocks : List Block} {size alignment pad : Nat}
    (h : a.Sound blocks) (hsize : 0 < size) (hfits : size + pad ≤ a.availBytes)
    (hdvd : alignment ∣ a.availBuf + pad) :
    (a.bump size pad).2.Sound (blocks ++ [⟨a.availBuf + pad, size, alignment⟩]) := by
  rw [bump_eq hfits h.tail_lt]
  have hne : a.chunks ≠ [] := by
    intro hnil
    have hzero := (h.empty hnil).2
    omega
  refine ⟨h.chunksApart, h.chunksMapped, h.total, fun hnil => absurd hnil hne, ?_, ?_, ?_, ?_,
    ?_, ?_⟩
  · intro c hc
    have hlast := h.last c hc
    simp only [tail, Chunk.region, Region.stop_mk] at hlast ⊢
    omega
  · intro b hb
    rcases List.mem_append.mp hb with hb | hb
    · exact h.aligned b hb
    · rw [List.mem_singleton.mp hb]
      exact hdvd
  · intro b hb
    rcases List.mem_append.mp hb with hb | hb
    · exact h.inside b hb
    · rw [List.mem_singleton.mp hb]
      have hlast := h.last _ (List.getLast?_eq_some_getLast hne)
      refine ⟨a.chunks.getLast hne, List.getLast_mem hne, ?_⟩
      simp only [tail, Chunk.region, Region.stop_mk] at hlast
      simp only [Region.Within, Block.region, Chunk.region, Region.stop_mk]
      omega
  · rw [List.map_append, List.pairwise_append]
    refine ⟨h.apart, List.pairwise_singleton _ _, ?_⟩
    intro r hr s hs
    rcases List.mem_map.mp hr with ⟨b, hb, rfl⟩
    rw [List.mem_singleton.mp hs]
    have hunused := h.unused b hb
    simp only [Region.Apart, tail, Block.region, Region.stop_mk] at hunused ⊢
    omega
  · intro b hb
    rcases List.mem_append.mp hb with hb | hb
    · have hunused := h.unused b hb
      simp only [Region.Apart, tail, Block.region, Region.stop_mk] at hunused ⊢
      omega
    · rw [List.mem_singleton.mp hb]
      simp only [Region.Apart, tail, Block.region, Region.stop_mk]
      omega
  · intro b hb
    rcases List.mem_append.mp hb with hb | hb
    · exact h.nonempty b hb
    · rw [List.mem_singleton.mp hb]
      exact hsize

/-- **What `Allocate` may do**: nothing, and then it returns null; or return a block from an
arena that is sound with it, leaving the finalizers alone. -/
theorem Sound.allocate_cases {a : Arena} {blocks : List Block} {size alignment : Nat}
    {malloc : Option Nat} (h : a.Sound blocks) (hr : a.Request size alignment malloc) :
    a.allocate size alignment malloc = (none, a) ∨
    ∃ p a', a.allocate size alignment malloc = (some p, a') ∧
      a'.Sound (blocks ++ [⟨p, size, alignment⟩]) ∧ a'.finalizers = a.finalizers := by
  unfold allocate
  split
  · exact .inl rfl
  rename_i hsize
  rcases hr.pow with ⟨k, hk, rfl⟩
  have htail := h.tail_lt
  have hlt := padding_lt a.availBuf hk
  split
  · rename_i hneeds
    have hchunk := hr.chunk hsize hneeds
    cases malloc with
    | none => exact .inl rfl
    | some p =>
      have hm := hchunk.2 p rfl
      have hsound := h.withChunk hm
      have hpad := padding_lt p hk
      have hfits : size + padding p (2 ^ k) ≤ a.chunkSize size (2 ^ k) := by
        have hw : wrap (size + 2 ^ k - 1) = size + 2 ^ k - 1 :=
          Nat.mod_eq_of_lt (by have := hchunk.1; unfold sizeMax at this; omega)
        rw [chunkSize, hw]
        omega
      have hp : p < 2 ^ 64 := by have := hm.fits; omega
      exact .inr ⟨_, _, rfl, hsound.bump (Nat.pos_of_ne_zero hsize) hfits
        (dvd_add_padding hk hp), rfl⟩
  · rename_i hneeds
    have hfits : size + padding a.availBuf (2 ^ k) ≤ a.availBytes := by
      have hasserted := hr.fits hsize
      have hw : wrap (size + padding a.availBuf (2 ^ k)) = size + padding a.availBuf (2 ^ k) :=
        Nat.mod_eq_of_lt (by
          have hbound : padding a.availBuf (2 ^ k) < 2 ^ 64 :=
            hlt.trans (Nat.pow_lt_pow_right (by decide) hk)
          unfold sizeMax at hasserted
          omega)
      rw [needsChunk, hw] at hneeds
      omega
    exact .inr ⟨_, _, rfl, h.bump (Nat.pos_of_ne_zero hsize) hfits
      (dvd_add_padding hk (by omega)), rfl⟩

/-- A bump moves what is available, and nothing else. -/
theorem bump_shape (a : Arena) (size pad : Nat) : ∃ p buf bytes,
    a.bump size pad = (some p, { a with availBuf := buf, availBytes := bytes }) :=
  ⟨_, _, _, rfl⟩

theorem bump_finalizers (a : Arena) (size pad : Nat) :
    (a.bump size pad).2.finalizers = a.finalizers := by
  rcases bump_shape a size pad with ⟨p, buf, bytes, h⟩
  rw [h]

theorem allocate_finalizers (a : Arena) (size alignment : Nat) (malloc : Option Nat) :
    (a.allocate size alignment malloc).2.finalizers = a.finalizers := by
  unfold allocate
  split
  · rfl
  split
  · cases malloc with
    | none => rfl
    | some p => exact (bump_finalizers _ _ _).trans rfl
  · exact bump_finalizers _ _ _

/-- A request that needs a chunk and gets none changes nothing. -/
theorem allocate_of_malloc_none {a : Arena} {size alignment : Nat}
    (h : a.needsChunk size alignment) : a.allocate size alignment none = (none, a) := by
  unfold allocate
  by_cases hsize : size = 0
  · rw [if_pos hsize]
  · rw [if_neg hsize, if_pos h]
    rfl

/-- The first chunk, all of it available, is what a `Reset` leaves. -/
theorem reset_of_cons {a : Arena} {first : Chunk} {rest : List Chunk}
    (h : a.chunks = first :: rest) : a.reset.2 = { a with
      chunks := [first]
      availBuf := first.buf
      availBytes := first.size
      totalBytes := first.size
      finalizers := [] } := by
  unfold reset
  rw [h]
  rfl

/-- **A `Reset` establishes the invariant for no blocks.** -/
theorem Sound.reset {a : Arena} {blocks : List Block} (h : a.Sound blocks) :
    a.reset.2.Sound [] := by
  cases hchunks : a.chunks with
  | nil =>
    have hreset : a.reset.2 = a := by
      unfold Arena.reset
      rw [hchunks]
    rw [hreset]
    exact ⟨h.chunksApart, h.chunksMapped, h.total, h.empty, h.last, by simp, by simp, .nil,
      by simp, by simp⟩
  | cons first rest =>
    rw [reset_of_cons hchunks]
    have hmapped := h.chunksMapped first (by simp [hchunks])
    refine ⟨List.pairwise_singleton _ _, ?_, ?_, by simp, ?_, by simp, by simp, .nil, by simp,
      by simp⟩
    · intro c hc
      rw [List.mem_singleton.mp hc]
      exact hmapped
    · simp
    · intro c hc
      simp only [List.getLast?_singleton, Option.some.injEq] at hc
      subst hc
      exact ⟨le_rfl, rfl⟩

end Arena

/-! ## 4. Runs -/

namespace Event

/-- The block an event returns. -/
def block? : Event → Option Block
  | returned b => some b
  | _ => none

/-- The object whose construction an event completes. -/
def completed? : Event → Option Finalizer
  | completed f => some f
  | _ => none

end Event

def blocksOf (events : List Event) : List Block := events.filterMap Event.block?

def completions (events : List Event) : List Finalizer := events.filterMap Event.completed?

@[simp] theorem blocksOf_append (l l' : List Event) :
    blocksOf (l ++ l') = blocksOf l ++ blocksOf l' := List.filterMap_append

@[simp] theorem blocksOf_nil : blocksOf [] = [] := rfl

@[simp] theorem blocksOf_returned (b : Block) (l : List Event) :
    blocksOf (.returned b :: l) = b :: blocksOf l := rfl

@[simp] theorem blocksOf_completed (f : Finalizer) (l : List Event) :
    blocksOf (.completed f :: l) = blocksOf l := rfl

@[simp] theorem completions_nil : completions [] = [] := rfl

@[simp] theorem completions_append (l l' : List Event) :
    completions (l ++ l') = completions l ++ completions l' := List.filterMap_append

@[simp] theorem completions_returned (b : Block) (l : List Event) :
    completions (.returned b :: l) = completions l := rfl

@[simp] theorem completions_completed (f : Finalizer) (l : List Event) :
    completions (.completed f :: l) = f :: completions l := rfl

namespace World

mutual

/-- The calls of a run meet their contract, those of the constructors included. -/
def UseFair (w : World) : Use → Prop
  | .allocate size alignment malloc => w.arena.Request size alignment malloc
  | .create type malloc constructor _ =>
    w.arena.Request type.size type.alignment malloc ∧
      ∀ mem w', w.allocate type.size type.alignment malloc = (some mem, w') →
        UsesFair w' constructor
termination_by structural u => u

def UsesFair (w : World) : List Use → Prop
  | [] => True
  | u :: us => UseFair w u ∧ UsesFair (w.use u) us
termination_by structural us => us

end

def CallFair (w : World) : Call → Prop
  | .use u => w.UseFair u
  | .reset => True

/-- Every call of the run meets its contract in the world it is made in. -/
def Fair (minChunkSize : Nat) (calls : List Call) : Prop :=
  ∀ pre c, pre ++ [c] <+: calls → (afterCalls minChunkSize pre).CallFair c

/-- The arena is sound for the blocks it has returned since the last `Reset`. -/
def Sound (w : World) : Prop := w.arena.Sound (blocksOf w.epoch)

/-- What the two steps of a use preserve: an allocation within the contract, and the end of a
construction. -/
structure Stable (P : World → Prop) : Prop where
  allocate : ∀ w size alignment malloc, P w → w.arena.Request size alignment malloc →
    P (w.allocate size alignment malloc).2
  complete : ∀ w type obj ending, P w → P (w.complete type obj ending)

mutual

/-- **A property that allocations within the contract and completions preserve is preserved by
every use of the arena.**  The induction is over the call and the calls of its constructor. -/
theorem Stable.use {P : World → Prop} (hP : Stable P) :
    ∀ (u : Use) (w : World), P w → w.UseFair u → P (w.use u)
  | .allocate size alignment malloc, w, hw, hfair => by
    rw [World.use]
    rw [UseFair] at hfair
    exact hP.allocate w size alignment malloc hw hfair
  | .create type malloc constructor ending, w, hw, hfair => by
    rw [World.use, World.create]
    rw [UseFair] at hfair
    have hmem := hP.allocate w _ _ _ hw hfair.1
    cases hres : w.allocate type.size type.alignment malloc with
    | mk mem w' =>
      rw [hres] at hmem
      cases mem with
      | none => exact hmem
      | some mem =>
        have hbody := hP.uses constructor w' hmem (hfair.2 mem w' hres)
        exact hP.complete _ type mem ending hbody

theorem Stable.uses {P : World → Prop} (hP : Stable P) :
    ∀ (us : List Use) (w : World), P w → w.UsesFair us → P (w.uses us)
  | [], w, hw, _ => by
    rw [World.uses]
    exact hw
  | u :: us, w, hw, hfair => by
    rw [UsesFair] at hfair
    rw [World.uses]
    have hu := hP.use u w hw hfair.1
    exact hP.uses us _ hu hfair.2

end

theorem Sound.allocate {w : World} {size alignment : Nat} {malloc : Option Nat} (h : w.Sound)
    (hr : w.arena.Request size alignment malloc) : (w.allocate size alignment malloc).2.Sound := by
  unfold World.allocate
  rcases Arena.Sound.allocate_cases h hr with heq | ⟨p, a', heq, hsound, -⟩
  · rw [heq]
    exact h
  · rw [heq, World.Sound, blocksOf_append, blocksOf_returned, blocksOf_nil]
    exact hsound

theorem Sound.complete {w : World} (h : w.Sound) (type : ObjectType) (obj : Nat)
    (ending : Ending) : (w.complete type obj ending).Sound := by
  cases ending with
  | completes =>
    simp only [World.complete]
    split
    · exact h
    · rw [World.Sound, blocksOf_append, blocksOf_completed, blocksOf_nil, List.append_nil]
      exact Arena.Sound.withFinalizers h _
  | constructorThrows => exact h
  | emplaceThrows => exact h

theorem stable_sound : Stable Sound where
  allocate _ _ _ _ hw hr := hw.allocate hr
  complete _ type obj ending hw := hw.complete type obj ending

theorem Sound.call {w : World} {c : Call} (h : w.Sound) (hfair : w.CallFair c) :
    (w.call c).Sound := by
  cases c with
  | use u => exact stable_sound.use u w h hfair
  | reset => exact Arena.Sound.reset h

theorem afterCalls_append (minChunkSize : Nat) (pre : List Call) (c : Call) :
    afterCalls minChunkSize (pre ++ [c]) = (afterCalls minChunkSize pre).call c :=
  Machine.run_append_singleton call _ pre c

theorem fair_nil (minChunkSize : Nat) : Fair minChunkSize [] := by
  intro pre c hpre
  simpa using hpre.length_le

theorem fair_append {minChunkSize : Nat} {calls : List Call} {c : Call}
    (h : Fair minChunkSize calls) (hc : (afterCalls minChunkSize calls).CallFair c) :
    Fair minChunkSize (calls ++ [c]) := by
  intro pre c' hpre
  rcases List.prefix_concat_iff.mp hpre with heq | hpre
  · rcases List.append_inj' heq rfl with ⟨rfl, hcc⟩
    cases hcc
    exact hc
  · exact h pre c' hpre

theorem sound_start (minChunkSize : Nat) : (start minChunkSize).Sound :=
  Arena.sound_start minChunkSize

theorem sound_afterCalls {minChunkSize : Nat} {calls : List Call}
    (hfair : Fair minChunkSize calls) : ∀ pre, pre <+: calls →
      (afterCalls minChunkSize pre).Sound :=
  Machine.run_inv_of_ok (sound_start minChunkSize) (fun _ _ hw hc => Sound.call hw hc) hfair

/-- **The arena's memory, all along a run.**  After every prefix of the calls the arena is sound
for the blocks returned since the last `Reset`; a `Reset` then keeps exactly the first chunk and
makes all of it available; and an `Allocate` that needs a chunk and gets none changes nothing. -/
theorem arena_sound {minChunkSize : Nat} {calls pre : List Call}
    (hfair : Fair minChunkSize calls) (hpre : pre <+: calls) :
    let w := afterCalls minChunkSize pre
    w.Sound ∧
      (∀ first rest, w.arena.chunks = first :: rest →
        w.reset.arena.chunks = [first] ∧ w.reset.arena.tail = first.region ∧
          w.reset.arena.totalBytes = first.size) ∧
      ∀ size alignment, w.arena.needsChunk size alignment →
        w.allocate size alignment none = (none, w) := by
  refine ⟨sound_afterCalls hfair pre hpre, ?_, ?_⟩
  · intro first rest hchunks
    have hreset : (afterCalls minChunkSize pre).reset.arena = _ := Arena.reset_of_cons hchunks
    rw [hreset]
    exact ⟨rfl, rfl, rfl⟩
  · intro size alignment hneeds
    rw [World.allocate, Arena.allocate_of_malloc_none hneeds]

/-- Two blocks out of a chunk at the address `4096`, one that needs a second chunk, one that
`malloc` has no chunk for, and one behind a `Reset`. -/
def twoChunks : List Call :=
  [.use (.allocate 8 8 (some 4096)), .use (.allocate 3 1 none), .use (.allocate 100 16 (some 8192)),
    .use (.allocate 200 8 none), .reset, .use (.allocate 16 8 none)]

theorem fair_twoChunks : Fair 64 twoChunks := by
  have hfirst : Fair 64 (twoChunks.take 1) := by
    refine fair_append (fair_nil 64) ⟨⟨3, by decide⟩, fun _ => by decide, fun _ _ =>
      ⟨by decide, ?_⟩⟩
    rintro p ⟨⟩
    exact ⟨by decide, by decide, by decide⟩
  have hsecond : Fair 64 (twoChunks.take 2) :=
    fair_append hfirst ⟨⟨0, by decide⟩, fun _ => by decide, fun _ _ => ⟨by decide, nofun⟩⟩
  have hthird : Fair 64 (twoChunks.take 3) := by
    refine fair_append hsecond ⟨⟨4, by decide⟩, fun _ => by decide, fun _ _ => ⟨by decide, ?_⟩⟩
    rintro p ⟨⟩
    exact ⟨by decide, by decide, by decide⟩
  have hrefused : Fair 64 (twoChunks.take 4) :=
    fair_append hthird ⟨⟨3, by decide⟩, fun _ => by decide, fun _ _ => ⟨by decide, nofun⟩⟩
  have hreset : Fair 64 (twoChunks.take 5) := fair_append hrefused trivial
  exact fair_append hreset ⟨⟨3, by decide⟩, fun _ => by decide, fun _ _ => ⟨by decide, nofun⟩⟩

theorem arena_sound_twoChunks :
    let w := afterCalls 64 (twoChunks.take 3)
    (afterCalls 64 twoChunks).Sound ∧ w.Sound ∧ w.reset.arena.chunks = [⟨4096, 64⟩] ∧
      w.allocate 200 8 none = (none, w) := by
  have h := arena_sound fair_twoChunks (List.take_prefix 3 twoChunks)
  refine ⟨(arena_sound fair_twoChunks (List.prefix_refl twoChunks)).1, h.1, ?_, ?_⟩
  · exact (h.2.1 ⟨4096, 64⟩ [⟨8192, 115⟩] rfl).1
  · exact h.2.2 200 8 (by decide)

end World
end JitFusion
