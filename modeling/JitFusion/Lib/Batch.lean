/-
# Loops over batches

A vectorised loop handles the indices below `n` in batches of `size` and those that are left one by
one (`batchLoop`).  If a batch does at each of its indices what the scalar body does there
(`Lanewise`), the loop is the scalar one, also where the body reads the slot it writes.

An `Access` is a buffer together with the indices at which something was read.
-/
import JitFusion.Lib.Append

namespace Fill

variable {α : Type}

structure Access (α : Type) where
  result : Buffer α
  /-- The indices that were read, the last one first. -/
  reads : List Nat := []

namespace Access

/-- The indices `i`, …, `i + size - 1` are read. -/
def load (size i : Nat) (s : Access α) : Access α :=
  { s with reads := ((List.range size).map (i + ·)).reverse ++ s.reads }

/-- The slots `i`, …, `i + size - 1` are written. -/
def store (size i : Nat) (lane : Nat → α) (s : Access α) : Access α :=
  { s with result := copy lane size i s.result }

def read (i : Nat) (s : Access α) : Access α := { s with reads := i :: s.reads }

def write (i : Nat) (v : α) (s : Access α) : Access α := { s with result := s.result.write i v }

variable {s : Access α} {size i r : Nat}

@[simp] theorem result_load : (s.load size i).result = s.result := rfl

@[simp] theorem result_read : (s.read i).result = s.result := rfl

@[simp] theorem result_store (lane : Nat → α) :
    (s.store size i lane).result = copy lane size i s.result := rfl

@[simp] theorem result_write (v : α) : (s.write i v).result = s.result.write i v := rfl

@[simp] theorem reads_store (lane : Nat → α) : (s.store size i lane).reads = s.reads := rfl

@[simp] theorem reads_write (v : α) : (s.write i v).reads = s.reads := rfl

@[simp] theorem mem_reads_read : r ∈ (s.read i).reads ↔ r = i ∨ r ∈ s.reads := List.mem_cons

@[simp] theorem mem_reads_load :
    r ∈ (s.load size i).reads ↔ (i ≤ r ∧ r < i + size) ∨ r ∈ s.reads := by
  have hrange : (∃ l < size, i + l = r) ↔ i ≤ r ∧ r < i + size := by
    constructor
    · rintro ⟨l, hl, rfl⟩
      omega
    · exact fun h => ⟨r - i, by omega, by omega⟩
  simp [load, hrange]

end Access

/-- The loop over the whole batches below `n` and the one over the rest. -/
def batchLoop (size : Nat) (batch scalar : Nat → Access α → Access α) (n : Nat) (s : Access α) :
    Access α :=
  let vecSize := n - n % size
  let s := loop (fun k => batch (size * k)) (vecSize / size) s
  loop (fun j => scalar (vecSize + j)) (n - vecSize) s

/-- The scalar body stores `value i v` where `v` was, and a batch does so at all its indices;
neither reads anywhere else. -/
structure Lanewise (size : Nat) (value : Nat → α → α) (batch scalar : Nat → Access α → Access α) :
    Prop where
  batchResult : ∀ i s, (batch i s).result =
    copy (fun l => value (i + l) (s.result.slot (i + l))) size i s.result
  scalarResult : ∀ i s, (scalar i s).result = s.result.write i (value i (s.result.slot i))
  batchReads : ∀ i s, ∀ r ∈ (batch i s).reads, (i ≤ r ∧ r < i + size) ∨ r ∈ s.reads
  scalarReads : ∀ i s, ∀ r ∈ (scalar i s).reads, r = i ∨ r ∈ s.reads

/-- A slot is read before it is written, so it makes no difference when. -/
theorem copy_in_place (value : Nat → α → α) (size i : Nat) (b : Buffer α) :
    copy (fun l => value (i + l) (b.slot (i + l))) size i b =
      loop (fun l c => c.write (i + l) (value (i + l) (c.slot (i + l)))) size b := by
  have hinv : ∀ m, (∀ l, m ≤ l →
      (copy (fun l => value (i + l) (b.slot (i + l))) m i b).slot (i + l) = b.slot (i + l)) := by
    intro m l hl
    rw [slot_copy, if_neg (by omega)]
  induction size with
  | zero => rfl
  | succ m ih =>
    rw [loop_succ, ← ih, hinv m m le_rfl]
    rfl

namespace Lanewise

variable {size : Nat} {value : Nat → α → α} {batch scalar : Nat → Access α → Access α} {n : Nat}
  {s : Access α}

/-- A loop on the accesses is one on the buffer. -/
theorem result_loop {f : Nat → Access α → Access α} {g : Nat → Buffer α → Buffer α}
    (h : ∀ i s, (f i s).result = g i s.result) (n : Nat) (s : Access α) :
    (loop f n s).result = loop g n s.result := by
  induction n with
  | zero => rfl
  | succ n ih => rw [loop_succ, loop_succ, h, ih]

/-- **The loop over batches is the scalar loop.** -/
theorem result_batchLoop (h : Lanewise size value batch scalar) (n : Nat) (s : Access α) :
    (batchLoop size batch scalar n s).result =
      Buffer.sweep (fun i b => value i (b.slot i)) n s.result := by
  have hvec : n - n % size = size * (n / size) := by
    have := Nat.div_add_mod n size
    omega
  have hdiv : size * (n / size) / size = n / size := by
    obtain rfl | hpos := Nat.eq_zero_or_pos size
    · simp
    · exact Nat.mul_div_cancel_left _ hpos
  have hrest : n - size * (n / size) = n % size := by
    have := Nat.div_add_mod n size
    omega
  rw [batchLoop]
  simp only [hvec, hdiv, hrest]
  rw [result_loop (g := fun j b => b.write (size * (n / size) + j)
      (value (size * (n / size) + j) (b.slot (size * (n / size) + j))))
        fun j s => h.scalarResult _ s,
    result_loop (g := fun k b => loop (fun l c => c.write (size * k + l)
      (value (size * k + l) (c.slot (size * k + l)))) size b) fun k s =>
      (h.batchResult _ s).trans (copy_in_place value size _ _)]
  exact loop_blocks_rest (f := fun i (b : Buffer α) => b.write i (value i (b.slot i))) size n

/-- **Nothing is read** at or behind `n`. -/
theorem reads_batchLoop (h : Lanewise size value batch scalar) (hs : ∀ r ∈ s.reads, r < n) :
    ∀ r ∈ (batchLoop size batch scalar n s).reads, r < n := by
  have hmod := Nat.mod_le n size
  have hdiv : size * ((n - n % size) / size) ≤ n - n % size := Nat.mul_div_le _ _
  refine loop_inv (P := fun _ (s : Access α) => ∀ r ∈ s.reads, r < n) ?_ ?_
  · refine loop_inv (P := fun _ (s : Access α) => ∀ r ∈ s.reads, r < n) hs ?_
    intro k s hk hs r hr
    obtain hin | hr := h.batchReads _ s r hr
    · have hle : size * (k + 1) ≤ size * ((n - n % size) / size) := Nat.mul_le_mul_left size hk
      rw [Nat.mul_succ] at hle
      omega
    · exact hs r hr
  · intro j s hj hs r hr
    obtain rfl | hr := h.scalarReads _ s r hr
    · omega
    · exact hs r hr

end Lanewise

/-- A sweep writes each index once. -/
theorem writes_sweep (value : Nat → Buffer α → α) (n : Nat) (b : Buffer α) :
    (Buffer.sweep value n b).writes = (List.range n).reverse ++ b.writes := by
  induction n with
  | zero => rfl
  | succ n ih =>
    rw [Buffer.sweep, loop_succ, Buffer.writes_write, ← Buffer.sweep, ih, List.range_succ]
    simp

end Fill
