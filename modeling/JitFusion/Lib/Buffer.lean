/-
# Loops that fill a buffer

A counted loop is `loop f n`, which runs the body `f i` for `i = 0, …, n - 1`.  A loop over blocks
of a fixed size with a loop over what is left behind it is the same as one loop over everything
(`loop_blocks`, `loop_add`), so a body that is unrolled needs one invariant only.

A `Buffer` is memory of a fixed capacity.  It keeps a log of the slots that were written, in
bounds or not: a program is memory safe if every entry of the log is below the capacity.  A request
for memory may be refused, and then every write is out of bounds.
-/
import Mathlib.Data.List.Range
import Mathlib.Logic.Function.Basic

namespace Fill

/-! ## 1. Loops -/

variable {σ : Type}

/-- The bodies `f 0`, …, `f (n - 1)` one after the other. -/
def loop (f : Nat → σ → σ) : Nat → σ → σ
  | 0, s => s
  | n + 1, s => f n (loop f n s)

variable {f g : Nat → σ → σ} {s : σ}

@[simp] theorem loop_zero : loop f 0 s = s := rfl

theorem loop_succ (n : Nat) : loop f (n + 1) s = f n (loop f n s) := rfl

/-- **The invariant rule.**  `P i` holds before the body `f i`. -/
theorem loop_inv {P : Nat → σ → Prop} {n : Nat} (h0 : P 0 s)
    (hstep : ∀ i s, i < n → P i s → P (i + 1) (f i s)) : P n (loop f n s) := by
  induction n with
  | zero => exact h0
  | succ n ih =>
    rw [loop_succ]
    exact hstep n _ (Nat.lt_succ_self n) (ih fun i s hi => hstep i s (Nat.lt_succ_of_lt hi))

theorem loop_congr {n : Nat} (h : ∀ i s, i < n → f i s = g i s) : loop f n s = loop g n s := by
  induction n with
  | zero => rfl
  | succ n ih =>
    rw [loop_succ, loop_succ, ih fun i s hi => h i s (Nat.lt_succ_of_lt hi)]
    exact h n _ (Nat.lt_succ_self n)

/-- A loop and the loop over what is left. -/
theorem loop_add (m n : Nat) : loop f (m + n) s = loop (fun j => f (m + j)) n (loop f m s) := by
  induction n with
  | zero => rfl
  | succ n ih => rw [← Nat.add_assoc, loop_succ, loop_succ, ih]

/-- **A loop over blocks of `m`** is one loop. -/
theorem loop_blocks (m n : Nat) :
    loop (fun k => loop (fun j => f (m * k + j)) m) n s = loop f (m * n) s := by
  induction n with
  | zero => rfl
  | succ n ih => rw [loop_succ, ih, Nat.mul_succ, loop_add]

/-- A loop over whole blocks of `m` and over the rest. -/
theorem loop_blocks_rest (m n : Nat) :
    loop (fun j => f (m * (n / m) + j)) (n % m)
      (loop (fun k => loop (fun j => f (m * k + j)) m) (n / m) s) = loop f n s := by
  rw [loop_blocks, ← loop_add, Nat.div_add_mod]

/-! ## 2. Buffers -/

variable {α : Type}

structure Buffer (α : Type) where
  cap : Nat
  slot : Nat → α
  /-- The slots that were written, the last one first. -/
  writes : List Nat := []

namespace Buffer

/-- Fresh memory, which holds what it happens to hold. -/
def alloc (fresh : Nat → α) (cap : Nat) : Buffer α := { cap, slot := fresh }

/-- Memory that was asked for, of which there are `room` slots: none behind a null pointer. -/
def request (room : Nat) (fresh : Nat → α) (cap : Nat) : Buffer α := alloc fresh (min cap room)

def write (b : Buffer α) (i : Nat) (v : α) : Buffer α :=
  { b with slot := Function.update b.slot i v, writes := i :: b.writes }

/-- Every write was within the capacity. -/
def InBounds (b : Buffer α) : Prop := ∀ i ∈ b.writes, i < b.cap

instance (b : Buffer α) : Decidable b.InBounds := inferInstanceAs (Decidable (∀ i ∈ b.writes, _))

variable (b : Buffer α) (i j : Nat) (v : α)

@[simp] theorem cap_write : (b.write i v).cap = b.cap := rfl

@[simp] theorem writes_write : (b.write i v).writes = i :: b.writes := rfl

@[simp] theorem slot_write_self : (b.write i v).slot i = v := by
  simp [write]

theorem slot_write_ne {i j : Nat} (h : j ≠ i) : (b.write i v).slot j = b.slot j := by
  simp [write, h]

theorem slot_write : (b.write i v).slot j = if j = i then v else b.slot j := by
  split
  · next h => rw [h, slot_write_self]
  · next h => exact slot_write_ne b v h

@[simp] theorem cap_alloc (fresh : Nat → α) (cap : Nat) : (alloc fresh cap).cap = cap := rfl

@[simp] theorem writes_alloc (fresh : Nat → α) (cap : Nat) : (alloc fresh cap).writes = [] := rfl

variable {b} in
theorem cap_loop {f : Nat → Buffer α → Buffer α} (h : ∀ i b, (f i b).cap = b.cap) (n : Nat) :
    (loop f n b).cap = b.cap :=
  loop_inv (P := fun _ c => c.cap = b.cap) rfl fun i c _ hc => (h i c).trans hc

/-! ### One write an index -/

section Sweep

variable {b : Buffer α} (value : Nat → Buffer α → α)

/-- A loop whose body `i` writes slot `i`. -/
def sweep (n : Nat) (b : Buffer α) : Buffer α := loop (fun i b => b.write i (value i b)) n b

theorem cap_sweep (n : Nat) : (sweep value n b).cap = b.cap := by
  rw [sweep]
  exact cap_loop (fun i c => cap_write c i (value i c)) n

theorem mem_writes_sweep (n i : Nat) :
    i ∈ (sweep value n b).writes ↔ i < n ∨ i ∈ b.writes := by
  induction n with
  | zero => simp [sweep]
  | succ n ih =>
    rw [sweep, loop_succ, writes_write, List.mem_cons, ← sweep, ih, Nat.lt_succ_iff_lt_or_eq]
    exact or_left_comm.trans or_assoc.symm

/-- What the slots hold when a value depends on no slot but its own. -/
theorem slot_sweep {value : Nat → Buffer α → α} {g : Nat → α → α}
    (h : ∀ i b, value i b = g i (b.slot i)) (n i : Nat) :
    (sweep value n b).slot i = if i < n then g i (b.slot i) else b.slot i := by
  induction n with
  | zero => rfl
  | succ n ih =>
    rw [sweep, loop_succ, slot_write, ← sweep, h]
    by_cases hi : i = n
    · subst hi
      rw [if_pos rfl, if_pos (Nat.lt_succ_self i), ih, if_neg (Nat.lt_irrefl i)]
    · rw [if_neg hi, ih]
      exact if_congr (by omega) rfl rfl

end Sweep

end Buffer

/-! ## 3. Compaction -/

/-- The number of indices below `n` that satisfy `keep`. -/
def rank (keep : Nat → Bool) (n : Nat) : Nat := (List.range n).countP keep

section Rank

variable {keep keep' : Nat → Bool}

@[simp] theorem rank_zero : rank keep 0 = 0 := rfl

theorem rank_succ (n : Nat) : rank keep (n + 1) = rank keep n + (keep n).toNat := by
  rw [rank, List.range_succ, List.countP_append, ← rank, List.countP_singleton]
  cases keep n <;> rfl

theorem rank_add (m n : Nat) :
    rank keep (m + n) = rank keep m + rank (fun i => keep (m + i)) n := by
  induction n with
  | zero => rfl
  | succ n ih => rw [← Nat.add_assoc, rank_succ, rank_succ, ih, Nat.add_assoc]

theorem rank_mono {m n : Nat} (h : m ≤ n) : rank keep m ≤ rank keep n := by
  obtain ⟨d, rfl⟩ := Nat.exists_eq_add_of_le h
  rw [rank_add]
  exact Nat.le_add_right _ _

theorem rank_le (n : Nat) : rank keep n ≤ n := by
  rw [rank]
  exact List.countP_le_length.trans_eq List.length_range

theorem rank_lt {i n : Nat} (hi : i < n) (hk : keep i = true) : rank keep i < rank keep n := by
  refine Nat.lt_of_lt_of_le ?_ (rank_mono (Nat.succ_le_of_lt hi))
  rw [rank_succ, hk]
  exact Nat.lt_succ_self _

theorem rank_congr {n : Nat} (h : ∀ i < n, keep i = keep' i) : rank keep n = rank keep' n := by
  rw [rank, rank]
  refine List.countP_congr fun i hi => ?_
  rw [h i (List.mem_range.mp hi)]

theorem rank_of_none {n : Nat} (h : ∀ i < n, keep i = false) : rank keep n = 0 := by
  rw [rank, List.countP_eq_zero]
  intro i hi
  rw [h i (List.mem_range.mp hi)]
  exact Bool.false_ne_true

end Rank

section Place

variable (keep : Nat → Bool) (data : Nat → α)

/-- Element `i` goes where it belongs if it is kept; the next one overwrites it otherwise. -/
def place (i : Nat) (b : Buffer α) : Buffer α := b.write (rank keep i) (data i)

/-- The kept elements below `n` are where they belong. -/
def Placed (n : Nat) (slot : Nat → α) : Prop :=
  ∀ i < n, keep i = true → slot (rank keep i) = data i

variable {keep data} {n : Nat}

theorem Placed.zero (slot : Nat → α) : Placed keep data 0 slot :=
  fun _ hi => absurd hi (Nat.not_lt_zero _)

theorem Placed.skip {slot : Nat → α} (h : Placed keep data n slot) (hk : keep n = false) :
    Placed keep data (n + 1) slot := by
  intro i hi hki
  refine h i (Nat.lt_of_le_of_ne (Nat.le_of_lt_succ hi) ?_) hki
  rintro rfl
  rw [hk] at hki
  cases hki

theorem Placed.place {b : Buffer α} (h : Placed keep data n b.slot) :
    Placed keep data (n + 1) (place keep data n b).slot := by
  intro i hi hki
  rw [Fill.place, Buffer.slot_write]
  rcases Nat.lt_succ_iff_lt_or_eq.mp hi with hlt | rfl
  · rw [if_neg (Nat.ne_of_lt (rank_lt hlt hki)), h i hlt hki]
  · rw [if_pos rfl]

/-- **The first slots are the kept elements**, in order. -/
theorem Placed.map_range {slot : Nat → α} (h : Placed keep data n slot) :
    (List.range (rank keep n)).map slot = ((List.range n).filter keep).map data := by
  induction n with
  | zero => rfl
  | succ n ih =>
    have hn : Placed keep data n slot := fun i hi => h i (Nat.lt_succ_of_lt hi)
    rw [rank_succ, List.range_succ (n := n), List.filter_append, List.map_append, ← ih hn]
    cases hk : keep n with
    | false => simp [hk]
    | true => simp [hk, List.range_succ, h n (Nat.lt_succ_self n) hk]

end Place

end Fill
