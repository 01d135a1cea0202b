/-
# Numbering by first occurrence

A sequence of keys is numbered in the order in which new keys turn up: the number of a key is the
number of distinct keys before its first occurrence.  Equal keys have equal numbers
(`number_eq_iff`), the numbers of the first `n` keys are those below `distinct n`
(`number_lt`, `exists_number`), and the first occurrences are numbered in order
(`map_number_first`).
-/
import Mathlib.Data.Finset.Card
import Mathlib.Data.Finset.Image
import Mathlib.Data.Nat.Find
import Mathlib.Order.Bounds.Basic
import JitFusion.Lib.Buffer

namespace Numbering

open Fill

/-! ## 1. Kept indices -/

section Rank

variable {keep : Nat → Bool} {n : Nat}

theorem rank_inj {i j : Nat} (hi : keep i = true) (hj : keep j = true)
    (h : rank keep i = rank keep j) : i = j := by
  rcases Nat.lt_trichotomy i j with hlt | heq | hgt
  · exact absurd h (Nat.ne_of_lt (rank_lt hlt hi))
  · exact heq
  · exact absurd h.symm (Nat.ne_of_lt (rank_lt hgt hj))

/-- The kept indices are ranked in order, without a gap. -/
theorem map_rank_filter (n : Nat) :
    ((List.range n).filter keep).map (rank keep) = List.range (rank keep n) := by
  induction n with
  | zero => rfl
  | succ n ih =>
    rw [List.range_succ, List.filter_append, List.map_append, ih, rank_succ]
    cases hk : keep n with
    | false => simp [hk]
    | true => simp [hk, List.range_succ]

theorem exists_rank_eq {g : Nat} (hg : g < rank keep n) :
    ∃ i < n, keep i = true ∧ rank keep i = g := by
  have hmem : g ∈ ((List.range n).filter keep).map (rank keep) := by
    rw [map_rank_filter]
    exact List.mem_range.mpr hg
  obtain ⟨i, hi, rfl⟩ := List.mem_map.mp hmem
  obtain ⟨hlt, hk⟩ := List.mem_filter.mp hi
  exact ⟨i, List.mem_range.mp hlt, hk, rfl⟩

end Rank

/-! ## 2. First occurrences -/

variable {α : Type} [DecidableEq α] (k : Nat → α)

/-- No earlier index has the key of `i`. -/
def isFirst (i : Nat) : Bool := decide (∀ j < i, k j ≠ k i)

/-- The first index with the key of `i`. -/
def first (i : Nat) : Nat := Nat.find (p := fun j => k j = k i) ⟨i, rfl⟩

theorem key_first (i : Nat) : k (first k i) = k i :=
  Nat.find_spec (p := fun j => k j = k i) ⟨i, rfl⟩

theorem first_le (i : Nat) : first k i ≤ i := Nat.find_min' _ rfl

theorem isFirst_first (i : Nat) : isFirst k (first k i) = true := by
  refine decide_eq_true fun j hj => ?_
  rw [key_first k]
  exact Nat.find_min _ hj

variable {k} {i j n : Nat}

theorem first_congr (h : k i = k j) : first k i = first k j := by
  unfold first
  simp only [h]

theorem isFirst_iff : isFirst k i = true ↔ first k i = i := by
  constructor
  · intro h
    refine Nat.le_antisymm (first_le k i) (Nat.not_lt.mp fun hlt => ?_)
    exact of_decide_eq_true h _ hlt (key_first k i)
  · intro h
    rw [← h]
    exact isFirst_first k i

theorem first_lt (h : isFirst k i = false) : first k i < i := by
  refine Nat.lt_of_le_of_ne (first_le k i) fun heq => ?_
  rw [isFirst_iff.mpr heq] at h
  cases h

theorem isFirst_iff_notMem : isFirst k i = true ↔ k i ∉ (List.range i).map k := by
  simp [isFirst]

/-! ## 3. Numbers -/

variable (k) in
/-- The number of distinct keys among the first `n`. -/
def distinct (n : Nat) : Nat := rank (isFirst k) n

variable (k) in
/-- The number of the key of `i`. -/
def number (i : Nat) : Nat := distinct k (first k i)

theorem number_of_first (h : isFirst k i = true) : number k i = distinct k i := by
  rw [number, isFirst_iff.mp h]

/-- **Equal numbers are equal keys.** -/
theorem number_eq_iff : number k i = number k j ↔ k i = k j := by
  constructor
  · intro h
    rw [← key_first k i, ← key_first k j, rank_inj (isFirst_first k i) (isFirst_first k j) h]
  · intro h
    rw [number, number, first_congr h]

theorem number_lt (h : i < n) : number k i < distinct k n :=
  rank_lt (Nat.lt_of_le_of_lt (first_le k i) h) (isFirst_first k i)

theorem number_lt_of_not_first (h : isFirst k i = false) : number k i < distinct k i :=
  rank_lt (first_lt h) (isFirst_first k i)

theorem distinct_succ_of_first (h : isFirst k n = true) :
    distinct k (n + 1) = distinct k n + 1 := by
  rw [distinct, rank_succ, h]
  rfl

theorem distinct_succ_of_not_first (h : isFirst k n = false) :
    distinct k (n + 1) = distinct k n := by
  rw [distinct, rank_succ, h]
  rfl

/-- Every number is that of a first occurrence. -/
theorem exists_number {g : Nat} (hg : g < distinct k n) :
    ∃ i < n, isFirst k i = true ∧ number k i = g := by
  obtain ⟨i, hi, hk, hrank⟩ := exists_rank_eq hg
  exact ⟨i, hi, hk, (number_of_first hk).trans hrank⟩

/-- **The first occurrences are numbered in order.** -/
theorem map_number_first (n : Nat) :
    ((List.range n).filter (isFirst k)).map (number k) = List.range (distinct k n) := by
  rw [distinct, ← map_rank_filter]
  exact List.map_congr_left fun i hi => number_of_first (List.mem_filter.mp hi).2

/-! ## 4. Keys met -/

variable (k) in
/-- The keys of the first `n` indices. -/
def keys (n : Nat) : Finset α := ((List.range n).map k).toFinset

@[simp] theorem keys_zero : keys k 0 = ∅ := rfl

theorem mem_keys {x : α} : x ∈ keys k n ↔ ∃ i < n, k i = x := by
  simp [keys]

theorem keys_succ (n : Nat) : keys k (n + 1) = insert (k n) (keys k n) := by
  ext x
  rw [Finset.mem_insert, mem_keys, mem_keys]
  constructor
  · rintro ⟨i, hi, rfl⟩
    rcases Nat.lt_succ_iff_lt_or_eq.mp hi with hlt | rfl
    · exact .inr ⟨i, hlt, rfl⟩
    · exact .inl rfl
  · rintro (rfl | ⟨i, hi, rfl⟩)
    · exact ⟨n, Nat.lt_succ_self n, rfl⟩
    · exact ⟨i, Nat.lt_succ_of_lt hi, rfl⟩

theorem isFirst_iff_notMem_keys : isFirst k n = true ↔ k n ∉ keys k n := by
  rw [isFirst_iff_notMem, keys, List.mem_toFinset]

theorem card_keys (n : Nat) : (keys k n).card = distinct k n := by
  induction n with
  | zero => rfl
  | succ n ih =>
    rw [keys_succ]
    cases h : isFirst k n with
    | false =>
      have hmem : k n ∈ keys k n := by
        by_contra hn
        rw [isFirst_iff_notMem_keys.mpr hn] at h
        cases h
      rw [Finset.insert_eq_of_mem hmem, ih, distinct_succ_of_not_first h]
    | true =>
      rw [Finset.card_insert_of_notMem (isFirst_iff_notMem_keys.mp h), ih,
        distinct_succ_of_first h]

/-! ## 5. Buckets -/

section Scatter

variable {β : Type} (bucket : Nat → Nat) (op : β → Nat → β)

/-- A loop that combines the index `i` into slot `bucket i`. -/
def scatter (n : Nat) (b : Buffer β) : Buffer β :=
  loop (fun i b => b.write (bucket i) (op (b.slot (bucket i)) i)) n b

/-- The indices below `n` that go into slot `g`, in order. -/
def members (n g : Nat) : List Nat := (List.range n).filter fun i => bucket i = g

/-- **A slot combines its members**, in order, and nothing else. -/
theorem slot_scatter (n : Nat) (b : Buffer β) (g : Nat) :
    (scatter bucket op n b).slot g = (members bucket n g).foldl op (b.slot g) := by
  induction n with
  | zero => rfl
  | succ n ih =>
    rw [scatter, loop_succ, ← scatter, Buffer.slot_write, members, List.range_succ,
      List.filter_append, List.foldl_append, ← members, ← ih]
    by_cases h : g = bucket n
    · subst h
      simp
    · simp [h, Ne.symm h]

theorem mem_writes_scatter (n : Nat) (b : Buffer β) (w : Nat) :
    w ∈ (scatter bucket op n b).writes ↔ (∃ i < n, w = bucket i) ∨ w ∈ b.writes := by
  induction n with
  | zero => simp [scatter]
  | succ n ih =>
    rw [scatter, loop_succ, ← scatter, Buffer.writes_write, List.mem_cons, ih, ← or_assoc]
    refine or_congr_left ?_
    constructor
    · rintro (rfl | ⟨i, hi, rfl⟩)
      · exact ⟨n, Nat.lt_succ_self n, rfl⟩
      · exact ⟨i, Nat.lt_succ_of_lt hi, rfl⟩
    · rintro ⟨i, hi, rfl⟩
      obtain hi | rfl := Nat.lt_succ_iff_lt_or_eq.mp hi
      · exact .inr ⟨i, hi, rfl⟩
      · exact .inl rfl

variable {bucket} in
theorem mem_members {n g i : Nat} : i ∈ members bucket n g ↔ i < n ∧ bucket i = g := by
  simp [members]

end Scatter

/-! ### The greatest member -/

section Greatest

variable {β : Type} [LinearOrder β] (f : Nat → β)

theorem foldl_max (l : List Nat) (a : β) :
    (∀ i ∈ l, f i ≤ l.foldl (fun a i => max a (f i)) a) ∧
      a ≤ l.foldl (fun a i => max a (f i)) a ∧
      (l.foldl (fun a i => max a (f i)) a = a ∨
        ∃ i ∈ l, f i = l.foldl (fun a i => max a (f i)) a) := by
  induction l generalizing a with
  | nil => exact ⟨by simp, le_rfl, .inl rfl⟩
  | cons j l ih =>
    obtain ⟨hle, hseed, heq⟩ := ih (max a (f j))
    rw [List.foldl_cons]
    refine ⟨?_, (le_max_left _ _).trans hseed, ?_⟩
    · intro i hi
      rcases List.mem_cons.mp hi with rfl | hi
      · exact (le_max_right _ _).trans hseed
      · exact hle i hi
    · rcases heq with heq | ⟨i, hi, heq⟩
      · rw [heq]
        rcases max_choice a (f j) with hmax | hmax
        · exact .inl hmax
        · exact .inr ⟨j, List.mem_cons_self, hmax.symm⟩
      · exact .inr ⟨i, List.mem_cons_of_mem _ hi, heq⟩

/-- Starting from a bottom, the fold of `max` over a nonempty list is its greatest element. -/
theorem isGreatest_foldl_max {seed : β} (hseed : ∀ x, seed ≤ x) {l : List Nat} (hl : l ≠ []) :
    IsGreatest {x | ∃ i ∈ l, f i = x} (l.foldl (fun a i => max a (f i)) seed) := by
  obtain ⟨hle, -, heq⟩ := foldl_max f l seed
  refine ⟨?_, ?_⟩
  · rcases heq with heq | hmem
    · obtain ⟨j, hj⟩ := List.exists_mem_of_ne_nil l hl
      exact ⟨j, hj, le_antisymm (hle j hj) (heq.le.trans (hseed _))⟩
    · exact hmem
  · rintro x ⟨i, hi, rfl⟩
    exact hle i hi

/-- Starting from a top, the fold of `min` is the least one. -/
theorem isLeast_foldl_min {seed : β} (hseed : ∀ x, x ≤ seed) {l : List Nat} (hl : l ≠ []) :
    IsLeast {x | ∃ i ∈ l, f i = x} (l.foldl (fun a i => min a (f i)) seed) :=
  isGreatest_foldl_max (β := βᵒᵈ) f hseed hl

end Greatest

end Numbering
