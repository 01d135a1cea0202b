/-
# Searching a range of indices

`first p n` is the first index below `n` that satisfies `p`, or `n` if there is none, which is what
a scan finds.  Where the indices that do not satisfy `p` come before those that do (`Parted`), it
is also the number of those that do not, and a search by halves finds it.

A `PartitionSearch` is any search that finds it there; `bisection` is one.
-/
import Mathlib.Order.Basic
import JitFusion.Lib.Buffer

namespace Search

/-! ## 1. Scanning -/

/-- The first index below `n` that satisfies `p`, or `n`. -/
def first (p : Nat → Bool) (n : Nat) : Nat := ((List.range n).find? p).getD n

variable {p q : Nat → Bool} {n r : Nat}

/-- Nothing before what a scan finds satisfies `p`, and it does itself if it is below `n`. -/
theorem first_spec :
    first p n ≤ n ∧ (∀ i < first p n, p i = false) ∧ (first p n < n → p (first p n) = true) := by
  rw [first]
  cases h : (List.range n).find? p with
  | none =>
    have hnone := List.find?_range_eq_none.mp h
    exact ⟨le_rfl, fun i hi => by simpa using hnone i hi, fun hlt => absurd hlt (lt_irrefl _)⟩
  | some i =>
    obtain ⟨hi, hmem, hbefore⟩ := List.find?_range_eq_some.mp h
    exact ⟨(List.mem_range.mp hmem).le, fun j hj => by simpa using hbefore j hj, fun _ => hi⟩

/-- **There is one such index.** -/
theorem first_eq_of (hle : r ≤ n) (hbefore : ∀ i < r, p i = false) (hr : r < n → p r = true) :
    first p n = r := by
  obtain ⟨hle', hbefore', hfirst⟩ := @first_spec p n
  obtain hlt | heq | hgt := lt_trichotomy (first p n) r
  · have hp := hfirst (hlt.trans_le hle)
    rw [hbefore _ hlt] at hp
    cases hp
  · exact heq
  · have hp := hr (hgt.trans_le hle')
    rw [hbefore' _ hgt] at hp
    cases hp

theorem first_congr (h : ∀ i < n, p i = q i) : first p n = first q n := by
  obtain ⟨hle, hbefore, hfirst⟩ := @first_spec q n
  refine first_eq_of hle (fun i hi => ?_) fun hlt => ?_
  · rw [h i (hi.trans_le hle), hbefore i hi]
  · rw [h _ hlt, hfirst hlt]

/-- The scan comes to the end exactly if nothing satisfies `p`. -/
theorem first_eq_iff_forall : first p n = n ↔ ∀ i < n, p i = false := by
  constructor
  · intro h
    have hbefore := (@first_spec p n).2.1
    rwa [h] at hbefore
  · exact fun h => first_eq_of le_rfl h fun hlt => absurd hlt (lt_irrefl _)

/-- One index more. -/
theorem first_succ : first p (n + 1) =
    if first p n < n then first p n else if p n = true then n else n + 1 := by
  obtain ⟨hle, hbefore, hfirst⟩ := @first_spec p n
  split
  · next hlt => exact first_eq_of (by omega) hbefore fun _ => hfirst hlt
  · next hnot =>
    have heq : first p n = n := by omega
    rw [heq] at hbefore
    split
    · next hp => exact first_eq_of (Nat.le_succ n) hbefore fun _ => hp
    · next hp =>
      refine first_eq_iff_forall.mpr fun i hi => ?_
      obtain hlt | rfl := Nat.lt_succ_iff_lt_or_eq.mp hi
      · exact hbefore i hlt
      · simpa using hp

/-- An index that satisfies `p` is not before the first. -/
theorem first_le_of {i : Nat} (hp : p i = true) : first p n ≤ i := by
  by_contra hlt
  have hnot := (@first_spec p n).2.1 i (not_le.mp hlt)
  rw [hp] at hnot
  cases hnot

/-! ## 2. Two parts -/

/-- From the first index below `n` that satisfies `p` on, all do. -/
def Parted (p : Nat → Bool) (n : Nat) : Prop :=
  ∀ i j, i ≤ j → j < n → p i = true → p j = true

theorem Parted.of_le {m : Nat} (h : Parted p n) (hm : m ≤ n) : Parted p m :=
  fun i j hij hj => h i j hij (hj.trans_le hm)

/-- **The border is a number**: that of the indices that do not satisfy `p`. -/
theorem Parted.first_eq (h : Parted p n) : first p n = Fill.rank (fun i => !p i) n := by
  induction n with
  | zero => rfl
  | succ n ih =>
    have hn := h.of_le (Nat.le_succ n)
    rw [Fill.rank_succ, ← ih hn]
    cases hp : p n with
    | true =>
      obtain ⟨hle, hbefore, hfirst⟩ := @first_spec p n
      refine first_eq_of (by simp; omega) (by simpa using hbefore) fun _ => ?_
      obtain hlt | heq := lt_or_eq_of_le hle
      · simpa using hfirst hlt
      · simpa [heq] using hp
    | false =>
      have hnone : ∀ i < n + 1, p i = false := by
        intro i hi
        by_contra hpi
        rw [h i n (by omega) (by omega) (by simpa using hpi)] at hp
        cases hp
      have hfirst : first p n = n := first_eq_iff_forall.mpr fun i hi => hnone i (by omega)
      rw [first_eq_iff_forall.mpr hnone, hfirst]
      rfl

/-! ## 3. Searches by halves -/

/-- A search that finds the border of a range in two parts. -/
structure PartitionSearch where
  point : (Nat → Bool) → Nat → Nat
  spec : ∀ p n, Parted p n → point p n = first p n

/-- The search among the `len` indices from `lo` on. -/
def bisect (p : Nat → Bool) : Nat → Nat → Nat → Nat
  | 0, lo, _ => lo
  | fuel + 1, lo, len =>
    if len = 0 then lo
    else if p (lo + len / 2) then bisect p fuel lo (len / 2)
    else bisect p fuel (lo + len / 2 + 1) (len - len / 2 - 1)

theorem bisect_spec (fuel lo len : Nat) (hfuel : len ≤ fuel) (h : Parted p (lo + len)) :
    lo ≤ bisect p fuel lo len ∧ bisect p fuel lo len ≤ lo + len ∧
      (∀ i, lo ≤ i → i < bisect p fuel lo len → p i = false) ∧
      (bisect p fuel lo len < lo + len → p (bisect p fuel lo len) = true) := by
  fun_induction bisect p fuel lo len with
  | case1 lo len =>
    obtain rfl : len = 0 := by omega
    exact ⟨le_rfl, le_rfl, fun i hi hlt => by omega, fun hlt => by omega⟩
  | case2 fuel lo => exact ⟨le_rfl, le_rfl, fun i hi hlt => by omega, fun hlt => by omega⟩
  | case3 fuel lo len hne hmid ih =>
    obtain ⟨hlo, hle, hbefore, hr⟩ := ih (by omega) (h.of_le (by omega))
    refine ⟨hlo, by omega, hbefore, fun hlt => ?_⟩
    obtain hin | heq := lt_or_eq_of_le hle
    · exact hr hin
    · rw [heq]
      exact hmid
  | case4 fuel lo len hne hmid ih =>
    obtain ⟨hlo, hle, hbefore, hr⟩ := ih (by omega) (h.of_le (by omega))
    refine ⟨by omega, by omega, fun i hi hlt => ?_, fun hlt => hr (by omega)⟩
    by_cases hi' : lo + len / 2 + 1 ≤ i
    · exact hbefore i hi' hlt
    · -- everything up to the middle is in the first part
      by_contra hpi
      exact hmid (h i (lo + len / 2) (by omega) (by omega) (by simpa using hpi))

def bisection : PartitionSearch where
  point p n := bisect p n 0 n
  spec p n h := by
    obtain ⟨-, hle, hbefore, hr⟩ := bisect_spec n 0 n le_rfl (by simpa using h)
    simp only [Nat.zero_add] at hle hr
    exact (first_eq_of hle (fun i hi => hbefore i (Nat.zero_le i) hi) hr).symm

end Search
