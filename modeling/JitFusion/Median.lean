/-
# Medians

`Median` and `SortedMedian` (`src/function/list_aggregation.cc`) and `SortAsc`
(`src/function/list_basic.cc`).  `Median` does not sort: `std::nth_element` moves the element of the
middle into its place, and for an even length the one before it is the greatest of what is now
before the middle.

That the middle is right and nothing before it is greater does not determine that greatest element
if elements are equal (`median_of_weak`).  `std::nth_element` does more, nothing before the middle
is greater than anything behind it (`NthElement.Partitions`), and so what is before it is what is
there in sorted order (`median_eq_sortedMedian`).
-/
import Mathlib.Data.List.Sort
import JitFusion.Kernels
import JitFusion.Lib.Append

namespace JitFusion

namespace Kernels

open Fill (copy loop loop_inv)

/-! ## 1. The kernels -/

section Kernels

variable {α D : Type} [LinearOrder α]

/-- `std::sort`. -/
structure Sorting (α : Type) [LinearOrder α] where
  run : ListStruct α → ListStruct α
  perm : ∀ a, (run a).toList.Perm a.toList
  sorted : ∀ a, (run a).toList.Pairwise (· ≤ ·)

/-- `std::nth_element`: what is at `n` is what is there in sorted order, and nothing before it is
greater. -/
structure NthElement (α : Type) [LinearOrder α] where
  run : ListStruct α → Nat → ListStruct α
  perm : ∀ a n, (run a n).toList.Perm a.toList
  nth : ∀ a n, n < a.len → ∀ l : List α, l.Perm a.toList → l.Pairwise (· ≤ ·) →
    l[n]? = some ((run a n).data n)
  before : ∀ a n, n < a.len → ∀ i < n, (run a n).data i ≤ (run a n).data n

/-- Nothing before `n` is greater than what is at `n` or behind it. -/
def NthElement.Partitions (nth : NthElement α) : Prop :=
  ∀ a n, n < a.len → ∀ i < n, ∀ j, n ≤ j → j < a.len → (nth.run a n).data i ≤ (nth.run a n).data j

/-- `double`, as far as the medians need it. -/
structure Doubles (α D : Type) where
  zero : D
  ofValue : α → D
  add : D → D → D
  half : D → D

/-- `*std::max_element(tmp, tmp + n)`, for `n > 0`. -/
def maxElement (tmp : Nat → α) (n : Nat) : α :=
  loop (fun i largest => if largest < tmp (i + 1) then tmp (i + 1) else largest) (n - 1) (tmp 0)

def median (nthElement : NthElement α) (ops : Doubles α D) (a : ListStruct α) : D :=
  if a.len = 0 then ops.zero
  else
    let mid := a.len / 2
    let tmp := nthElement.run a mid
    if a.len % 2 = 1 then ops.ofValue (tmp.data mid)
    else
      let leftMax := maxElement tmp.data mid
      ops.half (ops.add (ops.ofValue leftMax) (ops.ofValue (tmp.data mid)))

def sortedMedian (ops : Doubles α D) (a : ListStruct α) : D :=
  if a.len = 0 then ops.zero
  else
    let mid := a.len / 2
    if a.len % 2 = 1 then ops.ofValue (a.data mid)
    else ops.half (ops.add (ops.ofValue (a.data (mid - 1))) (ops.ofValue (a.data mid)))

def sortAsc (sort : Sorting α) (memory : Nat → α) (a : ListStruct α) : Call α :=
  let result := copy a.data a.len 0 (.alloc memory a.len)
  let sorted := sort.run ⟨result.slot, a.len, a.len_lt⟩
  .done { result with slot := sorted.data } a.len a.len_lt

end Kernels

/-! ## 2. The greatest element before the middle -/

section Parts

variable {α : Type}

theorem data_mem_take (c : ListStruct α) {i m : Nat} (hi : i < m) (hm : m ≤ c.len) :
    c.data i ∈ c.toList.take m := by
  refine List.mem_iff_getElem.mpr ⟨i, by simp; omega, ?_⟩
  rw [List.getElem_take, c.getElem_toList]

theorem mem_take {c : ListStruct α} {m : Nat} {x : α} (h : x ∈ c.toList.take m) :
    ∃ i < m, i < c.len ∧ x = c.data i := by
  obtain ⟨i, hi, rfl⟩ := List.mem_iff_getElem.mp h
  rw [List.length_take, c.length_toList] at hi
  refine ⟨i, by omega, by omega, ?_⟩
  rw [List.getElem_take, c.getElem_toList]

theorem mem_drop {c : ListStruct α} {m : Nat} {x : α} (h : x ∈ c.toList.drop m) :
    ∃ i, m ≤ i ∧ i < c.len ∧ x = c.data i := by
  obtain ⟨i, hi, rfl⟩ := List.mem_iff_getElem.mp h
  rw [List.length_drop, c.length_toList] at hi
  refine ⟨m + i, by omega, by omega, ?_⟩
  rw [List.getElem_drop, c.getElem_toList]

end Parts

section Middle

variable {α D : Type} [LinearOrder α]

theorem maxElement_spec (tmp : Nat → α) {n : Nat} (hn : 0 < n) :
    (∃ i < n, maxElement tmp n = tmp i) ∧ ∀ i < n, tmp i ≤ maxElement tmp n := by
  obtain ⟨k, rfl⟩ := Nat.exists_eq_succ_of_ne_zero hn.ne'
  refine loop_inv (n := k) (P := fun k largest => (∃ i < k + 1, largest = tmp i) ∧
    ∀ i < k + 1, tmp i ≤ largest) ⟨⟨0, Nat.one_pos, rfl⟩, fun i hi => ?_⟩ ?_
  · obtain rfl : i = 0 := by omega
    exact le_rfl
  · rintro k largest - ⟨⟨i, hi, rfl⟩, hmax⟩
    split
    · next hlt =>
      refine ⟨⟨k + 1, Nat.lt_succ_self _, rfl⟩, fun j hj => ?_⟩
      obtain hj | rfl := Nat.lt_succ_iff_lt_or_eq.mp hj
      · exact (hmax j hj).trans hlt.le
      · exact le_rfl
    · next hnot =>
      refine ⟨⟨i, Nat.lt_succ_of_lt hi, rfl⟩, fun j hj => ?_⟩
      obtain hj | rfl := Nat.lt_succ_iff_lt_or_eq.mp hj
      · exact hmax j hj
      · exact not_lt.mp hnot

/-- A sorted list begins with what is before a border that nothing crosses. -/
theorem take_perm_of_sorted {l s : List α} (hperm : s.Perm l) (hsorted : s.Pairwise (· ≤ ·))
    {m : Nat} (hle : ∀ x ∈ l.take m, ∀ y ∈ l.drop m, x ≤ y) : (s.take m).Perm (l.take m) := by
  have hleft := List.mergeSort_perm (l.take m) (fun x y => decide (x ≤ y))
  have hright := List.mergeSort_perm (l.drop m) (fun x y => decide (x ≤ y))
  have hs : s = (l.take m).mergeSort (fun x y => decide (x ≤ y)) ++
      (l.drop m).mergeSort fun x y => decide (x ≤ y) := by
    refine List.Perm.eq_of_pairwise' hsorted ?_ ?_
    · refine List.pairwise_append.mpr ⟨List.pairwise_mergeSort' _ _, List.pairwise_mergeSort' _ _,
        fun x hx y hy => hle x (hleft.mem_iff.mp hx) y (hright.mem_iff.mp hy)⟩
    · refine hperm.trans ?_
      conv_lhs => rw [← List.take_append_drop m l]
      exact (hleft.append hright).symm
  have hlen : s.length = l.length := hperm.length_eq
  rw [hs]
  obtain hm | hm := Nat.le_total m l.length
  · rw [List.take_left' (by simp [hm])]
    exact hleft
  · rw [List.take_of_length_le (by simp; omega), List.drop_of_length_le hm]
    simpa using hleft

variable {nthElement : NthElement α} {a b : ListStruct α}

/-- **The greatest element before the middle** is the one before it in sorted order. -/
theorem maxElement_eq (h : nthElement.Partitions) (hperm : b.toList.Perm a.toList)
    (hsorted : b.toList.Pairwise (· ≤ ·)) {m : Nat} (hm : 0 < m) (hlt : m < a.len) :
    maxElement (nthElement.run a m).data m = b.data (m - 1) := by
  have hlen : b.len = a.len := by simpa using hperm.length_eq
  have hrun := nthElement.perm a m
  have hrunLen : (nthElement.run a m).len = a.len := by simpa using hrun.length_eq
  have htake := take_perm_of_sorted (hperm.trans hrun.symm) hsorted (m := m) fun x hx y hy => by
    obtain ⟨i, hi, -, rfl⟩ := mem_take hx
    obtain ⟨j, hj, hj', rfl⟩ := mem_drop hy
    exact h a m hlt i hi j hj (by omega)
  obtain ⟨⟨i, hi, hmax⟩, hge⟩ := maxElement_spec (nthElement.run a m).data hm
  refine le_antisymm ?_ ?_
  · -- it is one of those before the middle
    have hmem := htake.mem_iff.mpr (data_mem_take (nthElement.run a m) hi (by omega))
    obtain ⟨j, hj, hj', heq⟩ := mem_take hmem
    rw [hmax, heq]
    have hmono := List.pairwise_iff_getElem.mp hsorted
    obtain hlast | rfl := Nat.lt_or_eq_of_le (Nat.le_sub_one_of_lt hj)
    · have hle := hmono j (m - 1) (by simpa using hj') (by simp; omega) hlast
      rwa [b.getElem_toList, b.getElem_toList] at hle
    · exact le_rfl
  · have hmem := htake.mem_iff.mp (data_mem_take b (Nat.sub_one_lt_of_lt hm) (by omega))
    obtain ⟨j, hj, -, heq⟩ := mem_take hmem
    rw [heq]
    exact hge j hj

/-- **The median** is that of any sorted list of the same elements. -/
theorem median_eq (h : nthElement.Partitions) (ops : Doubles α D)
    (hperm : b.toList.Perm a.toList) (hsorted : b.toList.Pairwise (· ≤ ·)) :
    median nthElement ops a = sortedMedian ops b := by
  have hlen : b.len = a.len := by simpa using hperm.length_eq
  rw [median, sortedMedian, hlen]
  split
  · rfl
  · next hne =>
    have hmid : a.len / 2 < a.len := by omega
    have hnth : (nthElement.run a (a.len / 2)).data (a.len / 2) = b.data (a.len / 2) := by
      have hget := nthElement.nth a (a.len / 2) hmid b.toList hperm hsorted
      rw [List.getElem?_eq_getElem (by simp; omega), b.getElem_toList] at hget
      exact (Option.some.inj hget).symm
    simp only [hnth]
    split
    · rfl
    · rw [maxElement_eq h hperm hsorted (by omega) hmid]

theorem sortAsc_toList (sort : Sorting α) (memory : Nat → α) (a : ListStruct α) :
    (sortAsc sort memory a).result.toList.Perm a.toList ∧
      (sortAsc sort memory a).result.toList.Pairwise (· ≤ ·) := by
  have hcopy : (⟨(copy a.data a.len 0 (.alloc memory a.len)).slot, a.len, a.len_lt⟩ :
      ListStruct α).toList = a.toList := by
    refine ListStruct.toList_congr rfl fun i (hi : i < a.len) => ?_
    change (copy a.data a.len 0 _).slot i = a.data i
    rw [Fill.slot_copy, if_pos (by omega), Nat.sub_zero]
  have hperm := sort.perm ⟨(copy a.data a.len 0 (.alloc memory a.len)).slot, a.len, a.len_lt⟩
  have hsorted := sort.sorted ⟨(copy a.data a.len 0 (.alloc memory a.len)).slot, a.len, a.len_lt⟩
  have hlen := hperm.length_eq
  rw [ListStruct.length_toList, ListStruct.length_toList] at hlen
  have heq : (sortAsc sort memory a).result.toList =
      (sort.run ⟨(copy a.data a.len 0 (.alloc memory a.len)).slot, a.len, a.len_lt⟩).toList :=
    ListStruct.toList_congr hlen.symm fun _ _ => rfl
  rw [heq]
  rw [hcopy] at hperm
  exact ⟨hperm, hsorted⟩

end Middle

/-! ## 3. Both medians -/

/-- **`Median` is `SortedMedian` after `SortAsc`**, and does not depend on the order. -/
theorem median_eq_sortedMedian {t : IntegerType} {D : Type} (nthElement : NthElement t.Value)
    (h : nthElement.Partitions) (sort : Sorting t.Value) (ops : Doubles t.Value D)
    (memory : Nat → t.Value) (a : ListStruct t.Value) :
    median nthElement ops a = sortedMedian ops (sortAsc sort memory a).result ∧
      ∀ a' : ListStruct t.Value, a'.toList.Perm a.toList →
        median nthElement ops a = median nthElement ops a' := by
  obtain ⟨hperm, hsorted⟩ := sortAsc_toList sort memory a
  refine ⟨median_eq h ops hperm hsorted, fun a' ha' => ?_⟩
  rw [median_eq h ops hperm hsorted, median_eq h ops (hperm.trans ha'.symm) hsorted]

/-! ### Sorting by insertion -/

section Insertion

variable {t : IntegerType}

theorem toList_ofList {α : Type} [Inhabited α] (l : List α) (h : l.length < 2 ^ 32) :
    (ListStruct.ofList l h).toList = l := by
  refine List.ext_getElem (by simp [ListStruct.ofList]) fun i h₁ h₂ => ?_
  rw [ListStruct.getElem_toList]
  simp [ListStruct.ofList, h₂]

def insertionSorting (t : IntegerType) : Sorting t.Value where
  run a := .ofList (a.toList.insertionSort (· ≤ ·)) (by simpa using a.len_lt)
  perm a := by
    rw [toList_ofList]
    exact List.perm_insertionSort _ _
  sorted a := by
    rw [toList_ofList]
    exact List.pairwise_insertionSort _ _

/-- What a sorting has at `n`. -/
theorem Sorting.getElem? (sort : Sorting t.Value) (a : ListStruct t.Value) {n : Nat}
    (hn : n < a.len) {l : List t.Value} (hperm : l.Perm a.toList)
    (hsorted : l.Pairwise (· ≤ ·)) : l[n]? = some ((sort.run a).data n) := by
  have heq := List.Perm.eq_of_pairwise' hsorted (sort.sorted a) (hperm.trans (sort.perm a).symm)
  have hlen : (sort.run a).len = a.len := by simpa using (sort.perm a).length_eq
  rw [heq, List.getElem?_eq_getElem (by simpa [hlen] using hn), ListStruct.getElem_toList]

theorem Sorting.mono (sort : Sorting t.Value) (a : ListStruct t.Value) {i j : Nat} (hij : i ≤ j)
    (hj : j < a.len) : (sort.run a).data i ≤ (sort.run a).data j := by
  have hlen : (sort.run a).len = a.len := by simpa using (sort.perm a).length_eq
  obtain hlt | rfl := Nat.lt_or_eq_of_le hij
  · have hle := List.pairwise_iff_getElem.mp (sort.sorted a) i j (by simp; omega) (by simp; omega)
      hlt
    rwa [ListStruct.getElem_toList, ListStruct.getElem_toList] at hle
  · exact le_rfl

/-- A sorting is a selection. -/
def Sorting.nthElement (sort : Sorting t.Value) : NthElement t.Value where
  run a _ := sort.run a
  perm a _ := sort.perm a
  nth a _ hn _ hperm hsorted := sort.getElem? a hn hperm hsorted
  before a _ hn _ hi := sort.mono a hi.le hn

theorem Sorting.partitions (sort : Sorting t.Value) : sort.nthElement.Partitions :=
  fun a _ _ _ hi _ hij hj => sort.mono a (hi.le.trans hij) hj

end Insertion

/-- Doubles that are exact. -/
def rationals (t : IntegerType) : Doubles t.Value Rat where
  zero := 0
  ofValue v := v.toInt
  add x y := x + y
  half x := x / 2

/-- Four elements and two orders of them. -/
theorem median_eq_sortedMedian_four :
    let sort := insertionSorting .int32
    let a := ListStruct.ofList [1, 0, 0, (1 : IntegerType.int32.Value)] (by decide)
    let a' := ListStruct.ofList [0, 1, 0, (1 : IntegerType.int32.Value)] (by decide)
    median sort.nthElement (rationals .int32) a =
        sortedMedian (rationals .int32) (sortAsc sort (fun _ => 0) a).result ∧
      median sort.nthElement (rationals .int32) a =
        median sort.nthElement (rationals .int32) a' := by
  intro sort a a'
  obtain ⟨hsorted, hperm⟩ := median_eq_sortedMedian sort.nthElement sort.partitions sort
    (rationals .int32) (fun _ => 0) a
  exact ⟨hsorted, hperm a' (by decide)⟩

/-- A selection that leaves `0` behind the middle of `0, 0, 1, 1`, and sorts otherwise. -/
def weakNthElement : NthElement IntegerType.int32.Value where
  run a n :=
    if (a.toList.insertionSort (· ≤ ·)) = [0, 0, 1, 1] ∧ n = 2 then .ofList [0, 1, 1, 0] (by decide)
    else (insertionSorting .int32).run a
  perm a n := by
    split
    · next h =>
      rw [toList_ofList]
      have hperm := List.perm_insertionSort (· ≤ ·) a.toList
      rw [h.1] at hperm
      exact .trans (by decide) hperm
    · exact (insertionSorting .int32).perm a
  nth a n hn l hperm hsorted := by
    have hget := (insertionSorting .int32).getElem? a hn hperm hsorted
    split
    · next h =>
      obtain ⟨hsort, rfl⟩ := h
      rw [hget]
      simp only [insertionSorting, hsort]
      rfl
    · exact hget
  before a n hn i hi := by
    split
    · next h =>
      obtain ⟨-, rfl⟩ := h
      revert i
      decide
    · exact (insertionSorting .int32).mono a hi.le hn

/-- The greatest element before the middle is not determined. -/
theorem median_of_weak :
    let a := ListStruct.ofList [0, 0, 1, (1 : IntegerType.int32.Value)] (by decide)
    median weakNthElement (rationals .int32) a ≠ sortedMedian (rationals .int32)
      (sortAsc (insertionSorting .int32) (fun _ => 0) a).result := by
  decide +kernel

end Kernels

end JitFusion
