/-
# Searching sorted lists

`FindSorted`, `FindSortedString` and `Bucketize` (`src/function/list_indexing.cc`) search by halves:
the first two with `std::lower_bound`, the last one with `std::upper_bound` if there are more than
16 boundaries.  Of both it is known that they find the border of a range in two parts
(`Search.PartitionSearch`).

* `findSorted_eq_find`: on an ascending list they answer what `Find` and `FindString` do.
* `bucketize_paths`: the scan and the search by halves put a value into the same bucket.

The order of the strings is that of `std::string_view::compare`, `memcmp` and then the lengths,
which is the lexicographic order of the bytes (`StringStruct.compare_eq_lt`).
-/
import Mathlib.Data.List.Lex
import JitFusion.ListIndexing

namespace JitFusion

namespace Kernels

open Fill (rank)
open Fill.Buffer (sweep)
open Search (Parted PartitionSearch first first_eq_of first_spec)

/-! ## 1. The kernels -/

/-- `memcmp` of `n` bytes, which are unsigned. -/
def memcmp (x y : Nat → UInt8) (n : Nat) : Ordering :=
  let i := first (fun i => decide (x i ≠ y i)) n
  if i < n then if x i < y i then .lt else .gt else .eq

/-- `std::string_view::compare`. -/
def StringStruct.compare (x y : StringStruct) : Ordering :=
  (memcmp x.data y.data (min x.len y.len)).then (Ord.compare x.len y.len)

/-- What the two functions have in common: `std::lower_bound` where `less` says that an element is
before the value, and the test for equality. -/
def findSortedBy {α : Type} (lowerBound : PartitionSearch) (less equal : α → Bool)
    (a : ListStruct α) : UInt32 :=
  let it := lowerBound.point (fun i => !less (a.data i)) a.len
  if it = a.len ∨ ¬ equal (a.data it) then kLookupMiss else UInt32.ofNat it

def findSorted {t : IntegerType} (lowerBound : PartitionSearch) (a : ListStruct t.Value)
    (value : t.Value) : UInt32 :=
  findSortedBy lowerBound (fun x => decide (x < value)) (fun x => decide (x = value)) a

def findSortedString (lowerBound : PartitionSearch) (a : ListStruct StringStruct)
    (value : StringStruct) : UInt32 :=
  findSortedBy lowerBound (fun lhs => decide (lhs.compare value = .lt))
    (fun lhs => decide (lhs.view = value.view)) a

def kBucketizeLinearThreshold : Nat := 16

section Bucketize

variable {β : Type} [LT β] [DecidableLT β]

/-- The loop stops at the first boundary above `v`. -/
def bucketLinear (boundaries : ListStruct β) (v : β) : UInt32 :=
  UInt32.ofNat (first (fun bucket => decide (v < boundaries.data bucket)) boundaries.len)

/-- `std::upper_bound`. -/
def bucketUpperBound (upperBound : PartitionSearch) (boundaries : ListStruct β) (v : β) : UInt32 :=
  UInt32.ofNat (upperBound.point (fun bucket => decide (v < boundaries.data bucket)) boundaries.len)

def bucketize (upperBound : PartitionSearch) (memory : Nat → UInt32)
    (values boundaries : ListStruct β) : Call UInt32 :=
  let result := .alloc memory values.len
  if boundaries.len ≤ kBucketizeLinearThreshold then
    .done (sweep (fun i _ => bucketLinear boundaries (values.data i)) values.len result)
      values.len values.len_lt
  else
    .done (sweep (fun i _ => bucketUpperBound upperBound boundaries (values.data i)) values.len
      result) values.len values.len_lt

end Bucketize

/-! ## 2. The order of strings -/

instance linearOrderUInt8 : LinearOrder UInt8 where
  le_refl := UInt8.le_refl
  le_trans _ _ _ := UInt8.le_trans
  le_antisymm _ _ := UInt8.le_antisymm
  le_total := UInt8.le_total
  lt_iff_le_not_ge a b := by
    rw [UInt8.le_iff_toNat_le, UInt8.le_iff_toNat_le, UInt8.lt_iff_toNat_lt]
    omega
  toDecidableLE := inferInstance
  toDecidableLT := inferInstance
  toDecidableEq := inferInstance

/-- The lexicographic order, by indices. -/
theorem StringStruct.view_lt_iff (x y : StringStruct) : x.view < y.view ↔
    (x.len < y.len ∧ ∀ i < x.len, x.data i = y.data i) ∨
    ∃ i < min x.len y.len, (∀ j < i, x.data j = y.data j) ∧ x.data i < y.data i := by
  have hlen : ∀ s : StringStruct, s.view.length = s.len := ListStruct.length_toList
  have hget : ∀ (s : StringStruct) i (h : i < s.view.length), s.view[i] = s.data i :=
    fun s i h => s.getElem_toList h
  rw [List.lt_iff_exists]
  refine or_congr ⟨?_, ?_⟩ ⟨?_, ?_⟩
  · rintro ⟨htake, hlt⟩
    refine ⟨by simpa [hlen] using hlt, fun i hi => ?_⟩
    have hi' : i < x.view.length := by rwa [hlen]
    have hget' := List.getElem_of_eq htake hi'
    rwa [List.getElem_take, hget, hget] at hget'
  · rintro ⟨hlt, hsame⟩
    refine ⟨List.ext_getElem ?_ fun i h₁ h₂ => ?_, by simpa [hlen] using hlt⟩
    · rw [List.length_take, hlen, hlen]
      omega
    · rw [List.getElem_take, hget, hget]
      exact hsame i (by rwa [hlen] at h₁)
  · rintro ⟨i, h₁, h₂, hsame, hlt⟩
    rw [hget, hget] at hlt
    rw [hlen] at h₁ h₂
    refine ⟨i, by omega, fun j hj => ?_, hlt⟩
    simpa [hget] using hsame j hj
  · rintro ⟨i, hi, hsame, hlt⟩
    refine ⟨i, by rw [hlen]; omega, by rw [hlen]; omega, fun j hj => ?_, ?_⟩
    · rw [hget, hget]
      exact hsame j hj
    · rwa [hget, hget]

/-- **Strings are compared byte by byte**, the shorter one of two that agree first. -/
theorem StringStruct.compare_eq_lt (x y : StringStruct) :
    x.compare y = .lt ↔ x.view < y.view := by
  obtain ⟨hle, hbefore, hfirst⟩ :=
    @first_spec (fun i => decide (x.data i ≠ y.data i)) (min x.len y.len)
  rw [view_lt_iff, StringStruct.compare, memcmp]
  generalize first (fun i => decide (x.data i ≠ y.data i)) (min x.len y.len) = r at *
  have hsame : ∀ i < r, x.data i = y.data i := fun i hi => by simpa using hbefore i hi
  by_cases hr : r < min x.len y.len
  · -- the byte `r` decides
    have hne : x.data r ≠ y.data r := by simpa using hfirst hr
    have hcompare : (if x.data r < y.data r then Ordering.lt else .gt).then
        (Ord.compare x.len y.len) = .lt ↔ x.data r < y.data r := by
      split
      · next h => simp [h]
      · next h => simp [h]
    simp only [if_pos hr]
    rw [hcompare]
    constructor
    · exact fun hlt => .inr ⟨r, hr, hsame, hlt⟩
    · rintro (⟨-, hall⟩ | ⟨i, hi, hall, hlt⟩)
      · exact absurd (hall r (by omega)) hne
      · obtain hir | rfl | hri := lt_trichotomy i r
        · rw [hsame i hir] at hlt
          exact absurd hlt (lt_irrefl _)
        · exact hlt
        · exact absurd (hall r hri) hne
  · -- one is the beginning of the other
    obtain rfl : r = min x.len y.len := by omega
    simp only [lt_irrefl, if_false, Ordering.then, Nat.compare_eq_lt]
    constructor
    · exact fun hlt => .inl ⟨hlt, fun i hi => hsame i (by omega)⟩
    · rintro (⟨hlt, -⟩ | ⟨i, hi, -, hlt⟩)
      · exact hlt
      · rw [hsame i hi] at hlt
        exact absurd hlt (lt_irrefl _)

/-! ## 3. `FindSorted` -/

section FindSorted

variable {α κ : Type}

/-- The keys of the elements do not decrease. -/
def Ascending [LE κ] (key : α → κ) (a : ListStruct α) : Prop :=
  ∀ j < a.len, ∀ i ≤ j, key (a.data i) ≤ key (a.data j)

instance [LE κ] [DecidableLE κ] (key : α → κ) (a : ListStruct α) : Decidable (Ascending key a) :=
  inferInstanceAs (Decidable (∀ j < a.len, ∀ i ≤ j, _))

/-- **The border is the first hit**, if there is one. -/
theorem findSortedBy_eq [LinearOrder κ] [DecidableEq κ] {key : α → κ} {less equal : α → Bool}
    (lowerBound : PartitionSearch) {a : ListStruct α} (value : κ)
    (hless : ∀ x, less x = true ↔ key x < value) (hequal : ∀ x, equal x = true ↔ key x = value)
    (h : Ascending key a) : findSortedBy lowerBound less equal a = findKey key a value := by
  have hparted : Parted (fun i => !less (a.data i)) a.len := by
    intro i j hij hj hi
    have hge : ¬ key (a.data i) < value := by
      rw [← hless]
      simpa using hi
    have hge' : ¬ key (a.data j) < value := fun hlt => hge ((h j hj i hij).trans_lt hlt)
    rw [← hless] at hge'
    simpa using hge'
  rw [findSortedBy, findKey, lowerBound.spec _ _ hparted]
  obtain ⟨hle, hbefore, hfirst⟩ := @first_spec (fun i => !less (a.data i)) a.len
  generalize first (fun i => !less (a.data i)) a.len = r at *
  have hlt : ∀ i < r, key (a.data i) < value := by
    intro i hi
    rw [← hless]
    simpa using hbefore i hi
  by_cases hhit : r < a.len ∧ key (a.data r) = value
  · have hne : ¬ (r = a.len ∨ ¬ equal (a.data r) = true) := by
      rw [hequal]
      exact not_or.mpr ⟨hhit.1.ne, not_not.mpr hhit.2⟩
    rw [if_neg hne, first_eq_of hle (fun i hi => by simpa using (hlt i hi).ne)
      fun _ => by simpa using hhit.2, if_pos hhit.1]
  · -- what is not before the border is above the value
    have hnone : ∀ i < a.len, decide (key (a.data i) = value) = false := by
      intro i hi
      by_cases hir : i < r
      · simpa using (hlt i hir).ne
      · have hge : ¬ key (a.data r) < value := by
          rw [← hless]
          simpa using hfirst (by omega)
        have hgt : value < key (a.data r) :=
          lt_of_le_of_ne (not_lt.mp hge) fun heq => hhit ⟨by omega, heq.symm⟩
        simpa using (hgt.trans_le (h i hi r (by omega))).ne'
    have hmiss : r = a.len ∨ ¬ equal (a.data r) = true := by
      rw [hequal]
      by_cases hr : r < a.len
      · exact .inr fun heq => hhit ⟨hr, heq⟩
      · exact .inl (by omega)
    rw [if_pos hmiss, Search.first_eq_iff_forall.mpr hnone, if_neg (lt_irrefl _)]

end FindSorted

/-- **Binary search is linear search** on ascending lists. -/
theorem findSorted_eq_find (lowerBound : PartitionSearch) :
    (∀ (t : IntegerType) (a : ListStruct t.Value) (value : t.Value), Ascending id a →
      findSorted lowerBound a value = find a value) ∧
    ∀ (a : ListStruct StringStruct) (value : StringStruct), Ascending StringStruct.view a →
      findSortedString lowerBound a value = findString a value := by
  constructor
  · intro t a value h
    rw [findSorted, find]
    exact findSortedBy_eq lowerBound value (fun x => by simp) (fun x => by simp) h
  · intro a value h
    rw [findSortedString, findString]
    exact findSortedBy_eq lowerBound value.view
      (fun x => by simp [StringStruct.compare_eq_lt]) (fun x => by simp) h

/-- A list with equal elements, and one with an empty string. -/
theorem findSorted_eq_find_three :
    let three := IntegerType.int32.wrap 3
    let a := ListStruct.ofList [1, three, three] (by decide)
    let empty : StringStruct := .ofList [] (by decide)
    let names : ListStruct StringStruct :=
      ⟨fun i => if i = 0 then empty else .ofList [0x61, 0] (by decide), 3, by decide⟩
    findSorted Search.bisection a three = find a three ∧
      findSortedString Search.bisection names (names.data 2) = findString names (names.data 2) := by
  intro three a empty names
  exact ⟨(findSorted_eq_find Search.bisection).1 .int32 a three (by decide),
    (findSorted_eq_find Search.bisection).2 names (names.data 2) (by decide)⟩

/-! ## 4. `Bucketize` -/

section Buckets

variable {β : Type} [Preorder β] [DecidableLT β] {boundaries : ListStruct β} {v : β}

/-- The number of boundaries that `v` is not below. -/
def bucket (boundaries : ListStruct β) (v : β) : Nat :=
  rank (fun j => !decide (v < boundaries.data j)) boundaries.len

theorem bucket_lt (boundaries : ListStruct β) (v : β) : bucket boundaries v < 2 ^ 32 :=
  (Fill.rank_le boundaries.len).trans_lt boundaries.len_lt

/-- The boundaries above a value come last. -/
theorem Ascending.parted (h : Ascending id boundaries) (v : β) :
    Parted (fun j => decide (v < boundaries.data j)) boundaries.len := by
  intro i j hij hj hi
  have hlt : v < boundaries.data i := by simpa using hi
  simpa using hlt.trans_le (h j hj i hij)

/-- **Both paths** count. -/
theorem paths_eq_bucket (upperBound : PartitionSearch) (h : Ascending id boundaries) (v : β) :
    bucketLinear boundaries v = UInt32.ofNat (bucket boundaries v) ∧
      bucketUpperBound upperBound boundaries v = UInt32.ofNat (bucket boundaries v) := by
  have hparted := h.parted v
  rw [bucketLinear, bucketUpperBound, bucket, upperBound.spec _ _ hparted, hparted.first_eq]
  exact ⟨rfl, rfl⟩

/-- The bucket is the only index `n` such that `v` is not below boundary `n - 1`, and below
boundary `n`. -/
theorem bucket_eq_of (h : Ascending id boundaries) {n : Nat} (hn : n ≤ boundaries.len)
    (hbefore : ∀ j < n, ¬ v < boundaries.data j)
    (hafter : n < boundaries.len → v < boundaries.data n) :
    bucket boundaries v = n := by
  rw [bucket, ← (h.parted v).first_eq]
  exact first_eq_of hn (fun j hj => by simpa using hbefore j hj) fun hlt => by
    simpa using hafter hlt

/-- What bucket the values are in. -/
structure Buckets (boundaries : ListStruct β) (v : β) (n : Nat) : Prop where
  count : n = bucket boundaries v
  below : 0 < boundaries.len → v < boundaries.data 0 → n = 0
  between : ∀ i, 0 < i → i < boundaries.len → boundaries.data (i - 1) ≤ v →
    v < boundaries.data i → n = i
  above : 0 < boundaries.len → boundaries.data (boundaries.len - 1) ≤ v → n = boundaries.len
  incomparable : (∀ j < boundaries.len, ¬ v < boundaries.data j ∧ ¬ boundaries.data j ≤ v) →
    n = boundaries.len

theorem bucket_buckets (h : Ascending id boundaries) (v : β) :
    Buckets boundaries v (bucket boundaries v) := by
  have hnot : ∀ {i}, i < boundaries.len → boundaries.data i ≤ v →
      ∀ j ≤ i, ¬ v < boundaries.data j := by
    intro i hi hle j hj hlt
    exact (lt_irrefl v) (hlt.trans_le ((h i hi j hj).trans hle))
  refine ⟨rfl, fun hlen hlt => ?_, fun i hpos hi hle hlt => ?_, fun hlen hle => ?_, fun hnone => ?_⟩
  · exact bucket_eq_of h hlen.le (fun j hj => absurd hj (Nat.not_lt_zero j)) fun _ => hlt
  · exact bucket_eq_of h hi.le (fun j hj => hnot (by omega) hle j (by omega)) fun _ => hlt
  · exact bucket_eq_of h le_rfl (fun j hj => hnot (by omega) hle j (by omega))
      fun hlt => absurd hlt (lt_irrefl _)
  · exact bucket_eq_of h le_rfl (fun j hj => (hnone j hj).1) fun hlt => absurd hlt (lt_irrefl _)

/-- Boundaries above the value do not count. -/
theorem bucket_extend {more : ListStruct β} (hlen : boundaries.len ≤ more.len)
    (hsame : ∀ j < boundaries.len, more.data j = boundaries.data j)
    (habove : ∀ j, boundaries.len ≤ j → j < more.len → v < more.data j) :
    bucket more v = bucket boundaries v := by
  obtain ⟨d, hd⟩ := Nat.exists_eq_add_of_le hlen
  have hnone : ∀ j < d, (!decide (v < more.data (boundaries.len + j))) = false := by
    intro j hj
    simpa using habove (boundaries.len + j) (by omega) (by omega)
  rw [bucket, bucket, hd, Fill.rank_add, Fill.rank_of_none hnone, Nat.add_zero]
  exact Fill.rank_congr fun j hj => by rw [hsame j hj]

theorem bucketize_data (upperBound : PartitionSearch) (memory : Nat → UInt32)
    (values : ListStruct β) (h : Ascending id boundaries) {i : Nat} (hi : i < values.len) :
    (bucketize upperBound memory values boundaries).result.data i =
      UInt32.ofNat (bucket boundaries (values.data i)) := by
  have hpaths := paths_eq_bucket upperBound h (values.data i)
  rw [bucketize]
  split
  · rw [← hpaths.1]
    exact (Fill.Buffer.slot_sweep (g := fun i _ => bucketLinear boundaries (values.data i))
      (fun _ _ => rfl) values.len i).trans (if_pos hi)
  · rw [← hpaths.2]
    exact (Fill.Buffer.slot_sweep
      (g := fun i _ => bucketUpperBound upperBound boundaries (values.data i))
      (fun _ _ => rfl) values.len i).trans (if_pos hi)

end Buckets

/-- **The two paths agree**, for elements of which some may compare to nothing: they count the
boundaries that a value is not below, so boundaries above a value can be added. -/
theorem bucketize_paths {β : Type} [Preorder β] [DecidableLT β] (upperBound : PartitionSearch)
    (memory : Nat → UInt32) (values boundaries : ListStruct β) (h : Ascending id boundaries) :
    (bucketize upperBound memory values boundaries).result.len = values.len ∧
      ∀ i < values.len,
        let v := values.data i
        let n := (bucketize upperBound memory values boundaries).result.data i
        n = bucketLinear boundaries v ∧ n = bucketUpperBound upperBound boundaries v ∧
          Buckets boundaries v n.toNat ∧
          ∀ more memory', Ascending id more → boundaries.len ≤ more.len →
            (∀ j < boundaries.len, more.data j = boundaries.data j) →
            (∀ j, boundaries.len ≤ j → j < more.len → v < more.data j) →
            (bucketize upperBound memory' values more).result.data i = n := by
  refine ⟨?_, fun i hi => ?_⟩
  · rw [bucketize]
    split
    · rfl
    · rfl
  · obtain ⟨hlinear, hupper⟩ := paths_eq_bucket upperBound h (values.data i)
    simp only [bucketize_data upperBound memory values h hi, hlinear, hupper]
    refine ⟨trivial, trivial, ?_, fun more memory' hmore hlen hsame habove => ?_⟩
    · rw [UInt32.toNat_ofNat_of_lt' (bucket_lt boundaries _)]
      exact bucket_buckets h _
    · rw [bucketize_data upperBound memory' values hmore hi, bucket_extend hlen hsame habove]

/-- A floating point value: a number of a total order or no number. -/
inductive Floating (κ : Type)
  | number (x : κ)
  | nan

namespace Floating

variable {κ : Type} [LinearOrder κ]

def le : Floating κ → Floating κ → Prop
  | number x, number y => x ≤ y
  | nan, nan => True
  | _, _ => False

instance : Preorder (Floating κ) where
  le := le
  le_refl
    | number x => le_refl x
    | nan => trivial
  le_trans
    | number _, number _, number _, hxy, hyz => le_trans hxy hyz
    | nan, nan, nan, _, _ => trivial

instance : DecidableLE (Floating κ)
  | number x, number y => inferInstanceAs (Decidable (x ≤ y))
  | nan, nan => inferInstanceAs (Decidable True)
  | number _, nan | nan, number _ => inferInstanceAs (Decidable False)

instance : DecidableLT (Floating κ) := fun a b =>
  decidable_of_iff (a ≤ b ∧ ¬ b ≤ a) lt_iff_le_not_ge.symm

end Floating

/-- Two boundaries are equal, and one value is no number. -/
theorem bucketize_paths_nan :
    let values : ListStruct (Floating Nat) :=
      ⟨fun i => if i = 0 then .nan else .number 1, 2, by decide⟩
    let boundaries : ListStruct (Floating Nat) := ⟨fun _ => .number 1, 2, by decide⟩
    (bucketize Search.bisection (fun _ => 0) values boundaries).result.len = 2 ∧
      Buckets boundaries .nan
        ((bucketize Search.bisection (fun _ => 0) values boundaries).result.data 0).toNat := by
  intro values boundaries
  obtain ⟨hlen, hdata⟩ :=
    bucketize_paths Search.bisection (fun _ => 0) values boundaries (by decide)
  exact ⟨hlen, (hdata 0 (by decide)).2.2.1⟩

end Kernels

end JitFusion
