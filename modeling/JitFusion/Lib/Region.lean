/-
# Regions of memory

A region is a base address and a number of bytes.  Two regions are APART when one ends before
the other begins, and a region lies WITHIN another when its whole extent does.

The one fact that is not arithmetic on two regions is the packing bound `sum_size_le`: regions
that are pairwise apart and lie in an interval have no more bytes together than the interval.
-/
import Mathlib.Algebra.BigOperators.Group.List.Basic
import Mathlib.Algebra.Ring.Nat
import Mathlib.Order.Interval.Finset.Nat

/-- `size` bytes from the address `base` on. -/
structure Region where
  base : Nat
  size : Nat
  deriving DecidableEq, Repr

namespace Region

/-- The address just past the last byte. -/
def stop (r : Region) : Nat := r.base + r.size

def Within (r s : Region) : Prop := s.base ≤ r.base ∧ r.stop ≤ s.stop

def Apart (r s : Region) : Prop := r.stop ≤ s.base ∨ s.stop ≤ r.base

instance (r s : Region) : Decidable (r.Within s) := inferInstanceAs (Decidable (_ ∧ _))

instance (r s : Region) : Decidable (r.Apart s) := inferInstanceAs (Decidable (_ ∨ _))

@[simp] theorem stop_mk (base size : Nat) : (Region.mk base size).stop = base + size := rfl

theorem Within.refl (r : Region) : r.Within r := ⟨le_rfl, le_rfl⟩

theorem Apart.symm {r s : Region} (h : r.Apart s) : s.Apart r := Or.symm h

/-- What lies within a region is apart from whatever the region is apart from. -/
theorem Within.apart {r s t : Region} (h : r.Within s) (hs : s.Apart t) : r.Apart t := by
  rcases hs with hs | hs
  · exact .inl (h.2.trans hs)
  · exact .inr (hs.trans h.1)

/-- Two regions with bytes in them that are apart begin at different addresses. -/
theorem Apart.base_ne {r s : Region} (h : r.Apart s) (hr : 0 < r.size) (hs : 0 < s.size) :
    r.base ≠ s.base := by
  unfold Apart stop at h
  omega

/-- The addresses of the bytes. -/
def bytes (r : Region) : Finset Nat := Finset.Ico r.base r.stop

@[simp] theorem card_bytes (r : Region) : r.bytes.card = r.size := by
  simp [bytes, stop]

theorem Apart.disjoint {r s : Region} (h : r.Apart s) : Disjoint r.bytes s.bytes := by
  rw [Finset.disjoint_left]
  intro x hx hy
  simp only [bytes, Finset.mem_Ico] at hx hy
  unfold Apart at h
  omega

/-- The bytes of all the regions of a list. -/
def union : List Region → Finset Nat
  | [] => ∅
  | r :: rs => r.bytes ∪ union rs

theorem disjoint_union {r : Region} {rs : List Region} (h : ∀ s ∈ rs, r.Apart s) :
    Disjoint r.bytes (union rs) := by
  induction rs with
  | nil => simp [union]
  | cons s rs ih =>
    rw [union, Finset.disjoint_union_right]
    exact ⟨(h s List.mem_cons_self).disjoint, ih fun t ht => h t (List.mem_cons_of_mem _ ht)⟩

theorem card_union {rs : List Region} (h : rs.Pairwise Apart) :
    (union rs).card = (rs.map size).sum := by
  induction rs with
  | nil => rfl
  | cons r rs ih =>
    rw [List.pairwise_cons] at h
    rw [union, Finset.card_union_of_disjoint (disjoint_union h.1), ih h.2, card_bytes]
    rfl

/-- **Packing.**  Pairwise apart regions of an interval have its length at most. -/
theorem sum_size_le {rs : List Region} (lo hi : Nat) (h : rs.Pairwise Apart)
    (hin : ∀ r ∈ rs, lo ≤ r.base ∧ r.stop ≤ hi) : (rs.map size).sum ≤ hi - lo := by
  have hsub : union rs ⊆ Finset.Ico lo hi := by
    clear h
    induction rs with
    | nil => simp [union]
    | cons r rs ih =>
      refine Finset.union_subset ?_ (ih fun s hs => hin s (List.mem_cons_of_mem _ hs))
      exact Finset.Ico_subset_Ico (hin r List.mem_cons_self).1 (hin r List.mem_cons_self).2
  calc (rs.map size).sum = (union rs).card := (card_union h).symm
    _ ≤ (Finset.Ico lo hi).card := Finset.card_le_card hsub
    _ = hi - lo := by simp

end Region
