/-
# The stack of an operator-precedence parser

A shift-reduce parser keeps the constructs it has begun in a stack of frames, the innermost first,
and holds the operand it has just read.  A frame has a level, which says how tightly it binds: a
bracket has level zero.  Before an operator of level `q` is shifted, the parser closes the frames
that bind at least as tightly (`reduce`), so operators of one level group to the left.
-/
import Mathlib.Data.List.Basic

namespace Precedence

/-- The level of a frame, and what it makes of its last operand. -/
structure Rules (F T : Type) where
  level : F → Nat
  close : F → T → T

variable {F T : Type} (R : Rules F T)

/-- Close the frames that bind at least as tightly as `q`. -/
def reduce (q : Nat) : List F → T → List F × T
  | [], x => ([], x)
  | f :: S, x => if q ≤ R.level f then reduce q S (R.close f x) else (f :: S, x)

/-- What the frames make of an operand. -/
def closeAll : List F → T → T
  | [], x => x
  | f :: S, x => closeAll S (R.close f x)

/-- The innermost frame binds less tightly than `q`. -/
def Looser (q : Nat) (S : List F) : Prop := ∀ f ∈ S.head?, R.level f < q

/-- The frames from the innermost bracket on. -/
def base : List F → List F
  | [] => []
  | f :: S => if 1 ≤ R.level f then base S else f :: S

variable {R} {q : Nat} {S S' : List F} {x : T}

theorem looser_nil : Looser R q ([] : List F) := by
  intro f hf
  cases hf

theorem looser_cons {f : F} : Looser R q (f :: S) ↔ R.level f < q := by
  simp [Looser]

theorem reduce_of_looser (h : Looser R q S) : reduce R q S x = (S, x) := by
  cases S with
  | nil => rfl
  | cons f S => rw [reduce, if_neg (Nat.not_le.mpr (looser_cons.mp h))]

theorem closeAll_append (S' S : List F) (x : T) :
    closeAll R (S' ++ S) x = closeAll R S (closeAll R S' x) := by
  induction S' generalizing x with
  | nil => rfl
  | cons f S' ih => exact ih _

/-- **The tight frames are closed, and no other.** -/
theorem reduce_append (htight : ∀ f ∈ S', q ≤ R.level f) (hloose : Looser R q S) (x : T) :
    reduce R q (S' ++ S) x = (S, closeAll R S' x) := by
  induction S' generalizing x with
  | nil => exact reduce_of_looser hloose
  | cons f S' ih =>
    obtain ⟨hf, hrest⟩ := List.forall_mem_cons.mp htight
    rw [List.cons_append, reduce, if_pos hf]
    exact ih hrest _

theorem reduce_looser (q : Nat) (S : List F) (x : T) : Looser R q (reduce R q S x).1 := by
  induction S generalizing x with
  | nil => exact looser_nil
  | cons f S ih =>
    rw [reduce]
    split
    · exact ih _
    · next hf => exact looser_cons.mpr (Nat.not_le.mp hf)

/-- **The rule of a reduction**: what closing one frame keeps, a reduction keeps. -/
theorem reduce_inv {P : List F → T → Prop} (h : P S x)
    (hclose : ∀ f S x, q ≤ R.level f → P (f :: S) x → P S (R.close f x)) :
    P (reduce R q S x).1 (reduce R q S x).2 := by
  induction S generalizing x with
  | nil => exact h
  | cons f S ih =>
    rw [reduce]
    split
    · next hf => exact ih (hclose f S x hf h)
    · exact h

/-- A reduction stays inside the brackets. -/
theorem base_reduce (hq : 1 ≤ q) : base R (reduce R q S x).1 = base R S := by
  induction S generalizing x with
  | nil => rfl
  | cons f S ih =>
    rw [reduce, base]
    split
    · next hf => rw [ih, if_pos (Nat.le_trans hq hf)]
    · rw [base]

/-- With level one, the frames up to the innermost bracket are closed. -/
theorem reduce_one (S : List F) (x : T) : (reduce R 1 S x).1 = base R S := by
  induction S generalizing x with
  | nil => rfl
  | cons f S ih =>
    rw [reduce, base]
    split
    · exact ih _
    · rfl

theorem base_length (S : List F) : (base R S).length ≤ S.length := by
  induction S with
  | nil => exact Nat.le_refl 0
  | cons f S ih =>
    rw [base]
    split
    · exact Nat.le_succ_of_le ih
    · exact Nat.le_refl _

/-- The first of these frames is a bracket. -/
theorem level_base {f : F} (h : base R S = f :: S') : R.level f = 0 := by
  induction S with
  | nil => cases h
  | cons g S ih =>
    rw [base] at h
    split at h
    · exact ih h
    · next hg =>
      cases h
      exact Nat.lt_one_iff.mp (Nat.not_le.mp hg)

end Precedence
