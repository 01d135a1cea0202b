/-
# Guarded lists

A chain of alternatives: guards with their bodies, and perhaps a body without a guard at the end.
Laid out flat it is the list of its guards and bodies, and which element is which follows from the
position and the length alone.

* `flat`: the layout.
* `ofFlat`: the elements `2 * i` and `2 * i + 1` are a guard and its body; of an odd number of
  elements the last is the body without a guard.
* `ofFlat_flat`: a layout is unambiguous.
-/
import Mathlib.Data.List.Basic
import Mathlib.Data.Option.NAry

/-- Bodies with a guard, in order, and the body without. -/
structure GuardedList (α : Type) where
  branches : List (α × α)
  otherwise : Option α

namespace GuardedList

variable {α : Type}

def flat (g : GuardedList α) : List α :=
  (g.branches.flatMap fun b => [b.1, b.2]) ++ g.otherwise.toList

def ofFlat (args : List α) : GuardedList α where
  branches := (List.range (args.length / 2)).filterMap fun i =>
    Option.map₂ Prod.mk args[2 * i]? args[2 * i + 1]?
  otherwise := if args.length % 2 ≠ 0 then args[args.length - 1]? else none

@[simp] theorem ofFlat_nil : ofFlat ([] : List α) = ⟨[], none⟩ := by simp [ofFlat]

@[simp] theorem ofFlat_singleton (body : α) : ofFlat [body] = ⟨[], some body⟩ := by
  simp [ofFlat]

/-- The first two elements are a guard and its body. -/
@[simp] theorem ofFlat_cons_cons (guard body : α) (args : List α) :
    ofFlat (guard :: body :: args) =
      ⟨(guard, body) :: (ofFlat args).branches, (ofFlat args).otherwise⟩ := by
  have hhalf : (guard :: body :: args).length / 2 = args.length / 2 + 1 := by
    simp only [List.length_cons]
    omega
  have hmod : (guard :: body :: args).length % 2 = args.length % 2 := by
    simp only [List.length_cons]
    omega
  unfold ofFlat
  rw [hhalf, hmod, List.range_succ_eq_map, List.filterMap_cons, List.filterMap_map]
  congr 1
  by_cases hodd : args.length % 2 ≠ 0
  · rw [if_pos hodd, if_pos hodd]
    obtain ⟨k, hk⟩ : ∃ k, args.length = k + 1 := ⟨args.length - 1, by omega⟩
    simp [hk]
  · rw [if_neg hodd, if_neg hodd]

theorem ofFlat_flat (g : GuardedList α) : ofFlat g.flat = g := by
  obtain ⟨branches, otherwise⟩ := g
  induction branches with
  | nil =>
    cases otherwise with
    | none => exact ofFlat_nil
    | some body => exact ofFlat_singleton body
  | cons branch branches ih =>
    change ofFlat (branch.1 :: branch.2 :: flat ⟨branches, otherwise⟩) = _
    rw [ofFlat_cons_cons, ih]

end GuardedList
