/-
# Runs of a deterministic machine

A machine is a state and a step function; a run feeds it a list of inputs.  The rules here
turn a fact about one step into a fact about every state a run reaches.

* `run_inv`: an invariant that every step preserves holds after a run.
* `run_inv_of_ok`: an invariant that every admissible step preserves holds in every state
  reached by a run of admissible steps.
* `run_inv_iff`: if admissibility is EXACT, meaning that from a state with the invariant a
  step keeps it if and only if the step is admissible, then the invariant holds all along a
  run if and only if every step of the run is admissible.

"Along the run" is said with prefixes: the states reached are those after each prefix.
-/
import Mathlib.Data.List.Infix

namespace Machine

variable {S A : Type} (step : S → A → S)

/-- The state after the inputs, one after another. -/
def run (s : S) (as : List A) : S := as.foldl step s

@[simp] theorem run_nil (s : S) : run step s [] = s := rfl

@[simp] theorem run_append_singleton (s : S) (as : List A) (a : A) :
    run step s (as ++ [a]) = step (run step s as) a := by
  simp [run]

variable {step} {Inv : S → Prop} {Ok : S → A → Prop}

/-- **Admissible steps keep the invariant along the run.**  The induction is on the prefix, one
input at a time from the right. -/
theorem run_inv_of_ok {s : S} (h0 : Inv s) (hstep : ∀ s a, Inv s → Ok s a → Inv (step s a))
    {as : List A} (hok : ∀ pre a, pre ++ [a] <+: as → Ok (run step s pre) a) :
    ∀ pre, pre <+: as → Inv (run step s pre) := by
  intro pre
  induction pre using List.reverseRecOn with
  | nil => intro _; exact h0
  | append_singleton pre a ih =>
    intro hpre
    rw [run_append_singleton]
    exact hstep _ a (ih ((List.prefix_append pre [a]).trans hpre)) (hok pre a hpre)

/-- An invariant that every step preserves holds after the run. -/
theorem run_inv {s : S} (h0 : Inv s) (hstep : ∀ s a, Inv s → Inv (step s a)) (as : List A) :
    Inv (run step s as) := by
  induction as using List.reverseRecOn with
  | nil => exact h0
  | append_singleton pre a ih =>
    rw [run_append_singleton]
    exact hstep _ a ih

/-- **With an exact condition on each step, the invariant holds along the run if and only if
every step meets it.** -/
theorem run_inv_iff {s : S} (h0 : Inv s) (hstep : ∀ s a, Inv s → (Inv (step s a) ↔ Ok s a))
    (as : List A) :
    (∀ pre, pre <+: as → Inv (run step s pre)) ↔
      ∀ pre a, pre ++ [a] <+: as → Ok (run step s pre) a := by
  constructor
  · intro hinv pre a hpre
    have hs : Inv (run step s pre) := hinv pre ((List.prefix_append pre [a]).trans hpre)
    have hs' : Inv (run step s (pre ++ [a])) := hinv _ hpre
    rw [run_append_singleton] at hs'
    exact (hstep _ a hs).mp hs'
  · exact run_inv_of_ok h0 fun s a hs hok => (hstep s a hs).mpr hok

end Machine
