/-
# Fallible steps on a state

`ExceptT ε (StateM σ)` is the shape of an imperative function that returns a status: a failure
keeps the state it happened in.  Here are the rules for running such steps, and a logic for them
with a postcondition for success and one for failure (`Triple`).
-/
import Mathlib.Data.List.Basic

namespace Fallible

variable {σ ε α β : Type}

/-- A step that may fail, and leaves its state behind if it does. -/
abbrev M (σ ε α : Type) := ExceptT ε (StateM σ) α

/-! ## 1. Running a sequence -/

theorem run_get (s : σ) : (get : M σ ε σ).run s = (.ok s, s) := rfl

theorem run_bind_eq {m : M σ ε α} {f : α → M σ ε β} {s : σ} : (m >>= f).run s =
    match m.run s with
    | (.ok v, s') => (f v).run s'
    | (.error e, s') => (.error e, s') := by
  rw [ExceptT.run_bind]
  rcases hm : m.run s with ⟨_ | _, s'⟩ <;> simp [bind, StateT.bind, hm]
  rfl

theorem run_bind_ok {m : M σ ε α} {f : α → M σ ε β} {s s' : σ} {v : α}
    (h : m.run s = (.ok v, s')) : (m >>= f).run s = (f v).run s' := by
  rw [run_bind_eq, h]

theorem run_bind_error {m : M σ ε α} {f : α → M σ ε β} {s s' : σ} {e : ε}
    (h : m.run s = (.error e, s')) : (m >>= f).run s = (.error e, s') := by
  rw [run_bind_eq, h]

/-! ## 2. Triples -/

/-- From `P`, success ends in `Q` and failure in `E`. -/
def Triple (P : σ → Prop) (m : M σ ε α) (Q : α → σ → Prop) (E : σ → Prop) : Prop :=
  ∀ s, P s → match m.run s with
    | (.ok v, s') => Q v s'
    | (.error _, s') => E s'

namespace Triple

variable {P P' : σ → Prop} {m : M σ ε α} {Q Q' : α → σ → Prop} {E E' : σ → Prop}

/-- **Sequencing.** -/
theorem bind {f : α → M σ ε β} {R : β → σ → Prop} (hm : Triple P m Q E)
    (hf : ∀ v, Triple (Q v) (f v) R E) : Triple P (m >>= f) R E := by
  intro s hs
  have h := hm s hs
  rw [run_bind_eq]
  split at h
  · next v s' _ => exact hf v s' h
  · exact h

theorem pure {v : α} (h : ∀ s, P s → Q v s) : Triple P (Pure.pure v : M σ ε α) Q E := h

theorem throw {e : ε} (h : ∀ s, P s → E s) : Triple P (MonadExcept.throw e : M σ ε α) Q E := h

/-- Nothing runs after a throw. -/
theorem throw_bind {e : ε} {f : α → M σ ε β} {R : β → σ → Prop} (h : ∀ s, P s → E s) :
    Triple P (MonadExcept.throw e >>= f) R E :=
  (throw h : Triple P (MonadExcept.throw e) (fun _ _ => False) E).bind fun _ _ hf => hf.elim

/-- A guard: the rest runs only if the check fails. -/
theorem guard_bind {c : Prop} [Decidable c] {e : ε} {f : Unit → M σ ε β} {R : β → σ → Prop}
    (hE : c → ∀ s, P s → E s) (hf : ¬c → Triple P (f ()) R E) :
    Triple P (if c then MonadExcept.throw e >>= f else f ()) R E := by
  split
  · next hc => exact throw_bind (hE hc)
  · next hc => exact hf hc

theorem modify {f : σ → σ} {Q : Unit → σ → Prop} (h : ∀ s, P s → Q () (f s)) :
    Triple P (modify f : M σ ε Unit) Q E := h

/-- A change of the state, then the rest from `P'`. -/
theorem modify_bind (P' : σ → Prop) {f : σ → σ} {g : Unit → M σ ε β} {R : β → σ → Prop}
    (hf : ∀ s, P s → P' (f s)) (hg : Triple P' (g ()) R E) :
    Triple P (MonadState.modifyGet (fun s => ((), f s)) >>= g) R E :=
  (modify hf : Triple P (MonadState.modifyGet _) (fun _ => P') E).bind fun _ => hg

/-- **Consequence.** -/
theorem weaken (h : Triple P m Q E) (hP : ∀ s, P' s → P s) (hQ : ∀ v s, Q v s → Q' v s)
    (hE : ∀ s, E s → E' s) : Triple P' m Q' E' := by
  intro s hs
  have h' := h s (hP s hs)
  split at h'
  · exact hQ _ _ h'
  · exact hE _ h'

/-- A fact that does not depend on the state may be assumed. -/
theorem of_fact {p : Prop} (h : p → Triple P m Q E) : Triple (fun s => P s ∧ p) m Q E :=
  fun s hs => h hs.2 s hs.1

end Triple

end Fallible
