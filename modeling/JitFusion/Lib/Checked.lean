/-
# Checked steps on a state

`StateT σ (Except ε)` is the shape of a visitor that stops at its first error and whose state is
then of no interest.  The rules here say when a sequence succeeds: each is an equivalence, so that
a successful run can be taken apart and put together with the same lemma.  A second set of rules
says which errors a sequence can stop with (`Raises`), a third relates two runs (`Mirrors`), a
fourth carries an invariant through a run (`Maintains`), and a fifth says when a run succeeds
(`Decides`).
-/
import Mathlib.Data.List.Basic

namespace Checked

variable {σ τ ε α β γ δ ι : Type}

/-! ## 1. Success -/

/-- A step that may stop with an error. -/
abbrev M (σ ε α : Type) := StateT σ (Except ε) α

theorem run_bind_eq_ok {m : M σ ε α} {f : α → M σ ε β} {s s'' : σ} {b : β} :
    (m >>= f).run s = .ok (b, s'') ↔
      ∃ a s', m.run s = .ok (a, s') ∧ (f a).run s' = .ok (b, s'') := by
  rw [StateT.run_bind]
  rcases m.run s with e | ⟨a, s'⟩
  · simp [bind, Except.bind]
  · simp [bind, Except.bind]

theorem run_bind_ok {m : M σ ε α} {f : α → M σ ε β} {s s' : σ} {a : α}
    (h : m.run s = .ok (a, s')) : (m >>= f).run s = (f a).run s' := by
  rw [StateT.run_bind, h]
  rfl

theorem run_bind_error {m : M σ ε α} {f : α → M σ ε β} {s : σ} {e : ε}
    (h : m.run s = .error e) : (m >>= f).run s = .error e := by
  rw [StateT.run_bind, h]
  rfl

theorem run_modify_bind {g : σ → σ} {f : Unit → M σ ε β} {s : σ} :
    (modify g >>= f).run s = (f ()).run (g s) := rfl

@[simp] theorem run_pure_eq_ok {s s' : σ} {a b : α} :
    (pure a : M σ ε α).run s = .ok (b, s') ↔ b = a ∧ s' = s := by
  have h : (pure a : M σ ε α).run s = .ok (a, s) := rfl
  simp only [h, Except.ok.injEq, Prod.mk.injEq]
  exact and_congr eq_comm eq_comm

@[simp] theorem run_throw_ne_ok {s : σ} {e : ε} {r : α × σ} :
    (throw e : M σ ε α).run s ≠ .ok r := by
  intro h
  cases h

@[simp] theorem run_get_eq_ok {s s' t : σ} :
    (get : M σ ε σ).run s = .ok (t, s') ↔ t = s ∧ s' = s := by
  have h : (get : M σ ε σ).run s = .ok (s, s) := rfl
  simp only [h, Except.ok.injEq, Prod.mk.injEq]
  exact and_congr eq_comm eq_comm

@[simp] theorem run_set_eq_ok {s s' t : σ} {u : PUnit} :
    (set t : M σ ε PUnit).run s = .ok (u, s') ↔ s' = t := by
  have h : (set t : M σ ε PUnit).run s = .ok (⟨⟩, t) := rfl
  simp only [h, Except.ok.injEq, Prod.mk.injEq, true_and]
  exact eq_comm

@[simp] theorem run_modify_eq_ok {f : σ → σ} {s s' : σ} {u : Unit} :
    (modify f : M σ ε Unit).run s = .ok (u, s') ↔ s' = f s := by
  have h : (modify f : M σ ε Unit).run s = .ok ((), f s) := rfl
  simp only [h, Except.ok.injEq, Prod.mk.injEq, true_and]
  exact eq_comm

@[simp] theorem run_liftM_eq_ok {x : Except ε α} {s s' : σ} {a : α} :
    (liftM x : M σ ε α).run s = .ok (a, s') ↔ x = .ok a ∧ s' = s := by
  cases x with
  | error e =>
    have h : (liftM (.error e : Except ε α) : M σ ε α).run s = .error e := rfl
    simp [h]
  | ok v =>
    have h : (liftM (.ok v : Except ε α) : M σ ε α).run s = .ok (v, s) := rfl
    simp only [h, Except.ok.injEq, Prod.mk.injEq]
    exact and_congr Iff.rfl eq_comm

/-- A guard succeeds when the check does not fire. -/
theorem run_guard_eq_ok {c : Prop} [Decidable c] {e : ε} {f : Unit → M σ ε β} {s : σ}
    {r : β × σ} : (if c then throw e >>= f else f ()).run s = .ok r ↔
      ¬c ∧ (f ()).run s = .ok r := by
  split
  · next hc =>
    have h : (throw e >>= f : M σ ε β).run s = .error e := rfl
    simp [h, hc]
  · next hc => simp [hc]

/-! ## 2. Errors -/

/-- Every error of the step, from `s`, satisfies `E`. -/
def Raises (E : ε → Prop) (m : M σ ε α) (s : σ) : Prop := ∀ e, m.run s = .error e → E e

namespace Raises

variable {E : ε → Prop} {m : M σ ε α} {f : α → M σ ε β} {s : σ}

/-- **Sequencing**: the rest runs from the states in which the first step succeeds. -/
theorem bind (hm : Raises E m s) (hf : ∀ a s', m.run s = .ok (a, s') → Raises E (f a) s') :
    Raises E (m >>= f) s := by
  intro e he
  rw [StateT.run_bind] at he
  cases hrun : m.run s with
  | error e' =>
    rw [hrun] at he
    exact hm e (hrun.trans (congrArg Except.error (Except.error.inj he)))
  | ok r =>
    rw [hrun] at he
    exact hf r.1 r.2 hrun e he

theorem pure (a : α) : Raises E (Pure.pure a : M σ ε α) s := fun _ h => nomatch h

theorem throw {e : ε} (h : E e) : Raises E (MonadExcept.throw e : M σ ε α) s := by
  intro e' he
  rw [← Except.error.inj he]
  exact h

/-- Nothing runs after a throw. -/
theorem throw_bind {e : ε} {f : α → M σ ε β} (h : E e) :
    Raises E (MonadExcept.throw e >>= f) s := by
  intro e' he
  rw [← Except.error.inj he]
  exact h

theorem get_bind {f : σ → M σ ε β} (h : Raises E (f s) s) : Raises E (get >>= f) s := h

theorem set_bind {t : σ} {f : PUnit → M σ ε β} (h : Raises E (f ⟨⟩) t) :
    Raises E (set t >>= f) s := h

theorem modify_bind {g : σ → σ} {f : Unit → M σ ε β} (h : Raises E (f ()) (g s)) :
    Raises E (modify g >>= f) s := h

theorem modify {g : σ → σ} : Raises E (modify g : M σ ε Unit) s := fun _ h => nomatch h

theorem liftM_bind {x : Except ε α} (hx : ∀ e, x = .error e → E e)
    (hf : ∀ a, x = .ok a → Raises E (f a) s) : Raises E (liftM x >>= f) s := by
  cases x with
  | error e => exact throw_bind (hx e rfl)
  | ok a => exact hf a rfl

/-- A guard. -/
theorem guard_bind {c : Prop} [Decidable c] {e : ε} {f : Unit → M σ ε β} (he : c → E e)
    (hf : ¬c → Raises E (f ()) s) :
    Raises E (if c then MonadExcept.throw e >>= f else f ()) s := by
  split
  · next hc => exact throw_bind (he hc)
  · next hc => exact hf hc

end Raises

/-! ## 3. Two runs -/

/-- From `f s` the step `m'` does what `m` does from `s`, up to `f` on states and `g` on results. -/
def Mirrors (f : σ → τ) (g : α → β) (m : M σ ε α) (m' : M τ ε β) (s : σ) : Prop :=
  m'.run (f s) = (m.run s).map fun r => (g r.1, f r.2)

namespace Mirrors

variable {f : σ → τ} {g : α → β} {h : γ → δ} {m : M σ ε α} {m' : M τ ε β} {k : α → M σ ε γ}
  {k' : β → M τ ε δ} {s : σ}

theorem bind (hm : Mirrors f g m m' s)
    (hk : ∀ a s', m.run s = .ok (a, s') → Mirrors f h (k a) (k' (g a)) s') :
    Mirrors f h (m >>= k) (m' >>= k') s := by
  unfold Mirrors at hm ⊢
  cases hrun : m.run s with
  | error e =>
    rw [hrun] at hm
    rw [run_bind_error hrun, run_bind_error hm]
    rfl
  | ok r =>
    rw [hrun] at hm
    rw [run_bind_ok hrun, run_bind_ok hm]
    exact hk r.1 r.2 hrun

theorem pure (a : α) : Mirrors f g (Pure.pure a : M σ ε α) (Pure.pure (g a)) s := rfl

theorem throw (e : ε) : Mirrors f g (MonadExcept.throw e : M σ ε α) (MonadExcept.throw e) s := rfl

theorem throw_bind (e : ε) {k : ι → M σ ε α} {k' : ι → M τ ε β} :
    Mirrors f g (MonadExcept.throw e >>= k) (MonadExcept.throw e >>= k') s := rfl

theorem get_bind {k : σ → M σ ε α} {k' : τ → M τ ε β} (hk : Mirrors f g (k s) (k' (f s)) s) :
    Mirrors f g (get >>= k) (get >>= k') s := hk

theorem modify_bind {u : σ → σ} {u' : τ → τ} {k : Unit → M σ ε α} {k' : Unit → M τ ε β}
    (hu : u' (f s) = f (u s)) (hk : Mirrors f g (k ()) (k' ()) (u s)) :
    Mirrors f g (modify u >>= k) (modify u' >>= k') s := by
  unfold Mirrors at hk ⊢
  rw [run_modify_bind, run_modify_bind, hu]
  exact hk

theorem set_bind {t : σ} {k : PUnit → M σ ε α} {k' : PUnit → M τ ε β}
    (hk : Mirrors f g (k ⟨⟩) (k' ⟨⟩) t) : Mirrors f g (set t >>= k) (set (f t) >>= k') s := hk

theorem liftM_bind {x : Except ε ι} {k : ι → M σ ε α} {k' : ι → M τ ε β}
    (hk : ∀ a, x = .ok a → Mirrors f g (k a) (k' a) s) :
    Mirrors f g (liftM x >>= k) (liftM x >>= k') s := by
  cases x with
  | error e => exact throw_bind e
  | ok a => exact hk a rfl

theorem liftM_map_bind {x : Except ε ι} {u : ι → γ} {k : ι → M σ ε α} {k' : γ → M τ ε β}
    (hk : ∀ a, x = .ok a → Mirrors f g (k a) (k' (u a)) s) :
    Mirrors f g (liftM x >>= k) (liftM (x.map u) >>= k') s := by
  cases x with
  | error e => rfl
  | ok a => exact hk a rfl

/-- A guard. -/
theorem guard_bind {c : Prop} [Decidable c] {e : ε} {k : Unit → M σ ε α} {k' : Unit → M τ ε β}
    (hk : ¬ c → Mirrors f g (k ()) (k' ()) s) :
    Mirrors f g (if c then MonadExcept.throw e >>= k else k ())
      (if c then MonadExcept.throw e >>= k' else k' ()) s := by
  split
  · exact throw_bind e
  · next hc => exact hk hc

end Mirrors

/-! ## 4. Invariants -/

/-- The step keeps `I` where it succeeds. -/
def Maintains (I : σ → Prop) (m : M σ ε α) : Prop :=
  ∀ s a s', I s → m.run s = .ok (a, s') → I s'

namespace Maintains

variable {I : σ → Prop} {m : M σ ε α} {k : α → M σ ε β}

theorem bind (hm : Maintains I m) (hk : ∀ a, Maintains I (k a)) : Maintains I (m >>= k) := by
  intro s b s'' hs hrun
  obtain ⟨a, s', ha, hb⟩ := run_bind_eq_ok.mp hrun
  exact hk a s' b s'' (hm s a s' hs ha) hb

theorem pure (a : α) : Maintains I (Pure.pure a : M σ ε α) := by
  intro s b s' hs hrun
  rw [(run_pure_eq_ok.mp hrun).2]
  exact hs

theorem throw (e : ε) : Maintains I (MonadExcept.throw e : M σ ε α) :=
  fun _ _ _ _ hrun => absurd hrun run_throw_ne_ok

theorem get : Maintains I (get : M σ ε σ) := by
  intro s t s' hs hrun
  rw [(run_get_eq_ok.mp hrun).2]
  exact hs

theorem modify {f : σ → σ} (hf : ∀ s, I s → I (f s)) : Maintains I (modify f : M σ ε Unit) := by
  intro s u s' hs hrun
  rw [run_modify_eq_ok.mp hrun]
  exact hf s hs

end Maintains

/-! ## 5. When a run succeeds -/

/-- Where `good` holds the step succeeds and leads from `P` to `Q`.  Where `sure` holds it succeeds
only if `good` does. -/
structure Decides (sure good : Prop) (P : σ → Prop) (m : M σ ε α) (Q : α → σ → Prop) : Prop where
  succeeds : good → ∀ s, P s → ∃ a s', m.run s = .ok (a, s') ∧ Q a s'
  only : sure → ∀ s r, P s → m.run s = .ok r → good

namespace Decides

variable {sure good good' p : Prop} {P P' : σ → Prop} {m : M σ ε α} {k : α → M σ ε β}
  {Q Q' : α → σ → Prop} {R : β → σ → Prop}

/-- A step that always succeeds. -/
theorem of_run (h : ∀ s, P s → ∃ a s', m.run s = .ok (a, s') ∧ Q a s') :
    Decides sure True P m Q := ⟨fun _ => h, fun _ _ _ _ _ => trivial⟩

/-- A step that surely fails. -/
theorem fails (hg : ¬ good) (h : sure → ∀ s r, P s → m.run s ≠ .ok r) : Decides sure good P m Q :=
  ⟨fun hg' => absurd hg' hg, fun hs s r hp hrun => absurd hrun (h hs s r hp)⟩

theorem congr (h : Decides sure good P m Q) (hg : good ↔ good') : Decides sure good' P m Q :=
  propext hg ▸ h

/-- **Consequence.** -/
theorem weaken (h : Decides sure good P m Q) (hP : ∀ s, P' s → P s)
    (hQ : ∀ a s, Q a s → Q' a s) : Decides sure good P' m Q' where
  succeeds hg s hs := by
    obtain ⟨a, s', hrun, hq⟩ := h.succeeds hg s (hP s hs)
    exact ⟨a, s', hrun, hQ a s' hq⟩
  only hsure s r hs hrun := h.only hsure s r (hP s hs) hrun

/-- **Sequencing**: the sequence succeeds where both steps do. -/
theorem bind (hm : Decides sure good P m Q) (hk : ∀ a, Decides sure good' (Q a) (k a) R) :
    Decides sure (good ∧ good') P (m >>= k) R where
  succeeds hg s hs := by
    obtain ⟨a, s₁, hrun, hq⟩ := hm.succeeds hg.1 s hs
    obtain ⟨b, s₂, hrun', hr⟩ := (hk a).succeeds hg.2 s₁ hq
    exact ⟨b, s₂, (run_bind_ok hrun).trans hrun', hr⟩
  only hsure s r hs hrun := by
    obtain ⟨b, s₂⟩ := r
    obtain ⟨a, s₁, hrun₁, hrun₂⟩ := run_bind_eq_ok.mp hrun
    have hgood := hm.only hsure s _ hs hrun₁
    obtain ⟨a', s₁', hrun', hq⟩ := hm.succeeds hgood s hs
    rw [hrun₁] at hrun'
    cases hrun'
    exact ⟨hgood, (hk a).only hsure s₁ _ hq hrun₂⟩

/-- A step that always succeeds, then the rest. -/
theorem step (hm : Decides sure True P m Q) (hk : ∀ a, Decides sure good (Q a) (k a) R) :
    Decides sure good P (m >>= k) R := (hm.bind hk).congr (Iff.of_eq (true_and _))

/-- A step, then a rest that always succeeds. -/
theorem last (hm : Decides sure good P m Q) (hk : ∀ a, Decides sure True (Q a) (k a) R) :
    Decides sure good P (m >>= k) R := (hm.bind hk).congr (Iff.of_eq (and_true _))

/-- What holds in every state the step may start in may be assumed. -/
theorem of_pre (h : ∀ s, P s → Decides sure good P m Q) : Decides sure good P m Q where
  succeeds hg s hs := (h s hs).succeeds hg s hs
  only hsure s r hs hrun := (h s hs).only hsure s r hs hrun

/-- A fact that does not depend on the state may be assumed. -/
theorem of_fact (h : p → Decides sure good P m Q) :
    Decides sure good (fun s => p ∧ P s) m Q where
  succeeds hg s hs := (h hs.1).succeeds hg s hs.2
  only hsure s r hs hrun := (h hs.1).only hsure s r hs.2 hrun

theorem pure {a : α} (h : ∀ s, P s → Q a s) : Decides sure True P (Pure.pure a : M σ ε α) Q :=
  .of_run fun s hs => ⟨a, s, rfl, h s hs⟩

theorem throw {e : ε} (hg : ¬ good) : Decides sure good P (MonadExcept.throw e : M σ ε α) Q :=
  .fails hg fun _ _ _ _ => run_throw_ne_ok

theorem modify {f : σ → σ} {Q : σ → Prop} (h : ∀ s, P s → Q (f s)) :
    Decides sure True P (modify f : M σ ε Unit) fun _ => Q :=
  .of_run fun s hs => ⟨(), f s, rfl, h s hs⟩

theorem get_bind {f : σ → M σ ε β} (h : ∀ t, P t → Decides sure good P (f t) R) :
    Decides sure good P (get >>= f) R where
  succeeds hg s hs := (h s hs).succeeds hg s hs
  only hsure s r hs hrun := (h s hs).only hsure s r hs hrun

theorem mapM {f : α → M σ ε β} {l : List α}
    (h : ∀ a ∈ l, Decides sure True P (f a) fun _ => P) :
    Decides sure True P (l.mapM f) fun _ => P := by
  induction l with
  | nil => exact .pure fun _ hs => hs
  | cons a l ih =>
    rw [List.mapM_cons]
    refine (h a List.mem_cons_self).step fun b => ?_
    refine (ih fun a ha => h a (List.mem_cons_of_mem _ ha)).step fun bs => ?_
    exact .pure fun _ hs => hs

end Decides

end Checked
