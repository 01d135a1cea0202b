/-
# Sequences of steps in another order

A list of steps is run in two orders.  If two steps whose order differs can always change places,
then the two runs are one.
-/
import Mathlib.Data.List.Perm.Basic

namespace Reorder

variable {m : Type → Type} [Monad m] {α : Type} {f : α → m Unit}

/-- The two steps can change places. -/
def Commutes (x y : m Unit) : Prop := (x >>= fun _ => y) = (y >>= fun _ => x)

variable [LawfulMonad m]

/-- A step moves in front of steps it commutes with. -/
theorem forM_move (a : α) (p q : List α) (h : ∀ x ∈ p, Commutes (f x) (f a)) :
    forM (p ++ a :: q) f = forM (a :: (p ++ q)) f := by
  induction p with
  | nil => rfl
  | cons x p ih =>
    replace ih := ih fun y hy => h y (List.mem_cons_of_mem _ hy)
    have hx : Commutes (f x) (f a) := h x List.mem_cons_self
    calc forM (x :: p ++ a :: q) f
        = f x >>= fun _ => forM (p ++ a :: q) f := List.forM_cons
      _ = (f x >>= fun _ => f a) >>= fun _ => forM (p ++ q) f := by
        rw [ih, List.forM_cons, bind_assoc]
      _ = forM (a :: (x :: p ++ q)) f := by
        rw [hx, bind_assoc, List.forM_cons, List.cons_append, List.forM_cons]

/-- **Two orders**: if the steps whose order differs can change places, the runs are the same. -/
theorem forM_reorder {l l' : List α} (hperm : l.Perm l')
    (h : ∀ x y, [x, y].Sublist l → [y, x].Sublist l' → Commutes (f x) (f y)) :
    forM l f = forM l' f := by
  induction l' generalizing l with
  | nil => rw [hperm.eq_nil]
  | cons a l' ih =>
    obtain ⟨p, q, rfl⟩ := List.append_of_mem (hperm.mem_iff.mpr List.mem_cons_self)
    have hperm' : (p ++ q).Perm l' := (List.perm_middle.symm.trans hperm).cons_inv
    have hfront : ∀ x ∈ p, Commutes (f x) (f a) := by
      intro x hx
      refine h x a ?_ ?_
      · exact (List.singleton_sublist.mpr hx).append (List.singleton_sublist.mpr List.mem_cons_self)
      · exact (List.singleton_sublist.mpr (hperm'.subset (List.mem_append_left _ hx))).cons_cons a
    rw [forM_move a p q hfront, List.forM_cons, List.forM_cons]
    refine congrArg _ (funext fun _ => ih hperm' ?_)
    intro x y hxy hyx
    refine h x y (hxy.trans ?_) (hyx.cons a)
    exact (List.Sublist.refl p).append (List.sublist_cons_self a q)

theorem forM_flatten (l : List (List α)) : forM l (fun g => forM g f) = forM l.flatten f := by
  induction l with
  | nil => rfl
  | cons g l ih => rw [List.forM_cons, ih, List.flatten_cons, List.forM_append]

end Reorder
