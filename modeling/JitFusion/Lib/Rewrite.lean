/-
# Replacing instructions

A pass that replaces instructions one for one and leaves the control flow as it is.  The function
it makes runs in lockstep with the function it got (`mapBody_respects`): the same registers, the
same branches, the same traps.  Their worlds need not be the same; they are kept in a relation that
every opcode respects and across which an instruction and its replacement agree.
-/
import Mathlib.Computability.StateTransition
import JitFusion.Lib.Ssa

namespace Ssa

open StateTransition (Respects)

variable {O K L V W E : Type} {sem : Semantics O K V W E} {R : W → W → Prop}

/-! ## 1. Runs that differ in the world -/

/-- The same value in related worlds, or the same trap. -/
inductive SameOutcome (R : W → W → Prop) : Except E (V × W) → Except E (V × W) → Prop
  | ok {v w w'} (h : R w w') : SameOutcome R (.ok (v, w)) (.ok (v, w'))
  | error {e} : SameOutcome R (.error e) (.error e)

/-- The same place and the same registers in related worlds. -/
inductive SameConfig (R : W → W → Prop) : Config V W E → Config V W E → Prop
  | at {block pc env w w'} (h : R w w') : SameConfig R (.at block pc env w) (.at block pc env w')
  | jump {source target env w w'} (h : R w w') :
    SameConfig R (.jump source target env w) (.jump source target env w')
  | returned {value w w'} (h : R w w') : SameConfig R (.returned value w) (.returned value w')
  | trapped {e} : SameConfig R (.trapped e) (.trapped e)

/-- **No opcode looks behind the relation.** -/
def RespectedBy (sem : Semantics O K V W E) (R : W → W → Prop) : Prop :=
  ∀ o vs w w', R w w' → SameOutcome R ((sem.op o vs).run w) ((sem.op o vs).run w')

/-- Across the relation, the new instruction does what the old one does. -/
def Replaces (sem : Semantics O K V W E) (R : W → W → Prop) (new old : Instr O K) : Prop :=
  ∀ i pc env w w', R w w' →
    Option.Rel (SameConfig R) (execInstr sem i pc env w old) (execInstr sem i pc env w' new)

/-- Instructions with the same operands, up to what the opcodes make of them. -/
theorem Replaces.of_op {new old : Instr O K} (hdst : new.dst = old.dst)
    (hargs : ∀ env, Option.Rel (fun vs vs' => ∀ w w', R w w' →
      SameOutcome R ((sem.op old.op vs).run w) ((sem.op new.op vs').run w'))
        (old.args.mapM (Operand.eval sem env)) (new.args.mapM (Operand.eval sem env))) :
    Replaces sem R new old := by
  intro i pc env w w' hw
  have h := hargs env
  unfold execInstr
  generalize old.args.mapM (Operand.eval sem env) = as at h
  generalize new.args.mapM (Operand.eval sem env) = as' at h
  cases h with
  | none => exact .none
  | some h =>
    next vs vs' =>
    have hrun := h w w' hw
    simp only [Option.map_some, hdst]
    generalize (sem.op old.op vs).run w = r at hrun
    generalize (sem.op new.op vs').run w' = r' at hrun
    cases hrun with
    | ok h => exact .some (.at h)
    | error => exact .some .trapped

theorem Replaces.refl (hsem : RespectedBy sem R) (ins : Instr O K) : Replaces sem R ins ins := by
  refine .of_op rfl fun env => ?_
  generalize ins.args.mapM (Operand.eval sem env) = as
  cases as with
  | none => exact .none
  | some vs => exact .some fun w w' hw => hsem _ vs w w' hw

/-! ## 2. The pass -/

def Block.mapBody (f : Instr O K → Instr O K) (blk : Block O K L) : Block O K L :=
  { blk with body := blk.body.map f }

def Cfg.mapBody (f : Instr O K → Instr O K) (F : Cfg O K L) : Cfg O K L :=
  F.map (Block.mapBody f)

variable {f : Instr O K → Instr O K} {F : Cfg O K L}

theorem execTerm_rel {i : Nat} {env : Env V} {w w' : W} (hw : R w w') (t : Term K) :
    Option.Rel (SameConfig R) (execTerm sem i env w t) (execTerm sem i env w' t) := by
  cases t with
  | br target => exact .some (.jump hw)
  | condBr cond thenBlock elseBlock =>
    simp only [execTerm]
    cases cond.eval sem env with
    | none => exact .none
    | some v => exact .some (.jump hw)
  | ret value =>
    cases value with
    | none => exact .some (.returned hw)
    | some value =>
      simp only [execTerm]
      cases value.eval sem env with
      | none => exact .none
      | some v => exact .some (.returned hw)

/-- One step of either function, from the same place. -/
theorem step_rel (hf : ∀ blk ∈ F, ∀ ins ∈ blk.body, Replaces sem R (f ins) ins)
    {c c' : Config V W E} (hc : SameConfig R c c') :
    Option.Rel (SameConfig R) (step sem F c) (step sem (Cfg.mapBody f F) c') := by
  cases hc with
  | @«at» i pc env w w' hw =>
    simp only [step, Cfg.mapBody, List.getElem?_map]
    cases hb : F[i]? with
    | none => exact .none
    | some blk =>
      simp only [Option.map_some, Option.bind_some, Block.mapBody, List.getElem?_map]
      cases hins : blk.body[pc]? with
      | none =>
        simp only [Option.map_none]
        cases blk.term with
        | none => exact .none
        | some t => exact execTerm_rel hw t
      | some ins =>
        simp only [Option.map_some]
        exact hf blk (List.mem_of_getElem? hb) ins (List.mem_of_getElem? hins) i pc env w w' hw
  | @jump source target env w w' hw =>
    simp only [step, Cfg.mapBody, List.getElem?_map]
    cases F[target]? with
    | none => exact .none
    | some blk =>
      simp only [Option.map_some, Option.bind_some, Block.mapBody]
      cases blk.phis.mapM (Phi.read sem env source) with
      | none => exact .none
      | some l => exact .some (.at hw)
  | returned h => exact .none
  | trapped => exact .none

/-- **Lockstep.** -/
theorem mapBody_respects (hf : ∀ blk ∈ F, ∀ ins ∈ blk.body, Replaces sem R (f ins) ins) :
    Respects (step sem F) (step sem (Cfg.mapBody f F)) (SameConfig (V := V) (E := E) R) := by
  intro c c' hc
  have h := step_rel hf hc
  generalize hd : step sem F c = d at h
  generalize hd' : step sem (Cfg.mapBody f F) c' = d' at h
  cases h with
  | none => exact rfl
  | some h => exact ⟨_, h, .single hd'⟩

/-- What the old function does, the new one does. -/
theorem Simulates.mapBody (hf : ∀ blk ∈ F, ∀ ins ∈ blk.body, Replaces sem R (f ins) ins) {α : Type}
    {m : Checked.M W E α} {w : W} {post : α → W → Config V W E → Prop} {c c' : Config V W E}
    (h : Simulates sem F c m w post) (hc : SameConfig R c c') :
    Simulates sem (Cfg.mapBody f F) c' m w fun a w' d' => ∃ d, post a w' d ∧ SameConfig R d d' := by
  unfold Simulates at h ⊢
  rcases hm : m.run w with e | ⟨a, w'⟩
  · rw [hm] at h
    obtain ⟨d, hd, hs⟩ := StateTransition.tr_reaches (mapBody_respects hf) hc h
    cases hd
    exact hs
  · rw [hm] at h
    obtain ⟨d, hs, hp⟩ := h
    obtain ⟨d', hd, hs'⟩ := StateTransition.tr_reaches (mapBody_respects hf) hc hs
    exact ⟨d', hs', d, hp, hd⟩

end Ssa
