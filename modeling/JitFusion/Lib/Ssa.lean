/-
# Functions in SSA form

A control-flow graph of basic blocks: a block has PHI nodes, straight-line instructions that
each define one register, and a terminator.  The machine runs one instruction, one branch or
one edge at a time; crossing an edge reads all PHI nodes of the target at once, each from the
entry of the block the edge leaves.

Everything is over arbitrary opcodes `O`, constants `K` and block labels `L`; what they mean is
a `Semantics`.
-/
import Mathlib.Data.List.Basic
import Mathlib.Logic.Relation
import JitFusion.Lib.Checked

namespace Ssa

variable {O K L V W E : Type}

/-! ## 1. Syntax -/

inductive Operand (K : Type)
  | reg (n : Nat)
  | arg (i : Nat)
  | const (k : K)
  deriving DecidableEq, Repr

structure Instr (O K : Type) where
  dst : Nat
  op : O
  args : List (Operand K)
  deriving DecidableEq, Repr

/-- A PHI node: the value to take for each predecessor. -/
structure Phi (K : Type) where
  dst : Nat
  incoming : List (Operand K × Nat)
  deriving DecidableEq, Repr

inductive Term (K : Type)
  | br (target : Nat)
  | condBr (cond : Operand K) (thenBlock elseBlock : Nat)
  | ret (value : Option (Operand K))
  deriving DecidableEq, Repr

def Term.targets : Term K → List Nat
  | .br target => [target]
  | .condBr _ thenBlock elseBlock => [thenBlock, elseBlock]
  | .ret _ => []

structure Block (O K L : Type) where
  label : L
  phis : List (Phi K) := []
  body : List (Instr O K) := []
  term : Option (Term K) := none
  deriving DecidableEq, Repr

/-- The blocks of a function; a block is known by its index. -/
abbrev Cfg (O K L : Type) := List (Block O K L)

/-- Block `j` ends in a branch to block `m`. -/
def IsPred (F : Cfg O K L) (j m : Nat) : Prop :=
  ∃ blk t, F[j]? = some blk ∧ blk.term = some t ∧ m ∈ t.targets

/-- **The verifier's rule for a PHI node of block `m`**: one entry for each predecessor, and no
other. -/
def Phi.Matches (F : Cfg O K L) (m : Nat) (phi : Phi K) : Prop :=
  (phi.incoming.map Prod.snd).Nodup ∧ ∀ j, j ∈ phi.incoming.map Prod.snd ↔ IsPred F j m

/-! ## 2. The machine -/

/-- What a function computes with: an opcode may change the world `W` or trap with an `E`. -/
structure Semantics (O K V W E : Type) where
  const : K → V
  arg : Nat → V
  op : O → List V → Checked.M W E V
  truthy : V → Bool

abbrev Env (V : Type) := Nat → Option V

def Env.set (env : Env V) (n : Nat) (v : V) : Env V := fun m => if m = n then some v else env m

def Env.setAll (env : Env V) : List (Nat × V) → Env V
  | [] => env
  | (n, v) :: l => (Env.setAll env l).set n v

def Operand.eval (sem : Semantics O K V W E) (env : Env V) : Operand K → Option V
  | .reg n => env n
  | .arg i => some (sem.arg i)
  | .const k => some (sem.const k)

/-- The value a PHI node takes when control comes from block `source`. -/
def Phi.read (sem : Semantics O K V W E) (env : Env V) (source : Nat) (phi : Phi K) :
    Option (Nat × V) :=
  (phi.incoming.find? fun e => e.2 == source).bind fun e =>
    (e.1.eval sem env).map fun v => (phi.dst, v)

inductive Config (V W E : Type)
  | at (block pc : Nat) (env : Env V) (w : W)
  /-- On the edge from `source` to `target`. -/
  | jump (source target : Nat) (env : Env V) (w : W)
  | returned (value : Option V) (w : W)
  | trapped (e : E)

def execTerm (sem : Semantics O K V W E) (i : Nat) (env : Env V) (w : W) :
    Term K → Option (Config V W E)
  | .br target => some (.jump i target env w)
  | .condBr cond thenBlock elseBlock =>
    (cond.eval sem env).map fun v => .jump i (if sem.truthy v then thenBlock else elseBlock) env w
  | .ret none => some (.returned none w)
  | .ret (some value) => (value.eval sem env).map fun v => .returned (some v) w

def execInstr (sem : Semantics O K V W E) (i pc : Nat) (env : Env V) (w : W)
    (ins : Instr O K) : Option (Config V W E) :=
  (ins.args.mapM (Operand.eval sem env)).map fun vs =>
    match (sem.op ins.op vs).run w with
    | .ok (v, w') => .at i (pc + 1) (env.set ins.dst v) w'
    | .error e => .trapped e

/-- One step, or `none` if the machine has stopped or is stuck. -/
def step (sem : Semantics O K V W E) (F : Cfg O K L) : Config V W E → Option (Config V W E)
  | .at i pc env w =>
    F[i]?.bind fun blk =>
      match blk.body[pc]? with
      | some ins => execInstr sem i pc env w ins
      | none => blk.term.bind (execTerm sem i env w)
  | .jump source target env w =>
    F[target]?.bind fun blk =>
      (blk.phis.mapM (Phi.read sem env source)).map fun l => .at target 0 (env.setAll l) w
  | .returned _ _ => none
  | .trapped _ => none

/-- Any number of steps. -/
abbrev Steps (sem : Semantics O K V W E) (F : Cfg O K L) : Config V W E → Config V W E → Prop :=
  Relation.ReflTransGen fun c c' => step sem F c = some c'

/-! ## 3. Runs -/

variable {sem : Semantics O K V W E} {F : Cfg O K L}

theorem Env.set_self (env : Env V) (n : Nat) (v : V) : env.set n v n = some v := by
  simp [Env.set]

theorem Env.set_ne (env : Env V) {n m : Nat} (v : V) (h : m ≠ n) : env.set n v m = env m := by
  simp [Env.set, h]

/-- A run that has stopped cannot be continued, so it is the only one. -/
theorem Steps.unique {c d d' : Config V W E} (h : Steps sem F c d) (h' : Steps sem F c d')
    (hd : step sem F d = none) (hd' : step sem F d' = none) : d = d' := by
  induction h using Relation.ReflTransGen.head_induction_on with
  | refl =>
    rcases Relation.ReflTransGen.cases_head h' with rfl | ⟨x, hx, -⟩
    · rfl
    · rw [hd] at hx
      cases hx
  | head hstep _ ih =>
    rcases Relation.ReflTransGen.cases_head h' with rfl | ⟨x, hx, hrest⟩
    · rw [hd'] at hstep
      cases hstep
    · rw [hstep] at hx
      cases hx
      exact ih hrest

/-! ## 4. Runs against a direct computation -/

/-- **The machine does from `c` what `m` does from the world `w`**: it traps where `m` fails, and
otherwise reaches a configuration that `post` relates to the result. -/
def Simulates (sem : Semantics O K V W E) (F : Cfg O K L) (c : Config V W E) {α : Type}
    (m : Checked.M W E α) (w : W) (post : α → W → Config V W E → Prop) : Prop :=
  match m.run w with
  | .error e => Steps sem F c (.trapped e)
  | .ok (a, w') => ∃ c', Steps sem F c c' ∧ post a w' c'

namespace Simulates

variable {α β : Type} {m : Checked.M W E α} {k : α → Checked.M W E β}
  {post post' : α → W → Config V W E → Prop} {post₂ : β → W → Config V W E → Prop}
  {c c' : Config V W E} {w : W}

theorem pure {a : α} (h : post a w c) : Simulates sem F c (pure a : Checked.M W E α) w post :=
  ⟨c, .refl, h⟩

theorem steps (h : Steps sem F c c') (h' : Simulates sem F c' m w post) :
    Simulates sem F c m w post := by
  unfold Simulates at h' ⊢
  rcases hm : m.run w with e | ⟨a, w'⟩
  · rw [hm] at h'
    exact h.trans h'
  · rw [hm] at h'
    obtain ⟨c'', hs, hp⟩ := h'
    exact ⟨c'', h.trans hs, hp⟩

theorem step (h : Ssa.step sem F c = some c') (h' : Simulates sem F c' m w post) :
    Simulates sem F c m w post :=
  h'.steps (.single h)

theorem mono (h : Simulates sem F c m w post) (hp : ∀ a w' c', post a w' c' → post' a w' c') :
    Simulates sem F c m w post' := by
  unfold Simulates at h ⊢
  rcases hm : m.run w with e | ⟨a, w'⟩
  · rw [hm] at h
    exact h
  · rw [hm] at h
    obtain ⟨c', hs, hpost⟩ := h
    exact ⟨c', hs, hp a w' c' hpost⟩

/-- Only what the run of `m` gives counts. -/
theorem of_run {m' : Checked.M W E α} (h : Simulates sem F c m w post)
    (hm : m'.run w = m.run w) : Simulates sem F c m' w post := by
  unfold Simulates at h ⊢
  rw [hm]
  exact h

/-- What `m` computes may be used. -/
theorem mono_run (h : Simulates sem F c m w post)
    (hp : ∀ a w' c', m.run w = .ok (a, w') → post a w' c' → post' a w' c') :
    Simulates sem F c m w post' := by
  unfold Simulates at h ⊢
  rcases hm : m.run w with e | ⟨a, w'⟩
  · rw [hm] at h
    exact h
  · rw [hm] at h
    obtain ⟨c', hs, hpost⟩ := h
    exact ⟨c', hs, hp a w' c' hm hpost⟩

/-- **Sequencing.** -/
theorem bind (h : Simulates sem F c m w post)
    (hk : ∀ a w' c', post a w' c' → Simulates sem F c' (k a) w' post₂) :
    Simulates sem F c (m >>= k) w post₂ := by
  unfold Simulates at h
  rcases hm : m.run w with e | ⟨a, w'⟩
  · rw [hm] at h
    have hb : (m >>= k).run w = .error e := by
      rw [StateT.run_bind, hm]
      rfl
    unfold Simulates
    rw [hb]
    exact h
  · rw [hm] at h
    have hb : (m >>= k).run w = (k a).run w' := Checked.run_bind_ok hm
    unfold Simulates
    rw [hb]
    obtain ⟨c', hs, hpost⟩ := h
    exact (hk a w' c' hpost).steps hs

/-- One instruction that computes what `m` does. -/
theorem instr {i pc : Nat} {env : Env V} {ins : Instr O K} {vs : List V}
    {post : V → W → Config V W E → Prop}
    (hstep : Ssa.step sem F (.at i pc env w) = execInstr sem i pc env w ins)
    (hargs : ins.args.mapM (Operand.eval sem env) = some vs)
    (h : ∀ v w', post v w' (.at i (pc + 1) (env.set ins.dst v) w')) :
    Simulates sem F (.at i pc env w) (sem.op ins.op vs) w post := by
  unfold Simulates
  rw [execInstr, hargs, Option.map_some] at hstep
  rcases hop : (sem.op ins.op vs).run w with e | ⟨v, w'⟩
  · rw [hop] at hstep
    exact .single hstep
  · rw [hop] at hstep
    exact ⟨_, .single hstep, h v w'⟩

end Simulates

end Ssa
