/-
# Straight-line expressions

An expression over `n` inputs, as a tree of opcodes: what a code generator emits between two
branches.  `Expr.code` lays it out as instructions, arguments first and from left to right, and
`Expr.eval` gives it a value directly.  `code_run` says that running the instructions computes
the value and keeps every register that was in use.
-/
import JitFusion.Lib.Ssa

namespace Ssa

variable {O K L V W E : Type} {n : Nat}

/-! ## 1. Expressions -/

inductive Expr (O K : Type) (n : Nat)
  | input (i : Fin n)
  | arg (i : Nat)
  | const (k : K)
  | op (o : O) (args : List (Expr O K n))

namespace Expr

mutual

def eval (sem : Semantics O K V W E) (inputs : Fin n → V) : Expr O K n → Checked.M W E V
  | .input i => pure (inputs i)
  | .arg i => pure (sem.arg i)
  | .const k => pure (sem.const k)
  | .op o args => do
    let vs ← evalArgs sem inputs args
    sem.op o vs

def evalArgs (sem : Semantics O K V W E) (inputs : Fin n → V) :
    List (Expr O K n) → Checked.M W E (List V)
  | [] => pure []
  | x :: xs => do
    let v ← eval sem inputs x
    let vs ← evalArgs sem inputs xs
    pure (v :: vs)

end

/-- Instructions for an expression, and the next fresh register. -/
structure Code (O K α : Type) where
  result : α
  instrs : List (Instr O K)
  fresh : Nat

mutual

def code (inputs : Fin n → Operand K) (fresh : Nat) : Expr O K n → Code O K (Operand K)
  | .input i => ⟨inputs i, [], fresh⟩
  | .arg i => ⟨.arg i, [], fresh⟩
  | .const k => ⟨.const k, [], fresh⟩
  | .op o args =>
    let c := codeArgs inputs fresh args
    ⟨.reg c.fresh, c.instrs ++ [⟨c.fresh, o, c.result⟩], c.fresh + 1⟩

def codeArgs (inputs : Fin n → Operand K) (fresh : Nat) :
    List (Expr O K n) → Code O K (List (Operand K))
  | [] => ⟨[], [], fresh⟩
  | x :: xs =>
    let c := code inputs fresh x
    let cs := codeArgs inputs c.fresh xs
    ⟨c.result :: cs.result, c.instrs ++ cs.instrs, cs.fresh⟩

end

end Expr

/-! ## 2. Registers in use -/

/-- The operand uses no register from `fresh` on. -/
def Operand.Below (fresh : Nat) : Operand K → Prop
  | .reg r => r < fresh
  | _ => True

theorem Operand.Below.mono {o : Operand K} {a b : Nat} (h : o.Below a) (hab : a ≤ b) :
    o.Below b := by
  cases o with
  | reg r => exact Nat.lt_of_lt_of_le h hab
  | arg i => trivial
  | const k => trivial

/-- `env'` is `env` on the registers below `fresh`. -/
def AgreeBelow (fresh : Nat) (env env' : Env V) : Prop := ∀ r, r < fresh → env' r = env r

theorem AgreeBelow.refl (fresh : Nat) (env : Env V) : AgreeBelow fresh env env := fun _ _ => rfl

theorem AgreeBelow.trans {a b : Nat} {env env' env'' : Env V} (h : AgreeBelow a env env')
    (h' : AgreeBelow b env' env'') (hab : a ≤ b) : AgreeBelow a env env'' :=
  fun r hr => (h' r (Nat.lt_of_lt_of_le hr hab)).trans (h r hr)

theorem AgreeBelow.mono {a b : Nat} {env env' : Env V} (h : AgreeBelow b env env')
    (hab : a ≤ b) : AgreeBelow a env env' := fun r hr => h r (Nat.lt_of_lt_of_le hr hab)

theorem AgreeBelow.set {fresh : Nat} {env env' : Env V} (h : AgreeBelow fresh env env') {r : Nat}
    (hr : fresh ≤ r) (v : V) : AgreeBelow fresh env (env'.set r v) :=
  fun r' hr' => (Env.set_ne env' v (by omega)).trans (h r' hr')

theorem Operand.eval_of_agree {sem : Semantics O K V W E} {o : Operand K} {fresh : Nat}
    {env env' : Env V} (ho : o.Below fresh) (h : AgreeBelow fresh env env') :
    o.eval sem env' = o.eval sem env := by
  cases o with
  | reg r => exact h r ho
  | arg i => rfl
  | const k => rfl

namespace Expr

mutual

theorem code_below {inputs : Fin n → Operand K} {fresh : Nat} (h : ∀ i, (inputs i).Below fresh) :
    ∀ x : Expr O K n, fresh ≤ (x.code inputs fresh).fresh ∧
      (x.code inputs fresh).result.Below (x.code inputs fresh).fresh
  | .input i => ⟨Nat.le_refl _, h i⟩
  | .arg i => ⟨Nat.le_refl _, trivial⟩
  | .const k => ⟨Nat.le_refl _, trivial⟩
  | .op o args => by
    have ih := (codeArgs_below h args).1
    rw [code]
    exact ⟨Nat.le_succ_of_le ih, Nat.lt_succ_self _⟩

theorem codeArgs_below {inputs : Fin n → Operand K} {fresh : Nat}
    (h : ∀ i, (inputs i).Below fresh) :
    ∀ xs : List (Expr O K n), fresh ≤ (codeArgs inputs fresh xs).fresh ∧
      ∀ o ∈ (codeArgs inputs fresh xs).result, o.Below (codeArgs inputs fresh xs).fresh
  | [] => ⟨Nat.le_refl _, by simp [codeArgs]⟩
  | x :: xs => by
    obtain ⟨hle, hb⟩ := code_below h x
    obtain ⟨hle', hb'⟩ := codeArgs_below (fun i => (h i).mono hle) xs
    rw [codeArgs]
    refine ⟨Nat.le_trans hle hle', fun o ho => ?_⟩
    rcases List.mem_cons.mp ho with rfl | ho
    · exact hb.mono hle'
    · exact hb' o ho

end

end Expr

/-! ## 3. Running the instructions -/

variable {sem : Semantics O K V W E} {F : Cfg O K L}

/-- Block `i` holds the instructions `l` from `pc` on. -/
def HoldsAt (F : Cfg O K L) (i pc : Nat) (l : List (Instr O K)) : Prop :=
  ∃ blk, F[i]? = some blk ∧ l <+: blk.body.drop pc

theorem HoldsAt.left {i pc : Nat} {l l' : List (Instr O K)} (h : HoldsAt F i pc (l ++ l')) :
    HoldsAt F i pc l := by
  obtain ⟨blk, hb, hp⟩ := h
  exact ⟨blk, hb, (List.prefix_append l l').trans hp⟩

theorem HoldsAt.right {i pc : Nat} {l l' : List (Instr O K)} (h : HoldsAt F i pc (l ++ l')) :
    HoldsAt F i (pc + l.length) l' := by
  obtain ⟨blk, hb, t, ht⟩ := h
  refine ⟨blk, hb, t, ?_⟩
  rw [← List.drop_drop, ← ht, List.append_assoc, List.drop_left]

theorem step_instr {i pc : Nat} {ins : Instr O K} (h : HoldsAt F i pc [ins]) (env : Env V)
    (w : W) : step sem F (.at i pc env w) = execInstr sem i pc env w ins := by
  obtain ⟨blk, hb, t, ht⟩ := h
  have hget : blk.body[pc]? = some ins := by
    have h0 : (blk.body.drop pc)[0]? = some ins := by rw [← ht]; rfl
    rwa [List.getElem?_drop, Nat.add_zero] at h0
  simp only [step, hb, Option.bind_some, hget]

/-- The machine stands in block `i` at `pc`, and has kept the registers below `fresh`. -/
def Stands (i pc fresh : Nat) (env : Env V) (w : W) (c : Config V W E) (post : Env V → Prop) :
    Prop :=
  ∃ env', c = .at i pc env' w ∧ AgreeBelow fresh env env' ∧ post env'

namespace Expr

variable {i : Nat} {inputs : Fin n → Operand K} {vals : Fin n → V}

/-- The inputs still hold their values. -/
theorem inputs_agree {fresh : Nat} {env env' : Env V} (hb : ∀ i, (inputs i).Below fresh)
    (hv : ∀ i, (inputs i).eval sem env = some (vals i)) (ha : AgreeBelow fresh env env')
    (i : Fin n) : (inputs i).eval sem env' = some (vals i) := by
  rw [Operand.eval_of_agree (hb i) ha, hv]

theorem mapM_eval_cons {env : Env V} {o : Operand K} {os : List (Operand K)} {v : V} {vs : List V}
    (ho : o.eval sem env = some v) (hos : os.mapM (Operand.eval sem env) = some vs) :
    (o :: os).mapM (Operand.eval sem env) = some (v :: vs) := by
  simp [List.mapM_cons, ho, hos]

mutual

/-- **The instructions of an expression compute its value.** -/
theorem code_run (x : Expr O K n) : ∀ {pc fresh : Nat} {env : Env V} {w : W},
    (∀ i, (inputs i).Below fresh) → (∀ i, (inputs i).eval sem env = some (vals i)) →
    HoldsAt F i pc (x.code inputs fresh).instrs →
    Simulates sem F (.at i pc env w) (x.eval sem vals) w fun v w' c =>
      Stands i (pc + (x.code inputs fresh).instrs.length) fresh env w' c fun env' =>
        (x.code inputs fresh).result.eval sem env' = some v := by
  intro pc fresh env w hb hv hF
  cases x with
  | input j => exact .pure ⟨env, rfl, .refl fresh env, hv j⟩
  | arg j => exact .pure ⟨env, rfl, .refl fresh env, rfl⟩
  | const k => exact .pure ⟨env, rfl, .refl fresh env, rfl⟩
  | op o args =>
    rw [code] at hF ⊢
    rw [eval]
    refine (codeArgs_run args hb hv hF.left).bind ?_
    rintro vs w' c ⟨env₁, rfl, hagree, hargs⟩
    refine Simulates.instr (step_instr hF.right env₁ w') hargs fun v w'' => ?_
    refine ⟨_, ?_, hagree.set (codeArgs_below (O := O) hb args).1 v, Env.set_self _ _ _⟩
    rw [List.length_append, ← Nat.add_assoc]
    rfl
termination_by structural x

theorem codeArgs_run (xs : List (Expr O K n)) : ∀ {pc fresh : Nat} {env : Env V} {w : W},
    (∀ i, (inputs i).Below fresh) → (∀ i, (inputs i).eval sem env = some (vals i)) →
    HoldsAt F i pc (codeArgs inputs fresh xs).instrs →
    Simulates sem F (.at i pc env w) (evalArgs sem vals xs) w fun vs w' c =>
      Stands i (pc + (codeArgs inputs fresh xs).instrs.length) fresh env w' c fun env' =>
        (codeArgs inputs fresh xs).result.mapM (Operand.eval sem env') = some vs := by
  intro pc fresh env w hb hv hF
  cases xs with
  | nil => exact .pure ⟨env, rfl, .refl fresh env, rfl⟩
  | cons x xs =>
    rw [codeArgs] at hF ⊢
    rw [evalArgs]
    obtain ⟨hle, hres⟩ := code_below (O := O) hb x
    refine (code_run x hb hv hF.left).bind ?_
    rintro v w' c ⟨env₁, rfl, hagree, hv₁⟩
    refine (codeArgs_run xs (fun j => (hb j).mono hle) (inputs_agree hb hv hagree)
      hF.right).bind ?_
    rintro vs w'' c ⟨env₂, rfl, hagree', hvs⟩
    refine .pure ⟨env₂, ?_, hagree.trans hagree' hle, mapM_eval_cons ?_ hvs⟩
    · rw [List.length_append, ← Nat.add_assoc]
    · rw [Operand.eval_of_agree hres hagree', hv₁]
termination_by structural xs

end

end Expr

end Ssa
