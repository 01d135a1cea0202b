/-
# Lowering: the code of a node computes its value

The finished function, run from where the code of a node begins to where it ends, does what the
interpreter does: the same calls in the same order, the same value, the same variables.

* `RunsAt` says it of a piece of code, with a rule for sequencing and one for emitted code.
* `Lowered` is everything known of a node whose code has been emitted: how the function has grown
  (`Grown`), where the value is, whether the code leaves its block, and what it computes.

Here are the nodes whose code branches only where their operands' code does; the constructs with
control flow of their own are in `LoweringFlow.lean` and `LoweringWhen.lean`.
-/
import JitFusion.GenRules
import JitFusion.Interpreter

namespace JitFusion

/-! ## 1. Trees -/

namespace ExecNode

mutual

/-- The code of the node ends in another block than it begins in. -/
def splits : ExecNode → Bool
  | entryArgument _ | execContext _ | output _ | constantValue _ _ | constantListValue _ _
  | ref _ _ => false
  | unaryOP _ _ child => splits child
  | binaryOP _ op left right =>
    TypeHelper.isLogicalBinaryOPType op || splits left || splits right
  | function _ _ args => argsSplit args
  | noOP _ args _ => stmtsSplit args
  | ifNode _ _ | switchNode _ _ | ifBlock _ _ => true

def argsSplit : List ExecNode → Bool
  | [] => false
  | arg :: args => splits arg || argsSplit args

def stmtsSplit : List (VarInfo × ExecNode) → Bool
  | [] => false
  | (_, arg) :: args => splits arg || stmtsSplit args

end

mutual

/-- Every when-block in the tree has an else body, or a last condition whose code stays in its
block. -/
def whensFine : ExecNode → Bool
  | entryArgument _ | execContext _ | output _ | constantValue _ _ | constantListValue _ _
  | ref _ _ => true
  | unaryOP _ _ child => whensFine child
  | binaryOP _ _ left right => whensFine left && whensFine right
  | function _ _ args | ifNode _ args | switchNode _ args => argsFine args
  | noOP _ args _ => stmtsFine args
  | ifBlock _ args => argsFine args && !fallsFromSplit args

def argsFine : List ExecNode → Bool
  | [] => true
  | arg :: args => whensFine arg && argsFine args

def stmtsFine : List (VarInfo × ExecNode) → Bool
  | [] => true
  | (_, arg) :: args => whensFine arg && stmtsFine args

/-- There is no else body, and the code of the last condition leaves its block. -/
def fallsFromSplit : List ExecNode → Bool
  | [] | [_] => false
  | [cond, _] => splits cond
  | _ :: _ :: args => fallsFromSplit args

end

end ExecNode

namespace CodeGen

open TypeHelper Ssa.Builder Interpreter

variable {V W E : Type}

/-! ## 2. Values and variables at run time -/

section Values

variable (sem : Ssa.Semantics Opcode Literal V W E)

/-- The SSA value holds the datum. -/
def HoldsDatum (env : Ssa.Env V) (val : Value) (x : Datum V) : Prop :=
  val.operand.eval sem env = some x.val ∧ val.type = x.type

/-- The value of a node, if it has one. -/
def Represents (env : Ssa.Env V) : Option Value → Option (Datum V) → Prop :=
  Option.Rel (HoldsDatum sem env)

/-- The scopes of the generator name the values of the store. -/
def Holds (env : Ssa.Env V) (scopes : ScopeStack (Option Value)) (store : Store V) : Prop :=
  ∀ name, Option.Rel (Represents sem env) (scopes.lookup name) (store name)

/-- The list literals are the constants the generator has for them. -/
def Literals (lit : ConstantListValueType → Literal)
    (cache : List (ConstantListValueType × Value)) : Prop :=
  ∀ l e, cache.find? (fun e => constListEquivalent e.1 l) = some e →
    e.2 = ⟨.const (lit l), (lit l).type⟩

/-- The verifier accepts the PHI nodes. -/
def Verified (F : IRFunction) : Prop := ∀ m, Sound F m

/-- **What LLVM says of `i1`**: a comparison gives one of its two constants, a branch goes by
it, and `zext` makes it `0` or `1`. -/
structure BitSemantics : Prop where
  icmp_ne : ∀ xs w r, (sem.op (.icmp .ne) xs).run w = .ok r → ∃ b, r.1 = sem.const (.bool b)
  fcmp_one : ∀ xs w r, (sem.op (.fcmp .one) xs).run w = .ok r → ∃ b, r.1 = sem.const (.bool b)
  truthy : ∀ b, sem.truthy (sem.const (.bool b)) = b
  zext : ∀ b w, (sem.op (.zext 8) [sem.const (.bool b)]).run w =
    .ok (sem.const (.value (.u8 (if b then 1 else 0))), w)

end Values

section Env

variable {sem : Ssa.Semantics Opcode Literal V W E} {env env' : Ssa.Env V} {fresh : Nat}

theorem HoldsDatum.agree {val : Value} {x : Datum V} (h : HoldsDatum sem env val x)
    (hb : val.operand.Below fresh) (ha : Ssa.AgreeBelow fresh env env') :
    HoldsDatum sem env' val x :=
  ⟨(Ssa.Operand.eval_of_agree hb ha).trans h.1, h.2⟩

theorem rel_imp {α β : Type} {r r' : α → β → Prop} {a : Option α} {b : Option β}
    (h : Option.Rel r a b) (hr : ∀ x y, a = some x → r x y → r' x y) : Option.Rel r' a b := by
  cases h with
  | none => exact .none
  | some h => exact .some (hr _ _ rfl h)

theorem Represents.agree {v : Option Value} {x : Option (Datum V)} (h : Represents sem env v x)
    (hb : ValueBelow fresh v) (ha : Ssa.AgreeBelow fresh env env') : Represents sem env' v x :=
  rel_imp h fun val _ hv hx => hx.agree (hb val hv) ha

theorem Holds.agree {scopes : ScopeStack (Option Value)} {store : Store V}
    (h : Holds sem env scopes store)
    (hb : ∀ name v, scopes.lookup name = some v → ValueBelow fresh v)
    (ha : Ssa.AgreeBelow fresh env env') : Holds sem env' scopes store := fun name =>
  rel_imp (h name) fun v _ hv hx => hx.agree (hb name v hv) ha

theorem Literals.prefix_ {lit : ConstantListValueType → Literal}
    {cache cache' : List (ConstantListValueType × Value)} (h : Literals lit cache')
    (hp : cache <+: cache') : Literals lit cache := by
  rcases hp with ⟨rest, rfl⟩
  intro l e he
  refine h l e ?_
  rw [List.find?_append, he]
  rfl

end Env

/-! ## 3. Running a piece of code -/

section Runs

variable (sem : Ssa.Semantics Opcode Literal V W E) (F : IRFunction)

/-- From `c` the function does what `m` does and gets to `dest`.  It keeps the registers below
`fresh`; `post` relates the result to the registers, and `scopes` name the variables. -/
def RunsTo {α : Type} (fresh : Nat) (c : W → Ssa.Config V W E) (env : Ssa.Env V)
    (m : Checked.M W E (α × Store V)) (dest : Ssa.Env V → W → Ssa.Config V W E)
    (scopes : ScopeStack (Option Value)) (post : Ssa.Env V → α → Prop) : Prop :=
  ∀ w, Ssa.Simulates sem F (c w) m w fun r w' c' =>
    ∃ env', c' = dest env' w' ∧ Ssa.AgreeBelow fresh env env' ∧ post env' r.1 ∧
      Holds sem env' scopes r.2

/-- From `s` to `s'` the function does what `m` does. -/
abbrev RunsAt {α : Type} (s s' : State) (env : Ssa.Env V) (m : Checked.M W E (α × Store V))
    (post : Ssa.Env V → α → Prop) : Prop :=
  RunsTo sem F s.builder.fresh (s.builder.here env) env m s'.builder.here s'.scopeStack post

end Runs

namespace RunsTo

variable {sem : Ssa.Semantics Opcode Literal V W E} {F : IRFunction} {α β : Type}
  {fresh fresh' : Nat} {c d : W → Ssa.Config V W E} {env : Ssa.Env V}
  {dest dest' : Ssa.Env V → W → Ssa.Config V W E} {scopes scopes' : ScopeStack (Option Value)}
  {m : Checked.M W E (α × Store V)} {k : α × Store V → Checked.M W E (β × Store V)}
  {post : Ssa.Env V → α → Prop} {post₂ : Ssa.Env V → β → Prop}

theorem pure {a : α} {store : Store V} (hp : post env a) (hs : Holds sem env scopes store) :
    RunsTo sem F fresh (dest env) env (pure (a, store)) dest scopes post :=
  fun _ => .pure ⟨env, rfl, .refl _ _, hp, hs⟩

/-- **Sequencing.** -/
theorem bind (h : RunsTo sem F fresh c env m dest scopes post) (hle : fresh ≤ fresh')
    (hk : ∀ env₁ a store, Ssa.AgreeBelow fresh env env₁ → post env₁ a →
      Holds sem env₁ scopes store →
        RunsTo sem F fresh' (dest env₁) env₁ (k (a, store)) dest' scopes' post₂) :
    RunsTo sem F fresh c env (m >>= k) dest' scopes' post₂ := by
  intro w
  refine (h w).bind ?_
  rintro ⟨a, store⟩ w' c ⟨env₁, rfl, hagree, hpost, hholds⟩
  refine (hk env₁ a store hagree hpost hholds w').mono ?_
  rintro r w'' c ⟨env₂, hc, hagree', hpost', hholds'⟩
  exact ⟨env₂, hc, hagree.trans hagree' hle, hpost', hholds'⟩

/-- A step before the run. -/
theorem step (hstep : ∀ w, Ssa.step sem F (c w) = some (d w))
    (h : RunsTo sem F fresh d env m dest scopes post) :
    RunsTo sem F fresh c env m dest scopes post :=
  fun w => (h w).step (hstep w)

/-- A run says less about fewer registers. -/
theorem weaken (h : RunsTo sem F fresh' c env m dest scopes post) (hle : fresh ≤ fresh') :
    RunsTo sem F fresh c env m dest scopes post := by
  intro w
  refine (h w).mono ?_
  rintro r w' c' ⟨env', hc, hagree, hrest⟩
  exact ⟨env', hc, hagree.mono hle, hrest⟩

/-- What is known at the end. -/
theorem imp {post' : Ssa.Env V → α → Prop} (h : RunsTo sem F fresh c env m dest scopes post)
    (hp : ∀ env' a store, Ssa.AgreeBelow fresh env env' → post env' a →
      Holds sem env' scopes store → post' env' a) :
    RunsTo sem F fresh c env m dest scopes post' := by
  intro w
  refine (h w).mono ?_
  rintro r w' c' ⟨env', hc, hagree, hpost, hholds⟩
  exact ⟨env', hc, hagree, hp env' r.1 r.2 hagree hpost hholds, hholds⟩

/-- A step behind the run, which may set registers. -/
theorem after {post' : Ssa.Env V → α → Prop}
    (h : RunsTo sem F fresh c env m dest scopes post)
    (hstep : ∀ env₁ a store, Ssa.AgreeBelow fresh env env₁ → post env₁ a →
      Holds sem env₁ scopes store → ∃ env₂, (∀ w, Ssa.step sem F (dest env₁ w) =
        some (dest' env₂ w)) ∧ Ssa.AgreeBelow fresh env₁ env₂ ∧ post' env₂ a ∧
          Holds sem env₂ scopes' store) :
    RunsTo sem F fresh c env m dest' scopes' post' := by
  have hbind : m = m >>= Pure.pure := (bind_pure m).symm
  rw [hbind]
  refine h.bind (Nat.le_refl _) fun env₁ a store hagree hpost hholds => ?_
  rcases hstep env₁ a store hagree hpost hholds with ⟨env₂, hs, hagree₂, hpost₂, hholds₂⟩
  exact fun w => Ssa.Simulates.step (hs w) (.pure ⟨env₂, rfl, hagree₂, hpost₂, hholds₂⟩)

end RunsTo

/-! ## 4. Emitted code -/

section Emit

variable {sem : Ssa.Semantics Opcode Literal V W E} {F : IRFunction} {s : State} {env : Ssa.Env V}
  {α : Type} {store : Store V} {dest : Ssa.Env V → W → Ssa.Config V W E}
  {scopes : ScopeStack (Option Value)} {post : Ssa.Env V → α → Prop}

/-- **Emitted code computes its value**; the rest runs from behind it. -/
theorem evalCode_runs {n : Nat} {inputs : Fin n → Value} {data : Fin n → Datum V} {x : IRExpr n}
    (hs : Ready s) (hF : Final (s.emit inputs x).builder F) (hb : InputsBelow s inputs)
    (hd : ∀ i, HoldsDatum sem env (inputs i) (data i)) (hstore : Holds sem env s.scopeStack store)
    {f : Option (Datum V) → Checked.M W E (α × Store V)}
    (hf : ∀ env' y w w', (x.eval sem fun i => (data i).val).run w = .ok (y, w') →
      HoldsDatum sem env' (s.emitted inputs x) ⟨y, x.type fun i => (data i).type⟩ →
      Ssa.AgreeBelow s.builder.fresh env env' → Holds sem env' s.scopeStack store →
      RunsTo sem F (s.emit inputs x).builder.fresh ((s.emit inputs x).builder.here env') env'
        (f (some ⟨y, x.type fun i => (data i).type⟩)) dest scopes post) :
    RunsTo sem F s.builder.fresh (s.builder.here env) env (evalCode sem (.ok x) data >>= f) dest
      scopes post := by
  intro w
  have hcode : evalCode sem (.ok x) data =
      (x.eval sem fun i => (data i).val) >>= fun y =>
        Pure.pure (some ⟨y, x.type fun i => (data i).type⟩) := rfl
  rw [hcode, bind_assoc]
  have hrun := append_run sem x hs.isOpen hF w hb fun i => (hd i).1
  refine (hrun.mono_run fun y w' c hy hc => And.intro hy hc).bind ?_
  · rintro y w' c ⟨hy, env', rfl, hagree, hval⟩
    have htype : (s.emitted inputs x).type = x.type fun i => (data i).type :=
      congrArg x.type (funext fun i => (hd i).2)
    rw [pure_bind]
    have h := hf env' y w w' hy ⟨hval, htype⟩ hagree (hstore.agree hs.below hagree) w'
    refine h.mono ?_
    rintro r w'' c ⟨env₂, hc, hagree', hpost, hholds⟩
    exact ⟨env₂, hc, hagree.trans hagree' (emit_fresh hb), hpost, hholds⟩

theorem holdsDatum_one {v : Value} {x : Datum V} (h : HoldsDatum sem env v x) :
    ∀ i, HoldsDatum sem env ((![v] : Fin 1 → Value) i) ((![x] : Fin 1 → Datum V) i) := by
  intro i
  rw [Subsingleton.elim i 0]
  exact h

theorem holdsDatum_two {v w : Value} {x y : Datum V} (hv : HoldsDatum sem env v x)
    (hw : HoldsDatum sem env w y) : ∀ i, HoldsDatum sem env ((![v, w] : Fin 2 → Value) i)
      ((![x, y] : Fin 2 → Datum V) i) := by
  intro i
  cases i using Fin.cases with
  | zero => exact hv
  | succ i =>
    rw [Subsingleton.elim i 0]
    exact hw

/-- The text of an error is all the construct changes in a test. -/
theorem toBool_congr {n : Nat} {what what' : String} {type : LLVMType} {x y : IRExpr n}
    (h : toBool what type x = .ok y) : toBool what' type x = .ok y := by
  unfold toBool at h ⊢
  split_ifs at h ⊢
  · exact h
  · exact h

/-- A test gives one of the constants of `i1`. -/
theorem toBool_bool (hbits : BitSemantics sem) {what : String} {type : LLVMType} {y : IRExpr 1}
    (h : toBool what type (.input 0) = .ok y) {vals : Fin 1 → V} {w w' : W} {v : V}
    (hrun : (y.eval sem vals).run w = .ok (v, w')) : ∃ b, v = sem.const (.bool b) := by
  unfold toBool at h
  split_ifs at h
  · cases h
    exact hbits.icmp_ne _ _ _ hrun
  · cases h
    exact hbits.fcmp_one _ _ _ hrun

theorem toBool_type {n : Nat} {what : String} {type : LLVMType} {x y : IRExpr n}
    (h : toBool what type x = .ok y) (types : Fin n → LLVMType) : y.type types = .int 1 := by
  unfold toBool at h
  split_ifs at h
  · cases h
    rfl
  · cases h
    rfl

/-- **A condition is tested**: the value tested is the constant of `i1` the interpreter's test
answers. -/
theorem test_runs (hbits : BitSemantics sem) {what : String} {v : Value} {x : Datum V}
    {y : IRExpr 1} (hy : toBool what v.type (.input 0) = .ok y) (hs : Ready s)
    (hF : Final (s.emit ![v] y).builder F) (hb : ValueBelow s.builder.fresh (some v))
    (hd : HoldsDatum sem env v x) (hstore : Holds sem env s.scopeStack store)
    {f : Option Bool → Checked.M W E (α × Store V)}
    (hf : ∀ env' b, HoldsDatum sem env' (s.emitted ![v] y) ⟨sem.const (.bool b), .int 1⟩ →
      Ssa.AgreeBelow s.builder.fresh env env' → Holds sem env' s.scopeStack store →
      RunsTo sem F (s.emit ![v] y).builder.fresh ((s.emit ![v] y).builder.here env') env'
        (f (some b)) dest scopes post) :
    RunsTo sem F s.builder.fresh (s.builder.here env) env (test sem (some x) >>= f) dest scopes
      post := by
  have htest : test sem (some x) >>= f =
      evalCode sem (.ok y) ![x] >>= fun b => f (b.map fun b => sem.truthy b.val) := by
    have hx : toBool "" x.type (.input 0) = .ok y := hd.2 ▸ toBool_congr hy
    simp only [test, hx, bind_assoc, pure_bind]
  rw [htest]
  refine evalCode_runs hs hF (inputsBelow_one hb) (holdsDatum_one hd) hstore ?_
  intro env' z w w' hz hdatum hagree hholds
  rcases toBool_bool hbits hy hz with ⟨b, rfl⟩
  rw [toBool_type hy] at hdatum
  rw [Option.map_some, hbits.truthy]
  exact hf env' b hdatum hagree hholds

end Emit

/-! ## 5. Nodes -/

section Nodes

variable (ctx : Context) (sem : Ssa.Semantics Opcode Literal V W E)
  (lit : ConstantListValueType → Literal)

/-- **Everything known of a node whose code has been emitted**, from `s` to `s'`, with the
value `v`. -/
structure Lowered (node : ExecNode) (s : State) (v : Option Value) (s' : State) : Prop where
  grown : Grown s s' (node.whensFine = true)
  below : ValueBelow s'.builder.fresh v
  scopes : v ≠ none → s'.scopeStack = s.scopeStack
  splits : s'.builder.insertPoint = s.builder.insertPoint ↔ node.splits = false
  runs : ∀ {F env store}, Final s'.builder F → Literals lit s'.constListCache →
    (node.whensFine = true ∨ Verified F) → Holds sem env s.scopeStack store →
      RunsAt sem F s s' env (eval ctx sem lit node store) fun env' x => Represents sem env' v x

/-- Whatever the generator emits for the node computes its value. -/
def Lowers (node : ExecNode) : Prop :=
  ∀ {s v s'}, (visit ctx node).run s = .ok (v, s') → Ready s → Lowered ctx sem lit node s v s'

end Nodes

section Rules

variable {ctx : Context} {sem : Ssa.Semantics Opcode Literal V W E}
  {lit : ConstantListValueType → Literal} {node : ExecNode} {s s' : State} {v : Option Value}

theorem Lowers.getValue (h : Lowers ctx sem lit node)
    (hrun : (getValue node (visit ctx node)).run s = .ok (v, s')) (hs : Ready s) :
    Lowered ctx sem lit node s v s' := by
  rcases getValue_run.mp hrun with ⟨s₁, hvisit, rfl⟩
  have hl := h hvisit hs
  exact ⟨hl.grown.visit _ _, hl.below, hl.scopes, hl.splits, hl.runs⟩

/-- A node whose value is there at once. -/
theorem leaf_lowers {val : Value} {d : Datum V} (hrun : visit ctx node = pure (some val))
    (heval : ∀ store, eval ctx sem lit node store = pure (some d, store))
    (hbelow : ∀ fresh, val.operand.Below fresh) (hd : ∀ env, HoldsDatum sem env val d)
    (hsplits : node.splits = false) : Lowers ctx sem lit node := by
  intro s v s' h hs
  rw [hrun, Checked.run_pure_eq_ok] at h
  rcases h with ⟨rfl, rfl⟩
  refine ⟨.refl hs, ?_, fun _ => rfl, by simp [hsplits], fun _ _ _ hstore => ?_⟩
  · rintro val' ⟨⟩
    exact hbelow _
  · rw [heval]
    exact .pure (.some (hd _)) hstore

theorem listEquivalent_refl {α : Type} {equivalent : α → α → Bool}
    (h : ∀ a, equivalent a a = true) : ∀ l : List α, listEquivalent equivalent l l = true := by
  intro l
  induction l with
  | nil => rfl
  | cons a l ih => rw [listEquivalent, h, ih, Bool.and_self]

theorem constListEquivalent_refl (l : ConstantListValueType) : constListEquivalent l l = true := by
  cases l with
  | f32 l => exact listEquivalent_refl (fun b => by simp [floatEquivalent]) l
  | f64 l => exact listEquivalent_refl (fun b => by simp [floatEquivalent]) l
  | _ => simp [constListEquivalent]

theorem constantListValue_lowers (info : NodeInfo) (valList : ConstantListValueType) :
    Lowers ctx sem lit (.constantListValue info valList) := by
  intro s v s' h hs
  rw [visit, Checked.run_bind_eq_ok] at h
  rcases h with ⟨t, u, hget, h⟩
  rcases Checked.run_get_eq_ok.mp hget with ⟨ht, hu⟩
  rw [ht, hu] at h
  cases hfind : s.constListCache.find? fun e => constListEquivalent e.1 valList with
  | some e =>
    rw [hfind, Checked.run_pure_eq_ok] at h
    rcases h with ⟨rfl, rfl⟩
    have he := hs.cached e (List.mem_of_find?_eq_some hfind)
    refine ⟨.refl hs, ?_, fun _ => rfl, by simp [ExecNode.splits], fun _ hl _ hstore => ?_⟩
    · rintro val ⟨⟩
      rw [he]
      trivial
    · rw [eval]
      refine .pure (.some ?_) hstore
      rw [hl valList e hfind]
      exact ⟨rfl, rfl⟩
  | none =>
    rw [hfind] at h
    simp only [Checked.run_bind_eq_ok, Checked.run_modify_eq_ok, Checked.run_pure_eq_ok] at h
    rcases h with ⟨_, _, rfl, rfl, rfl⟩
    have hready : Ready { s with constListCache := s.constListCache ++
        [(valList, ⟨.const (.list valList), (Literal.list valList).type⟩)] } := by
      refine ⟨hs.isOpen, hs.targets, hs.below, fun e he => ?_⟩
      rcases List.mem_append.mp he with he | he
      · exact hs.cached e he
      · rw [List.mem_singleton.mp he]
    refine ⟨⟨.refl hs.isOpen, hready, rfl, List.prefix_append _ _, fun _ m hm hlt => ?_⟩, ?_,
      fun _ => rfl, by simp [ExecNode.splits], fun _ hl _ hstore => ?_⟩
    · exact absurd hlt (Nat.not_lt.mpr hm)
    · rintro val ⟨⟩
      trivial
    · rw [eval]
      refine .pure (.some ?_) hstore
      have he : (⟨.const (.list valList), (Literal.list valList).type⟩ : Value) =
          ⟨.const (lit valList), (lit valList).type⟩ := by
        refine hl valList (valList, _) ?_
        rw [List.find?_append, hfind]
        simp [constListEquivalent_refl]
      rw [he]
      exact ⟨rfl, rfl⟩

theorem unaryOP_lowers {info : NodeInfo} {op : UnaryOPType} {child : ExecNode}
    (h : Lowers ctx sem lit child) : Lowers ctx sem lit (.unaryOP info op child) := by
  intro s v s' hrun hs
  rw [visit, Checked.run_bind_eq_ok] at hrun
  rcases hrun with ⟨v₁, s₁, hchild, hrun⟩
  have hc := h.getValue hchild hs
  by_cases hop : op = .kPlus
  · rw [if_pos hop, Checked.run_pure_eq_ok] at hrun
    rcases hrun with ⟨rfl, rfl⟩
    refine ⟨hc.grown, hc.below, hc.scopes, hc.splits, fun hF hl hv hstore => ?_⟩
    rw [eval]
    refine (hc.runs hF hl hv hstore).bind (Nat.le_refl _) fun env₁ x store₁ _ hx hst => ?_
    simp only [if_pos hop]
    exact .pure hx hst
  · simp only [if_neg hop, Checked.run_bind_eq_ok, deref_run, returnNotOk_run, emit_run,
      Checked.run_pure_eq_ok] at hrun
    rcases hrun with ⟨val, _, ⟨rfl, rfl⟩, x, _, ⟨hx, rfl⟩, _, _, ⟨rfl, rfl⟩, rfl, rfl⟩
    have hopen := hc.grown.ready.isOpen
    have hbelow := inputsBelow_one hc.below
    refine ⟨hc.grown.emit hbelow, emitted_below hbelow, fun _ => hc.scopes (by simp), hc.splits,
      fun hF hl hv hstore => ?_⟩
    rw [eval]
    refine (hc.runs (.of_append hopen hF) hl hv hstore).bind hc.grown.fresh
      fun env₁ d store₁ _ hd hst => ?_
    cases hd with
    | some hd =>
      simp only [if_neg hop, ← hd.2, hx]
      refine evalCode_runs hc.grown.ready hF hbelow (holdsDatum_one hd) hst ?_
      exact fun env' y w w' _ hdatum _ hst' => .pure (.some hdatum) hst'

/-- A conjunct is enough. -/
theorem fine_left {a b : Bool} {P : Prop} (h : (a && b) = true ∨ P) : a = true ∨ P :=
  h.imp_left fun h => (Bool.and_eq_true_iff.mp h).1

theorem fine_right {a b : Bool} {P : Prop} (h : (a && b) = true ∨ P) : b = true ∨ P :=
  h.imp_left fun h => (Bool.and_eq_true_iff.mp h).2

/-- An arithmetic, bitwise or relational operator. -/
theorem binaryOP_lowers {info : NodeInfo} {op : BinaryOPType} {left right : ExecNode}
    (hop : isLogicalBinaryOPType op = false) (h : Lowers ctx sem lit left)
    (h' : Lowers ctx sem lit right) : Lowers ctx sem lit (.binaryOP info op left right) := by
  intro s v s' hrun hs
  simp only [visit, hop, Bool.false_eq_true, if_false, Checked.run_bind_eq_ok, deref_run,
    returnNotOk_run, emit_run, Checked.run_pure_eq_ok] at hrun
  rcases hrun with ⟨_, s₁, hleft, _, s₂, hright, l, _, ⟨rfl, rfl⟩, r, _, ⟨rfl, rfl⟩, x, _,
    ⟨hx, rfl⟩, _, _, ⟨rfl, rfl⟩, rfl, rfl⟩
  have hl := h.getValue hleft hs
  have hr := h'.getValue hright hl.grown.ready
  have hscopes := hr.scopes (by simp)
  have hbelow := inputsBelow_two (hl.below.mono hr.grown.fresh) hr.below
  have hgl := hl.grown.mono fun (hg : (left.whensFine && right.whensFine) = true) =>
    (Bool.and_eq_true_iff.mp hg).1
  have hgr := hr.grown.mono fun (hg : (left.whensFine && right.whensFine) = true) =>
    (Bool.and_eq_true_iff.mp hg).2
  refine ⟨(hgl.trans hgr).emit hbelow, emitted_below hbelow,
    fun _ => hscopes.trans (hl.scopes (by simp)), ?_, fun hF hlit hv hstore => ?_⟩
  · refine (hgl.insertPoint_trans hgr).trans ?_
    rw [ExecNode.splits, hop, Bool.false_or, Bool.or_eq_false_iff, hl.splits, hr.splits]
  · rw [eval]
    have hF₂ := Final.of_append hr.grown.ready.isOpen hF
    have hF₁ := Final.of_grows hr.grown.grows hl.grown.ready.isOpen hF₂
    refine (hl.runs hF₁ (hlit.prefix_ hr.grown.cache) (fine_left hv) hstore).bind hl.grown.fresh
      fun env₁ d store₁ _ hd hst => ?_
    simp only [hop, Bool.false_eq_true, if_false]
    refine (hr.runs hF₂ hlit (fine_right hv) hst).bind hr.grown.fresh
      fun env₂ e store₂ hagree he hst₂ => ?_
    have hd₂ := hd.agree hl.below hagree
    cases hd₂ with
    | some hd₂ =>
      cases he with
      | some he =>
        simp only [hx]
        refine evalCode_runs hr.grown.ready hF hbelow (holdsDatum_two hd₂ he) hst₂ ?_
        exact fun env' y w w' _ hdatum _ hst' => .pure (.some hdatum) hst'

/-! ## 6. Calls -/

section Args

variable (ctx sem lit)

/-- The arguments of a call. -/
structure LoweredArgs (args : List ExecNode) (s : State) (vs : List Value) (s' : State) : Prop where
  grown : Grown s s' (ExecNode.argsFine args = true)
  below : ∀ v ∈ vs, ValueBelow s'.builder.fresh (some v)
  scopes : s'.scopeStack = s.scopeStack
  splits : s'.builder.insertPoint = s.builder.insertPoint ↔ ExecNode.argsSplit args = false
  runs : ∀ {F env store}, Final s'.builder F → Literals lit s'.constListCache →
    (ExecNode.argsFine args = true ∨ Verified F) → Holds sem env s.scopeStack store →
      RunsAt sem F s s' env (evalArgs ctx sem lit args store) fun env' xs =>
        ∃ ds, xs = some ds ∧ List.Forall₂ (HoldsDatum sem env') vs ds

end Args

theorem visitArgs_lowered : ∀ (args : List ExecNode) {s s' : State} {vs : List Value},
    (∀ arg ∈ args, Lowers ctx sem lit arg) → (visitArgs ctx args).run s = .ok (vs, s') →
      Ready s → LoweredArgs ctx sem lit args s vs s' := by
  intro args
  induction args with
  | nil =>
    intro s s' vs _ hrun hs
    rw [visitArgs, Checked.run_pure_eq_ok] at hrun
    rcases hrun with ⟨rfl, rfl⟩
    refine ⟨.refl hs, by simp, rfl, by simp [ExecNode.argsSplit], fun _ _ _ hstore => ?_⟩
    rw [evalArgs]
    exact .pure ⟨[], rfl, .nil⟩ hstore
  | cons arg args ih =>
    intro s s' vs h hrun hs
    simp only [visitArgs, Checked.run_bind_eq_ok, deref_run, Checked.run_pure_eq_ok] at hrun
    rcases hrun with ⟨_, s₁, harg, v, _, ⟨rfl, rfl⟩, vs', s₂, hargs, rfl, rfl⟩
    have ha := Lowers.getValue (h arg List.mem_cons_self) harg hs
    have hs' := ih (fun a ha => h a (List.mem_cons_of_mem _ ha)) hargs ha.grown.ready
    have hga := ha.grown.mono fun (hg : (arg.whensFine && ExecNode.argsFine args) = true) =>
      (Bool.and_eq_true_iff.mp hg).1
    have hgs := hs'.grown.mono fun (hg : (arg.whensFine && ExecNode.argsFine args) = true) =>
      (Bool.and_eq_true_iff.mp hg).2
    refine ⟨hga.trans hgs, ?_, hs'.scopes.trans (ha.scopes (by simp)), ?_,
      fun hF hlit hv hstore => ?_⟩
    · intro u hu
      rcases List.mem_cons.mp hu with rfl | hu
      · exact ha.below.mono hs'.grown.fresh
      · exact hs'.below u hu
    · refine (hga.insertPoint_trans hgs).trans ?_
      rw [ExecNode.argsSplit, Bool.or_eq_false_iff, ha.splits, hs'.splits]
    · rw [evalArgs]
      have hF₁ := Final.of_grows hs'.grown.grows ha.grown.ready.isOpen hF
      refine (ha.runs hF₁ (hlit.prefix_ hs'.grown.cache) (fine_left hv) hstore).bind
        ha.grown.fresh fun env₁ d store₁ _ hd hst => ?_
      cases hd with
      | some hd =>
        refine (hs'.runs hF hlit (fine_right hv) hst).bind hs'.grown.fresh
          fun env₂ xs store₂ hagree hxs hst₂ => ?_
        rcases hxs with ⟨ds, rfl, hds⟩
        exact .pure ⟨_, rfl, .cons (hd.agree (ha.below _ rfl) hagree) hds⟩ hst₂

theorem callFunction_cast {ret : ValueType} {sign : FunctionSignature} {n k : Nat} (h : n = k)
    (args : Fin k → Datum V) :
    callFunction ctx sem ret sign (fun i => args (i.cast h)) =
      callFunction ctx sem ret sign args := by
  subst h
  rfl

/-- What `Visit(FunctionNode&)` does once the arguments have their values. -/
theorem call_lowered (sem : Ssa.Semantics Opcode Literal V W E) {ret : ValueType}
    {sign : FunctionSignature} {vs : List Value}
    (hrun : (call ctx ret sign vs).run s = .ok (v, s')) (hs : Ready s)
    (hb : ∀ u ∈ vs, ValueBelow s.builder.fresh (some u)) (good : Prop) :
    Grown s s' good ∧ ValueBelow s'.builder.fresh v ∧ s'.scopeStack = s.scopeStack ∧
      s'.builder.insertPoint = s.builder.insertPoint ∧
      ∀ {F env store} {data : Fin vs.length → Datum V}, Final s'.builder F →
        (∀ i, HoldsDatum sem env (vs.get i) (data i)) → Holds sem env s.scopeStack store →
        RunsAt sem F s s' env
          (callFunction ctx sem ret sign data >>= fun y => pure (y, store))
          fun env' y => Represents sem env' v y := by
  simp only [call, Checked.run_bind_eq_ok, returnNotOk_run, Prod.exists] at hrun
  rcases hrun with ⟨key, fs, s₁, ⟨hfind, hs₁⟩, hrun⟩
  rw [hs₁] at hrun
  have hbelow : InputsBelow s vs.get := fun i => hb _ (List.get_mem vs i) _ rfl
  have htypes : ∀ {env : Ssa.Env V} {data : Fin vs.length → Datum V},
      (∀ i, HoldsDatum sem env (vs.get i) (data i)) →
        (fun i => (vs.get i).type) = fun i => (data i).type := fun hd => funext fun i => (hd i).2
  cases hfs : fs.funcType with
  | kLLVMIntrinicFunc =>
    rw [hfs] at hrun
    cases hf : fs.codegenFunc with
    | none =>
      rw [hf] at hrun
      exact absurd hrun Checked.run_throw_ne_ok
    | some f =>
      simp only [hf] at hrun
      cases hcode : codegenFunc ctx f key vs.length fun i => (vs.get i).type with
      | none =>
        simp only [hcode, Checked.run_pure_eq_ok] at hrun
        rcases hrun with ⟨rfl, rfl⟩
        refine ⟨.refl hs, by rintro _ ⟨⟩, rfl, rfl, fun _ hd hstore => ?_⟩
        rw [htypes hd] at hcode
        simp only [callFunction, hfind, hfs, hf, Option.bind_some, hcode, pure_bind]
        exact .pure .none hstore
      | some x =>
        simp only [hcode, Checked.run_bind_eq_ok, emit_run, Checked.run_pure_eq_ok] at hrun
        rcases hrun with ⟨_, _, ⟨rfl, rfl⟩, rfl, rfl⟩
        refine ⟨(Grown.refl hs).emit hbelow, emitted_below hbelow, rfl, rfl,
          fun hF hd hstore => ?_⟩
        rw [htypes hd] at hcode
        simp only [callFunction, hfind, hfs, hf, Option.bind_some, hcode]
        refine evalCode_runs hs hF hbelow hd hstore ?_
        exact fun env' y w w' _ hdatum _ hst' => .pure (.some hdatum) hst'
  | kCFunc =>
    simp only [hfs, Checked.run_bind_eq_ok, returnNotOk_run, emit_run,
      Checked.run_pure_eq_ok] at hrun
    rcases hrun with ⟨type, _, ⟨htype, rfl⟩, _, _, ⟨rfl, rfl⟩, rfl, rfl⟩
    refine ⟨(Grown.refl hs).emit hbelow, ?_, rfl, rfl, fun hF hd hstore => ?_⟩
    · split
      · rintro _ ⟨⟩
      · exact emitted_below hbelow
    · simp only [callFunction, hfind, hfs, htype, bind_assoc, pure_bind]
      refine evalCode_runs hs hF hbelow hd hstore ?_
      intro env' y w w' _ hdatum _ hst'
      refine .pure ?_ hst'
      split
      · exact .none
      · exact .some hdatum

theorem function_lowers {info : NodeInfo} {funcName : String} {args : List ExecNode}
    (h : ∀ arg ∈ args, Lowers ctx sem lit arg) :
    Lowers ctx sem lit (.function info funcName args) := by
  intro s v s' hrun hs
  rw [visit, Checked.run_bind_eq_ok] at hrun
  rcases hrun with ⟨vs, s₁, hargs, hcall⟩
  have ha := visitArgs_lowered args h hargs hs
  rcases call_lowered sem hcall ha.grown.ready ha.below
    (ExecNode.argsFine args = true) with ⟨hg, hb, hscopes, hip, hruns⟩
  refine ⟨ha.grown.trans hg, hb, fun _ => hscopes.trans ha.scopes, ?_, fun hF hlit hv hstore => ?_⟩
  · rw [hip]
    exact ha.splits
  · rw [eval]
    have hF₁ := Final.of_grows hg.grows ha.grown.ready.isOpen hF
    refine (ha.runs hF₁ (hlit.prefix_ hg.cache) hv hstore).bind ha.grown.fresh
      fun env₁ xs store₁ _ hxs hst => ?_
    rcases hxs with ⟨ds, rfl, hds⟩
    have hlen := hds.length_eq
    have hdata : ∀ i : Fin vs.length, HoldsDatum sem env₁ (vs.get i) (ds.get (i.cast hlen)) :=
      fun i => List.forall₂_iff_get.mp hds |>.2 i i.isLt (hlen ▸ i.isLt)
    have hr := hruns hF hdata hst
    rw [callFunction_cast hlen] at hr
    exact hr

/-! ## 7. Statements and variables -/

/-- The scopes before and after a statement, and the variable it binds. -/
def openStmt (isolated : Bool) (s : State) : State :=
  if isolated then s.modifyScope ScopeStack.pushScope else s

def bindResult (name : String) (v : Option Value) (s : State) : State :=
  if name = "" then s else s.modifyScope (·.set name v)

def closeStmt (isolated : Bool) (s : State) : State :=
  if isolated then s.modifyScope ScopeStack.popScope else s

@[simp] theorem bindResult_builder (name : String) (v : Option Value) (s : State) :
    (bindResult name v s).builder = s.builder := by
  unfold bindResult
  split <;> rfl

@[simp] theorem bindResult_cache (name : String) (v : Option Value) (s : State) :
    (bindResult name v s).constListCache = s.constListCache := by
  unfold bindResult
  split <;> rfl

@[simp] theorem bindResult_outer (name : String) (v : Option Value) (s : State) :
    (bindResult name v s).scopeStack.outer = s.scopeStack.outer := by
  unfold bindResult
  split <;> rfl

theorem Ready.bindResult (h : Ready s) (hv : ValueBelow s.builder.fresh v) (name : String) :
    Ready (bindResult name v s) := by
  unfold CodeGen.bindResult
  split
  · exact h
  · refine h.modifyScope fun name' v' hv' => ?_
    by_cases he : name' = name
    · subst he
      rw [ScopeStack.lookup_set, Option.some.injEq] at hv'
      exact hv' ▸ hv
    · rw [ScopeStack.lookup_set_ne _ _ he] at hv'
      exact h.below name' v' hv'

theorem visitStmts_cons_run {isolated : Bool} {var : VarInfo} {arg : ExecNode}
    {args : List (VarInfo × ExecNode)} :
    (visitStmts ctx isolated ((var, arg) :: args)).run s = .ok ((), s') ↔
      ∃ v s₁, (getValue arg (visit ctx arg)).run (openStmt isolated s) = .ok (v, s₁) ∧
        (visitStmts ctx isolated args).run (closeStmt isolated (bindResult var.name v s₁)) =
          .ok ((), s') := by
  cases isolated with
  | true =>
    by_cases hn : var.name = ""
    · simp only [visitStmts, openStmt, closeStmt, bindResult, hn, if_true, ne_eq, not_true_eq_false,
        if_false, Checked.run_bind_eq_ok, Checked.run_modify_eq_ok]
      constructor
      · rintro ⟨_, _, rfl, v, s₁, h, _, _, rfl, h'⟩
        exact ⟨v, s₁, h, h'⟩
      · rintro ⟨v, s₁, h, h'⟩
        exact ⟨(), _, rfl, v, s₁, h, (), _, rfl, h'⟩
    · simp only [visitStmts, openStmt, closeStmt, bindResult, hn, if_true, ne_eq, not_false_eq_true,
        if_false, Checked.run_bind_eq_ok, Checked.run_modify_eq_ok]
      constructor
      · rintro ⟨_, _, rfl, v, s₁, h, _, _, rfl, _, _, rfl, h'⟩
        exact ⟨v, s₁, h, h'⟩
      · rintro ⟨v, s₁, h, h'⟩
        exact ⟨(), _, rfl, v, s₁, h, (), _, rfl, (), _, rfl, h'⟩
  | false =>
    by_cases hn : var.name = ""
    · simp only [visitStmts, openStmt, closeStmt, bindResult, hn, if_true, ne_eq, not_true_eq_false,
        if_false, Checked.run_bind_eq_ok, Bool.false_eq_true]
    · simp only [visitStmts, openStmt, closeStmt, bindResult, hn, ne_eq, not_false_eq_true, if_true,
        if_false, Checked.run_bind_eq_ok, Checked.run_modify_eq_ok, Bool.false_eq_true]
      constructor
      · rintro ⟨v, s₁, h, _, _, rfl, h'⟩
        exact ⟨v, s₁, h, h'⟩
      · rintro ⟨v, s₁, h, h'⟩
        exact ⟨v, s₁, h, (), _, rfl, h'⟩

/-- A binding of the generator and one of the interpreter. -/
theorem Holds.bindResult {env : Ssa.Env V} {store : Store V} (h : Holds sem env s.scopeStack store)
    {x : Option (Datum V)} (hx : Represents sem env v x) (name : String) :
    Holds sem env (bindResult name v s).scopeStack (bindValue name x store) := by
  unfold CodeGen.bindResult bindValue
  split
  · exact h
  intro name'
  change Option.Rel _ ((s.scopeStack.set name v).lookup name') _
  by_cases he : name' = name
  · subst he
    rw [ScopeStack.lookup_set, Function.update_self]
    exact .some hx
  · rw [ScopeStack.lookup_set_ne _ _ he, Function.update_of_ne he]
    exact h name'

/-- **A statement**: its value is bound, in the scopes and in the store. -/
theorem stmt_lowered {isolated : Bool} {name : String} {arg : ExecNode} {s₁ s₂ : State}
    (h : Lowers ctx sem lit arg)
    (hrun : (getValue arg (visit ctx arg)).run (openStmt isolated s) = .ok (v, s₁))
    (hs : Ready s) (hs₂ : s₂ = closeStmt isolated (bindResult name v s₁)) :
    Grown s s₂ (arg.whensFine = true) ∧
      (s₂.builder.insertPoint = s.builder.insertPoint ↔ arg.splits = false) ∧
      ∀ {F env store}, Final s₂.builder F → Literals lit s₂.constListCache →
        (arg.whensFine = true ∨ Verified F) → Holds sem env s.scopeStack store →
          RunsAt sem F s s₂ env (eval ctx sem lit arg store >>= fun r =>
            pure ((), if isolated then store else bindValue name r.1 r.2)) fun _ _ => True := by
  cases isolated with
  | true =>
    have hpush : Ready (s.modifyScope ScopeStack.pushScope) :=
      hs.modifyScope fun name v hv => hs.below name v (ScopeStack.lookup_pushScope _ name ▸ hv)
    have hl := h.getValue hrun hpush
    have hscopes : s₂.scopeStack = s.scopeStack := by
      rw [hs₂]
      exact ScopeStack.popScope_of_outer ((bindResult_outer name v s₁).trans hl.grown.outer)
    have hbuilder : s₂.builder = s₁.builder := by
      rw [hs₂]
      exact bindResult_builder name v s₁
    have hcache : s₂.constListCache = s₁.constListCache := by
      rw [hs₂]
      exact bindResult_cache name v s₁
    refine ⟨⟨hbuilder ▸ hl.grown.grows, ⟨?_, ?_, ?_, ?_⟩, ?_, ?_, ?_⟩, ?_, ?_⟩
    · exact hbuilder ▸ hl.grown.ready.isOpen
    · exact hbuilder ▸ hl.grown.ready.targets
    · rw [hscopes, hbuilder]
      exact fun name v hv => (hs.below name v hv).mono hl.grown.fresh
    · exact hcache ▸ hl.grown.ready.cached
    · rw [hscopes]
    · exact hcache ▸ hl.grown.cache
    · exact hbuilder ▸ hl.grown.sound
    · exact hbuilder ▸ hl.splits
    · intro F env store hF hlit hv hstore
      rw [RunsAt, hscopes, hbuilder]
      have hpushed : Holds sem env (s.modifyScope ScopeStack.pushScope).scopeStack store :=
        fun name => (ScopeStack.lookup_pushScope s.scopeStack name).symm ▸ hstore name
      refine (hl.runs (hbuilder ▸ hF) (hcache ▸ hlit) hv hpushed).bind (Nat.le_refl _)
        fun env₁ x store₁ hagree _ _ => ?_
      exact .weaken (.pure trivial (hstore.agree hs.below hagree)) hl.grown.fresh
  | false =>
    have hl := h.getValue hrun hs
    have hbuilder : s₂.builder = s₁.builder := by
      rw [hs₂]
      exact bindResult_builder name v s₁
    have hcache : s₂.constListCache = s₁.constListCache := by
      rw [hs₂]
      exact bindResult_cache name v s₁
    refine ⟨⟨hbuilder ▸ hl.grown.grows, ?_, ?_, ?_, ?_⟩, ?_, ?_⟩
    · rw [hs₂]
      exact hl.grown.ready.bindResult hl.below name
    · rw [hs₂]
      exact (bindResult_outer name v s₁).trans hl.grown.outer
    · exact hcache ▸ hl.grown.cache
    · exact hbuilder ▸ hl.grown.sound
    · exact hbuilder ▸ hl.splits
    · intro F env store hF hlit hv hstore
      rw [RunsAt, hbuilder]
      refine (hl.runs (hbuilder ▸ hF) (hcache ▸ hlit) hv hstore).bind (Nat.le_refl _)
        fun env₁ x store₁ _ hx hst => ?_
      refine .weaken (.pure trivial ?_) hl.grown.fresh
      rw [hs₂]
      exact hst.bindResult hx name

section Stmts

variable (ctx sem lit)

/-- The statements of a `NoOPNode`. -/
structure LoweredStmts (isolated : Bool) (args : List (VarInfo × ExecNode)) (s s' : State) :
    Prop where
  grown : Grown s s' (ExecNode.stmtsFine args = true)
  splits : s'.builder.insertPoint = s.builder.insertPoint ↔ ExecNode.stmtsSplit args = false
  runs : ∀ {F env store}, Final s'.builder F → Literals lit s'.constListCache →
    (ExecNode.stmtsFine args = true ∨ Verified F) → Holds sem env s.scopeStack store →
      RunsAt sem F s s' env (evalStmts ctx sem lit isolated args store >>= fun store =>
        pure ((), store)) fun _ _ => True

end Stmts

theorem visitStmts_lowered {isolated : Bool} : ∀ (args : List (VarInfo × ExecNode))
    {s s' : State}, (∀ arg ∈ args, Lowers ctx sem lit arg.2) →
      (visitStmts ctx isolated args).run s = .ok ((), s') → Ready s →
        LoweredStmts ctx sem lit isolated args s s' := by
  intro args
  induction args with
  | nil =>
    intro s s' _ hrun hs
    rw [visitStmts, Checked.run_pure_eq_ok] at hrun
    rcases hrun with ⟨-, rfl⟩
    refine ⟨.refl hs, by simp [ExecNode.stmtsSplit], fun _ _ _ hstore => ?_⟩
    rw [evalStmts, pure_bind]
    exact .pure trivial hstore
  | cons arg args ih =>
    intro s s' h hrun hs
    rcases visitStmts_cons_run.mp hrun with ⟨v, s₁, harg, hargs⟩
    rcases stmt_lowered (h arg List.mem_cons_self) harg hs rfl with ⟨hg, hsplit, hruns⟩
    have hs' := ih (fun a ha => h a (List.mem_cons_of_mem _ ha)) hargs hg.ready
    have hga := hg.mono fun (hgood : (arg.2.whensFine && ExecNode.stmtsFine args) = true) =>
      (Bool.and_eq_true_iff.mp hgood).1
    have hgs := hs'.grown.mono fun (hgood : (arg.2.whensFine && ExecNode.stmtsFine args) = true) =>
      (Bool.and_eq_true_iff.mp hgood).2
    refine ⟨hga.trans hgs, ?_, fun hF hlit hv hstore => ?_⟩
    · exact (hga.insertPoint_trans hgs).trans
        ((and_congr hsplit hs'.splits).trans (Bool.or_eq_false_iff).symm)
    · have heval : ∀ store : Store V, (evalStmts ctx sem lit isolated (arg :: args) store >>=
          fun store => pure ((), store)) =
          (eval ctx sem lit arg.2 store >>= fun r =>
            pure ((), if isolated then store else bindValue arg.1.name r.1 r.2)) >>= fun r =>
              evalStmts ctx sem lit isolated args r.2 >>= fun store => pure ((), store) := by
        intro store
        rw [evalStmts, bind_assoc, bind_assoc]
        simp only [pure_bind]
      rw [heval]
      have hF₁ := Final.of_grows hs'.grown.grows hg.ready.isOpen hF
      exact (hruns hF₁ (hlit.prefix_ hs'.grown.cache) (fine_left hv) hstore).bind hg.fresh
        fun env₁ _ store₁ _ _ hst => hs'.runs hF hlit (fine_right hv) hst

theorem noOP_lowers {info : NodeInfo} {args : List (VarInfo × ExecNode)} {isolated : Bool}
    (h : ∀ arg ∈ args, Lowers ctx sem lit arg.2) :
    Lowers ctx sem lit (.noOP info args isolated) := by
  intro s v s' hrun hs
  simp only [visit, Checked.run_bind_eq_ok, Checked.run_pure_eq_ok] at hrun
  rcases hrun with ⟨_, s₁, hstmts, rfl, rfl⟩
  have hl := visitStmts_lowered args h hstmts hs
  refine ⟨hl.grown, by rintro _ ⟨⟩, fun h => absurd rfl h, hl.splits, fun hF hlit hv hstore => ?_⟩
  have heval : ∀ store, eval ctx sem lit (.noOP info args isolated) store =
      (evalStmts ctx sem lit isolated args store >>= fun store => pure ((), store)) >>= fun r =>
        pure (none, r.2) := by
    intro store
    rw [eval, bind_assoc]
    rfl
  rw [heval]
  refine (hl.runs hF hlit hv hstore).bind (Nat.le_refl _) fun env₁ _ store₁ _ _ hst => ?_
  exact .weaken (.pure .none hst) hl.grown.fresh

theorem ref_lowers {info : NodeInfo} {name : String} : Lowers ctx sem lit (.ref info name) := by
  intro s v s' hrun hs
  rw [visit, Checked.run_bind_eq_ok] at hrun
  rcases hrun with ⟨t, u, hget, hrun⟩
  rcases Checked.run_get_eq_ok.mp hget with ⟨ht, hu⟩
  rw [ht, hu] at hrun
  cases hlook : s.scopeStack.lookup name with
  | none =>
    rw [hlook] at hrun
    exact absurd hrun Checked.run_throw_ne_ok
  | some value =>
    rw [hlook, Checked.run_pure_eq_ok] at hrun
    rcases hrun with ⟨rfl, rfl⟩
    refine ⟨.refl hs, hs.below name _ hlook, fun _ => rfl, by simp [ExecNode.splits], ?_⟩
    intro F env store _ _ _ hstore
    rw [eval]
    refine .pure ?_ hstore
    have hname := hstore name
    rw [hlook] at hname
    generalize store name = x at hname ⊢
    cases hname with
    | some h => exact h

end Rules

end CodeGen

end JitFusion
