/-
# Isolation inside a group

A group of pipelines is one isolated `NoOPNode`.  Both visitors give each of its children a scope of
its own and share one scope stack among them.  Below that scope there is only the scope of the
wrapper, which stays empty, so a child is validated as it is alone (`visit_deepens`), the generator
visits it with no variables (`VisitsAlone`), and a run of it begins and ends with none
(`runAlone`).
-/
import JitFusion.BatchValidation
import JitFusion.PipelineGrouper
import JitFusion.PlainLists
import JitFusion.WhenPhis

namespace JitFusion

/-! ## 1. An empty scope below the others -/

namespace ScopeStack

variable {V : Type}

/-- An empty scope below the others. -/
def deepen (st : ScopeStack V) : ScopeStack V := { st with outer := st.outer ++ [∅] }

theorem lookupIn_append_empty (name : String) (scopes : List (Scope V)) :
    lookupIn name (scopes ++ [∅]) = lookupIn name scopes := by
  induction scopes with
  | nil => rfl
  | cons s rest ih => rw [List.cons_append, lookupIn, lookupIn, ih]

theorem lookup_deepen (st : ScopeStack V) (name : String) :
    st.deepen.lookup name = st.lookup name :=
  lookupIn_append_empty name (st.top :: st.outer)

theorem getShadowed_deepen (st : ScopeStack V) : st.deepen.getShadowed = st.getShadowed := by
  unfold getShadowed knownIn
  simp only [deepen, lookupIn_append_empty]

theorem popScope_deepen {st : ScopeStack V} (h : st.outer ≠ []) :
    st.deepen.popScope = st.popScope.deepen := by
  obtain ⟨top, outer⟩ := st
  cases outer with
  | nil => exact absurd rfl h
  | cons s rest => rfl

end ScopeStack

/-! ## 2. The validator -/

namespace Validator

open Checked ScopeStack

variable {reg : FunctionRegistry}

/-- The step does the same in deeper scopes. -/
abbrev Deepens {α : Type} (m : M α) (st : ScopeStack VarEntry) : Prop :=
  Mirrors deepen id m m st

theorem bindStmt_deepen (var : VarInfo) (node : ExecNode) (st : ScopeStack VarEntry) :
    bindStmt var node st.deepen = (bindStmt var node st).map deepen := by
  unfold bindStmt trySetVar
  rw [lookup_deepen]
  split
  · rfl
  · cases checkVar (st.lookup var.name) node.getReturnType var.isConst <;> rfl

theorem setShadowed_deepen (acc : Scope ValueType) (st : ScopeStack VarEntry) :
    setShadowed st.deepen acc = (setShadowed st acc).deepen := by
  rw [setShadowed_eq, setShadowed_eq]
  rfl

theorem inBranch_deepens {error : ExecNode → Status} {body : ExecNode} {st : ScopeStack VarEntry}
    (h : ∀ st, Deepens (visit reg body) st) : Deepens (inBranch error (visit reg body)) st := by
  refine .modify_bind rfl ((h _).bind fun body' st₁ hrun => ?_)
  refine .guard_bind fun _ => .get_bind ?_
  simp only [getShadowed_deepen]
  refine .modify_bind (popScope_deepen ?_) (.pure _)
  rw [((visit_run_eq_ok body).mp hrun).keeps.outer]
  exact List.cons_ne_nil _ _

mutual

theorem visit_deepens : ∀ (node : ExecNode) (st : ScopeStack VarEntry),
    Deepens (visit reg node) st
  | .entryArgument _, _ | .execContext _, _ | .output _, _ | .constantValue _ _, _
  | .constantListValue _ _, _ => by
    rw [visit]
    exact .pure _
  | .unaryOP _ _ child, st => by
    rw [visit]
    exact (visit_deepens child st).bind fun _ _ _ => .liftM_bind fun _ _ => .pure _
  | .binaryOP _ _ left right, st => by
    rw [visit]
    exact (visit_deepens left st).bind fun _ st₁ _ => (visit_deepens right st₁).bind fun _ _ _ =>
      .liftM_bind fun _ _ => .pure _
  | .function _ _ args, st => by
    rw [visit]
    exact (visitArgs_deepens _ args st).bind fun _ _ _ => .liftM_bind fun _ _ => .pure _
  | .noOP _ args isolated, st => by
    rw [visit]
    exact (visitStmts_deepens isolated args st).bind fun _ _ _ => .pure _
  | .ifNode _ args, st => by
    rw [visit]
    refine .guard_bind fun _ => ?_
    exact (visitArgs_deepens _ args st).bind fun _ _ _ => .liftM_bind fun _ _ => .pure _
  | .switchNode _ args, st => by
    rw [visit]
    refine .guard_bind fun _ => ?_
    exact (visitArgs_deepens _ args st).bind fun _ _ _ => .liftM_bind fun _ _ => .pure _
  | .ifBlock _ args, st => by
    rw [visit]
    refine .guard_bind fun _ => ?_
    exact (visitBranches_deepens ∅ args st).bind fun r st₁ _ =>
      .modify_bind (setShadowed_deepen r.2 st₁) (.pure _)
  | .ref info name, st => by
    rw [visit]
    refine .get_bind ?_
    rw [lookup_deepen]
    cases st.lookup name with
    | none => exact .throw _
    | some entry => exact .pure _

theorem visitArgs_deepens (voidError : ExecNode → Status) : ∀ (args : List ExecNode)
    (st : ScopeStack VarEntry), Deepens (visitArgs reg voidError args) st
  | [], _ => .pure _
  | arg :: args, st => by
    rw [visitArgs]
    refine (visit_deepens arg st).bind fun _ st₁ _ => .guard_bind fun _ => ?_
    exact (visitArgs_deepens voidError args st₁).bind fun _ _ _ => .pure _

theorem visitStmts_deepens (isolated : Bool) : ∀ (args : List (VarInfo × ExecNode))
    (st : ScopeStack VarEntry), Deepens (visitStmts reg isolated args) st
  | [], _ => .pure _
  | (var, arg) :: args, st => by
    rw [visitStmts]
    refine .modify_bind (u := enterStmt isolated) ?_
      ((visit_deepens arg _).bind fun arg' st₁ hrun => .get_bind ?_)
    · cases isolated <;> rfl
    rw [id_eq, bindStmt_deepen]
    refine .liftM_map_bind fun st₂ hb => ?_
    have hleave : leaveStmt isolated st₂.deepen = (leaveStmt isolated st₂).deepen := by
      cases isolated with
      | false => rfl
      | true =>
        refine popScope_deepen ?_
        rw [(Keeps.bindStmt hb).outer, ((visit_run_eq_ok arg).mp hrun).keeps.outer]
        exact List.cons_ne_nil _ _
    rw [hleave]
    exact .set_bind ((visitStmts_deepens isolated args _).bind fun _ _ _ => .pure _)

theorem visitBranches_deepens (acc : Scope ValueType) : ∀ (args : List ExecNode)
    (st : ScopeStack VarEntry), Deepens (visitBranches reg acc args) st
  | [], _ => .pure _
  | [body], _ => by
    rw [visitBranches]
    exact (inBranch_deepens (visit_deepens body)).bind fun _ _ _ => .pure _
  | cond :: body :: args, st => by
    rw [visitBranches]
    refine (visit_deepens cond st).bind fun cond' st₁ _ => .guard_bind fun _ => ?_
    refine (inBranch_deepens (visit_deepens body)).bind fun r st₂ _ => ?_
    exact (visitBranches_deepens _ args st₂).bind fun _ _ _ => .pure _

end

theorem deepen_popScope_of_outer {st : ScopeStack VarEntry} (h : st.outer = []) :
    st.deepen.popScope = {} := by
  obtain ⟨top, outer⟩ := st
  subst h
  rfl

/-- Isolated roots are validated one by one. -/
theorem visitStmts_isolated_run (roots : List ExecNode) :
    (visitStmts reg true (roots.map fun root => ({}, root))).run {} =
      (validateEach reg roots).map fun nodes => (nodes.map fun node => ({}, node), {}) := by
  induction roots with
  | nil => rfl
  | cons root roots ih =>
    have hroot : (visit reg root).run (deepen {}) = _ := visit_deepens root {}
    rw [List.map_cons, visitStmts, run_modify_bind]
    change StateT.run _ (deepen {}) = _
    cases hrun : (visit reg root).run {} with
    | error e =>
      rw [hrun] at hroot
      rw [run_bind_error hroot, validateEach, List.mapM_cons, validate, hrun]
      rfl
    | ok r =>
      rw [hrun] at hroot
      have houter : r.2.outer = [] := ((visit_run_eq_ok root).mp hrun).keeps.outer
      have hpop : leaveStmt true r.2.deepen = {} := deepen_popScope_of_outer houter
      rw [run_bind_ok hroot, validateEach, List.mapM_cons, validate, hrun]
      change (visitStmts reg true (roots.map fun root => ({}, root)) >>= fun args =>
        pure (({}, r.1) :: args)).run (leaveStmt true r.2.deepen) = _
      rw [hpop, StateT.run_bind, ih, validateEach]
      cases roots.mapM fun node => (validate reg node).map Prod.fst <;> rfl

/-- **Isolated roots are validated one by one**: the wrapper is accepted if each root is accepted by
a validator of its own, with the same types, and otherwise the first error is the same. -/
theorem validate_isolatedNoOP (roots : List ExecNode) :
    validate reg (PipelineGrouper.isolatedNoOP roots) = (validateEach reg roots).map fun nodes =>
      (.noOP { returnType := .kVoid } (nodes.map fun node => ({}, node)) true, {}) := by
  rw [validate, PipelineGrouper.isolatedNoOP, visit, StateT.run_bind, visitStmts_isolated_run]
  cases validateEach reg roots <;> rfl

end Validator

/-! ## 3. The interpreter -/

namespace CodeGen

open Checked Interpreter Validator

variable {V W E : Type} {ctx : Context} {sem : Ssa.Semantics Opcode Literal V W E}

/-- A pipeline alone: no variables are there before it, and none are left. -/
def runAlone (ctx : Context) (sem : Ssa.Semantics Opcode Literal V W E) (node : ExecNode) :
    Checked.M W E Unit := do
  let _ ← eval ctx sem Literal.list node fun _ => none

/-- An isolated statement for each of the nodes, with its type. -/
def isolatedVoid (nodes : List ExecNode) : ExecNode :=
  .noOP { returnType := .kVoid } (nodes.map fun node => ({}, node)) true

/-- **An isolated statement leaves the store as it was.** -/
theorem evalStmts_isolated {lit : ConstantListValueType → Literal} {store : Store V}
    (nodes : List ExecNode) : evalStmts ctx sem lit true (nodes.map fun node => ({}, node)) store =
      (forM nodes fun node => do let _ ← eval ctx sem lit node store) >>= fun _ => pure store := by
  induction nodes with
  | nil => rfl
  | cons node nodes ih =>
    rw [List.map_cons, evalStmts, List.forM_cons, bind_assoc, bind_assoc]
    refine congrArg _ (funext fun r => ?_)
    rw [pure_bind]
    exact ih

theorem eval_isolatedVoid (nodes : List ExecNode) :
    eval ctx sem Literal.list (isolatedVoid nodes) (fun _ => none) =
      forM nodes (runAlone ctx sem) >>= fun _ => pure (none, fun _ => none) := by
  rw [isolatedVoid, eval, evalStmts_isolated, bind_assoc]
  rfl

theorem isolatedVoid_lists (nodes : List ExecNode) :
    (isolatedVoid nodes).lists = nodes.flatMap ExecNode.lists := by
  induction nodes with
  | nil => rfl
  | cons node nodes ih => exact congrArg (node.lists ++ ·) ih

/-- **Each node is visited with no variables**, and what it binds is gone behind it. -/
inductive VisitsAlone (ctx : Context) : List ExecNode → State → State → Prop
  | nil {s} : VisitsAlone ctx [] s s
  | cons {node nodes s v s₁ s₂} (hscopes : ∀ name, s.scopeStack.pushScope.lookup name = none)
      (hrun : (getValue node (visit ctx node)).run (s.modifyScope ScopeStack.pushScope) =
        .ok (v, s₁))
      (hrest : VisitsAlone ctx nodes (s₁.modifyScope ScopeStack.popScope) s₂) :
    VisitsAlone ctx (node :: nodes) s s₂

theorem visitStmts_alone (nodes : List ExecNode) {s s' : State}
    (hrun : (visitStmts ctx true (nodes.map fun node => ({}, node))).run s = .ok ((), s'))
    (hs : Ready s) (hnone : ∀ name, s.scopeStack.lookup name = none) :
    VisitsAlone ctx nodes s s' := by
  induction nodes generalizing s with
  | nil =>
    rw [List.map_nil, visitStmts, run_pure_eq_ok] at hrun
    rw [hrun.2]
    exact .nil
  | cons node nodes ih =>
    rw [List.map_cons] at hrun
    obtain ⟨v, s₁, hnode, hrest⟩ := visitStmts_cons_run.mp hrun
    have hnode' : Lowers ctx bitMachine Literal.list node := visit_lowers bitMachine_bits node
    have hgrown := stmt_grown "" hnode hs
    have hpush : Ready (s.modifyScope ScopeStack.pushScope) :=
      hs.modifyScope fun name v hv => hs.below name v (ScopeStack.lookup_pushScope _ name ▸ hv)
    have hscopes : (s₁.modifyScope ScopeStack.popScope).scopeStack = s.scopeStack :=
      ScopeStack.popScope_of_outer (hnode'.getValue hnode hpush).grown.outer
    refine .cons (fun name => ?_) hnode (ih hrest hgrown.ready ?_)
    · rw [ScopeStack.lookup_pushScope, hnone]
    · intro name
      rw [hscopes, hnone]

/-! ## 4. The roots of a group -/

/-- A run of the entry function of a pipeline alone. -/
theorem runAlone_runs (hbits : BitSemantics sem) {node : ExecNode} {s' : State}
    (hplain : ∀ l ∈ node.lists, IsPlain l)
    (hrun : (buildEntryFunction ctx node).run entryState = .ok ((), s'))
    (hverified : Verified s'.builder.blocks) (w : W) :
    Ssa.Simulates sem s'.builder.blocks (.at 0 0 (fun _ => none) w) (runAlone ctx sem node) w
      fun _ w' c => ∃ v, c = .returned v w' := by
  have h := entry_runs hbits hrun (.inr hverified) w
  rw [eval_literalOf hrun hplain] at h
  exact h.bind fun r w' c hc => .pure ⟨_, hc⟩

/-- The entry function of isolated nodes. -/
theorem isolatedVoid_runs (hbits : BitSemantics sem) {nodes : List ExecNode} {s' : State}
    (hplain : ∀ node ∈ nodes, ∀ l ∈ node.lists, IsPlain l)
    (hrun : (buildEntryFunction ctx (isolatedVoid nodes)).run entryState = .ok ((), s'))
    (hverified : Verified s'.builder.blocks) (w : W) :
    Ssa.Simulates sem s'.builder.blocks (.at 0 0 (fun _ => none) w)
      (forM nodes (runAlone ctx sem)) w fun _ w' c => c = .returned none w' := by
  have hlists : ∀ l ∈ (isolatedVoid nodes).lists, IsPlain l := by
    intro l hl
    rw [isolatedVoid_lists, List.mem_flatMap] at hl
    obtain ⟨node, hnode, hl⟩ := hl
    exact hplain node hnode l hl
  have h := entry_runs hbits hrun (.inr hverified) w
  rw [eval_literalOf hrun hlists, eval_isolatedVoid] at h
  have h' : Ssa.Simulates sem s'.builder.blocks (.at 0 0 (fun _ => none) w)
      ((forM nodes (runAlone ctx sem) >>= fun _ => pure (none, fun _ => none)) >>=
        fun _ => pure ()) w
      fun _ w' c => c = .returned none w' := h.bind fun _ _ _ hc => .pure hc
  rw [bind_assoc] at h'
  exact (bind_pure (forM nodes (runAlone ctx sem))) ▸ h'

/-- In the entry function of isolated nodes each is visited alone. -/
theorem isolatedVoid_visits {nodes : List ExecNode} {s' : State}
    (hrun : (buildEntryFunction ctx (isolatedVoid nodes)).run entryState = .ok ((), s')) :
    ∃ s₁, VisitsAlone ctx nodes entryState s₁ ∧
      s' = (s₁.visit .kVoid none).createRet none := by
  obtain ⟨v, s₁, hvalue, rfl⟩ := buildEntryFunction_run hrun
  obtain ⟨s₂, hvisit, rfl⟩ := getValue_run.mp hvalue
  simp only [isolatedVoid, visit, run_bind_eq_ok, run_pure_eq_ok] at hvisit
  obtain ⟨_, s₃, hstmts, rfl, rfl⟩ := hvisit
  exact ⟨_, visitStmts_alone nodes hstmts entryState_ready fun _ => rfl, rfl⟩

/-- The nodes of accepted roots have the lists of the roots. -/
theorem validateEach_plain {roots nodes : List ExecNode}
    (h : validateEach ctx.functionRegistry roots = .ok nodes)
    (hplain : ∀ root ∈ roots, ∀ l ∈ root.lists, IsPlain l) :
    ∀ node ∈ nodes, ∀ l ∈ node.lists, IsPlain l := by
  intro node hnode
  obtain ⟨root, hroot, st, hvisits⟩ := forall₂_exists_left (validateEach_eq_ok.mp h) node hnode
  rw [hvisits.lists]
  exact hplain root hroot

/-- **Isolation inside a group.**  An isolated wrapper is validated like each root on a validator
of its own.  Its code visits each root with no variables, and runs what the roots' own code runs,
one after the other. -/
theorem isolated_roots (hbits : BitSemantics sem) {roots : List ExecNode}
    (hplain : ∀ root ∈ roots, ∀ l ∈ root.lists, IsPlain l) :
    validate ctx.functionRegistry (PipelineGrouper.isolatedNoOP roots) =
      (validateEach ctx.functionRegistry roots).map (fun nodes => (isolatedVoid nodes, {})) ∧
    ∀ {nodes}, validateEach ctx.functionRegistry roots = .ok nodes →
      (∀ {s'}, (buildEntryFunction ctx (isolatedVoid nodes)).run entryState = .ok ((), s') →
        (∃ s₁, VisitsAlone ctx nodes entryState s₁ ∧
          s' = (s₁.visit .kVoid none).createRet none) ∧
        (Verified s'.builder.blocks → ∀ w,
          Ssa.Simulates sem s'.builder.blocks (.at 0 0 (fun _ => none) w)
            (forM nodes (runAlone ctx sem)) w fun _ w' c => c = .returned none w')) ∧
      ∀ node ∈ nodes, ∀ {s'}, (buildEntryFunction ctx node).run entryState = .ok ((), s') →
        Verified s'.builder.blocks → ∀ w,
          Ssa.Simulates sem s'.builder.blocks (.at 0 0 (fun _ => none) w) (runAlone ctx sem node) w
            fun _ w' c => ∃ v, c = .returned v w' := by
  refine ⟨validate_isolatedNoOP roots, fun {nodes} hnodes => ?_⟩
  have hplain' := validateEach_plain hnodes hplain
  refine ⟨fun hrun => ⟨isolatedVoid_visits hrun, isolatedVoid_runs hbits hplain' hrun⟩, ?_⟩
  exact fun node hnode _ hrun => runAlone_runs hbits (hplain' node hnode) hrun

/-! ## 5. Two variables of one name -/

/-- `x = 1; f(x);` and `let x = [1.0]; f(2);`, of which the second has its own `x`. -/
def sameName : List ExecNode :=
  [.noOP {} [({ name := "x" }, .constantValue {} (.i32 1)),
      ({}, .function {} "f" [.ref {} "x"])] false,
    .noOP {} [({ name := "x", isConst := true }, .constantListValue {} (.f64 [0x3FF0000000000000])),
      ({}, .function {} "f" [.constantValue {} (.i32 2)])] false]

theorem sameName_isolated : ∃ nodes s',
    validate exampleContext.functionRegistry (PipelineGrouper.isolatedNoOP sameName) =
      .ok (isolatedVoid nodes, {}) ∧
    (buildEntryFunction exampleContext (isolatedVoid nodes)).run entryState = .ok ((), s') ∧
    Ssa.Simulates callLog s'.builder.blocks (.at 0 0 (fun _ => none) [])
      (forM nodes (runAlone exampleContext callLog)) [] fun _ w' c => c = .returned none w' := by
  have hplain : ∀ root ∈ sameName, ∀ l ∈ root.lists, IsPlain l := by
    intro root hroot l hl
    simp only [sameName, List.mem_cons, List.not_mem_nil, or_false] at hroot
    rcases hroot with rfl | rfl
    · simp [ExecNode.lists, ExecNode.stmtsLists, ExecNode.argsLists] at hl
    · simp only [ExecNode.lists, ExecNode.stmtsLists, ExecNode.argsLists, List.append_nil,
        List.mem_singleton] at hl
      subst hl
      simp only [IsPlain, List.mem_singleton, forall_eq]
      decide
  have hbuild : ∃ nodes s', validateEach exampleContext.functionRegistry sameName = .ok nodes ∧
      (buildEntryFunction exampleContext (isolatedVoid nodes)).run entryState = .ok ((), s') ∧
      (isolatedVoid nodes).whensFine = true := ⟨_, _, rfl, rfl, rfl⟩
  obtain ⟨nodes, s', hnodes, hrun, hfine⟩ := hbuild
  refine ⟨nodes, s', ?_, hrun, (((isolated_roots callLog_bits hplain).2 hnodes).1 hrun).2
    (entry_verified hrun hfine) []⟩
  rw [(isolated_roots callLog_bits hplain).1, hnodes]
  rfl

end CodeGen

end JitFusion
