/-
# Chains of clauses

`when c { … }` may be followed by any number of `elif` and `else` clauses, in any order
(`elif_chain` of `athena/parser.yy`).  The kind of a clause is not kept: the arguments of the
`IfBlockNode` are the conditions and the blocks in a row, and the validator and the code generator
read them by position (`GuardedList.ofFlat`).

An `else` clause that is not the last puts its block where a condition is read.  A block is void,
a condition is numeric, so the validator rejects it; in a pipeline it accepts every chain reads
as it was written (`whenChains_decoded`).
-/
import Mathlib.Data.List.Induction
import JitFusion.AstBuild
import JitFusion.CodeGen
import JitFusion.Lib.GuardedList
import JitFusion.Typing

namespace JitFusion

open Athena
open TypeHelper (isNumericType)
open Validator (VarEntry Visits VisitsStmts VisitsBranches)

/-! ## 1. Chains of a program -/

namespace Athena

/-- There is nothing after an `else` clause. -/
def ElseLast (chain : List Clause) : Prop :=
  ∀ pre block post, chain = pre ++ .else_ block :: post → post = []

mutual

/-- The chains of the when-blocks of a statement, also of the blocks inside its blocks. -/
def Stmt.chains : Stmt → List (List Clause)
  | .assign _ _ | .let_ _ _ | .expr _ => []
  | .when_ _ _ _ block chain => chain :: (stmtsChains block ++ clausesChains chain)

def stmtsChains : List Stmt → List (List Clause)
  | [] => []
  | stmt :: stmts => stmt.chains ++ stmtsChains stmts

def Clause.chains : Clause → List (List Clause)
  | .elif _ block | .else_ block => stmtsChains block

def clausesChains : List Clause → List (List Clause)
  | [] => []
  | clause :: clauses => clause.chains ++ clausesChains clauses

end

def Program.chains (p : Program) : List (List Clause) := stmtsChains p.statements

/-! ## 2. Reading a chain back -/

section Reads

variable (source : String)

mutual

/-- The tree of a statement reads as it was written: in a when-block the conditions are the guards
of their blocks, and the block of an `else` clause is the body without a guard. -/
inductive StmtReads : Defs → Stmt → ExecNode → Prop
  | plain {defs stmt e} (hw : stmt.isWhen = false)
      (ht : stmt.tree .kPipeline source defs = some e) : StmtReads defs stmt e
  | when_ {defs keyword loc cond block chain info args c body branches otherwise}
      (hc : cond.tree .kPipeline source defs = some c) (hb : StmtsRead defs block body)
      (hs : ClausesRead defs chain branches otherwise)
      (hd : GuardedList.ofFlat args = ⟨(c, .noOP {} body false) :: branches, otherwise⟩) :
      StmtReads defs (.when_ keyword loc cond block chain) (.ifBlock info args)

inductive StmtsRead : Defs → List Stmt → List (VarInfo × ExecNode) → Prop
  | nil {defs} : StmtsRead defs [] []
  | cons {defs stmt stmts e args} (h : StmtReads defs stmt e)
      (hs : StmtsRead (stmt.addTo (some e) defs) stmts args) :
      StmtsRead defs (stmt :: stmts) ((stmt.var, e) :: args)

inductive ClausesRead :
    Defs → List Clause → List (ExecNode × ExecNode) → Option ExecNode → Prop
  | nil {defs} : ClausesRead defs [] [] none
  | else_ {defs block body} (hb : StmtsRead defs block body) :
      ClausesRead defs [.else_ block] [] (some (.noOP {} body false))
  | elif {defs cond block chain c body branches otherwise}
      (hc : cond.tree .kPipeline source defs = some c) (hb : StmtsRead defs block body)
      (hs : ClausesRead defs chain branches otherwise) :
      ClausesRead defs (.elif cond block :: chain) ((c, .noOP {} body false) :: branches) otherwise

end

end Reads

/-! ## 3. What the validator accepts -/

section Accepted

variable {reg : FunctionRegistry} {source : String}

/-- A clause has a block. -/
theorem eq_nil_of_chainTree {defs : Defs} {chain : List Clause}
    (h : chainTree .kPipeline source defs chain = some []) : chain = [] := by
  cases chain with
  | nil => rfl
  | cons clause chain =>
    rw [chainTree] at h
    rcases Option.bind_eq_some_iff.mp h with ⟨args, hclause, h⟩
    rcases Option.map_eq_some_iff.mp h with ⟨rest, -, hnil⟩
    have hargs : args = [] := (List.append_eq_nil_iff.mp hnil).1
    subst hargs
    cases clause with
    | elif cond block =>
      rw [clauseTree] at hclause
      rcases Option.bind_eq_some_iff.mp hclause with ⟨c, -, hclause⟩
      rcases Option.map_eq_some_iff.mp hclause with ⟨body, -, hbody⟩
      cases hbody
    | else_ block =>
      rw [clauseTree] at hclause
      rcases Option.map_eq_some_iff.mp hclause with ⟨body, -, hbody⟩
      cases hbody

mutual

theorem stmtReads_of_visits : ∀ (stmt : Stmt) {defs : Defs} {e e' : ExecNode}
    {st st' : ScopeStack VarEntry}, stmt.tree .kPipeline source defs = some e →
      Visits reg st e e' st' → StmtReads source defs stmt e
  | .assign _ _, _, _, _, _, _, ht, _ => .plain rfl ht
  | .let_ _ _, _, _, _, _, _, ht, _ => .plain rfl ht
  | .expr _, _, _, _, _, _, ht, _ => .plain rfl ht
  | .when_ keyword loc cond block chain, defs, e, e', st, st', ht, hv => by
    rw [Stmt.tree] at ht
    rcases Option.bind_eq_some_iff.mp ht with ⟨c, hc, ht⟩
    rcases Option.bind_eq_some_iff.mp ht with ⟨body, hbody, ht⟩
    rcases Option.map_eq_some_iff.mp ht with ⟨rest, hrest, rfl⟩
    cases hv with
    | ifBlock _ hb =>
      cases hb with
      | cons _ _ h _ hs =>
        cases h with
        | noOP h =>
          rcases clausesRead_of_visits chain hrest hs with ⟨branches, otherwise, hd, hread⟩
          refine .when_ hc (stmtsRead_of_visits block hbody h) hread ?_
          rw [GuardedList.ofFlat_cons_cons, hd]

theorem stmtsRead_of_visits : ∀ (stmts : List Stmt) {defs : Defs}
    {args args' : List (VarInfo × ExecNode)} {st st' : ScopeStack VarEntry},
      stmtsTree .kPipeline source defs stmts = some args →
        VisitsStmts reg false st args args' st' → StmtsRead source defs stmts args
  | [], _, _, _, _, _, ht, _ => by
    obtain rfl := Option.some.inj ht
    exact .nil
  | stmt :: stmts, defs, args, args', st, st', ht, hv => by
    rw [stmtsTree] at ht
    rcases Option.bind_eq_some_iff.mp ht with ⟨e, he, ht⟩
    rcases Option.map_eq_some_iff.mp ht with ⟨rest, hrest, rfl⟩
    rw [he] at hrest
    cases hv with
    | cons h _ hs =>
      exact .cons (stmtReads_of_visits stmt he h) (stmtsRead_of_visits stmts hrest hs)

/-- After an `else` clause there is no other: its block would be read as a condition. -/
theorem clausesRead_of_visits : ∀ (chain : List Clause) {defs : Defs} {args args' : List ExecNode}
    {acc acc' : Scope ValueType} {st st' : ScopeStack VarEntry},
      chainTree .kPipeline source defs chain = some args →
        VisitsBranches reg acc st args args' acc' st' →
          ∃ branches otherwise, GuardedList.ofFlat args = ⟨branches, otherwise⟩ ∧
            ClausesRead source defs chain branches otherwise
  | [], _, _, _, _, _, _, _, ht, _ => by
    obtain rfl := Option.some.inj ht
    exact ⟨[], none, GuardedList.ofFlat_nil, .nil⟩
  | .elif cond block :: chain, defs, args, args', acc, acc', st, st', ht, hv => by
    rw [chainTree, clauseTree] at ht
    rcases Option.bind_eq_some_iff.mp ht with ⟨clause, hclause, ht⟩
    rcases Option.bind_eq_some_iff.mp hclause with ⟨c, hc, hclause⟩
    rcases Option.map_eq_some_iff.mp hclause with ⟨body, hbody, rfl⟩
    rcases Option.map_eq_some_iff.mp ht with ⟨rest, hrest, rfl⟩
    cases hv with
    | cons _ _ h _ hs =>
      cases h with
      | noOP h =>
        rcases clausesRead_of_visits chain hrest hs with ⟨branches, otherwise, hd, hread⟩
        refine ⟨_, otherwise, ?_, .elif hc (stmtsRead_of_visits block hbody h) hread⟩
        rw [List.cons_append, List.cons_append, List.nil_append, GuardedList.ofFlat_cons_cons, hd]
  | .else_ block :: chain, defs, args, args', acc, acc', st, st', ht, hv => by
    rw [chainTree, clauseTree] at ht
    rcases Option.bind_eq_some_iff.mp ht with ⟨clause, hclause, ht⟩
    rcases Option.map_eq_some_iff.mp hclause with ⟨body, hbody, rfl⟩
    rcases Option.map_eq_some_iff.mp ht with ⟨rest, hrest, rfl⟩
    cases hv with
    | elseBody h _ =>
      obtain rfl := eq_nil_of_chainTree hrest
      cases h with
      | noOP h =>
        exact ⟨[], _, GuardedList.ofFlat_singleton _, .else_ (stmtsRead_of_visits block hbody h)⟩
    | cons hc hn _ _ _ =>
      -- the block in the place of a condition is void
      cases hc with
      | noOP _ => exact nomatch hn

end

end Accepted

/-! ## 4. `else` is the last clause -/

section Shape

variable {source : String}

theorem ElseLast.nil : ElseLast [] := by
  intro pre block post h
  cases pre <;> exact nomatch h

theorem ElseLast.single (block : List Stmt) : ElseLast [.else_ block] := by
  intro pre block' post h
  cases pre with
  | nil => exact (List.cons.inj h).2.symm
  | cons clause pre =>
    cases pre <;> exact nomatch (List.cons.inj h).2

theorem ElseLast.elif {chain : List Clause} (h : ElseLast chain) (cond : Term)
    (block : List Stmt) : ElseLast (.elif cond block :: chain) := by
  intro pre block' post hchain
  cases pre with
  | nil => exact nomatch (List.cons.inj hchain).1
  | cons clause pre => exact h pre block' post (List.cons.inj hchain).2

theorem ClausesRead.elseLast {defs : Defs} {chain : List Clause}
    {branches : List (ExecNode × ExecNode)} {otherwise : Option ExecNode} :
    ClausesRead source defs chain branches otherwise → ElseLast chain
  | .nil => .nil
  | .else_ _ => .single _
  | .elif _ _ hs => hs.elseLast.elif _ _

theorem chains_of_isWhen {stmt : Stmt} (h : stmt.isWhen = false) : stmt.chains = [] := by
  cases stmt with
  | when_ => exact nomatch h
  | _ => rfl

mutual

/-- Every chain in a statement that reads as it was written. -/
theorem StmtReads.chains {defs : Defs} {stmt : Stmt} {e : ExecNode} :
    StmtReads source defs stmt e → ∀ chain ∈ stmt.chains, ElseLast chain
  | .plain hw _ => by
    rw [chains_of_isWhen hw]
    exact fun _ h => nomatch h
  | .when_ _ hb hs _ => by
    rw [Stmt.chains, List.forall_mem_cons, List.forall_mem_append]
    exact ⟨hs.elseLast, hb.chains, hs.chains⟩

theorem StmtsRead.chains {defs : Defs} {stmts : List Stmt} {args : List (VarInfo × ExecNode)} :
    StmtsRead source defs stmts args → ∀ chain ∈ stmtsChains stmts, ElseLast chain
  | .nil => by simp [stmtsChains]
  | .cons h hs => by
    rw [stmtsChains, List.forall_mem_append]
    exact ⟨h.chains, hs.chains⟩

theorem ClausesRead.chains {defs : Defs} {clauses : List Clause}
    {branches : List (ExecNode × ExecNode)} {otherwise : Option ExecNode} :
    ClausesRead source defs clauses branches otherwise →
      ∀ chain ∈ clausesChains clauses, ElseLast chain
  | .nil => by simp [clausesChains]
  | .else_ hb => by
    rw [clausesChains, clausesChains, List.append_nil]
    exact hb.chains
  | .elif _ hb hs => by
    rw [clausesChains, List.forall_mem_append]
    exact ⟨hb.chains, hs.chains⟩

end

end Shape

end Athena

/-! ## 5. The two visitors on a guarded list -/

namespace Validator

/-- The branches of a when-block: each guard numeric, each body void and in a scope of its own. -/
def visitGuarded (reg : FunctionRegistry) (allShadowed : Scope ValueType) :
    List (ExecNode × ExecNode) → Option ExecNode → M (GuardedList ExecNode × Scope ValueType)
  | [], none => return (⟨[], none⟩, allShadowed)
  | [], some body => do
    let (body, shadowed) ← inBranch ifBlockElseError (visit reg body)
    return (⟨[], some body⟩, addShadowed allShadowed shadowed)
  | (guard, body) :: branches, otherwise => do
    let guard ← visit reg guard
    if isNumericType guard.getReturnType = false then throw (ifBlockCondError guard)
    let (body, shadowed) ← inBranch ifBlockBodyError (visit reg body)
    let (g, allShadowed) ←
      visitGuarded reg (addShadowed allShadowed shadowed) branches otherwise
    return (⟨(guard, body) :: g.branches, g.otherwise⟩, allShadowed)

/-- **The validator reads the arguments of a when-block as a guarded list.** -/
theorem visitBranches_eq (reg : FunctionRegistry) (args : List ExecNode)
    (allShadowed : Scope ValueType) : visitBranches reg allShadowed args = do
      let (g, allShadowed) ← visitGuarded reg allShadowed (GuardedList.ofFlat args).branches
        (GuardedList.ofFlat args).otherwise
      return (g.flat, allShadowed) := by
  induction args using List.twoStepInduction generalizing allShadowed with
  | nil =>
    rw [GuardedList.ofFlat_nil]
    rfl
  | singleton body =>
    rw [GuardedList.ofFlat_singleton]
    simp [visitBranches, visitGuarded, GuardedList.flat]
  | cons_cons guard body args ih _ =>
    rw [GuardedList.ofFlat_cons_cons, visitBranches, visitGuarded]
    simp only [bind_assoc]
    refine bind_congr fun guard => ?_
    split <;> simp [ih, GuardedList.flat]

end Validator

namespace CodeGen

/-- The branches of a when-block, the body without a guard first and then from the last to the
first: a guard branches to its body, or else to the block of the next guard. -/
def visitGuarded (ctx : Context) (mergeBlock : Nat) :
    List (ExecNode × ExecNode) → Option ExecNode → Gen IfBranches
  | [], none => return ⟨[], mergeBlock, none⟩
  | [], some body => do
    let elseBlock ← createBlock .ifblockElse
    modify (·.setInsertPoint elseBlock)
    let info ← getBranchBody body (visit ctx body) mergeBlock
    return ⟨[info], elseBlock, none⟩
  | (guard, body) :: rest, otherwise => do
    let branches ← visitGuarded ctx mergeBlock rest otherwise
    let condBlock ← createBlock .ifblockCond
    modify (·.setInsertPoint condBlock)
    let condValue ← getCondition "if block condition" guard (visit ctx guard)
    let bodyBlock ← createBlock .ifblockBody
    modify (·.createCondBr condValue bodyBlock branches.prevFalseBlock)
    modify (·.setInsertPoint bodyBlock)
    let info ← getBranchBody body (visit ctx body) mergeBlock
    return ⟨branches.branchInfos ++ [info], condBlock,
      some (branches.lastCondBlock.getD condBlock)⟩

/-- **The code generator reads the arguments of a when-block as the same guarded list.** -/
theorem visitIfBranches_eq (ctx : Context) (mergeBlock : Nat) (args : List ExecNode) :
    visitIfBranches ctx mergeBlock args = visitGuarded ctx mergeBlock
      (GuardedList.ofFlat args).branches (GuardedList.ofFlat args).otherwise := by
  induction args using List.twoStepInduction with
  | nil =>
    rw [GuardedList.ofFlat_nil]
    rfl
  | singleton body => rw [GuardedList.ofFlat_singleton, visitIfBranches, visitGuarded]
  | cons_cons guard body args ih _ =>
    rw [GuardedList.ofFlat_cons_cons, visitIfBranches, visitGuarded, ih]

end CodeGen

/-! ## 6. Accepted pipelines -/

/-- The chains of a pipeline with the tree `node` read as they were written. -/
structure ChainsRead (code : String) (parse : Parse) (node : ExecNode) : Prop where
  elseLast : ∀ chain ∈ parse.program.chains, ElseLast chain
  reads : ∃ args, node = .noOP {} args false ∧ StmtsRead code [] parse.program.statements args

/-- What the two visitors do with the arguments of a when-block depends on the guarded list they
are read as, which is any guarded list laid out flat. -/
structure VisitorsRead (reg : FunctionRegistry) (ctx : CodeGen.Context) : Prop where
  flat : ∀ g : GuardedList ExecNode, GuardedList.ofFlat g.flat = g
  validator : ∀ args allShadowed, Validator.visitBranches reg allShadowed args = do
    let (g, allShadowed) ← Validator.visitGuarded reg allShadowed
      (GuardedList.ofFlat args).branches (GuardedList.ofFlat args).otherwise
    return (g.flat, allShadowed)
  codeGen : ∀ mergeBlock args, CodeGen.visitIfBranches ctx mergeBlock args =
    CodeGen.visitGuarded ctx mergeBlock
      (GuardedList.ofFlat args).branches (GuardedList.ofFlat args).otherwise

/-- **Chains of clauses in accepted pipelines**: an `else` clause is the last of its chain, and the
validator and the code generator read back the clauses that were written. -/
theorem whenChains_decoded {code : String} {parse : Parse} {n : NodePtr} {p p' : Parser}
    {node : ExecNode} {reg : FunctionRegistry} {st : ScopeStack VarEntry}
    {r : ExecNode × ScopeStack VarEntry} (hb : p.builder.Clear)
    (h : (buildPipeline code parse).run p = (.ok n, p')) (hn : n.toExecNode = some node)
    (hv : Validator.validate reg node st = .ok r) :
    ChainsRead code parse node ∧ ∀ ctx, VisitorsRead reg ctx := by
  refine ⟨?_, fun ctx => ⟨GuardedList.ofFlat_flat, Validator.visitBranches_eq reg,
    CodeGen.visitIfBranches_eq ctx⟩⟩
  replace h : (build .kPipeline code parse).run p = (.ok n, p') := h
  rcases tree_of_build hb h with ⟨-, e, he, htree⟩
  obtain rfl : node = e := Option.some.inj (hn.symm.trans he)
  rcases Option.map_eq_some_iff.mp htree with ⟨args, hargs, rfl⟩
  have hvisits : Visits reg st (.noOP {} args false) r.1 r.2 :=
    (Validator.visit_run_eq_ok _).mp hv
  generalize r.1 = node', r.2 = st' at hvisits
  cases hvisits with
  | noOP hs =>
    have hread := stmtsRead_of_visits _ hargs hs
    exact ⟨hread.chains, args, rfl, hread⟩

/-- `a = 1; when a { a = 2; } elif a { a = 3; } else { a = 4; }` -/
def whenElifElse : Parse where
  program :=
    { statements :=
        [.assign "a" (.literal {} (.i32 1)),
          .when_ {} {} (.identifier {} "a") [.assign "a" (.literal {} (.i32 2))]
            [.elif (.identifier {} "a") [.assign "a" (.literal {} (.i32 3))],
              .else_ [.assign "a" (.literal {} (.i32 4))]]]
      nonempty := List.cons_ne_nil _ _ }

theorem whenElifElse_decoded : ∃ n p' node r,
    (buildPipeline "" whenElifElse).run ⟨{}, none⟩ = (.ok n, p') ∧
      Validator.validate {} node = .ok r ∧ ChainsRead "" whenElifElse node ∧
      ∀ ctx, VisitorsRead {} ctx := by
  have hv : verdict .kPipeline whenElifElse = none := rfl
  rcases build_ok (p := ⟨{}, none⟩) "" (.of_nil rfl) hv rfl with ⟨n, p', node, hrun, hn, htree, -⟩
  have hvalid : ∃ node r, whenElifElse.program.tree .kPipeline "" = some node ∧
      Validator.validate {} node = .ok r := ⟨_, _, rfl, rfl⟩
  rcases hvalid with ⟨node', r, htree', hvalid⟩
  obtain rfl : node' = node := Option.some.inj (htree'.symm.trans htree)
  have h := whenChains_decoded (.of_nil rfl) hrun hn hvalid
  exact ⟨n, p', node', r, hrun, hvalid, h.1, h.2⟩

end JitFusion
