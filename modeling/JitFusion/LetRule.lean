/-
# The `let` rule

The second rule of the language (`athena/README.md`): a variable that `let` declares is not
assigned again, and `let` declares no name that has been assigned.

The only code that checks it is the validator, statement by statement (`TrySetVar`).  A pipeline
hands it every statement, so a pipeline that breaks the rule is rejected for it, unless a statement
before has another error.  An expression hands it the inlined expression of its last statement,
which has no statements in it: whether a name was declared by `let` makes no difference.
-/
import JitFusion.Athena
import JitFusion.VarDiscipline

namespace JitFusion

namespace Athena

open Validator

/-! ## 1. The rule -/

/-- A statement behind others assigns to a name that `let` has declared, or declares by `let` a
name that has been assigned. -/
def Breaks (before : List VarInfo) (var : VarInfo) : Prop :=
  var.name ≠ "" ∧ ((∃ v ∈ before, v.name = var.name ∧ v.isConst = true) ∨
    var.isConst = true ∧ ∃ v ∈ before, v.name = var.name)

def BreaksLet (vars : List VarInfo) : Prop :=
  ∃ before var after, vars = before ++ var :: after ∧ Breaks before var

/-- The variables of the statements, in order. -/
def Program.vars (p : Program) : List VarInfo := p.statements.map Stmt.var

theorem not_breaksLet_nil : ¬ BreaksLet [] := by
  rintro ⟨before, var, after, h, -⟩
  cases before <;> exact nomatch h

theorem breaksLet_append_singleton {before : List VarInfo} {var : VarInfo} :
    BreaksLet (before ++ [var]) ↔ BreaksLet before ∨ Breaks before var := by
  constructor
  · rintro ⟨pre, v, post, h, hb⟩
    rcases List.eq_nil_or_concat post with rfl | ⟨post, w, rfl⟩
    · obtain ⟨rfl, hv⟩ := List.append_inj' h rfl
      exact .inr ((List.cons.inj hv).1 ▸ hb)
    · have h' : before ++ [var] = (pre ++ v :: post) ++ [w] := by simpa using h
      exact .inl ⟨pre, v, post, (List.append_inj' h' rfl).1, hb⟩
  · rintro (⟨pre, v, post, rfl, hb⟩ | hb)
    · exact ⟨pre, v, post ++ [var], by simp, hb⟩
    · exact ⟨before, var, [], rfl, hb⟩

theorem not_breaksLet_singleton (var : VarInfo) : ¬ BreaksLet [var] := by
  rw [← List.nil_append [var], breaksLet_append_singleton, not_or]
  exact ⟨not_breaksLet_nil, by simp [Breaks]⟩

/-! ## 2. The validator over statements -/

section

variable {reg : FunctionRegistry} {st st' : ScopeStack VarEntry} {before : List VarInfo}
  {var : VarInfo} {node : ExecNode}

/-- What the scopes know behind some statements that the validator has accepted. -/
structure Knows (st : ScopeStack VarEntry) (before : List VarInfo) : Prop where
  bound : ∀ x, x ≠ "" → ((∃ e, st.lookup x = some e) ↔ ∃ v ∈ before, v.name = x)
  const : ∀ x e, x ≠ "" → st.lookup x = some e →
    (e.isConst = true ↔ ∃ v ∈ before, v.name = x ∧ v.isConst = true)
  keepsRule : ¬ BreaksLet before

theorem knows_nil : Knows (ScopeStack.pushScope {}) [] where
  bound x _ := by simp
  const x e _ h := nomatch h
  keepsRule := not_breaksLet_nil

/-- **A statement breaks the rule exactly if its binding is refused for it.** -/
theorem Knows.breaks_iff (h : Knows st before) (t : ValueType) :
    Breaks before var ↔ var.name ≠ "" ∧
      ((trySetVar st var.name t var.isConst).1 = .kConstReassign ∨
        (trySetVar st var.name t var.isConst).1 = .kRedeclare) := by
  refine and_congr_right fun hname => ?_
  unfold trySetVar
  cases hs : st.lookup var.name with
  | none =>
    have hnot : ¬ ∃ v ∈ before, v.name = var.name := by
      rw [← h.bound _ hname, hs]
      rintro ⟨e, he⟩
      cases he
    have hnot' : ¬ ∃ v ∈ before, v.name = var.name ∧ v.isConst = true := by
      rintro ⟨v, hv, he, -⟩
      exact hnot ⟨v, hv, he⟩
    simp [checkVar, hnot, hnot']
  | some e =>
    have hsome : ∃ v ∈ before, v.name = var.name := (h.bound _ hname).mp ⟨e, hs⟩
    rw [← h.const _ e hname hs]
    rcases e with ⟨t', c⟩
    cases c with
    | true => simp [checkVar]
    | false =>
      cases hc : var.isConst with
      | true => simpa [checkVar] using hsome
      | false => by_cases ht : t' = t <;> simp [checkVar, ht]

/-- A binding that is accepted. -/
theorem Knows.bind (h : Knows st before) (hb : bindStmt var node st = .ok st') :
    Knows st' (before ++ [var]) := by
  have hfine : ¬ Breaks before var := by
    rw [h.breaks_iff node.getReturnType]
    rintro ⟨hname, hr⟩
    rw [bindStmt, if_neg hname] at hb
    rcases hr with hr | hr <;> split at hb <;> simp_all
  have hrule : ¬ BreaksLet (before ++ [var]) := by
    rw [breaksLet_append_singleton, not_or]
    exact ⟨h.keepsRule, hfine⟩
  rcases bindStmt_eq_ok_iff.mp hb with ⟨hname, rfl⟩ | ⟨hname, hk, rfl⟩
  · -- a statement without a name
    refine ⟨fun x hx => ?_, fun x e hx hl => ?_, hrule⟩
    · rw [h.bound x hx]
      simp [hname, hx.symm]
    · rw [h.const x e hx hl]
      simp [hname, hx.symm]
  · refine ⟨fun x hx => ?_, fun x e hx hl => ?_, hrule⟩
    · by_cases hn : x = var.name
      · subst hn
        simp
      · rw [ScopeStack.lookup_set_ne _ _ hn, h.bound x hx]
        simp [Ne.symm hn]
    · by_cases hn : x = var.name
      · subst hn
        rw [ScopeStack.lookup_set, Option.some.injEq] at hl
        subst hl
        constructor
        · exact fun hc => ⟨var, by simp, rfl, hc⟩
        · rintro ⟨v, hv, hvn, hvc⟩
          rcases List.mem_append.mp hv with hv | hv
          · exact absurd ⟨hname, .inl ⟨v, hv, hvn, hvc⟩⟩ hfine
          · rwa [List.mem_singleton.mp hv] at hvc
      · rw [ScopeStack.lookup_set_ne _ _ hn] at hl
        rw [h.const x e hx hl]
        simp [Ne.symm hn]

/-- An expression leaves the scopes as they were, a void one too. -/
theorem scopes_eq_of_isExpression {node' : ExecNode} (h : Visits reg st node node' st')
    (he : IsExpression node) : st' = st := by
  cases h with
  | entryArgument | execContext | output | constantValue | constantListValue | ref => rfl
  | unaryOP hc ht => exact hc.scopes_eq (ne_kVoid_of_unaryOPType ht)
  | binaryOP hl hr ht =>
    rw [hr.scopes_eq (ne_kVoid_of_binaryOPType ht).2, hl.scopes_eq (ne_kVoid_of_binaryOPType ht).1]
  | function ha _ | ifNode _ ha _ | switchNode _ ha _ => exact ha.scopes_eq
  | noOP _ | ifBlock _ _ => exact he.elim

/-- **The statements of a text without when-blocks.** -/
theorem Knows.visit {args args' : List (VarInfo × ExecNode)} {st st' : ScopeStack VarEntry}
    {before : List VarInfo} (hvisits : VisitsStmts reg false st args args' st')
    (he : ∀ a ∈ args, IsExpression a.2) (h : Knows st before) :
    Knows st' (before ++ args.map Prod.fst) := by
  induction args generalizing args' st before with
  | nil =>
    cases hvisits
    simpa using h
  | cons a args ih =>
    cases hvisits with
    | cons hv hb hs =>
      obtain rfl := scopes_eq_of_isExpression hv (he _ List.mem_cons_self)
      have hrest := ih hs (fun a ha => he a (List.mem_cons_of_mem _ ha)) (h.bind hb)
      simpa using hrest

/-- The statements before one, and the rest. -/
theorem visitStmts_append (isolated : Bool) (pre post : List (VarInfo × ExecNode)) :
    visitStmts reg isolated (pre ++ post) = do
      let pre' ← visitStmts reg isolated pre
      let post' ← visitStmts reg isolated post
      return pre' ++ post' := by
  induction pre with
  | nil => simp [visitStmts]
  | cons arg pre ih => simp [visitStmts, ih]

/-- A last statement without a name. -/
theorem visitStmts_last {pre : List (VarInfo × ExecNode)} {arg : ExecNode} :
    (∃ args' st', VisitsStmts reg false st (pre ++ [(({} : VarInfo), arg)]) args' st') ↔
      ∃ pre' st₁, VisitsStmts reg false st pre pre' st₁ ∧
        ∃ arg' st₂, Visits reg st₁ arg arg' st₂ := by
  have hlast : ∀ st₁, (∃ args' st', VisitsStmts reg false st₁ [(({} : VarInfo), arg)] args' st') ↔
      ∃ arg' st₂, Visits reg st₁ arg arg' st₂ := by
    intro st₁
    constructor
    · rintro ⟨_, _, h⟩
      cases h with
      | cons hv _ _ => exact ⟨_, _, hv⟩
    · rintro ⟨_, _, hv⟩
      exact ⟨_, _, .cons hv rfl .nil⟩
  constructor
  · rintro ⟨args', st', h⟩
    have hrun := (visitStmts_run_eq_ok _).mpr h
    rw [visitStmts_append, Checked.run_bind_eq_ok] at hrun
    rcases hrun with ⟨pre', st₁, hpre, hrun⟩
    rcases Checked.run_bind_eq_ok.mp hrun with ⟨last, st₂, hl, -⟩
    exact ⟨pre', st₁, (visitStmts_run_eq_ok _).mp hpre,
      (hlast st₁).mp ⟨_, _, (visitStmts_run_eq_ok _).mp hl⟩⟩
  · rintro ⟨pre', st₁, hpre, harg⟩
    rcases (hlast st₁).mpr harg with ⟨last', st₂, hl⟩
    have hrun : (visitStmts reg false (pre ++ [(({} : VarInfo), arg)])).run st =
        .ok (pre' ++ last', st₂) := by
      rw [visitStmts_append, Checked.run_bind_ok ((visitStmts_run_eq_ok _).mpr hpre),
        Checked.run_bind_ok ((visitStmts_run_eq_ok _).mpr hl)]
      rfl
    exact ⟨_, _, (visitStmts_run_eq_ok _).mp hrun⟩

/-- The program of a pipeline on its own, as the grouper hands it over. -/
def alone (args : List (VarInfo × ExecNode)) : ExecNode :=
  PipelineGrouper.isolatedNoOP [.noOP {} args false]

theorem validate_alone_ok {args : List (VarInfo × ExecNode)} :
    (∃ r, validate reg (alone args) = .ok r) ↔
      ∃ args' st', VisitsStmts reg false (ScopeStack.pushScope {}) args args' st' := by
  constructor
  · rintro ⟨⟨node', st'⟩, h⟩
    have hv : Visits reg {} (alone args) node' st' := (visit_run_eq_ok _).mp h
    cases hv with
    | noOP hs => cases hs with
      | cons hv _ _ => cases hv with
        | noOP hs => exact ⟨_, _, hs⟩
  · rintro ⟨args', st', hs⟩
    refine ⟨_, (visit_run_eq_ok _).mpr (.noOP (.cons (.noOP hs) rfl .nil))⟩

theorem validate_alone_error {args : List (VarInfo × ExecNode)} {error : Status}
    (h : (visitStmts reg false args).run (ScopeStack.pushScope {}) = .error error) :
    validate reg (alone args) = .error error := by
  have hroot : (Validator.visit reg (.noOP {} args false)).run (ScopeStack.pushScope {}) =
      .error error := by
    rw [Validator.visit]
    exact Checked.run_bind_error h
  have hstmts : (visitStmts reg true [({}, .noOP {} args false)]).run {} = .error error := by
    rw [visitStmts, Checked.run_modify_bind]
    exact Checked.run_bind_error hroot
  rw [validate, alone, PipelineGrouper.isolatedNoOP, List.map_singleton, Validator.visit]
  exact Checked.run_bind_error hstmts

end

/-! ## 3. The statements of a text -/

/-- In a pipeline the tree of a term is an expression: an identifier is a reference. -/
theorem isExpression_of_tree {code : String} {defs : Defs} : ∀ {t : Term} {e : ExecNode},
    t.tree .kPipeline code defs = some e → IsExpression e
  | .literal _ _, _, h | .list _ _, _, h | .entryArg _, _, h | .execCtx _, _, h
  | .output _, _, h => by
    rw [Term.tree, Option.some.injEq] at h
    subst h
    trivial
  | .identifier _ _, _, h => by
    rw [Term.tree, refTree] at h
    rcases Option.bind_eq_some_iff.mp h with ⟨_, -, h⟩
    rw [if_pos rfl, Option.some.injEq] at h
    subst h
    trivial
  | .paren t, _, h => isExpression_of_tree (t := t) h
  | .unary _ _ _, _, h | .if_ _ _, _, h | .call _ _ _, _, h | .switch_ _ _, _, h => by
    rw [Term.tree] at h
    rcases Option.map_eq_some_iff.mp h with ⟨_, -, rfl⟩
    trivial
  | .binary _ _ _ _, _, h | .in_ _ _ _, _, h => by
    rw [Term.tree] at h
    rcases Option.bind_eq_some_iff.mp h with ⟨_, -, h⟩
    rcases Option.map_eq_some_iff.mp h with ⟨_, -, rfl⟩
    trivial

/-- The statements of a text without when-blocks, as a list of trees. -/
theorem stmtsTree_expressions {code : String} {stmts : List Stmt} {defs : Defs}
    {args : List (VarInfo × ExecNode)} (h : stmtsTree .kPipeline code defs stmts = some args)
    (hw : ∀ stmt ∈ stmts, stmt.isWhen = false) :
    args.map Prod.fst = stmts.map Stmt.var ∧ ∀ a ∈ args, IsExpression a.2 := by
  induction stmts generalizing defs args with
  | nil =>
    rw [stmtsTree, Option.some.injEq] at h
    subst h
    exact ⟨rfl, by simp⟩
  | cons stmt stmts ih =>
    rw [stmtsTree] at h
    rcases Option.bind_eq_some_iff.mp h with ⟨e, he, h⟩
    rcases Option.map_eq_some_iff.mp h with ⟨rest, hrest, rfl⟩
    rcases ih hrest fun s hs => hw s (List.mem_cons_of_mem _ hs) with ⟨hvars, hexpr⟩
    have hstmt : IsExpression e := by
      cases stmt with
      | assign _ t | let_ _ t | expr t =>
        rw [Stmt.tree] at he
        exact isExpression_of_tree he
      | when_ _ _ _ _ _ => cases hw _ List.mem_cons_self
    refine ⟨by rw [List.map_cons, List.map_cons, hvars], fun a ha => ?_⟩
    rcases List.mem_cons.mp ha with rfl | ha
    · exact hstmt
    · exact hexpr a ha

/-! ## 4. Rejected for the rule -/

/-- The validator comes to a statement whose binding it refuses with `result`: `TrySetVar` says
why, and `error` is what it reports. -/
def Refuses (reg : FunctionRegistry) (args : List (VarInfo × ExecNode)) (result : SetVarResult)
    (error : Status) : Prop :=
  ∃ pre pre' var arg arg' post st₁ st₂, args = pre ++ (var, arg) :: post ∧
    (visitStmts reg false pre).run (ScopeStack.pushScope {}) = .ok (pre', st₁) ∧
    (Validator.visit reg arg).run st₁ = .ok (arg', st₂) ∧ var.name ≠ "" ∧
    (trySetVar st₂ var.name arg'.getReturnType var.isConst).1 = result ∧
    bindStmt var arg' st₂ = .error error

/-- **The pipeline is rejected for const reassignment or for redeclaration.** -/
def RejectedForLet (order : PipelineGrouper.IdOrder) (reg : FunctionRegistry) (emit : Emit)
    (code : String) (parse : Parse) : Prop :=
  ∃ args result error, stmtsTree .kPipeline code [] parse.program.statements = some args ∧
    (result = .kConstReassign ∨ result = .kRedeclare) ∧ Refuses reg args result error ∧
    AthenaPipeline.compile order reg emit [(code, parse)] = .error (.status error)

/-- No statement up to the first one that breaks the rule has another error. -/
def ReachesBreak (reg : FunctionRegistry) (args : List (VarInfo × ExecNode)) : Prop :=
  ∃ pre var arg post, args = pre ++ (var, arg) :: post ∧ ¬ BreaksLet (pre.map Prod.fst) ∧
    Breaks (pre.map Prod.fst) var ∧
      ∃ r, validate reg (alone (pre ++ [(({} : VarInfo), arg)])) = .ok r

section

variable {reg : FunctionRegistry} {args : List (VarInfo × ExecNode)} {error : Status}

/-- A refused binding ends the validation. -/
theorem Refuses.validate {result : SetVarResult} (h : Refuses reg args result error) :
    Validator.validate reg (alone args) = .error error := by
  rcases h with ⟨pre, pre', var, arg, arg', post, st₁, st₂, rfl, hpre, harg, -, -, hb⟩
  refine validate_alone_error ?_
  rw [visitStmts_append, Checked.run_bind_ok hpre]
  refine Checked.run_bind_error ?_
  rw [visitStmts, Checked.run_modify_bind]
  have harg' : (Validator.visit reg arg).run (enterStmt false st₁) = .ok (arg', st₂) := harg
  rw [Checked.run_bind_ok harg']
  have hget : (get : Validator.M (ScopeStack VarEntry)).run st₂ = .ok (st₂, st₂) := rfl
  rw [Checked.run_bind_ok hget, hb]
  rfl

/-- **Refused for the rule**: the validator comes to a statement that breaks it. -/
theorem refuses_iff (he : ∀ a ∈ args, IsExpression a.2) :
    (∃ result error, (result = .kConstReassign ∨ result = .kRedeclare) ∧
      Refuses reg args result error) ↔ ReachesBreak reg args := by
  constructor
  · rintro ⟨result, error, hresult, pre, pre', var, arg, arg', post, st₁, st₂, rfl, hpre, harg,
      hname, hr, hb⟩
    have hknows := Knows.visit ((visitStmts_run_eq_ok pre).mp hpre)
      (fun a ha => he a (List.mem_append_left _ ha)) knows_nil
    have hv : Visits reg st₁ arg arg' st₂ := (visit_run_eq_ok arg).mp harg
    obtain rfl := scopes_eq_of_isExpression hv (he _ (List.mem_append_right _ List.mem_cons_self))
    refine ⟨pre, var, arg, post, rfl, hknows.keepsRule,
      (hknows.breaks_iff arg'.getReturnType).mpr ⟨hname, ?_⟩, validate_alone_ok.mpr ?_⟩
    · rw [hr]
      exact hresult
    · refine visitStmts_last.mpr ⟨pre', st₂, (visitStmts_run_eq_ok pre).mp hpre, arg', st₂, hv⟩
  · rintro ⟨pre, var, arg, post, rfl, -, hbreaks, hok⟩
    rcases visitStmts_last.mp (validate_alone_ok.mp hok) with ⟨pre', st₁, hpre, arg', st₂, hv⟩
    obtain rfl := scopes_eq_of_isExpression hv (he (var, arg) (by simp))
    have hknows := Knows.visit hpre (fun a ha => he a (List.mem_append_left _ ha)) knows_nil
    rcases (hknows.breaks_iff arg'.getReturnType).mp hbreaks with ⟨hname, hr⟩
    have hrefused : ∃ error, bindStmt var arg' st₂ = .error error := by
      rw [bindStmt, if_neg hname]
      rcases hr with hr | hr <;> split <;> simp_all
    rcases hrefused with ⟨error, herror⟩
    exact ⟨_, error, hr, pre, pre', var, arg, arg', post, st₂, st₂, rfl,
      (visitStmts_run_eq_ok pre).mpr hpre, (visit_run_eq_ok arg).mpr hv, hname, rfl, herror⟩

end

/-! ## 5. Both modes -/

/-- **The rule is enforced in both modes**: a text that breaks it does not compile as an
expression, and the texts that break it are those that are rejected for it as a pipeline. -/
def LetEnforced (order : PipelineGrouper.IdOrder) (reg : FunctionRegistry) (emit : Emit)
    (code : String) (parse : Parse) : Prop :=
  (BreaksLet parse.program.vars →
    ∃ abort, AthenaExpression.compile reg emit code parse = .error abort) ∧
  (BreaksLet parse.program.vars ↔ RejectedForLet order reg emit code parse)

/-- The statement with an assignment for `let`. -/
def Stmt.withoutLet : Stmt → Stmt
  | .let_ name term => .assign name term
  | stmt => stmt

/-- The program with assignments only: it has no rule to break. -/
def Program.withoutLet (p : Program) : Program where
  statements := p.statements.map Stmt.withoutLet
  nonempty := by simpa using p.nonempty

/-- The expression the last statement stands for is wrong in itself: written without `let` it has
no type, or the code generator refuses it. -/
def RejectedAnyway (reg : FunctionRegistry) (emit : Emit) (code : String) (p : Program) : Prop :=
  ∃ e, p.withoutLet.tree .kExpression code = some e ∧
    ((¬ ∃ e' st', Visits reg {} e e' st') ∨
      ∃ e' st' abort, Visits reg {} e e' st' ∧ emit [e'] = .error abort)

/-- Without `let`, nothing declares a constant. -/
theorem not_breaksLet_withoutLet (p : Program) : ¬ BreaksLet p.withoutLet.vars := by
  have hconst : ∀ v ∈ p.withoutLet.vars, v.isConst = false := by
    intro v hv
    rcases List.mem_map.mp hv with ⟨_, hstmt, rfl⟩
    rcases List.mem_map.mp hstmt with ⟨stmt, -, rfl⟩
    cases stmt <;> rfl
  rintro ⟨before, var, after, heq, -, hbreak⟩
  rw [heq] at hconst
  rcases hbreak with ⟨v, hv, -, hc⟩ | ⟨hc, -⟩
  · simp [hconst v (by simp [hv])] at hc
  · simp [hconst var (by simp)] at hc

/-- The trees of the statements do not depend on `let`. -/
theorem stmtsTree_withoutLet (code : String) (stmts : List Stmt) (defs : Defs) :
    (stmtsTree .kExpression code defs (stmts.map Stmt.withoutLet)).map (List.map Prod.snd) =
      (stmtsTree .kExpression code defs stmts).map (List.map Prod.snd) := by
  induction stmts generalizing defs with
  | nil => rfl
  | cons stmt stmts ih =>
    have htree : stmt.withoutLet.tree .kExpression code defs =
        stmt.tree .kExpression code defs := by cases stmt <;> rfl
    have hadd : ∀ e, stmt.withoutLet.addTo e defs = stmt.addTo e defs := by
      intro e
      cases stmt <;> rfl
    rw [List.map_cons, stmtsTree, stmtsTree, htree, hadd]
    cases he : stmt.tree .kExpression code defs with
    | none => rfl
    | some e =>
      have hrest := congrArg (Option.map (e :: ·)) (ih (stmt.addTo (some e) defs))
      simpa [Option.map_map, Function.comp_def] using hrest

/-- **The inlined expression does not depend on `let`.** -/
theorem Program.tree_withoutLet (code : String) (p : Program) :
    p.withoutLet.tree .kExpression code = p.tree .kExpression code := by
  have hlast : ∀ l : List (VarInfo × ExecNode),
      l.getLast?.map Prod.snd = (l.map Prod.snd).getLast? := fun l => by simp
  have hargs := congrArg (Option.bind · List.getLast?) (stmtsTree_withoutLet code p.statements [])
  simpa only [Program.tree, withoutLet, hlast, Option.bind_map, Function.comp_def] using hargs

theorem not_visits_of_validate {reg : FunctionRegistry} {e : ExecNode} {error : Status}
    (h : validate reg e = .error error) : ¬ ∃ e' st', Visits reg {} e e' st' := by
  rintro ⟨e', st', hv⟩
  exact nomatch h.symm.trans ((visit_run_eq_ok e).mpr hv)

/-- The expression is rejected only for what it is without `let`. -/
theorem rejectedAnyway_iff (reg : FunctionRegistry) (emit : Emit) (code : String) {parse : Parse}
    (hg : Grammatical .kExpression parse) (hrefs : parse.program.undefinedRefs = []) :
    RejectedAnyway reg emit code parse.program ↔
      ∃ abort, AthenaExpression.compile reg emit code parse = .error abort := by
  rcases AthenaExpression.compile_eq reg emit code hg hrefs with ⟨e, htree, hexpr⟩
  rw [hexpr, engineCompile_singleton, RejectedAnyway, Program.tree_withoutLet, htree]
  cases hv : validate reg e with
  | error st =>
    exact iff_of_true ⟨e, rfl, .inl (not_visits_of_validate hv)⟩ ⟨_, rfl⟩
  | ok r =>
    have hr : Visits reg {} e r.1 r.2 := (visit_run_eq_ok e).mp hv
    constructor
    · rintro ⟨_, ⟨⟩, h | ⟨e', st', abort, h, hemit⟩⟩
      · exact absurd ⟨_, _, hr⟩ h
      · have hrun : validate reg e = .ok (e', st') := (visit_run_eq_ok e).mpr h
        rw [Except.ok.inj (hv.symm.trans hrun)]
        exact ⟨abort, hemit⟩
    · rintro ⟨abort, hemit⟩
      exact ⟨e, rfl, .inr ⟨_, _, abort, hr, hemit⟩⟩

/-- The pipeline is rejected for the rule if the validator gets as far as the first statement that
breaks it. -/
theorem rejectedForLet_iff (order : PipelineGrouper.IdOrder) (reg : FunctionRegistry) (emit : Emit)
    {code : String} {parse : Parse} (hg : Grammatical .kPipeline parse)
    (hrefs : parse.program.undefinedRefs = []) {args : List (VarInfo × ExecNode)}
    (hargs : stmtsTree .kPipeline code [] parse.program.statements = some args)
    (hexprs : ∀ a ∈ args, IsExpression a.2) :
    RejectedForLet order reg emit code parse ↔ ReachesBreak reg args := by
  rcases AthenaPipeline.compile_eq order reg emit code hg hrefs with ⟨args', hargs', hpipe⟩
  obtain rfl := Option.some.inj (hargs.symm.trans hargs')
  rw [← refuses_iff hexprs]
  constructor
  · rintro ⟨args', result, error, hargs', hresult, h, -⟩
    rw [hargs, Option.some.injEq] at hargs'
    exact ⟨result, error, hresult, hargs' ▸ h⟩
  · rintro ⟨result, error, hresult, h⟩
    refine ⟨args, result, error, hargs, hresult, h, ?_⟩
    rw [hpipe, engineCompile_singleton, show validate reg (PipelineGrouper.isolatedNoOP _) = _
      from h.validate]

/-- **Only by accident**: a text that breaks the rule is rejected as an expression exactly if its
last expression is wrong in itself, also without `let`.  It is rejected for the rule as a pipeline
exactly if no statement up to the first one that breaks it has another error. -/
theorem letEnforced_iff (order : PipelineGrouper.IdOrder) (reg : FunctionRegistry) (emit : Emit)
    (code : String) (parse : Parse) (hg : Grammatical .kExpression parse)
    (hrefs : parse.program.undefinedRefs = []) :
    LetEnforced order reg emit code parse ↔
      (BreaksLet parse.program.vars → RejectedAnyway reg emit code parse.program ∧
        ∃ args, stmtsTree .kPipeline code [] parse.program.statements = some args ∧
          ReachesBreak reg args) := by
  have hgp : Grammatical .kPipeline parse := ⟨hg.1, fun h => nomatch h⟩
  rcases AthenaPipeline.compile_eq order reg emit code hgp hrefs with ⟨args, hargs, -⟩
  rcases stmtsTree_expressions hargs (hg.2 rfl) with ⟨hvars, hexprs⟩
  have hbreaks : ReachesBreak reg args → BreaksLet parse.program.vars := by
    rintro ⟨pre, var, arg, post, rfl, -, hb, -⟩
    rw [Program.vars, ← hvars]
    exact ⟨pre.map Prod.fst, var, post.map Prod.fst, by simp, hb⟩
  rw [LetEnforced, rejectedForLet_iff order reg emit hgp hrefs hargs hexprs,
    ← rejectedAnyway_iff reg emit code hg hrefs]
  constructor
  · rintro ⟨hfails, hiff⟩ hb
    exact ⟨hfails hb, args, hargs, hiff.mp hb⟩
  · intro h
    refine ⟨fun hb => (h hb).1, fun hb => ?_, hbreaks⟩
    rcases (h hb).2 with ⟨args', hargs', hreach⟩
    rw [hargs, Option.some.injEq] at hargs'
    exact hargs' ▸ hreach

/-- `let a = 1; a = 2; a;` -/
def reassigned : Parse where
  program :=
    { statements :=
        [.let_ "a" (.literal ⟨1, 9, 1, 10⟩ (.i32 1)),
          .assign "a" (.literal ⟨1, 16, 1, 17⟩ (.i32 2)),
          .expr (.identifier ⟨1, 19, 1, 20⟩ "a")]
      nonempty := List.cons_ne_nil _ _ }

theorem reassigned_breaksLet : BreaksLet reassigned.program.vars :=
  ⟨[{ name := "a", isConst := true }], { name := "a" }, [{}], rfl, by simp [Breaks]⟩

/-- As an expression it compiles. -/
theorem reassigned_compiles : Grammatical .kExpression reassigned ∧
    reassigned.program.undefinedRefs = [] ∧
      ¬ LetEnforced PipelineGrouper.listedOrder {} (fun _ => .ok ()) "let a = 1; a = 2; a;"
        reassigned := by
  refine ⟨⟨rfl, by decide⟩, rfl, ?_⟩
  rintro ⟨hfails, -⟩
  rcases hfails reassigned_breaksLet with ⟨abort, h⟩
  have hok : AthenaExpression.compile {} (fun _ => .ok ()) "let a = 1; a = 2; a;" reassigned =
      .ok () := rfl
  exact nomatch hok.symm.trans h

/-- `let a = 1; a = 2; f(a);`, with no function `f` -/
def reassignedUnknown : Parse where
  program :=
    { statements :=
        [.let_ "a" (.literal ⟨1, 9, 1, 10⟩ (.i32 1)),
          .assign "a" (.literal ⟨1, 16, 1, 17⟩ (.i32 2)),
          .expr (.call ⟨1, 19, 1, 23⟩ "f" [.identifier ⟨1, 21, 1, 22⟩ "a"])]
      nonempty := List.cons_ne_nil _ _ }

/-- Here the last expression is wrong in itself. -/
theorem reassignedUnknown_rejected : LetEnforced PipelineGrouper.listedOrder {} (fun _ => .ok ())
    "let a = 1; a = 2; f(a);" reassignedUnknown := by
  refine (letEnforced_iff _ _ _ _ reassignedUnknown ⟨rfl, by decide⟩ rfl).mpr fun _ =>
    ⟨⟨_, rfl, .inl (not_visits_of_validate rfl)⟩, _, rfl, ?_⟩
  refine ⟨[(_, _)], { name := "a" }, _, [(_, _)], rfl, not_breaksLet_singleton _, ?_, _, rfl⟩
  exact ⟨by simp, .inl ⟨_, List.mem_singleton_self _, rfl, rfl⟩⟩

end Athena

end JitFusion
