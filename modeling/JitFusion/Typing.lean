/-
# The typing rules

What the validator accepts, as a judgement: `Visits reg st node node' st'` says that from the
scopes `st` the tree `node` is accepted, becomes the annotated tree `node'` and leaves the
scopes `st'`.  There is one rule a node class, and lists of arguments, statements and branches
have judgements of their own.

`visit_run_eq_ok` says the visitor and the rules agree, so a proof about accepted programs is
an induction on a derivation and never takes the visitor apart again.

Then the facts every user of the rules needs: only void nodes touch the scopes, the outer
scopes are never touched, and a variable that shadows an outer one has its type.
-/
import JitFusion.Validator

namespace JitFusion

namespace Validator

open TypeHelper ScopeStack

/-! ## 1. The rules -/

mutual

inductive Visits (reg : FunctionRegistry) :
    ScopeStack VarEntry → ExecNode → ExecNode → ScopeStack VarEntry → Prop
  | entryArgument {st info} :
      Visits reg st (.entryArgument info) (.entryArgument (info.setReturnType .kPtr)) st
  | execContext {st info} :
      Visits reg st (.execContext info) (.execContext (info.setReturnType .kPtr)) st
  | output {st info} : Visits reg st (.output info) (.output (info.setReturnType .kPtr)) st
  | constantValue {st info val} :
      Visits reg st (.constantValue info val)
        (.constantValue (info.setReturnType (constantValueType val)) val) st
  | constantListValue {st info valList} :
      Visits reg st (.constantListValue info valList)
        (.constantListValue (info.setReturnType (constantListValueType valList)) valList) st
  | unaryOP {st st' info op child child' t} (hc : Visits reg st child child' st')
      (ht : unaryOPType info.loc op child'.getReturnType = .ok t) :
      Visits reg st (.unaryOP info op child) (.unaryOP (info.setReturnType t) op child') st'
  | binaryOP {st st₁ st₂ info op left left' right right' t} (hl : Visits reg st left left' st₁)
      (hr : Visits reg st₁ right right' st₂)
      (ht : binaryOPType info.loc op left' right' = .ok t) :
      Visits reg st (.binaryOP info op left right)
        (.binaryOP (info.setReturnType t) op left' right') st₂
  | function {st st' info funcName args args' t} (ha : VisitsArgs reg st args args' st')
      (ht : functionType reg info.loc funcName args' = .ok t) :
      Visits reg st (.function info funcName args)
        (.function (info.setReturnType t) funcName args') st'
  | noOP {st st' info args args' isolated} (hs : VisitsStmts reg isolated st args args' st') :
      Visits reg st (.noOP info args isolated)
        (.noOP (info.setReturnType .kVoid) args' isolated) st'
  | ifNode {st st' info args args' t} (hn : args.length = 3)
      (ha : VisitsArgs reg st args args' st') (ht : ifNodeType info.loc args' = .ok t) :
      Visits reg st (.ifNode info args) (.ifNode (info.setReturnType t) args') st'
  | switchNode {st st' info args args' t} (hn : args.length % 2 ≠ 0)
      (ha : VisitsArgs reg st args args' st') (ht : switchNodeType info.loc args' = .ok t) :
      Visits reg st (.switchNode info args) (.switchNode (info.setReturnType t) args') st'
  | ifBlock {st st' info args args' allShadowed} (hn : 2 ≤ args.length)
      (hb : VisitsBranches reg ∅ st args args' allShadowed st') :
      Visits reg st (.ifBlock info args) (.ifBlock (info.setReturnType .kVoid) args')
        (setShadowed st' allShadowed)
  | ref {st info name entry} (h : st.lookup name = some entry) :
      Visits reg st (.ref info name) (.ref (info.setReturnType entry.type) name) st

inductive VisitsArgs (reg : FunctionRegistry) :
    ScopeStack VarEntry → List ExecNode → List ExecNode → ScopeStack VarEntry → Prop
  | nil {st} : VisitsArgs reg st [] [] st
  | cons {st st₁ st₂ arg arg' args args'} (h : Visits reg st arg arg' st₁)
      (hv : arg'.getReturnType ≠ .kVoid) (hs : VisitsArgs reg st₁ args args' st₂) :
      VisitsArgs reg st (arg :: args) (arg' :: args') st₂

inductive VisitsStmts (reg : FunctionRegistry) : Bool → ScopeStack VarEntry →
    List (VarInfo × ExecNode) → List (VarInfo × ExecNode) → ScopeStack VarEntry → Prop
  | nil {isolated st} : VisitsStmts reg isolated st [] [] st
  | cons {isolated st st₁ st₂ st₃ var arg arg' args args'}
      (h : Visits reg (enterStmt isolated st) arg arg' st₁)
      (hb : bindStmt var arg' st₁ = .ok st₂)
      (hs : VisitsStmts reg isolated (leaveStmt isolated st₂) args args' st₃) :
      VisitsStmts reg isolated st ((var, arg) :: args) ((var, arg') :: args') st₃

inductive VisitsBranches (reg : FunctionRegistry) : Scope ValueType → ScopeStack VarEntry →
    List ExecNode → List ExecNode → Scope ValueType → ScopeStack VarEntry → Prop
  | nil {acc st} : VisitsBranches reg acc st [] [] acc st
  | elseBody {acc st st' body body'} (h : Visits reg st.pushScope body body' st')
      (hv : body'.getReturnType = .kVoid) :
      VisitsBranches reg acc st [body] [body'] (addShadowed acc st'.getShadowed) st'.popScope
  | cons {acc acc' st st₁ st₂ st₃ cond cond' body body' args args'}
      (hc : Visits reg st cond cond' st₁) (hn : isNumericType cond'.getReturnType = true)
      (h : Visits reg st₁.pushScope body body' st₂) (hv : body'.getReturnType = .kVoid)
      (hs : VisitsBranches reg (addShadowed acc st₂.getShadowed) st₂.popScope args args'
        acc' st₃) :
      VisitsBranches reg acc st (cond :: body :: args) (cond' :: body' :: args') acc' st₃

end

/-! ## 2. The visitor follows the rules -/

variable {reg : FunctionRegistry} {st st' : ScopeStack VarEntry}

theorem inBranch_run_eq_ok {error : ExecNode → Status} {m : M ExecNode} {body : ExecNode}
    {shadowed : Scope VarEntry} :
    (inBranch error m).run st = .ok ((body, shadowed), st') ↔
      ∃ st₁, m.run st.pushScope = .ok (body, st₁) ∧ body.getReturnType = .kVoid ∧
        shadowed = st₁.getShadowed ∧ st' = st₁.popScope := by
  unfold inBranch
  simp only [Checked.run_bind_eq_ok, Checked.run_modify_eq_ok, Checked.run_guard_eq_ok,
    Checked.run_get_eq_ok, Checked.run_pure_eq_ok, Prod.mk.injEq, ne_eq, Decidable.not_not]
  constructor
  · rintro ⟨-, s, rfl, b, s₁, h, hv, s₂, s₃, ⟨rfl, rfl⟩, -, s₄, rfl, ⟨rfl, rfl⟩, rfl⟩
    exact ⟨_, h, hv, rfl, rfl⟩
  · rintro ⟨s₁, h, hv, rfl, rfl⟩
    exact ⟨(), _, rfl, body, s₁, h, hv, s₁, s₁, ⟨rfl, rfl⟩, (), _, rfl, ⟨rfl, rfl⟩, rfl⟩

mutual

/-- **The visitor accepts exactly what the rules derive.** -/
theorem visit_run_eq_ok (node : ExecNode) : ∀ {st st' : ScopeStack VarEntry} {node' : ExecNode},
    (visit reg node).run st = .ok (node', st') ↔ Visits reg st node node' st' := by
  intro st st' node'
  cases node with
  | entryArgument info =>
    simp only [visit, Checked.run_pure_eq_ok]
    refine ⟨?_, ?_⟩
    · rintro ⟨rfl, rfl⟩
      exact .entryArgument
    · rintro ⟨⟩
      exact ⟨rfl, rfl⟩
  | execContext info =>
    simp only [visit, Checked.run_pure_eq_ok]
    refine ⟨?_, ?_⟩
    · rintro ⟨rfl, rfl⟩
      exact .execContext
    · rintro ⟨⟩
      exact ⟨rfl, rfl⟩
  | output info =>
    simp only [visit, Checked.run_pure_eq_ok]
    refine ⟨?_, ?_⟩
    · rintro ⟨rfl, rfl⟩
      exact .output
    · rintro ⟨⟩
      exact ⟨rfl, rfl⟩
  | constantValue info val =>
    simp only [visit, Checked.run_pure_eq_ok]
    refine ⟨?_, ?_⟩
    · rintro ⟨rfl, rfl⟩
      exact .constantValue
    · rintro ⟨⟩
      exact ⟨rfl, rfl⟩
  | constantListValue info valList =>
    simp only [visit, Checked.run_pure_eq_ok]
    refine ⟨?_, ?_⟩
    · rintro ⟨rfl, rfl⟩
      exact .constantListValue
    · rintro ⟨⟩
      exact ⟨rfl, rfl⟩
  | unaryOP info op child =>
    simp only [visit, Checked.run_bind_eq_ok, Checked.run_liftM_eq_ok, Checked.run_pure_eq_ok,
      visit_run_eq_ok child]
    refine ⟨?_, ?_⟩
    · rintro ⟨child', st₁, hc, t, _, ⟨ht, rfl⟩, rfl, rfl⟩
      exact .unaryOP hc ht
    · intro h
      cases h with
      | unaryOP hc ht => exact ⟨_, _, hc, _, _, ⟨ht, rfl⟩, rfl, rfl⟩
  | binaryOP info op left right =>
    simp only [visit, Checked.run_bind_eq_ok, Checked.run_liftM_eq_ok, Checked.run_pure_eq_ok,
      visit_run_eq_ok left, visit_run_eq_ok right]
    refine ⟨?_, ?_⟩
    · rintro ⟨left', st₁, hl, right', st₂, hr, t, _, ⟨ht, rfl⟩, rfl, rfl⟩
      exact .binaryOP hl hr ht
    · intro h
      cases h with
      | binaryOP hl hr ht => exact ⟨_, _, hl, _, _, hr, _, _, ⟨ht, rfl⟩, rfl, rfl⟩
  | function info funcName args =>
    simp only [visit, Checked.run_bind_eq_ok, Checked.run_liftM_eq_ok, Checked.run_pure_eq_ok,
      visitArgs_run_eq_ok args]
    refine ⟨?_, ?_⟩
    · rintro ⟨args', st₁, ha, t, _, ⟨ht, rfl⟩, rfl, rfl⟩
      exact .function ha ht
    · intro h
      cases h with
      | function ha ht => exact ⟨_, _, ha, _, _, ⟨ht, rfl⟩, rfl, rfl⟩
  | noOP info args isolated =>
    simp only [visit, Checked.run_bind_eq_ok, Checked.run_pure_eq_ok, visitStmts_run_eq_ok args]
    refine ⟨?_, ?_⟩
    · rintro ⟨args', st₁, hs, rfl, rfl⟩
      exact .noOP hs
    · intro h
      cases h with
      | noOP hs => exact ⟨_, _, hs, rfl, rfl⟩
  | ifNode info args =>
    simp only [visit, Checked.run_guard_eq_ok, Checked.run_bind_eq_ok, Checked.run_liftM_eq_ok,
      Checked.run_pure_eq_ok, visitArgs_run_eq_ok args, ne_eq, Decidable.not_not]
    refine ⟨?_, ?_⟩
    · rintro ⟨hn, args', st₁, ha, t, _, ⟨ht, rfl⟩, rfl, rfl⟩
      exact .ifNode hn ha ht
    · intro h
      cases h with
      | ifNode hn ha ht => exact ⟨hn, _, _, ha, _, _, ⟨ht, rfl⟩, rfl, rfl⟩
  | switchNode info args =>
    simp only [visit, Checked.run_guard_eq_ok, Checked.run_bind_eq_ok, Checked.run_liftM_eq_ok,
      Checked.run_pure_eq_ok, visitArgs_run_eq_ok args]
    refine ⟨?_, ?_⟩
    · rintro ⟨hn, args', st₁, ha, t, _, ⟨ht, rfl⟩, rfl, rfl⟩
      exact .switchNode hn ha ht
    · intro h
      cases h with
      | switchNode hn ha ht => exact ⟨hn, _, _, ha, _, _, ⟨ht, rfl⟩, rfl, rfl⟩
  | ifBlock info args =>
    simp only [visit, Checked.run_guard_eq_ok, Checked.run_bind_eq_ok, Checked.run_modify_eq_ok,
      Checked.run_pure_eq_ok, Prod.exists, visitBranches_run_eq_ok args, not_lt]
    refine ⟨?_, ?_⟩
    · rintro ⟨hn, args', acc, st₁, hb, _, _, rfl, rfl, rfl⟩
      exact .ifBlock hn hb
    · intro h
      cases h with
      | ifBlock hn hb => exact ⟨hn, _, _, _, hb, (), _, rfl, rfl, rfl⟩
  | ref info name =>
    simp only [visit, Checked.run_bind_eq_ok, Checked.run_get_eq_ok]
    refine ⟨?_, ?_⟩
    · rintro ⟨_, _, ⟨rfl, rfl⟩, h⟩
      split at h
      · exact absurd h Checked.run_throw_ne_ok
      · next entry he =>
        obtain ⟨rfl, rfl⟩ := Checked.run_pure_eq_ok.mp h
        exact .ref he
    · intro h
      cases h with
      | ref he => exact ⟨_, _, ⟨rfl, rfl⟩, by rw [he]; rfl⟩
termination_by structural node

theorem visitArgs_run_eq_ok (args : List ExecNode) :
    ∀ {st st' : ScopeStack VarEntry} {voidError : ExecNode → Status} {args' : List ExecNode},
    (visitArgs reg voidError args).run st = .ok (args', st') ↔
      VisitsArgs reg st args args' st' := by
  intro st st' voidError args'
  cases args with
  | nil =>
    simp only [visitArgs, Checked.run_pure_eq_ok]
    refine ⟨?_, ?_⟩
    · rintro ⟨rfl, rfl⟩
      exact .nil
    · rintro ⟨⟩
      exact ⟨rfl, rfl⟩
  | cons arg args =>
    simp only [visitArgs, Checked.run_bind_eq_ok, Checked.run_guard_eq_ok, Checked.run_pure_eq_ok,
      visit_run_eq_ok arg, visitArgs_run_eq_ok args]
    refine ⟨?_, ?_⟩
    · rintro ⟨arg', st₁, h, hv, args', st₂, hs, rfl, rfl⟩
      exact .cons h hv hs
    · intro h
      cases h with
      | cons h hv hs => exact ⟨_, _, h, hv, _, _, hs, rfl, rfl⟩
termination_by structural args

theorem visitStmts_run_eq_ok (args : List (VarInfo × ExecNode)) :
    ∀ {st st' : ScopeStack VarEntry} {isolated : Bool} {args' : List (VarInfo × ExecNode)},
    (visitStmts reg isolated args).run st = .ok (args', st') ↔
      VisitsStmts reg isolated st args args' st' := by
  intro st st' isolated args'
  match args with
  | [] =>
    simp only [visitStmts, Checked.run_pure_eq_ok]
    refine ⟨?_, ?_⟩
    · rintro ⟨rfl, rfl⟩
      exact .nil
    · rintro ⟨⟩
      exact ⟨rfl, rfl⟩
  | (var, arg) :: args =>
    simp only [visitStmts, Checked.run_bind_eq_ok, Checked.run_modify_eq_ok, Checked.run_get_eq_ok,
      Checked.run_liftM_eq_ok, Checked.run_set_eq_ok, Checked.run_pure_eq_ok, visit_run_eq_ok arg,
      visitStmts_run_eq_ok args]
    refine ⟨?_, ?_⟩
    · rintro ⟨_, _, rfl, arg', st₁, h, _, _, ⟨rfl, rfl⟩, st₂, _, ⟨hb, rfl⟩, _, _, rfl, args',
        st₃, hs, rfl, rfl⟩
      exact .cons h hb hs
    · intro h
      cases h with
      | cons h hb hs =>
        exact ⟨(), _, rfl, _, _, h, _, _, ⟨rfl, rfl⟩, _, _, ⟨hb, rfl⟩, (), _, rfl, _, _, hs,
          rfl, rfl⟩
termination_by structural args

theorem visitBranches_run_eq_ok (args : List ExecNode) :
    ∀ {st st' : ScopeStack VarEntry} {acc acc' : Scope ValueType} {args' : List ExecNode},
    (visitBranches reg acc args).run st = .ok ((args', acc'), st') ↔
      VisitsBranches reg acc st args args' acc' st' := by
  intro st st' acc acc' args'
  match args with
  | [] =>
    simp only [visitBranches, Checked.run_pure_eq_ok, Prod.mk.injEq]
    refine ⟨?_, ?_⟩
    · rintro ⟨⟨rfl, rfl⟩, rfl⟩
      exact .nil
    · rintro ⟨⟩
      exact ⟨⟨rfl, rfl⟩, rfl⟩
  | [body] =>
    simp only [visitBranches, Checked.run_bind_eq_ok, Prod.exists, inBranch_run_eq_ok,
      Checked.run_pure_eq_ok, Prod.mk.injEq, visit_run_eq_ok body]
    refine ⟨?_, ?_⟩
    · rintro ⟨body', shadowed, st₁, ⟨st₂, h, hv, rfl, rfl⟩, ⟨rfl, rfl⟩, rfl⟩
      exact .elseBody h hv
    · intro h
      cases h with
      | elseBody h hv => exact ⟨_, _, _, ⟨_, h, hv, rfl, rfl⟩, ⟨rfl, rfl⟩, rfl⟩
  | cond :: body :: args =>
    simp only [visitBranches, Checked.run_bind_eq_ok, Checked.run_guard_eq_ok, Prod.exists,
      inBranch_run_eq_ok, Checked.run_pure_eq_ok, Prod.mk.injEq, visit_run_eq_ok cond,
      visit_run_eq_ok body, visitBranches_run_eq_ok args, Bool.not_eq_false]
    refine ⟨?_, ?_⟩
    · rintro ⟨cond', st₁, hc, hn, body', shadowed, st₂, ⟨st₃, h, hv, rfl, rfl⟩, args', acc₁, st₄,
        hs, ⟨rfl, rfl⟩, rfl⟩
      exact .cons hc hn h hv hs
    · intro h
      cases h with
      | cons hc hn h hv hs =>
        exact ⟨_, _, hc, hn, _, _, _, ⟨_, h, hv, rfl, rfl⟩, _, _, _, hs, ⟨rfl, rfl⟩, rfl⟩
termination_by structural args

end

/-! ## 3. Scopes -/

theorem addShadowed_lookup (acc : Scope ValueType) (shadowed : Scope VarEntry) (x : String) :
    (addShadowed acc shadowed).lookup x =
      ((shadowed.lookup x).map VarEntry.type).or (acc.lookup x) :=
  lookup_foldl_insert VarEntry.type x shadowed.entries acc shadowed.nodupKeys

theorem setShadowed_eq (st : ScopeStack VarEntry) (acc : Scope ValueType) :
    setShadowed st acc =
      { st with top := acc.entries.foldl (fun top e => top.insert e.1 ⟨e.2, false⟩) st.top } := by
  unfold setShadowed
  generalize acc.entries = l
  induction l generalizing st with
  | nil => rfl
  | cons e l ih =>
    rw [List.foldl_cons, ih]
    rfl

@[simp] theorem setShadowed_outer (st : ScopeStack VarEntry) (acc : Scope ValueType) :
    (setShadowed st acc).outer = st.outer := by
  rw [setShadowed_eq]

theorem setShadowed_top_lookup (st : ScopeStack VarEntry) (acc : Scope ValueType) (x : String) :
    (setShadowed st acc).top.lookup x =
      ((acc.lookup x).map fun t => (⟨t, false⟩ : VarEntry)).or (st.top.lookup x) := by
  rw [setShadowed_eq]
  exact lookup_foldl_insert (fun t => (⟨t, false⟩ : VarEntry)) x acc.entries st.top acc.nodupKeys

theorem setShadowed_lookup (st : ScopeStack VarEntry) (acc : Scope ValueType) (x : String) :
    (setShadowed st acc).lookup x =
      ((acc.lookup x).map fun t => (⟨t, false⟩ : VarEntry)).or (st.lookup x) := by
  rw [lookup_eq_or, lookup_eq_or, setShadowed_top_lookup, setShadowed_outer]
  cases acc.lookup x <;> simp

/-- Writing back entries the scopes already have changes no lookup. -/
theorem setShadowed_lookup_eq {acc : Scope ValueType}
    (h : ∀ {x t}, acc.lookup x = some t → st.lookup x = some ⟨t, false⟩) (x : String) :
    (setShadowed st acc).lookup x = st.lookup x := by
  rw [setShadowed_lookup]
  cases ha : acc.lookup x with
  | none => rfl
  | some t => rw [h ha]; rfl

theorem checkVar_eq_kOk_iff {entry : Option VarEntry} {t : ValueType} {c : Bool} :
    checkVar entry t c = .kOk ↔ ∀ e, entry = some e → e = ⟨t, false⟩ ∧ c = false := by
  rcases entry with - | ⟨t', c'⟩
  · simp [checkVar]
  · cases c' <;> cases c <;> simp [checkVar]

/-- What binding a statement does: nothing without a name, and a name that is known keeps its
entry. -/
theorem bindStmt_eq_ok_iff {var : VarInfo} {node : ExecNode} :
    bindStmt var node st = .ok st' ↔
      (var.name = "" ∧ st' = st) ∨
      (var.name ≠ "" ∧ (∀ e, st.lookup var.name = some e →
        e = ⟨node.getReturnType, false⟩ ∧ var.isConst = false) ∧
        st' = st.set var.name ⟨node.getReturnType, var.isConst⟩) := by
  unfold bindStmt
  split
  · next hn =>
    rw [Except.ok.injEq]
    refine ⟨fun h => .inl ⟨hn, h.symm⟩, ?_⟩
    rintro (⟨-, rfl⟩ | ⟨h, -⟩)
    · rfl
    · exact absurd hn h
  · next hn =>
    rw [← checkVar_eq_kOk_iff]
    unfold trySetVar
    cases checkVar (st.lookup var.name) node.getReturnType var.isConst with
    | kOk =>
      simp only [Except.ok.injEq, hn, false_and, ne_eq, not_false_eq_true, true_and, false_or]
      exact eq_comm
    | kConstReassign => simp [hn]
    | kRedeclare => simp [hn]
    | kTypeMismatch => simp [hn]

/-! ## 4. Only void nodes touch the scopes -/

theorem ne_kVoid_of_unaryOPType {loc : SourceLocation} {op : UnaryOPType} {child t : ValueType}
    (h : unaryOPType loc op child = .ok t) : child ≠ .kVoid := by
  rintro rfl
  simp [unaryOPType] at h

theorem ne_kVoid_of_binaryOPType {loc : SourceLocation} {op : BinaryOPType}
    {left right : ExecNode} {t : ValueType} (h : binaryOPType loc op left right = .ok t) :
    left.getReturnType ≠ .kVoid ∧ right.getReturnType ≠ .kVoid := by
  by_contra hv
  rw [not_and_or, ne_eq, ne_eq, not_not, not_not] at hv
  unfold binaryOPType at h
  rw [if_pos hv] at h
  cases h

mutual

/-- **An expression leaves the scopes as they were.** -/
theorem Visits.scopes_eq {node node' : ExecNode} {st st' : ScopeStack VarEntry} :
    Visits reg st node node' st' → node'.getReturnType ≠ .kVoid → st' = st
  | .entryArgument, _ | .execContext, _ | .output, _ | .constantValue, _ | .constantListValue, _
  | .ref _, _ => rfl
  | .unaryOP hc ht, _ => hc.scopes_eq (ne_kVoid_of_unaryOPType ht)
  | .binaryOP hl hr ht, _ => by
    have hv := ne_kVoid_of_binaryOPType ht
    rw [hr.scopes_eq hv.2, hl.scopes_eq hv.1]
  | .function ha _, _ => ha.scopes_eq
  | .ifNode _ ha _, _ => ha.scopes_eq
  | .switchNode _ ha _, _ => ha.scopes_eq
  | .noOP _, hv => absurd rfl hv
  | .ifBlock _ _, hv => absurd rfl hv

theorem VisitsArgs.scopes_eq {args args' : List ExecNode} {st st' : ScopeStack VarEntry} :
    VisitsArgs reg st args args' st' → st' = st
  | .nil => rfl
  | .cons h hv hs => by rw [hs.scopes_eq, h.scopes_eq hv]

end

/-! ## 5. What a visit keeps -/

/-- `st'` is `st` after some statements: the outer scopes are the same, a name that was known
has the entry it had, and an entry of the innermost scope that shadows an outer one is not
`const`. -/
structure Keeps (st st' : ScopeStack VarEntry) : Prop where
  outer : st'.outer = st.outer
  lookup : ∀ {x e}, st.lookup x = some e → st'.lookup x = some e
  top : ∀ {x e}, st'.top.lookup x = some e →
    st.top.lookup x = some e ∨ st.lookup x = none ∨ e.isConst = false

namespace Keeps

theorem refl (st : ScopeStack VarEntry) : Keeps st st := ⟨rfl, id, .inl⟩

theorem trans {st st' st'' : ScopeStack VarEntry} (h : Keeps st st') (h' : Keeps st' st'') :
    Keeps st st'' where
  outer := h'.outer.trans h.outer
  lookup hx := h'.lookup (h.lookup hx)
  top {x e} hx := by
    rcases h'.top hx with ht | hn | hc
    · exact h.top ht
    · cases hs : st.lookup x with
      | none => exact .inr (.inl rfl)
      | some e' => rw [h.lookup hs] at hn; cases hn
    · exact .inr (.inr hc)

theorem popScope (h : Keeps st.pushScope st') : st'.popScope = st := popScope_of_outer h.outer

/-- **A variable a branch assigns has the entry it has outside.** -/
theorem getShadowed (h : Keeps st.pushScope st') {x : String} {e : VarEntry}
    (hx : st'.getShadowed.lookup x = some e) : st.lookup x = some e ∧ e.isConst = false := by
  rw [lookup_getShadowed, h.outer, pushScope_outer] at hx
  split at hx
  · next hk =>
    obtain ⟨e', he'⟩ := Option.isSome_iff_exists.mp hk
    have hin : st.pushScope.lookup x = some e' := (lookup_pushScope st x).trans he'
    have htop : st'.lookup x = some e := by rw [lookup_eq_or, hx]; rfl
    obtain rfl : e' = e := Option.some.inj ((h.lookup hin).symm.trans htop)
    refine ⟨he', ?_⟩
    rcases h.top hx with ht | hn | hc
    · cases ht
    · rw [hin] at hn
      cases hn
    · exact hc
  · cases hx

theorem bindStmt {var : VarInfo} {node : ExecNode} (h : bindStmt var node st = .ok st') :
    Keeps st st' := by
  rcases bindStmt_eq_ok_iff.mp h with ⟨-, rfl⟩ | ⟨-, hk, rfl⟩
  · exact refl st'
  · refine ⟨rfl, ?_, ?_⟩
    · intro x e hx
      by_cases hn : x = var.name
      · subst hn
        obtain ⟨rfl, hc⟩ := hk e hx
        rw [lookup_set, hc]
      · rw [lookup_set_ne st _ hn, hx]
    · intro x e hx
      by_cases hn : x = var.name
      · subst hn
        obtain rfl : (⟨node.getReturnType, var.isConst⟩ : VarEntry) = e := by
          simpa [ScopeStack.set] using hx
        cases hs : st.lookup var.name with
        | none => exact .inr (.inl rfl)
        | some e' => exact .inr (.inr (hk e' hs).2)
      · left
        simpa [ScopeStack.set, AList.lookup_insert_ne hn] using hx

theorem setShadowed {acc : Scope ValueType}
    (h : ∀ {x t}, acc.lookup x = some t → st.lookup x = some ⟨t, false⟩) :
    Keeps st (setShadowed st acc) := by
  refine ⟨setShadowed_outer st acc, ?_, ?_⟩
  · intro x e hx
    rw [setShadowed_lookup_eq h, hx]
  · intro x e hx
    rw [setShadowed_top_lookup] at hx
    cases ha : acc.lookup x with
    | none => rw [ha] at hx; exact .inl hx
    | some t =>
      rw [ha] at hx
      cases hx
      exact .inr (.inr rfl)

end Keeps

/-- What a branch adds to the collected variables. -/
theorem Keeps.addShadowed {acc : Scope ValueType} (h : Keeps st.pushScope st') {x : String}
    {t : ValueType} (hx : (addShadowed acc st'.getShadowed).lookup x = some t) :
    acc.lookup x = some t ∨ st.lookup x = some ⟨t, false⟩ := by
  rw [addShadowed_lookup] at hx
  cases hs : st'.getShadowed.lookup x with
  | none => rw [hs] at hx; exact .inl hx
  | some e =>
    obtain ⟨hl, hc⟩ := h.getShadowed hs
    rw [hs] at hx
    obtain rfl : e.type = t := Option.some.inj hx
    right
    rw [hl, ← hc]

theorem enterStmt_true (st : ScopeStack VarEntry) : enterStmt true st = st.pushScope := rfl

/-- An isolated statement leaves the scopes as they were, any other one keeps them. -/
theorem Keeps.leaveStmt {isolated : Bool} (h : Keeps (enterStmt isolated st) st') :
    Keeps st (leaveStmt isolated st') := by
  cases isolated with
  | false => exact h
  | true =>
    have hp : Validator.leaveStmt true st' = st := h.popScope
    rw [hp]
    exact .refl st

mutual

/-- **A visit keeps what the scopes know.** -/
theorem Visits.keeps {node node' : ExecNode} {st st' : ScopeStack VarEntry} :
    Visits reg st node node' st' → Keeps st st'
  | .entryArgument | .execContext | .output | .constantValue | .constantListValue | .ref _ =>
    .refl st
  | .unaryOP hc _ => hc.keeps
  | .binaryOP hl hr _ => hl.keeps.trans hr.keeps
  | .function ha _ | .ifNode _ ha _ | .switchNode _ ha _ => ha.scopes_eq ▸ .refl st
  | .noOP hs => hs.keeps
  | .ifBlock _ hb => by
    obtain ⟨rfl, hacc⟩ := hb.keeps
    exact .setShadowed fun hx => (hacc hx).resolve_left (by simp)

theorem VisitsStmts.keeps {isolated : Bool} {args args' : List (VarInfo × ExecNode)}
    {st st' : ScopeStack VarEntry} : VisitsStmts reg isolated st args args' st' → Keeps st st'
  | .nil => .refl st
  | .cons h hb hs => (h.keeps.trans (.bindStmt hb)).leaveStmt.trans hs.keeps

/-- The branches leave the scopes alone, and collect variables that are known and not
`const`. -/
theorem VisitsBranches.keeps {acc acc' : Scope ValueType} {args args' : List ExecNode}
    {st st' : ScopeStack VarEntry} : VisitsBranches reg acc st args args' acc' st' →
      st' = st ∧ ∀ {x t}, acc'.lookup x = some t →
        acc.lookup x = some t ∨ st.lookup x = some ⟨t, false⟩
  | .nil => ⟨rfl, .inl⟩
  | .elseBody h _ => ⟨h.keeps.popScope, h.keeps.addShadowed⟩
  | .cons hc hn h _ hs => by
    obtain rfl := hc.scopes_eq (ne_kVoid_of_isNumericType hn)
    have hpop := h.keeps.popScope
    obtain ⟨rfl, hacc⟩ := hs.keeps
    refine ⟨hpop, ?_⟩
    intro x t hx
    rcases hacc hx with h' | h'
    · exact h.keeps.addShadowed h'
    · rw [hpop] at h'
      exact .inr h'

end

/-- Isolated statements leave the scopes as they were. -/
theorem VisitsStmts.isolated_eq {args args' : List (VarInfo × ExecNode)}
    {st st' : ScopeStack VarEntry} : VisitsStmts reg true st args args' st' → st' = st
  | .nil => rfl
  | .cons h hb hs => by
    have hk : Keeps st.pushScope _ := h.keeps.trans (.bindStmt hb)
    rw [hs.isolated_eq, leaveStmt, if_pos rfl, hk.popScope]

end Validator

end JitFusion
