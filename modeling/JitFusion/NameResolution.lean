/-
# Name resolution

Three scope structures resolve the names of a pipeline: the blocks of the builder, the types of
the validator, the values of the code generator.

* The tree of a built pipeline is closed (`stmtsTree_closed`): every reference names a binding the
  tree makes before it, in the same or an enclosing block.
* The validator resolves every reference of a closed tree (`visit_raises`): whatever error it
  stops with is another one.
* The code generator resolves every reference the validator has resolved (`visit_resolves`), though
  it visits the branches of a when-block in reverse order.
-/
import Mathlib.Data.List.Induction
import JitFusion.AstBuild
import JitFusion.BatchValidation
import JitFusion.CodeGen

namespace JitFusion

/-! ## 1. The errors of an unresolved name -/

/-- The text begins with these characters. -/
def Begins (front : List Char) (s : String) : Prop := front <+: s.toList

namespace Begins

variable {front : List Char} {s : String}

theorem text (l : List Char) : Begins front (String.ofList (front ++ l)) := by
  unfold Begins
  rw [String.toList_ofList]
  exact List.prefix_append front l

theorem append (h : Begins front s) (rest : String) : Begins front (s ++ rest) := by
  unfold Begins
  rw [String.toList_append]
  exact h.trans (List.prefix_append _ _)

/-- A text has one beginning of a length. -/
theorem unique {front' : List Char} (h : Begins front s) (h' : Begins front' s)
    (hl : front.length = front'.length) : front = front' :=
  (List.prefix_of_prefix_length_le h h' (Nat.le_of_eq hl)).eq_of_length hl

end Begins

namespace Validator

open TypeHelper

/-- The error of `Visit(RefNode&)`. -/
def notDefined (loc : SourceLocation) (name : String) : Status :=
  makeParseError loc ("variable '" ++ name ++ "' is not defined")

/-- An error other than that of an unresolved name. -/
def OtherError (st : Status) : Prop := ∀ loc name, st ≠ notDefined loc name

/-- A rendered error shows the first character of its message. -/
theorem makeParseError_begins {loc : SourceLocation} {message : String} {c : Char}
    (h : Begins [c] message) :
    Begins ['e', 'r', 'r', 'o', 'r', ':', ' ', c] (makeParseError loc message).msg := by
  rcases Diagnostic.render_head { level := .kError, message, loc } with ⟨tail, hl⟩
  rw [makeParseError, Status.parseError, hl]
  refine .append ?_ tail
  rcases h with ⟨l, hl⟩
  refine ⟨l, ?_⟩
  rw [String.toList_append, ← hl, Diagnostic.levelToString, String.toList_append]
  rfl

/-- The message of an unresolved name begins with a `v`, and no other message does. -/
theorem makeParseError_other {loc : SourceLocation} {message : String} {c : Char}
    (h : Begins [c] message) (hc : c ≠ 'v') :
    OtherError (makeParseError loc message) := by
  intro loc' name he
  have hv : Begins ['v'] ("variable '" ++ name ++ "' is not defined") :=
    .append (.append (.text _) _) _
  have hb := @makeParseError_begins loc _ _ h
  rw [he] at hb
  have heq := hb.unique (makeParseError_begins hv) rfl
  exact hc (by simpa using heq)

theorem functionVoidError_other (loc : SourceLocation) (funcName : String) (node : ExecNode) :
    OtherError (functionVoidError loc funcName node) :=
  makeParseError_other (.append (.append (.text _) _) _) (by decide)

theorem ifCountError_other (loc : SourceLocation) (size : Nat) :
    OtherError (ifCountError loc size) :=
  makeParseError_other (.append (.text _) _) (by decide)

theorem ifVoidError_other (node : ExecNode) : OtherError (ifVoidError node) :=
  makeParseError_other (.text _) (by decide)

theorem switchCountError_other (loc : SourceLocation) (size : Nat) :
    OtherError (switchCountError loc size) :=
  makeParseError_other (.append (.append (.text _) _) _) (by decide)

theorem switchVoidError_other (node : ExecNode) : OtherError (switchVoidError node) :=
  makeParseError_other (.text _) (by decide)

theorem ifBlockCountError_other (loc : SourceLocation) : OtherError (ifBlockCountError loc) :=
  makeParseError_other (.text _) (by decide)

theorem ifBlockCondError_other (node : ExecNode) : OtherError (ifBlockCondError node) :=
  makeParseError_other (.append (.text _) _) (by decide)

theorem ifBlockBodyError_other (node : ExecNode) : OtherError (ifBlockBodyError node) :=
  makeParseError_other (.append (.text _) _) (by decide)

theorem ifBlockElseError_other (node : ExecNode) : OtherError (ifBlockElseError node) :=
  makeParseError_other (.append (.text _) _) (by decide)

theorem notImplemented_other (msg : String) : OtherError (.notImplemented msg) := by
  intro loc name he
  exact nomatch congrArg Status.code he

theorem unaryOPType_other {loc : SourceLocation} {op : UnaryOPType} {child : ValueType} {e : Status}
    (h : unaryOPType loc op child = .error e) : OtherError e := by
  unfold unaryOPType at h
  split at h
  · cases h
    exact makeParseError_other (.text _) (by decide)
  split at h
  · cases h
    exact makeParseError_other (.append (.text _) _) (by decide)
  split at h
  · exact nomatch h
  · split at h
    all_goals cases h
    all_goals exact notImplemented_other _
  · exact nomatch h
  · split at h
    · cases h
      exact makeParseError_other (by (repeat with_reducible apply Begins.append); exact .text _)
        (by decide)
    · exact nomatch h

theorem binaryOPType_other {loc : SourceLocation} {op : BinaryOPType} {left right : ExecNode}
    {e : Status} (h : binaryOPType loc op left right = .error e) : OtherError e := by
  simp only [binaryOPType] at h
  split_ifs at h
  all_goals cases h
  · exact makeParseError_other (.text _) (by decide)
  · exact makeParseError_other (.append (.text _) _) (by decide)
  · exact makeParseError_other (.append (.text _) _) (by decide)
  · exact makeParseError_other (.append (.text _) _) (by decide)
  · exact makeParseError_other (.append (.append (.append (.append (.text _) _) _) _) _)
      (by decide)
  · exact makeParseError_other (.text _) (by decide)
  · exact makeParseError_other (.append (.text _) _) (by decide)

theorem functionType_other {reg : FunctionRegistry} {loc : SourceLocation} {funcName : String}
    {args : List ExecNode} {e : Status} (h : functionType reg loc funcName args = .error e) :
    OtherError e := by
  unfold functionType at h
  split at h
  · next st _ =>
    cases h
    rcases st with ⟨code, msg⟩
    cases code with
    | kInvalidArgument | kRuntimeError | kParseError | kNotImplemented =>
      exact makeParseError_other (.append (.append (.text _) _) _) (by decide)
  · exact nomatch h

theorem ifNodeType_other {loc : SourceLocation} {args : List ExecNode} {e : Status}
    (h : ifNodeType loc args = .error e) : OtherError e := by
  unfold ifNodeType ifCountError at h
  split at h
  · split at h
    · cases h
      exact makeParseError_other (.append (.text _) _) (by decide)
    · split at h
      · cases h
      · split at h
        · cases h
        · cases h
          exact makeParseError_other (.append (.append (.append (.text _) _) _) _) (by decide)
  · cases h
    exact makeParseError_other (.append (.text _) _) (by decide)

theorem switchBranch_other {numeric complex : ValueType} {arg : ExecNode} {e : Status}
    (h : switchBranch numeric complex arg = .error e) : OtherError e := by
  unfold switchBranch at h
  split at h
  · exact nomatch h
  · split at h
    · cases h
      exact makeParseError_other (.append (.append (.append (.text _) _) _) _) (by decide)
    · exact nomatch h

theorem switchBranches_other {args : List ExecNode} {numeric complex : ValueType} {e : Status}
    (h : switchBranches numeric complex args = .error e) : OtherError e := by
  induction args using List.twoStepInduction generalizing numeric complex with
  | nil => cases h
  | singleton _ => exact switchBranch_other h
  | cons_cons _ _ args ih _ =>
    rw [switchBranches] at h
    split at h
    · cases h
      exact makeParseError_other (by (repeat with_reducible apply Begins.append); exact .text _)
        (by decide)
    · split at h
      · next hb =>
        cases h
        exact switchBranch_other hb
      · exact ih h

theorem switchNodeType_other {loc : SourceLocation} {args : List ExecNode} {e : Status}
    (h : switchNodeType loc args = .error e) : OtherError e := by
  unfold switchNodeType at h
  split at h
  · next hb =>
    cases h
    exact switchBranches_other hb
  · split at h
    · cases h
      exact makeParseError_other (by (repeat with_reducible apply Begins.append); exact .text _)
        (by decide)
    · exact nomatch h

theorem bindStmt_other {var : VarInfo} {node : ExecNode} {st : ScopeStack VarEntry} {e : Status}
    (h : bindStmt var node st = .error e) : OtherError e := by
  unfold bindStmt typeMismatchMessage at h
  split at h
  · exact nomatch h
  · split at h
    · exact nomatch h
    · cases h
      exact makeParseError_other (.append (.append (.text _) _) _) (by decide)
    · cases h
      exact makeParseError_other (.append (.append (.text _) _) _) (by decide)
    · cases h
      exact makeParseError_other
        (.append (.append (.append (.append (.append (.text _) _) _) _) _) _) (by decide)

end Validator

/-! ## 2. The tree of a pipeline is closed -/

namespace Athena

open Validator

/-- A closed tree that binds nothing in the scope around it. -/
structure ClosedIn (known : List String) (e : ExecNode) : Prop where
  reads : closed known e = true
  exports : exports e = []

section Trees

variable {source : String}

theorem closedArgs_append (known : List String) (args args' : List ExecNode) :
    closedArgs known (args ++ args') = (closedArgs known args && closedArgs known args') := by
  induction args with
  | nil => rfl
  | cons arg args ih => rw [List.cons_append, closedArgs, closedArgs, ih, Bool.and_assoc]

mutual

theorem Term.tree_closed : ∀ (t : Term) {defs : Defs} {e : ExecNode},
    t.tree .kPipeline source defs = some e → ClosedIn defs.names e
  | .literal _ _, _, _, h | .list _ _, _, _, h | .entryArg _, _, _, h | .execCtx _, _, _, h
  | .output _, _, _, h => by
    cases h
    exact ⟨rfl, rfl⟩
  | .identifier loc name, defs, e, h => by
    rw [Term.tree, refTree] at h
    rcases Option.bind_eq_some_iff.mp h with ⟨tree, hlook, h⟩
    cases h
    refine ⟨?_, rfl⟩
    rw [closed, decide_eq_true_eq, Defs.mem_names_iff, hlook]
    rfl
  | .paren term, _, _, h => Term.tree_closed term h
  | .unary _ _ term, _, _, h => by
    rcases Option.map_eq_some_iff.mp h with ⟨child, hc, rfl⟩
    exact ⟨(Term.tree_closed term hc).reads, rfl⟩
  | .binary _ _ left right, _, _, h => by
    rcases Option.bind_eq_some_iff.mp h with ⟨l, hl, h⟩
    rcases Option.map_eq_some_iff.mp h with ⟨r, hr, rfl⟩
    refine ⟨?_, rfl⟩
    rw [closed, (Term.tree_closed left hl).reads, (Term.tree_closed right hr).reads]
    rfl
  | .in_ _ left right, _, _, h => by
    rcases Option.bind_eq_some_iff.mp h with ⟨l, hl, h⟩
    rcases Option.map_eq_some_iff.mp h with ⟨r, hr, rfl⟩
    refine ⟨?_, rfl⟩
    rw [closed, closedArgs, closedArgs, closedArgs, (Term.tree_closed left hl).reads,
      (Term.tree_closed right hr).reads]
    rfl
  | .if_ _ args, _, _, h | .call _ _ args, _, _, h | .switch_ _ args, _, _, h => by
    rcases Option.map_eq_some_iff.mp h with ⟨es, hs, rfl⟩
    exact ⟨argsTree_closed args hs, rfl⟩

theorem argsTree_closed : ∀ (args : List Term) {defs : Defs} {es : List ExecNode},
    argsTree .kPipeline source defs args = some es → closedArgs defs.names es = true
  | [], _, _, h => by
    cases h
    rfl
  | arg :: args, _, _, h => by
    rcases Option.bind_eq_some_iff.mp h with ⟨e, he, h⟩
    rcases Option.map_eq_some_iff.mp h with ⟨es, hs, rfl⟩
    rw [closedArgs, (Term.tree_closed arg he).reads, argsTree_closed args hs]
    rfl

end

/-- What a statement binds is what it defines. -/
theorem Stmt.bound_names (stmt : Stmt) {known : List String} {e : ExecNode} (h : ClosedIn known e) :
    (exports e ++ ownBinding stmt.var e).map Prod.fst = stmt.defines := by
  rw [h.exports, List.nil_append, ownBinding, Stmt.defines]
  split <;> rfl

mutual

theorem Stmt.tree_closed : ∀ (stmt : Stmt) {defs : Defs} {e : ExecNode},
    stmt.tree .kPipeline source defs = some e → ClosedIn defs.names e
  | .assign _ expr, _, _, h | .let_ _ expr, _, _, h | .expr expr, _, _, h =>
    Term.tree_closed expr h
  | .when_ _ _ cond block chain, _, _, h => by
    rcases Option.bind_eq_some_iff.mp h with ⟨c, hc, h⟩
    rcases Option.bind_eq_some_iff.mp h with ⟨args, hargs, h⟩
    rcases Option.map_eq_some_iff.mp h with ⟨rest, hrest, rfl⟩
    refine ⟨?_, rfl⟩
    rw [closed, closedArgs, closedArgs, closed, (Term.tree_closed cond hc).reads,
      stmtsTree_closed block hargs, chainTree_closed chain hrest]
    rfl

/-- **A statement reads what the statements before it define.** -/
theorem stmtsTree_closed : ∀ (stmts : List Stmt) {defs : Defs} {args : List (VarInfo × ExecNode)},
    stmtsTree .kPipeline source defs stmts = some args → closedStmts false defs.names args = true
  | [], _, _, h => by
    cases h
    rfl
  | stmt :: stmts, defs, _, h => by
    rw [stmtsTree] at h
    rcases Option.bind_eq_some_iff.mp h with ⟨e, he, h⟩
    rcases Option.map_eq_some_iff.mp h with ⟨args, hargs, rfl⟩
    have hc := Stmt.tree_closed stmt he
    have hs := stmtsTree_closed stmts hargs
    rw [stmt.addTo_names] at hs
    rw [closedStmts, hc.reads, if_neg Bool.false_ne_true, stmt.bound_names hc, hs]
    rfl

theorem clauseTree_closed : ∀ (clause : Clause) {defs : Defs} {es : List ExecNode},
    clauseTree .kPipeline source defs clause = some es → closedArgs defs.names es = true
  | .elif cond block, _, _, h => by
    rcases Option.bind_eq_some_iff.mp h with ⟨c, hc, h⟩
    rcases Option.map_eq_some_iff.mp h with ⟨args, hargs, rfl⟩
    rw [closedArgs, closedArgs, closedArgs, closed, (Term.tree_closed cond hc).reads,
      stmtsTree_closed block hargs]
    rfl
  | .else_ block, _, _, h => by
    rcases Option.map_eq_some_iff.mp h with ⟨args, hargs, rfl⟩
    rw [closedArgs, closedArgs, closed, stmtsTree_closed block hargs]
    rfl

theorem chainTree_closed : ∀ (chain : List Clause) {defs : Defs} {es : List ExecNode},
    chainTree .kPipeline source defs chain = some es → closedArgs defs.names es = true
  | [], _, _, h => by
    cases h
    rfl
  | clause :: chain, _, _, h => by
    rcases Option.bind_eq_some_iff.mp h with ⟨args, hargs, h⟩
    rcases Option.map_eq_some_iff.mp h with ⟨rest, hrest, rfl⟩
    rw [closedArgs_append, clauseTree_closed clause hargs, chainTree_closed chain hrest]
    rfl

end

end Trees

end Athena

/-! ## 3. The validator -/

namespace Validator

variable {reg : FunctionRegistry}

/-- The scopes know the names. -/
def Knows (known : List String) (st : ScopeStack VarEntry) : Prop :=
  ∀ x ∈ known, st.lookup x ≠ none

namespace Knows

variable {known : List String} {st st' st'' : ScopeStack VarEntry}

theorem keeps (h : Knows known st) (hk : Keeps st st') : Knows known st' := by
  intro x hx hn
  cases hl : st.lookup x with
  | none => exact h x hx hl
  | some e =>
    rw [hk.lookup hl] at hn
    exact nomatch hn

theorem pushScope (h : Knows known st) : Knows known st.pushScope := by
  intro x hx
  rw [ScopeStack.lookup_pushScope]
  exact h x hx

/-- After a statement the scopes know what it binds, too. -/
theorem stmt {isolated : Bool} {var : VarInfo} {arg arg' : ExecNode} (hk : Knows known st)
    (h : Visits reg (enterStmt isolated st) arg arg' st') (hb : bindStmt var arg' st' = .ok st'') :
    Knows (if isolated then known else (exports arg ++ ownBinding var arg).map Prod.fst ++ known)
      (leaveStmt isolated st'') := by
  have hkeeps : Keeps (enterStmt isolated st) st'' := h.keeps.trans (.bindStmt hb)
  cases isolated with
  | true => exact hk.keeps hkeeps.leaveStmt
  | false =>
    rw [if_neg Bool.false_ne_true]
    intro x hx
    have hlook : ∀ e, (x, e) ∈ exports arg' ∨ (x, e) ∈ ownBinding var arg' →
        st''.lookup x ≠ none := by
      intro e he
      rw [(bindStmt_lookup hb x e).mpr (he.imp_left fun he => (h.lookup_iff x e).mpr (.inr he))]
      exact Option.some_ne_none _
    rcases List.mem_append.mp hx with hx | hx
    · rw [List.map_append, ← h.exports_names] at hx
      rcases List.mem_append.mp hx with hx | hx
      · rcases List.mem_map.mp hx with ⟨⟨y, e⟩, he, rfl⟩
        exact hlook e (.inl he)
      · rcases List.mem_map.mp hx with ⟨⟨y, e⟩, he, rfl⟩
        rcases mem_ownBinding.mp he with ⟨hn, hy, -⟩
        exact hlook _ (.inr (mem_ownBinding.mpr ⟨hn, hy, rfl⟩))
    · exact hk.keeps hkeeps x hx

end Knows

/-- A body of a when-block. -/
theorem inBranch_raises {error : ExecNode → Status} {body : M ExecNode} {st : ScopeStack VarEntry}
    (he : ∀ node, OtherError (error node)) (h : Checked.Raises OtherError body st.pushScope) :
    Checked.Raises OtherError (inBranch error body) st := by
  unfold inBranch
  exact .modify_bind (h.bind fun node st' _ =>
    .guard_bind (fun _ => he node) fun _ => .get_bind (.modify_bind (.pure _)))

mutual

/-- **A closed tree has no unresolved name.** -/
theorem visit_raises (node : ExecNode) : ∀ {known : List String} {st : ScopeStack VarEntry},
    closed known node = true → Knows known st →
    Checked.Raises OtherError (visit reg node) st := by
  intro known st hc hk
  cases node with
  | entryArgument info | execContext info | output info => exact .pure _
  | constantValue info val => exact .pure _
  | constantListValue info valList => exact .pure _
  | unaryOP info op child =>
    rw [visit]
    refine (visit_raises child hc hk).bind fun child' st' hrun => ?_
    exact .liftM_bind (fun e he => unaryOPType_other he) fun t ht => .pure _
  | binaryOP info op left right =>
    rw [closed, Bool.and_eq_true] at hc
    rw [visit]
    refine (visit_raises left hc.1 hk).bind fun left' st₁ hl => ?_
    have hk₁ := hk.keeps ((visit_run_eq_ok left).mp hl).keeps
    refine (visit_raises right hc.2 hk₁).bind fun right' st₂ hr => ?_
    exact .liftM_bind (fun e he => binaryOPType_other he) fun t ht => .pure _
  | function info funcName args =>
    rw [visit]
    have hvoid := functionVoidError_other info.loc funcName
    refine (visitArgs_raises args hc hk hvoid).bind fun args' st' ha => ?_
    exact .liftM_bind (fun e he => functionType_other he) fun t ht => .pure _
  | noOP info args isolated =>
    rw [visit]
    exact (visitStmts_raises args hc hk).bind fun args' st' ha => .pure _
  | ifNode info args =>
    rw [visit]
    refine .guard_bind (fun _ => ifCountError_other _ _) fun _ => ?_
    refine (visitArgs_raises args hc hk ifVoidError_other).bind fun args' st' ha => ?_
    exact .liftM_bind (fun e he => ifNodeType_other he) fun t ht => .pure _
  | switchNode info args =>
    rw [visit]
    refine .guard_bind (fun _ => switchCountError_other _ _) fun _ => ?_
    refine (visitArgs_raises args hc hk switchVoidError_other).bind fun args' st' ha => ?_
    exact .liftM_bind (fun e he => switchNodeType_other he) fun t ht => .pure _
  | ifBlock info args =>
    rw [visit]
    refine .guard_bind (fun _ => ifBlockCountError_other _) fun _ => ?_
    exact (visitBranches_raises args hc hk).bind fun r st' ha => .modify_bind (.pure _)
  | ref info name =>
    rw [closed, decide_eq_true_eq] at hc
    rw [visit]
    refine .get_bind ?_
    cases hl : st.lookup name with
    | none => exact absurd hl (hk name hc)
    | some entry => exact .pure _
termination_by structural node

theorem visitArgs_raises (args : List ExecNode) : ∀ {known : List String}
    {st : ScopeStack VarEntry} {voidError : ExecNode → Status}, closedArgs known args = true →
    Knows known st → (∀ node, OtherError (voidError node)) →
    Checked.Raises OtherError (visitArgs reg voidError args) st := by
  intro known st voidError hc hk hv
  cases args with
  | nil => exact .pure _
  | cons arg args =>
    rw [closedArgs, Bool.and_eq_true] at hc
    rw [visitArgs]
    refine (visit_raises arg hc.1 hk).bind fun arg' st₁ ha => ?_
    have hk₁ := hk.keeps ((visit_run_eq_ok arg).mp ha).keeps
    refine .guard_bind (fun _ => hv arg') fun _ => ?_
    exact (visitArgs_raises args hc.2 hk₁ hv).bind fun args' st₂ hs => .pure _
termination_by structural args

theorem visitStmts_raises (args : List (VarInfo × ExecNode)) : ∀ {known : List String}
    {st : ScopeStack VarEntry} {isolated : Bool}, closedStmts isolated known args = true →
    Knows known st → Checked.Raises OtherError (visitStmts reg isolated args) st := by
  intro known st isolated hc hk
  match args with
  | [] => exact .pure _
  | (var, arg) :: args =>
    rw [closedStmts, Bool.and_eq_true] at hc
    rw [visitStmts]
    have henter : Knows known (enterStmt isolated st) := by
      cases isolated with
      | true => exact hk.pushScope
      | false => exact hk
    refine .modify_bind ((visit_raises arg hc.1 henter).bind fun arg' st₁ ha => .get_bind ?_)
    refine .liftM_bind (fun e he => bindStmt_other he) fun st₂ hb => .set_bind ?_
    have hk₂ := hk.stmt ((visit_run_eq_ok arg).mp ha) hb
    exact (visitStmts_raises args hc.2 hk₂).bind fun args' st₃ hs => .pure _
termination_by structural args

theorem visitBranches_raises (args : List ExecNode) : ∀ {known : List String}
    {st : ScopeStack VarEntry} {acc : Scope ValueType}, closedArgs known args = true →
    Knows known st → Checked.Raises OtherError (visitBranches reg acc args) st := by
  intro known st acc hc hk
  match args with
  | [] => exact .pure _
  | [body] =>
    rw [closedArgs, Bool.and_eq_true] at hc
    rw [visitBranches]
    refine (inBranch_raises ifBlockElseError_other
      (visit_raises body hc.1 hk.pushScope)).bind fun r st' _ => .pure _
  | cond :: body :: args =>
    rw [closedArgs, closedArgs, Bool.and_eq_true, Bool.and_eq_true] at hc
    rw [visitBranches]
    refine (visit_raises cond hc.1 hk).bind fun cond' st₁ hcond => ?_
    have hk₁ := hk.keeps ((visit_run_eq_ok cond).mp hcond).keeps
    refine .guard_bind (fun _ => ifBlockCondError_other _) fun _ => ?_
    refine (inBranch_raises ifBlockBodyError_other
      (visit_raises body hc.2.1 hk₁.pushScope)).bind fun r st₂ hbody => ?_
    rcases inBranch_run_eq_ok.mp hbody with ⟨st₃, hb, -, -, rfl⟩
    have hpop : st₃.popScope = st₁ := ((visit_run_eq_ok body).mp hb).keeps.popScope
    rw [hpop]
    exact (visitBranches_raises args hc.2.2 hk₁).bind fun r st₄ _ => .pure _
termination_by structural args

end

end Validator

/-! ## 4. The code generator -/

namespace CodeGen

open TypeHelper Validator

/-- The status of `Visit(RefNode&)`. -/
def notFound (name : String) : Status :=
  .runtimeError ("[internal] variable not found in codegen scope: " ++ name ++
    " (should be caught by validator)")

/-- A fault other than an unresolved name. -/
def OtherFault (f : Fault) : Prop := ∀ name, f ≠ .status (notFound name)

/-- A status whose text begins in another way. -/
def OtherStatus (st : Status) : Prop :=
  (∃ c, Begins [c] st.msg ∧ c ≠ '[') ∨
    ∃ c, Begins ['[', 'i', 'n', 't', 'e', 'r', 'n', 'a', 'l', ']', ' ', c] st.msg ∧ c ≠ 'v'

theorem OtherStatus.fault {st : Status} (h : OtherStatus st) : OtherFault (.status st) := by
  intro name he
  rw [Fault.status.inj he] at h
  rcases h with ⟨c, h, hc⟩ | ⟨c, h, hc⟩
  · have hn : Begins ['['] (notFound name).msg := .append (.append (.text _) _) _
    exact hc (by simpa using h.unique hn rfl)
  · have hn : Begins ['[', 'i', 'n', 't', 'e', 'r', 'n', 'a', 'l', ']', ' ', 'v']
        (notFound name).msg := .append (.append (.text _) _) _
    exact hc (by simpa using h.unique hn rfl)

/-- An internal error shows the first character of its message. -/
theorem internal_other {message : String} {c : Char}
    (h : Begins ['[', 'i', 'n', 't', 'e', 'r', 'n', 'a', 'l', ']', ' ', c] message)
    (hc : c ≠ 'v') : OtherStatus (.runtimeError message) := .inr ⟨c, h, hc⟩

section Statuses

variable {n : Nat} {e : Status}

theorem valueTypeToLLVMType_other {t : ValueType} (h : valueTypeToLLVMType t = .error e) :
    OtherStatus e := by
  cases t with
  | kUnknown =>
    cases h
    exact internal_other (by (repeat with_reducible apply Begins.append); exact .text _) (by decide)
  | _ => exact nomatch h

theorem numericTypeConvert_other {fromType toType : ValueType} {x : IRExpr n}
    (h : numericTypeConvert fromType toType x = .error e) : OtherStatus e := by
  simp only [numericTypeConvert] at h
  split_ifs at h
  all_goals
    cases h
    exact internal_other (by (repeat with_reducible apply Begins.append); exact .text _) (by decide)

theorem toBool_other {what : String} {type : LLVMType} {x : IRExpr n}
    (h : toBool what type x = .error e) : OtherStatus e := by
  unfold toBool at h
  split_ifs at h
  cases h
  exact internal_other (by (repeat with_reducible apply Begins.append); exact .text _) (by decide)

theorem unknownOperator_other (op : BinaryOPType) (lhs rhs : ValueType) :
    OtherStatus (unknownOperator op lhs rhs) :=
  internal_other (by (repeat with_reducible apply Begins.append); exact .text _) (by decide)

theorem getFuncBySign_other {reg : FunctionRegistry} {sign : FunctionSignature}
    (h : reg.getFuncBySign sign = .error e) : OtherStatus e := by
  unfold FunctionRegistry.getFuncBySign at h
  split at h
  all_goals cases h
  all_goals exact .inl ⟨_, .append (.append (.text _) _) _, by decide⟩

/-- The errors of a sequence of steps that have no state. -/
theorem bind_other {α β : Type} {x : Except Status α} {f : α → Except Status β}
    (h : x >>= f = .error e) (hx : ∀ e, x = .error e → OtherStatus e)
    (hf : ∀ a, f a = .error e → OtherStatus e) : OtherStatus e := by
  cases x with
  | error e' => exact hx e (congrArg Except.error (Except.error.inj h))
  | ok a => exact hf a h

theorem unaryOP_other {op : UnaryOPType} {child ret : ValueType} {type : LLVMType} {x : IRExpr n}
    (h : unaryOP op child ret type x = .error e) : OtherStatus e := by
  unfold unaryOP at h
  cases op with
  | kMinus => exact bind_other h (fun _ => numericTypeConvert_other) fun _ h => nomatch h
  | _ => exact nomatch h

theorem solveBinaryOpNumericType_other {op : BinaryOPType} {lhs rhs ret : ValueType}
    {x y : IRExpr n} (h : solveBinaryOpNumericType op lhs rhs ret x y = .error e) :
    OtherStatus e := by
  unfold solveBinaryOpNumericType at h
  split at h
  all_goals
    refine bind_other h (fun _ => numericTypeConvert_other) fun x h => ?_
    refine bind_other h (fun _ => numericTypeConvert_other) fun y h => ?_
    split at h
    all_goals cases h
    all_goals exact unknownOperator_other op lhs rhs

theorem solveBinaryOpComplexType_other {reg : FunctionRegistry} {op : BinaryOPType}
    {lhs rhs ret : ValueType} {x y : IRExpr n}
    (h : solveBinaryOpComplexType reg op lhs rhs ret x y = .error e) : OtherStatus e := by
  unfold solveBinaryOpComplexType listOrStringConcat at h
  split at h
  · refine bind_other h (fun _ => getFuncBySign_other) fun r h => ?_
    exact bind_other h (fun _ => valueTypeToLLVMType_other) fun _ h => nomatch h
  · split at h
    · cases h
      exact internal_other (by (repeat with_reducible apply Begins.append); exact .text _)
        (by decide)
    · refine bind_other h (fun _ => getFuncBySign_other) fun r h => ?_
      obtain ⟨sign, fs⟩ := r
      dsimp only at h
      split at h
      all_goals cases h
      all_goals exact unknownOperator_other op lhs rhs

end Statuses

/-- What the code of a node does to the scopes: the outer ones are the same, and no name is
forgotten. -/
structure Scoped (s s' : State) : Prop where
  outer : s'.scopeStack.outer = s.scopeStack.outer
  known : ∀ x, s.scopeStack.lookup x ≠ none → s'.scopeStack.lookup x ≠ none

namespace Scoped

theorem refl (s : State) : Scoped s s := ⟨rfl, fun _ h => h⟩

theorem trans {s s' s'' : State} (h : Scoped s s') (h' : Scoped s' s'') : Scoped s s'' :=
  ⟨h'.outer.trans h.outer, fun x hx => h'.known x (h.known x hx)⟩

theorem of_eq {s s' : State} (h : s'.scopeStack = s.scopeStack) : Scoped s s' :=
  ⟨congrArg ScopeStack.outer h, fun _ hx => h ▸ hx⟩

end Scoped

/-- How a step that resolves its names ends: it keeps the scopes and adds `names`, or stops with
another fault than an unresolved name. -/
def Outcome {α : Type} (names : List String) (s : State) : Except Fault (α × State) → Prop
  | .ok (_, s') => Scoped s s' ∧ ∀ x ∈ names, s'.scopeStack.lookup x ≠ none
  | .error f => OtherFault f

def Resolves {α : Type} (names : List String) (m : Gen α) (s : State) : Prop :=
  Outcome names s (m.run s)

namespace Resolves

variable {α β : Type} {names names' : List String} {m : Gen α} {f : α → Gen β} {s : State}

/-- **Sequencing.** -/
theorem bind (h : Resolves names' m s)
    (hf : ∀ a s', Scoped s s' → (∀ x ∈ names', s'.scopeStack.lookup x ≠ none) →
      Resolves names (f a) s') : Resolves names (m >>= f) s := by
  unfold Resolves at h
  cases hrun : m.run s with
  | error e =>
    rw [hrun] at h
    have hbind : (m >>= f).run s = .error e := by
      rw [StateT.run_bind, hrun]
      rfl
    unfold Resolves
    rw [hbind]
    exact h
  | ok r =>
    obtain ⟨a, s'⟩ := r
    rw [hrun] at h
    have h' := hf a s' h.1 h.2
    unfold Resolves at h' ⊢
    rw [Checked.run_bind_ok hrun]
    cases hrun' : (f a).run s' with
    | error e =>
      rw [hrun'] at h'
      exact h'
    | ok r =>
      rw [hrun'] at h'
      exact ⟨h.1.trans h'.1, h'.2⟩

/-- A step whose names are of no interest. -/
theorem silent (h : Resolves names m s) : Resolves [] m s := by
  unfold Resolves at h ⊢
  cases hrun : m.run s with
  | error e =>
    rw [hrun] at h
    exact h
  | ok r =>
    rw [hrun] at h
    exact ⟨h.1, fun _ hx => nomatch hx⟩

/-- Names known before are known afterwards. -/
theorem append (h : Resolves names m s) (hk : ∀ x ∈ names', s.scopeStack.lookup x ≠ none) :
    Resolves (names' ++ names) m s := by
  unfold Resolves at h ⊢
  cases hrun : m.run s with
  | error e =>
    rw [hrun] at h
    exact h
  | ok r =>
    rw [hrun] at h
    refine ⟨h.1, fun x hx => ?_⟩
    rcases List.mem_append.mp hx with hx | hx
    · exact h.1.known x (hk x hx)
    · exact h.2 x hx

theorem pure (a : α) : Resolves [] (Pure.pure a : Gen α) s := ⟨.refl s, fun _ hx => nomatch hx⟩

/-- The names added by an earlier step are still known at the end. -/
theorem pure_known (a : α) (h : ∀ x ∈ names, s.scopeStack.lookup x ≠ none) :
    Resolves names (Pure.pure a : Gen α) s := ⟨.refl s, h⟩

theorem throw {e : Fault} (h : OtherFault e) : Resolves names (MonadExcept.throw e : Gen α) s := h

theorem undefined : Resolves names (MonadExcept.throw .undefined : Gen α) s :=
  fun _ h => nomatch h

/-- A variable gets a value. -/
theorem set (name : String) (value : Option Value) :
    Resolves [name] (modify (·.modifyScope (·.set name value)) : Gen Unit) s := by
  refine ⟨⟨rfl, fun x hx => ?_⟩, fun x hx => ?_⟩
  · by_cases hn : x = name
    · subst hn
      simp [State.modifyScope]
    · change (s.scopeStack.set name value).lookup x ≠ none
      rw [ScopeStack.lookup_set_ne _ _ hn]
      exact hx
  · rw [List.mem_singleton.mp hx]
    simp [State.modifyScope]

theorem modify {g : State → State} (h : (g s).scopeStack = s.scopeStack) :
    Resolves [] (modify g : Gen Unit) s := ⟨.of_eq h, fun _ hx => nomatch hx⟩

theorem get : Resolves [] (get : Gen State) s := ⟨.refl s, fun _ hx => nomatch hx⟩

theorem get_bind {f : State → Gen β} (h : Resolves names (f s) s) :
    Resolves names (MonadState.get >>= f) s := h

theorem returnNotOk {x : Except Status α} (h : ∀ e, x = .error e → OtherStatus e) :
    Resolves [] (returnNotOk x) s := by
  cases x with
  | error e => exact (h e rfl).fault
  | ok a => exact pure a

theorem deref (p : Option α) : Resolves [] (deref p) s := by
  cases p with
  | none => exact fun _ h => nomatch h
  | some a => exact pure a

theorem createBlock (label : Label) : Resolves [] (createBlock label) s :=
  ⟨.of_eq rfl, fun _ hx => nomatch hx⟩

theorem emit {n : Nat} (inputs : Fin n → Value) (x : IRExpr n) :
    Resolves [] (emit inputs x) s := ⟨.of_eq rfl, fun _ hx => nomatch hx⟩

theorem createPhi (type : LLVMType) (incoming : List (Ssa.Operand Literal × Nat)) :
    Resolves [] (createPhi type incoming) s := ⟨.of_eq rfl, fun _ hx => nomatch hx⟩

theorem getInsertBlock : Resolves [] getInsertBlock s := ⟨.refl s, fun _ hx => nomatch hx⟩

theorem mapM {f : α → Gen β} (h : ∀ a s, Resolves [] (f a) s) {l : List α} {s : State} :
    Resolves [] (l.mapM f) s := by
  induction l generalizing s with
  | nil =>
    rw [List.mapM_nil]
    exact pure _
  | cons a l ih =>
    rw [List.mapM_cons]
    exact (h a s).bind fun _ _ _ _ => ih.bind fun _ _ _ _ => pure _

theorem getValue {node : ExecNode} {visit : Gen (Option Value)} (h : Resolves names visit s) :
    Resolves names (getValue node visit) s := by
  refine h.bind fun value s' _ hk => ?_
  exact ⟨.of_eq rfl, hk⟩

theorem getCondition {what : String} {node : ExecNode} {visit : Gen (Option Value)}
    (h : Resolves [] visit s) : Resolves [] (getCondition what node visit) s :=
  h.getValue.bind fun _ _ _ _ => (deref _).bind fun _ _ _ _ =>
    (returnNotOk fun _ => toBool_other).bind fun _ _ _ _ => emit _ _

theorem getBranchValue {node : ExecNode} {visit : Gen (Option Value)} {ret : ValueType}
    {mergeBlock : Nat} (h : Resolves [] visit s) :
    Resolves [] (getBranchValue node visit ret mergeBlock) s :=
  h.getValue.bind fun _ _ _ _ => (deref _).bind fun _ _ _ _ =>
    (returnNotOk fun _ => numericTypeConvert_other).bind fun _ _ _ _ =>
      (emit _ _).bind fun _ _ _ _ => getInsertBlock.bind fun _ _ _ _ =>
        (modify rfl).bind fun _ _ _ _ => pure _

end Resolves

/-- The scopes of the code generator know what those of the validator know. -/
def Covers (st : ScopeStack VarEntry) (s : State) : Prop :=
  ∀ x, st.lookup x ≠ none → s.scopeStack.lookup x ≠ none

theorem Covers.scoped {st : ScopeStack VarEntry} {s s' : State} (h : Covers st s)
    (hs : Scoped s s') : Covers st s' := fun x hx => hs.known x (h x hx)

/-- The nodes can be generated wherever the scopes of the validator are covered. -/
def AllResolve (ctx : Context) (st : ScopeStack VarEntry) (args : List ExecNode) : Prop :=
  ∀ arg ∈ args, ∀ s, Covers st s → Resolves [] (visit ctx arg) s

section Nodes

variable {ctx : Context} {st : ScopeStack VarEntry}

theorem visitArgs_resolves (args : List ExecNode) {s : State} (ha : AllResolve ctx st args)
    (hs : Covers st s) : Resolves [] (visitArgs ctx args) s := by
  induction args generalizing s with
  | nil => exact .pure _
  | cons arg args ih =>
    rw [visitArgs]
    refine (ha arg List.mem_cons_self s hs).getValue.bind fun _ s₁ h₁ _ => ?_
    refine (Resolves.deref _).bind fun _ s₂ h₂ _ => ?_
    refine (ih (fun arg hm => ha arg (List.mem_cons_of_mem _ hm))
      ((hs.scoped h₁).scoped h₂)).bind fun _ _ _ _ => .pure _

theorem visitSwitch_resolves {ret : ValueType} {mergeBlock : Nat} (args : List ExecNode)
    {s : State} (ha : AllResolve ctx st args) (hs : Covers st s) :
    Resolves [] (visitSwitch ctx ret mergeBlock args) s := by
  induction args using List.twoStepInduction generalizing s with
  | nil => exact .undefined
  | singleton default_ =>
    rw [visitSwitch]
    refine (Resolves.createBlock _).bind fun _ s₁ h₁ _ => ?_
    refine (Resolves.modify rfl).bind fun _ s₂ h₂ _ => ?_
    refine (ha default_ List.mem_cons_self s₂ ((hs.scoped h₁).scoped h₂)).getBranchValue.bind
      fun _ _ _ _ => .pure _
  | cons_cons cond then_ args ih _ =>
    rw [visitSwitch]
    refine (ih (fun arg hm => ha arg (by simp [hm])) hs).bind fun r s₁ h₁ _ => ?_
    refine (Resolves.createBlock _).bind fun _ s₂ h₂ _ => ?_
    refine (Resolves.modify rfl).bind fun _ s₃ h₃ _ => ?_
    have hs₃ := ((hs.scoped h₁).scoped h₂).scoped h₃
    refine (ha cond (by simp) s₃ hs₃).getCondition.bind fun _ s₄ h₄ _ => ?_
    refine (Resolves.createBlock _).bind fun _ s₅ h₅ _ => ?_
    refine (Resolves.modify rfl).bind fun _ s₆ h₆ _ => ?_
    refine (Resolves.modify rfl).bind fun _ s₇ h₇ _ => ?_
    have hs₇ := (((hs₃.scoped h₄).scoped h₅).scoped h₆).scoped h₇
    exact (ha then_ (by simp) s₇ hs₇).getBranchValue.bind fun _ _ _ _ => .pure _

/-- A body in a scope of its own, which is gone afterwards. -/
theorem getBranchBody_resolves {node : ExecNode} {mergeBlock : Nat} {s : State}
    (h : ∀ s, Covers st s → Resolves [] (visit ctx node) s) (hs : Covers st s) :
    Resolves [] (getBranchBody node (visit ctx node) mergeBlock) s := by
  have hbody := h (s.modifyScope ScopeStack.pushScope) fun x hx => by
    rw [State.modifyScope, ScopeStack.lookup_pushScope]
    exact hs x hx
  unfold Resolves at hbody
  rw [getBranchBody]
  cases hrun : (visit ctx node).run (s.modifyScope ScopeStack.pushScope) with
  | error e =>
    rw [hrun] at hbody
    have hvalue : (getValue node (visit ctx node)).run (s.modifyScope ScopeStack.pushScope) =
        .error e := by
      rw [getValue, StateT.run_bind, hrun]
      rfl
    unfold Resolves
    rw [Checked.run_modify_bind, StateT.run_bind, hvalue]
    exact hbody
  | ok r =>
    obtain ⟨value, s'⟩ := r
    rw [hrun] at hbody
    have hvalue : (getValue node (visit ctx node)).run (s.modifyScope ScopeStack.pushScope) =
        .ok (value, s'.visit node.getReturnType value) := by
      rw [getValue, Checked.run_bind_ok hrun]
      rfl
    have hpop : s'.scopeStack.popScope = s.scopeStack :=
      ScopeStack.popScope_of_outer hbody.1.outer
    unfold Resolves
    rw [Checked.run_modify_bind, Checked.run_bind_ok hvalue]
    exact ⟨.of_eq hpop, fun _ hx => nomatch hx⟩

theorem visitIfBranches_resolves {mergeBlock : Nat} (args : List ExecNode) {s : State}
    (ha : AllResolve ctx st args) (hs : Covers st s) :
    Resolves [] (visitIfBranches ctx mergeBlock args) s := by
  induction args using List.twoStepInduction generalizing s with
  | nil => exact .pure _
  | singleton body =>
    rw [visitIfBranches]
    refine (Resolves.createBlock _).bind fun _ s₁ h₁ _ => ?_
    refine (Resolves.modify rfl).bind fun _ s₂ h₂ _ => ?_
    refine (getBranchBody_resolves (ha body List.mem_cons_self) ((hs.scoped h₁).scoped h₂)).bind
      fun _ _ _ _ => .pure _
  | cons_cons cond body args ih _ =>
    rw [visitIfBranches]
    refine (ih (fun arg hm => ha arg (by simp [hm])) hs).bind fun r s₁ h₁ _ => ?_
    refine (Resolves.createBlock _).bind fun _ s₂ h₂ _ => ?_
    refine (Resolves.modify rfl).bind fun _ s₃ h₃ _ => ?_
    have hs₃ := ((hs.scoped h₁).scoped h₂).scoped h₃
    refine (ha cond (by simp) s₃ hs₃).getCondition.bind fun _ s₄ h₄ _ => ?_
    refine (Resolves.createBlock _).bind fun _ s₅ h₅ _ => ?_
    refine (Resolves.modify rfl).bind fun _ s₆ h₆ _ => ?_
    refine (Resolves.modify rfl).bind fun _ s₇ h₇ _ => ?_
    have hs₇ := (((hs₃.scoped h₄).scoped h₅).scoped h₆).scoped h₇
    exact (getBranchBody_resolves (ha body (by simp)) hs₇).bind fun _ _ _ _ => .pure _

/-- The PHI nodes of a when-block are for names that are known already. -/
theorem mergeVars_resolves {hasElse : Bool} {branches : IfBranches} (names : List String)
    {s : State} : Resolves [] (mergeVars hasElse branches names) s := by
  induction names generalizing s with
  | nil => exact .pure _
  | cons name names ih =>
    rw [mergeVars]
    refine .bind .get fun s₁ s₂ _ _ => ?_
    cases s₁.scopeStack.lookup name with
    | none => exact .undefined
    | some original =>
      refine (Resolves.deref _).bind fun original s₃ _ _ => ?_
      refine (Resolves.mapM fun info s => ?_).bind fun incoming s₄ _ _ => ?_
      · unfold incomingOf
        cases info.modified.lookup name with
        | none => exact .pure _
        | some value => exact (Resolves.deref _).bind fun _ _ _ _ => .pure _
      have hfall : Resolves [] (fallthroughOf hasElse original branches) s₄ := by
        unfold fallthroughOf
        split
        · exact .pure _
        · exact (Resolves.deref _).bind fun _ _ _ _ => .pure _
      refine hfall.bind fun fallthrough s₅ _ _ => ?_
      refine (Resolves.createPhi _ _).bind fun phi s₆ _ _ => ?_
      exact (Resolves.set name _).bind fun _ s₇ _ _ => ih

theorem call_resolves {ret : ValueType} {sign : FunctionSignature} {args : List Value} {s : State} :
    Resolves [] (call ctx ret sign args) s := by
  unfold call
  refine (Resolves.returnNotOk fun _ => getFuncBySign_other).bind fun r s₁ _ _ => ?_
  obtain ⟨sign', fs⟩ := r
  dsimp only
  split
  · split
    · exact .undefined
    · split
      · exact .pure _
      · exact (Resolves.emit _ _).bind fun _ _ _ _ => .pure _
  · refine (Resolves.returnNotOk fun _ => valueTypeToLLVMType_other).bind fun type s₂ _ _ => ?_
    exact (Resolves.emit _ _).bind fun _ _ _ _ => .pure _

theorem AllResolve.scopes_eq {st' : ScopeStack VarEntry} {args : List ExecNode}
    (h : AllResolve ctx st' args) (hst : ∀ x, st'.lookup x = st.lookup x) :
    AllResolve ctx st args := fun arg hm s hs => h arg hm s fun x hx => hs x (hst x ▸ hx)

theorem AllResolve.cons {arg : ExecNode} {args : List ExecNode}
    (h : ∀ s, Covers st s → Resolves [] (visit ctx arg) s) (hs : AllResolve ctx st args) :
    AllResolve ctx st (arg :: args) := by
  intro arg' hm
  rcases List.mem_cons.mp hm with rfl | hm
  · exact h
  · exact hs arg' hm

/-- The names a statement adds to the scopes around it. -/
def exportNames (node : ExecNode) : List String := (exports node).map Prod.fst

/-- A statement in a scope of its own, which is gone afterwards. -/
theorem isolated_resolves {node : ExecNode} {names : List String} {name : String}
    {rest : Gen Unit} {s : State}
    (h : Resolves names (visit ctx node) (s.modifyScope ScopeStack.pushScope))
    (hrest : ∀ s', s'.scopeStack = s.scopeStack → Resolves [] rest s') :
    Resolves [] (do
      if true then modify (·.modifyScope ScopeStack.pushScope)
      let value ← getValue node (visit ctx node)
      if name ≠ "" then modify (·.modifyScope (·.set name value))
      if true then modify (·.modifyScope ScopeStack.popScope)
      rest) s := by
  unfold Resolves at h
  simp only [if_true]
  cases hrun : (visit ctx node).run (s.modifyScope ScopeStack.pushScope) with
  | error e =>
    rw [hrun] at h
    have hvalue : (getValue node (visit ctx node)).run (s.modifyScope ScopeStack.pushScope) =
        .error e := by
      rw [getValue, StateT.run_bind, hrun]
      rfl
    unfold Resolves
    rw [Checked.run_modify_bind, StateT.run_bind, hvalue]
    exact h
  | ok r =>
    obtain ⟨value, s'⟩ := r
    rw [hrun] at h
    have hvalue : (getValue node (visit ctx node)).run (s.modifyScope ScopeStack.pushScope) =
        .ok (value, s'.visit node.getReturnType value) := by
      rw [getValue, Checked.run_bind_ok hrun]
      rfl
    have hpop : s'.scopeStack.popScope = s.scopeStack := ScopeStack.popScope_of_outer h.1.outer
    have hrest' : ∀ s'', s''.scopeStack = s.scopeStack → Outcome [] s (rest.run s'') := by
      intro s'' hs''
      have hr := hrest s'' hs''
      unfold Resolves at hr
      cases hrun : rest.run s'' with
      | error e =>
        rw [hrun] at hr
        exact hr
      | ok r =>
        rw [hrun] at hr
        exact ⟨(Scoped.of_eq hs'').trans hr.1, hr.2⟩
    unfold Resolves
    rw [Checked.run_modify_bind, Checked.run_bind_ok hvalue]
    by_cases hn : name = ""
    · rw [if_neg (not_not.mpr hn), Checked.run_modify_bind]
      exact hrest' ((s'.visit node.getReturnType value).modifyScope ScopeStack.popScope) hpop
    · rw [if_pos hn, Checked.run_modify_bind, Checked.run_modify_bind]
      exact hrest' (((s'.visit node.getReturnType value).modifyScope
        (·.set name value)).modifyScope ScopeStack.popScope)
        (ScopeStack.popScope_of_outer h.1.outer)

variable {reg : FunctionRegistry}

mutual

/-- **What the validator has resolved the code generator resolves.** -/
theorem visit_resolves {node node' : ExecNode} {st' : ScopeStack VarEntry} :
    ∀ {st : ScopeStack VarEntry}, Visits reg st node node' st' → ∀ {s : State}, Covers st s →
      Resolves (exportNames node') (visit ctx node') s
  | _, .entryArgument, _, _ | _, .execContext, _, _ | _, .output, _, _ => .pure _
  | _, .constantValue, _, _ => .pure _
  | _, .constantListValue, s, _ => by
    rw [visit]
    refine Resolves.get.bind fun s₁ s₂ _ _ => ?_
    split
    · exact .pure _
    · exact (Resolves.modify rfl).bind fun _ _ _ _ => .pure _
  | _, .unaryOP hc ht, s, hs => by
    rw [visit]
    refine (visit_resolves hc hs).silent.getValue.bind fun value s₁ _ _ => ?_
    split
    · exact .pure _
    · refine (Resolves.deref _).bind fun value s₂ _ _ => ?_
      refine (Resolves.returnNotOk fun _ => unaryOP_other).bind fun x s₃ _ _ => ?_
      exact (Resolves.emit _ _).bind fun _ _ _ _ => .pure _
  | st, .binaryOP hl hr ht, s, hs => by
    have hst := hl.scopes_eq (ne_kVoid_of_binaryOPType ht).1
    rw [visit]
    split
    · refine (Resolves.createBlock _).bind fun _ s₁ h₁ _ => ?_
      refine (Resolves.createBlock _).bind fun _ s₂ h₂ _ => ?_
      have hs₂ := (hs.scoped h₁).scoped h₂
      refine (visit_resolves hl hs₂).silent.getCondition.bind fun _ s₃ h₃ _ => ?_
      refine Resolves.getInsertBlock.bind fun _ s₄ h₄ _ => ?_
      have hs₄ := (hs₂.scoped h₃).scoped h₄
      split
      all_goals
        refine (Resolves.modify rfl).bind fun _ s₅ h₅ _ => ?_
        refine (Resolves.modify rfl).bind fun _ s₆ h₆ _ => ?_
        have hs₆ : Covers _ s₆ := hst ▸ (hs₄.scoped h₅).scoped h₆
        refine (visit_resolves hr hs₆).silent.getCondition.bind fun _ s₇ _ _ => ?_
        refine Resolves.getInsertBlock.bind fun _ s₈ _ _ => ?_
        refine (Resolves.modify rfl).bind fun _ s₉ _ _ => ?_
        refine (Resolves.modify rfl).bind fun _ s₁₀ _ _ => ?_
        refine (Resolves.createPhi _ _).bind fun _ s₁₁ _ _ => ?_
        exact (Resolves.emit _ _).bind fun _ _ _ _ => .pure _
    · refine (visit_resolves hl hs).silent.getValue.bind fun _ s₁ h₁ _ => ?_
      have hs₁ : Covers _ s₁ := hst ▸ hs.scoped h₁
      refine (visit_resolves hr hs₁).silent.getValue.bind fun _ s₂ _ _ => ?_
      refine (Resolves.deref _).bind fun _ s₃ _ _ => ?_
      refine (Resolves.deref _).bind fun _ s₄ _ _ => ?_
      refine (Resolves.returnNotOk fun e he => ?_).bind fun x s₅ _ _ => ?_
      · split at he
        · exact solveBinaryOpNumericType_other he
        · exact solveBinaryOpComplexType_other he
      · exact (Resolves.emit _ _).bind fun _ _ _ _ => .pure _
  | _, .function ha ht, s, hs => by
    rw [visit]
    refine (visitArgs_resolves _ (visitArgs_allResolve ha) hs).bind fun _ _ _ _ => ?_
    exact call_resolves
  | _, @Visits.noOP _ _ _ _ _ _ isolated ha, s, hs => by
    rw [visit]
    refine (visitStmts_resolves ha hs).bind fun _ s' _ hk => .pure_known _ ?_
    cases isolated with
    | true => exact fun _ h => nomatch h
    | false => exact hk
  | _, @Visits.ifNode _ _ _ _ _ args' _ hn ha ht, s, hs => by
    have hall := visitArgs_allResolve ha
    rcases args' with - | ⟨cond, - | ⟨then_, - | ⟨else_, - | ⟨arg, args⟩⟩⟩⟩
    · exact .undefined
    · exact .undefined
    · exact .undefined
    · rw [visit]
      refine (Resolves.returnNotOk fun _ => valueTypeToLLVMType_other).bind fun _ s₁ h₁ _ => ?_
      refine (hall cond (by simp) s₁ (hs.scoped h₁)).getCondition.bind fun _ s₂ h₂ _ => ?_
      refine (Resolves.createBlock _).bind fun _ s₃ h₃ _ => ?_
      refine (Resolves.createBlock _).bind fun _ s₄ h₄ _ => ?_
      refine (Resolves.createBlock _).bind fun _ s₅ h₅ _ => ?_
      refine (Resolves.modify rfl).bind fun _ s₆ h₆ _ => ?_
      refine (Resolves.modify rfl).bind fun _ s₇ h₇ _ => ?_
      have hs₇ := ((hs.scoped h₁).scoped h₂).scoped
        ((((h₃.trans h₄).trans h₅).trans h₆).trans h₇)
      refine (hall then_ (by simp) s₇ hs₇).getBranchValue.bind fun r s₈ h₈ _ => ?_
      refine (Resolves.modify rfl).bind fun _ s₉ h₉ _ => ?_
      refine (hall else_ (by simp) s₉ ((hs₇.scoped h₈).scoped h₉)).getBranchValue.bind
        fun r' s₁₀ _ _ => ?_
      refine (Resolves.modify rfl).bind fun _ s₁₁ _ _ => ?_
      exact (Resolves.createPhi _ _).bind fun _ _ _ _ => .pure _
    · exact .undefined
  | _, .switchNode hn ha ht, s, hs => by
    rw [visit]
    refine (Resolves.returnNotOk fun _ => valueTypeToLLVMType_other).bind fun _ s₁ h₁ _ => ?_
    refine Resolves.getInsertBlock.bind fun _ s₂ h₂ _ => ?_
    refine (Resolves.createBlock _).bind fun _ s₃ h₃ _ => ?_
    have hs₃ := ((hs.scoped h₁).scoped h₂).scoped h₃
    refine (visitSwitch_resolves _ (visitArgs_allResolve ha) hs₃).bind fun r s₄ _ _ => ?_
    refine (Resolves.modify rfl).bind fun _ s₅ _ _ => ?_
    refine (Resolves.modify rfl).bind fun _ s₆ _ _ => ?_
    refine (Resolves.modify rfl).bind fun _ s₇ _ _ => ?_
    exact (Resolves.createPhi _ _).bind fun _ _ _ _ => .pure _
  | _, .ifBlock hn hb, s, hs => by
    rw [visit]
    refine Resolves.getInsertBlock.bind fun _ s₁ h₁ _ => ?_
    refine (Resolves.createBlock _).bind fun _ s₂ h₂ _ => ?_
    have hs₂ := (hs.scoped h₁).scoped h₂
    refine (visitIfBranches_resolves _ (visitBranches_allResolve hb) hs₂).bind fun r s₃ _ _ => ?_
    refine (Resolves.modify rfl).bind fun _ s₄ _ _ => ?_
    refine (Resolves.modify rfl).bind fun _ s₅ _ _ => ?_
    refine (Resolves.modify rfl).bind fun _ s₆ _ _ => ?_
    exact (mergeVars_resolves _).bind fun _ _ _ _ => .pure _
  | _, @Visits.ref _ _ _ name _ he, s, hs => by
    rw [visit]
    refine .get_bind ?_
    cases hl : s.scopeStack.lookup name with
    | none => exact absurd hl (hs name (by rw [he]; exact Option.some_ne_none _))
    | some value => exact .pure _

theorem visitArgs_allResolve {args args' : List ExecNode} {st' : ScopeStack VarEntry} :
    ∀ {st : ScopeStack VarEntry}, VisitsArgs reg st args args' st' → AllResolve ctx st args'
  | _, .nil => fun _ h => nomatch h
  | _, .cons h hv hs => by
    have hst := h.scopes_eq hv
    have hrest := visitArgs_allResolve hs
    exact .cons (fun s hc => (visit_resolves h hc).silent) (hrest.scopes_eq fun x => by rw [hst])

theorem visitStmts_resolves {isolated : Bool} {args args' : List (VarInfo × ExecNode)}
    {st' : ScopeStack VarEntry} : ∀ {st : ScopeStack VarEntry},
      VisitsStmts reg isolated st args args' st' → ∀ {s : State}, Covers st s →
        Resolves (if isolated then [] else (exportsStmts args').map Prod.fst)
          (visitStmts ctx isolated args') s
  | _, .nil, s, hs => by
    rw [visitStmts]
    refine .pure_known _ ?_
    cases isolated <;> exact fun _ h => nomatch h
  | st, @VisitsStmts.cons _ _ _ st₁ st₂ _ var _ arg' _ args' h hb ha, s, hs => by
    have hvisit := fun s hs => visit_resolves (s := s) h hs
    have hstmts := fun s hs => visitStmts_resolves (s := s) ha hs
    rw [visitStmts]
    cases isolated with
    | true =>
      have hleave : leaveStmt true st₂ = st := (h.keeps.trans (.bindStmt hb)).popScope
      refine isolated_resolves (hvisit _ fun x hx => ?_) fun s' hs' => hstmts s' fun x hx => ?_
      · rw [enterStmt_true, ScopeStack.lookup_pushScope] at hx
        rw [State.modifyScope, ScopeStack.lookup_pushScope]
        exact hs x hx
      · rw [hleave] at hx
        rw [hs']
        exact hs x hx
    | false =>
      simp only [Bool.false_eq_true, if_false] at hstmts ⊢
      rw [exportsStmts, List.map_append, List.map_append, List.append_assoc]
      refine (hvisit s hs).getValue.bind fun value s₁ h₁ hk₁ => .append ?_ hk₁
      have hs₁ : Covers st₁ s₁ := by
        intro x hx
        rcases Option.ne_none_iff_exists'.mp hx with ⟨e, he⟩
        rcases (h.lookup_iff x e).mp he with he | he
        · exact h₁.known x
            (hs x (by rw [show st.lookup x = _ from he]; exact Option.some_ne_none _))
        · exact hk₁ x (List.mem_map_of_mem he)
      by_cases hn : var.name = ""
      · rw [if_neg (not_not.mpr hn), ownBinding, if_pos hn]
        refine hstmts _ ?_
        rcases bindStmt_eq_ok_iff.mp hb with ⟨-, rfl⟩ | ⟨hne, -, -⟩
        · exact hs₁
        · exact absurd hn hne
      · rw [if_pos hn, ownBinding, if_neg hn]
        refine (Resolves.set var.name value).bind fun _ s₂ h₂ hk₂ => .append ?_ hk₂
        refine hstmts _ fun x hx => ?_
        rcases Option.ne_none_iff_exists'.mp hx with ⟨e, he⟩
        rcases (bindStmt_lookup hb x e).mp he with he | he
        · exact h₂.known x (hs₁ x (by rw [he]; exact Option.some_ne_none _))
        · rw [(mem_ownBinding.mp he).2.1]
          exact hk₂ _ (List.mem_singleton_self _)

theorem visitBranches_allResolve {acc acc' : Scope ValueType} {args args' : List ExecNode}
    {st' : ScopeStack VarEntry} : ∀ {st : ScopeStack VarEntry},
      VisitsBranches reg acc st args args' acc' st' → AllResolve ctx st args'
  | _, .nil => fun _ h => nomatch h
  | st, .elseBody h hv => by
    refine .cons (fun s hc => (visit_resolves h fun x hx => ?_).silent) fun _ h => nomatch h
    rw [ScopeStack.lookup_pushScope] at hx
    exact hc x hx
  | st, .cons hc hn h hv hs => by
    have hst := hc.scopes_eq (ne_kVoid_of_isNumericType hn)
    have hpop := h.keeps.popScope
    have hrest := visitBranches_allResolve hs
    refine .cons (fun s hcov => (visit_resolves hc hcov).silent)
      (.cons (fun s hcov => (visit_resolves h fun x hx => ?_).silent)
        (hrest.scopes_eq fun x => by rw [hpop, hst]))
    rw [ScopeStack.lookup_pushScope, hst] at hx
    exact hcov x hx

end

end Nodes

/-- The entry function of an accepted root: no name is unresolved. -/
theorem buildEntryFunction_resolves {reg : FunctionRegistry} {node node' : ExecNode}
    {st' : ScopeStack VarEntry} (ctx : Context) (h : Visits reg {} node node' st') (s : State) :
    Resolves [] (buildEntryFunction ctx node') s := by
  unfold buildEntryFunction
  refine (Resolves.returnNotOk fun e he => ?_).bind fun _ s₁ _ _ => ?_
  · unfold getEntryFunctionCallee at he
    split at he
    · cases he
      exact internal_other (by (repeat with_reducible apply Begins.append); exact .text _)
        (by decide)
    · cases he
      exact internal_other (by (repeat with_reducible apply Begins.append); exact .text _)
        (by decide)
    · exact valueTypeToLLVMType_other he
  · have hcovers : Covers {} s₁ := fun x hx => absurd rfl hx
    exact (visit_resolves h hcovers).silent.getValue.bind fun _ _ _ _ => .modify rfl

end CodeGen

/-! ## 5. Pipelines -/

/-- Every identifier of the text is defined; the validation of the tree stops with no unresolved
name, and neither does the generation of its code once it is accepted. -/
def NamesResolve (parse : Athena.Parse) (n : Athena.NodePtr) : Prop :=
  parse.program.undefinedRefs = [] ∧ ∃ node, n.toExecNode = some node ∧
    ∀ reg, (∀ loc name, Validator.validate reg node ≠ .error (Validator.notDefined loc name)) ∧
      ∀ node' st', Validator.validate reg node = .ok (node', st') → ∀ ctx name,
        (CodeGen.buildEntryFunction ctx node').run CodeGen.entryState ≠
          .error (.status (CodeGen.notFound name))

/-- **The builder, the validator and the code generator agree on names.** -/
theorem buildPipeline_names_resolve (code : String) (parse : Athena.Parse) {n : Athena.NodePtr}
    {p p' : Athena.Parser} (hp : p.builder = {})
    (h : (Athena.buildPipeline code parse).run p = (.ok n, p')) : NamesResolve parse n := by
  have hb : p.builder.Clear := .of_nil (by rw [hp])
  replace h : (Athena.build .kPipeline code parse).run p = (.ok n, p') := h
  rcases Athena.tree_of_build hb h with ⟨hnil, node, hnode, htree⟩
  refine ⟨hnil, node, hnode, fun reg => ⟨fun loc name he => ?_, ?_⟩⟩
  · rcases Option.map_eq_some_iff.mp htree with ⟨args, hargs, rfl⟩
    have hclosed : Validator.closed [] (.noOP {} args false) = true :=
      Athena.stmtsTree_closed _ hargs
    exact Validator.visit_raises _ hclosed (fun _ hx => nomatch hx) _ he loc name rfl
  · intro node' st' hval ctx name he
    have hvisits := (Validator.visit_run_eq_ok node).mp hval
    have hres := CodeGen.buildEntryFunction_resolves ctx hvisits CodeGen.entryState
    unfold CodeGen.Resolves at hres
    rw [he] at hres
    exact hres name rfl

/-- `a = 1; when (a) { b = a; when (b) { a = b; } } else { a = a; } a;` -/
def nestedWhens : Athena.Parse where
  program :=
    { statements :=
        [.assign "a" (.literal {} (.i32 1)),
          .when_ {} {} (.identifier {} "a")
            [.assign "b" (.identifier {} "a"),
              .when_ {} {} (.identifier {} "b") [.assign "a" (.identifier {} "b")] []]
            [.else_ [.assign "a" (.identifier {} "a")]],
          .expr (.identifier {} "a")]
      nonempty := List.cons_ne_nil _ _ }

theorem nestedWhens_names_resolve : ∃ n p',
    (Athena.buildPipeline "" nestedWhens).run ⟨{}, none⟩ = (.ok n, p') ∧
      NamesResolve nestedWhens n := by
  have hv : Athena.verdict .kPipeline nestedWhens = none := rfl
  rcases Athena.build_ok (p := ⟨{}, none⟩) "" (.of_nil rfl) hv rfl with ⟨n, p', node, hrun, -⟩
  exact ⟨n, p', hrun, buildPipeline_names_resolve "" nestedWhens rfl hrun⟩

end JitFusion
