/-
# The discipline of variables

What the validator's bookkeeping is for: on every path through an accepted program a `let`
variable is bound once, `let` never takes a name that is visible, and an assignment to a visible
name has the type of its first binding.

A path keeps, for every visible name, the entry of its FIRST binding, and records every
assignment with the entry its name had before (`Path`).  It knows no shadow copies and no merge:
that is the validator's way of keeping track, and `Visits.path` shows that its scopes and the
path's entries agree at every point, so the write-back at the end of a when-block changes nothing
(`VisitsBranches.merge`).
-/
import JitFusion.Typing

namespace JitFusion

namespace Validator

open TypeHelper ScopeStack

/-! ## 1. Paths -/

/-- The first binding of every visible name. -/
abbrev Visible := String → Option VarEntry

/-- One assignment: what is bound, and the first binding of the name if it is visible. -/
structure Assign where
  name : String
  entry : VarEntry
  before : Option VarEntry
  deriving DecidableEq, Repr

/-- A name that is visible was not declared by `let`, is not declared by this statement, and
keeps its type. -/
def Assign.Disciplined (a : Assign) : Prop :=
  ∀ e, a.before = some e → e.isConst = false ∧ a.entry.isConst = false ∧ a.entry.type = e.type

/-- The binding of a statement, whose value is that of `node`. -/
def assignOf (var : VarInfo) (node : ExecNode) (visible : Visible) : List Assign :=
  if var.name = "" then []
  else [⟨var.name, ⟨node.getReturnType, var.isConst⟩, visible var.name⟩]

/-- A name that is not visible becomes visible; one that is keeps its first binding. -/
def Visible.bind (visible : Visible) (a : Assign) : Visible := fun x =>
  if x = a.name then some (a.before.getD a.entry) else visible x

/-- The nodes an expression evaluates, or some of them. -/
def operands : ExecNode → List ExecNode
  | .unaryOP _ _ child => [child]
  | .binaryOP _ _ left right => [left, right]
  | .function _ _ args | .ifNode _ args | .switchNode _ args => args
  | _ => []

/-- Neither a list of statements nor a when-block. -/
def IsExpression : ExecNode → Prop
  | .noOP _ _ _ | .ifBlock _ _ => False
  | _ => True

mutual

/-- A path through a tree: the assignments on it, and what is visible after it. -/
inductive Path : Visible → ExecNode → List Assign → Visible → Prop
  | expression {visible visible' node trace} (he : IsExpression node)
      (h : PathOperands visible (operands node) trace visible') : Path visible node trace visible'
  | noOP {visible visible' info args isolated trace}
      (h : PathStmts isolated visible args trace visible') :
      Path visible (.noOP info args isolated) trace visible'
  | ifBlock {visible visible' info args trace} (h : PathBranches visible args trace visible') :
      Path visible (.ifBlock info args) trace visible'

/-- Some of the nodes, from left to right. -/
inductive PathOperands : Visible → List ExecNode → List Assign → Visible → Prop
  | nil {visible} : PathOperands visible [] [] visible
  | skip {visible visible' arg args trace} (h : PathOperands visible args trace visible') :
      PathOperands visible (arg :: args) trace visible'
  | eval {visible visible₁ visible' arg args trace trace'} (h : Path visible arg trace visible₁)
      (hs : PathOperands visible₁ args trace' visible') :
      PathOperands visible (arg :: args) (trace ++ trace') visible'

/-- The statements in order; what an isolated one binds is visible to itself only. -/
inductive PathStmts : Bool → Visible → List (VarInfo × ExecNode) → List Assign → Visible → Prop
  | nil {isolated visible} : PathStmts isolated visible [] [] visible
  | cons {isolated visible visible₁ visible' var arg args trace trace'}
      (h : Path visible arg trace visible₁)
      (hs : PathStmts isolated
        (if isolated then visible else (assignOf var arg visible₁).foldl Visible.bind visible₁)
        args trace' visible') :
      PathStmts isolated visible ((var, arg) :: args)
        (trace ++ assignOf var arg visible₁ ++ trace') visible'

/-- The conditions in order up to one that is taken, and its body; the names first bound in a
body are not visible after it. -/
inductive PathBranches : Visible → List ExecNode → List Assign → Visible → Prop
  | none {visible} : PathBranches visible [] [] visible
  | elseBody {visible visible₁ body trace} (h : Path visible body trace visible₁) :
      PathBranches visible [body] trace visible
  | taken {visible visible₁ visible₂ cond body args trace trace'}
      (hc : Path visible cond trace visible₁) (h : Path visible₁ body trace' visible₂) :
      PathBranches visible (cond :: body :: args) (trace ++ trace') visible₁
  | notTaken {visible visible₁ visible' cond body args trace trace'}
      (hc : Path visible cond trace visible₁)
      (hs : PathBranches visible₁ args trace' visible') :
      PathBranches visible (cond :: body :: args) (trace ++ trace') visible'

end

/-! ## 2. A statement -/

variable {reg : FunctionRegistry} {st st' : ScopeStack VarEntry} {visible visible' : Visible}

/-- The path sees what the scopes know. -/
def Sees (visible : Visible) (st : ScopeStack VarEntry) : Prop := ∀ x, visible x = st.lookup x

/-- **A binding the validator accepts is disciplined**, and leaves the path and the scopes with
the same entries. -/
theorem bindStmt_assignOf {var : VarInfo} {node : ExecNode} (h : bindStmt var node st = .ok st')
    (hv : Sees visible st) :
    (∀ a ∈ assignOf var node visible, a.Disciplined) ∧
      Sees ((assignOf var node visible).foldl Visible.bind visible) st' := by
  unfold assignOf
  rcases bindStmt_eq_ok_iff.mp h with ⟨hn, rfl⟩ | ⟨hn, hk, rfl⟩
  · rw [if_pos hn]
    exact ⟨by simp, hv⟩
  · rw [if_neg hn]
    constructor
    · intro a ha e he
      rw [List.mem_singleton.mp ha, hv] at he
      rcases hk e he with ⟨rfl, hc⟩
      rw [List.mem_singleton.mp ha]
      exact ⟨rfl, hc, rfl⟩
    · intro x
      simp only [List.foldl_cons, List.foldl_nil, Visible.bind]
      by_cases hx : x = var.name
      · subst hx
        rw [if_pos rfl, lookup_set, hv]
        cases hs : st.lookup var.name with
        | none => rfl
        | some e =>
          rcases hk e hs with ⟨rfl, hc⟩
          simp [hc]
      · rw [if_neg hx, lookup_set_ne st _ hx, hv]

/-- **The merge of a when-block changes no entry**: what the branches collected is what the
scopes hold, with its type and not `const`. -/
theorem VisitsBranches.merge {allShadowed : Scope ValueType} {args args' : List ExecNode}
    (h : VisitsBranches reg ∅ st args args' allShadowed st') (x : String) :
    (setShadowed st' allShadowed).lookup x = st'.lookup x := by
  obtain ⟨rfl, hacc⟩ := h.keeps
  exact setShadowed_lookup_eq (fun hx => (hacc hx).resolve_left (by simp)) x

/-! ## 3. The discipline -/

def AllDisciplined (trace : List Assign) : Prop := ∀ a ∈ trace, a.Disciplined

theorem allDisciplined_append {trace trace' : List Assign} (h : AllDisciplined trace)
    (h' : AllDisciplined trace') : AllDisciplined (trace ++ trace') := by
  intro a ha
  rcases List.mem_append.mp ha with ha | ha
  · exact h a ha
  · exact h' a ha

theorem allDisciplined_nil : AllDisciplined [] := by
  intro a ha
  cases ha

/-- A part of a path: disciplined, and its end sees the scopes `st`. -/
def Follows (trace : List Assign) (visible : Visible) (st : ScopeStack VarEntry) : Prop :=
  AllDisciplined trace ∧ Sees visible st

theorem Follows.append {trace trace' : List Assign} (h : AllDisciplined trace)
    (h' : Follows trace' visible st) : Follows (trace ++ trace') visible st :=
  ⟨allDisciplined_append h h'.1, h'.2⟩

theorem Sees.pushScope (h : Sees visible st) : Sees visible st.pushScope := fun x =>
  (h x).trans (lookup_pushScope st x).symm

theorem Sees.enterStmt (isolated : Bool) (h : Sees visible st) :
    Sees visible (enterStmt isolated st) := by
  cases isolated with
  | false => exact h
  | true => exact h.pushScope

mutual

/-- **Every path through an accepted tree is disciplined**, and at its end it sees what the
validator's scopes know. -/
theorem Visits.path {node node' : ExecNode} {st st' : ScopeStack VarEntry}
    {visible visible' : Visible} {trace : List Assign} :
    Visits reg st node node' st' → Sees visible st → Path visible node' trace visible' →
      Follows trace visible' st'
  | .entryArgument, hv, .expression _ hp | .execContext, hv, .expression _ hp
  | .output, hv, .expression _ hp | .constantValue, hv, .expression _ hp
  | .constantListValue, hv, .expression _ hp | .ref _, hv, .expression _ hp => by
    cases hp
    exact ⟨allDisciplined_nil, hv⟩
  | .unaryOP hc ht, hv, .expression _ hp => by
    rw [operands] at hp
    have hst := hc.scopes_eq (ne_kVoid_of_unaryOPType ht)
    cases hp with
    | skip h =>
      cases h
      exact ⟨allDisciplined_nil, by rw [hst]; exact hv⟩
    | eval h hs =>
      cases hs
      rw [List.append_nil]
      exact hc.path hv h
  | .binaryOP hl hr ht, hv, .expression _ hp => by
    rw [operands] at hp
    have hne := ne_kVoid_of_binaryOPType ht
    have hst := hl.scopes_eq hne.1
    have hst' := hr.scopes_eq hne.2
    cases hp with
    | skip h =>
      cases h with
      | skip h =>
        cases h
        exact ⟨allDisciplined_nil, by rw [hst', hst]; exact hv⟩
      | eval h hs =>
        cases hs
        rw [List.append_nil]
        exact hr.path (by rw [hst]; exact hv) h
    | eval h hs =>
      have hleft := hl.path hv h
      refine .append hleft.1 ?_
      cases hs with
      | skip h =>
        cases h
        exact ⟨allDisciplined_nil, by rw [hst']; exact hleft.2⟩
      | eval h hs =>
        cases hs
        rw [List.append_nil]
        exact hr.path hleft.2 h
  | .function ha _, hv, .expression _ hp | .ifNode _ ha _, hv, .expression _ hp
  | .switchNode _ ha _, hv, .expression _ hp => ha.path hv hp
  | .noOP hs, hv, .noOP hp => hs.path hv hp
  | .ifBlock _ hb, hv, .ifBlock hp => by
    have hf := hb.path hv hp
    exact ⟨hf.1, fun x => (hf.2 x).trans (hb.merge x).symm⟩

theorem VisitsArgs.path {args args' : List ExecNode} {st st' : ScopeStack VarEntry}
    {visible visible' : Visible} {trace : List Assign} :
    VisitsArgs reg st args args' st' → Sees visible st →
      PathOperands visible args' trace visible' → Follows trace visible' st'
  | .nil, hv, .nil => ⟨allDisciplined_nil, hv⟩
  | .cons h hne hs, hv, .skip hp => hs.path (by rw [h.scopes_eq hne]; exact hv) hp
  | .cons h _ hs, hv, .eval hp hps =>
    have hf := h.path hv hp
    .append hf.1 (hs.path hf.2 hps)

theorem VisitsStmts.path {isolated : Bool} {args args' : List (VarInfo × ExecNode)}
    {st st' : ScopeStack VarEntry} {visible visible' : Visible} {trace : List Assign} :
    VisitsStmts reg isolated st args args' st' → Sees visible st →
      PathStmts isolated visible args' trace visible' → Follows trace visible' st'
  | .nil, hv, .nil => ⟨allDisciplined_nil, hv⟩
  | .cons h hb hs, hv, .cons hp hps => by
    have hf := h.path (hv.enterStmt isolated) hp
    obtain ⟨hd, hv'⟩ := bindStmt_assignOf hb hf.2
    refine .append (allDisciplined_append hf.1 hd) (hs.path ?_ hps)
    cases isolated with
    | false => exact hv'
    | true =>
      have hk : Keeps (ScopeStack.pushScope _) _ := h.keeps.trans (.bindStmt hb)
      rw [leaveStmt, if_pos rfl, if_pos rfl, hk.popScope]
      exact hv

theorem VisitsBranches.path {acc acc' : Scope ValueType} {args args' : List ExecNode}
    {st st' : ScopeStack VarEntry} {visible visible' : Visible} {trace : List Assign} :
    VisitsBranches reg acc st args args' acc' st' → Sees visible st →
      PathBranches visible args' trace visible' → Follows trace visible' st'
  | .nil, hv, .none => ⟨allDisciplined_nil, hv⟩
  | .elseBody h _, hv, .elseBody hp => by
    rw [h.keeps.popScope]
    exact ⟨(h.path hv.pushScope hp).1, hv⟩
  | .cons hc _ h _ hs, hv, .taken hpc hp => by
    have hf := hc.path hv hpc
    have hst := hs.keeps.1
    rw [h.keeps.popScope] at hst
    exact ⟨allDisciplined_append hf.1 (h.path hf.2.pushScope hp).1, by rw [hst]; exact hf.2⟩
  | .cons hc _ h _ hs, hv, .notTaken hpc hp => by
    have hf := hc.path hv hpc
    refine .append hf.1 (hs.path ?_ hp)
    rw [h.keeps.popScope]
    exact hf.2

end

/-! ## 4. Accepted programs -/

/-- **Variables are disciplined in every accepted program**: on every path through it, whatever
is assigned is not a visible `let` variable, is not declared by `let` if its name is visible, and
has the type of its first binding; and the merge of a when-block leaves every entry, with its
type and its `const` flag, as it is. -/
theorem validate_disciplined {reg : FunctionRegistry} {node node' : ExecNode}
    {st' : ScopeStack VarEntry} (h : validate reg node = .ok (node', st')) :
    (∀ trace visible', Path (fun _ => none) node' trace visible' → ∀ a ∈ trace, a.Disciplined) ∧
      ∀ st args args' allShadowed st₁,
        (visitBranches reg ∅ args).run st = .ok ((args', allShadowed), st₁) →
          ∀ x, (setShadowed st₁ allShadowed).lookup x = st₁.lookup x := by
  constructor
  · intro trace visible' hp
    exact (((visit_run_eq_ok node).mp h).path (fun _ => rfl) hp).1
  · intro st args args' allShadowed st₁ hb x
    exact VisitsBranches.merge ((visitBranches_run_eq_ok args).mp hb) x

/-- `let a = 1; c = 2; when a { c = 3; }`. -/
def mergedAssignment : ExecNode :=
  .noOP {} [({ name := "a", isConst := true }, .constantValue {} (.i32 1)),
    ({ name := "c" }, .constantValue {} (.i32 2)),
    ({}, .ifBlock {} [.ref {} "a",
      .noOP {} [({ name := "c" }, .constantValue {} (.i32 3))] false])] false

theorem mergedAssignment_accepted :
    ∃ node' st', validate {} mergedAssignment = .ok (node', st') := ⟨_, _, rfl⟩

theorem mergedAssignment_disciplined :
    ∃ node' st', validate {} mergedAssignment = .ok (node', st') ∧
      ∀ trace visible', Path (fun _ => none) node' trace visible' →
        ∀ a ∈ trace, a.Disciplined := by
  obtain ⟨node', st', h⟩ := mergedAssignment_accepted
  exact ⟨node', st', h, (validate_disciplined h).1⟩

end Validator

end JitFusion
