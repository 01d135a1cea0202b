/-
# The PHI nodes of when-blocks

A when-block without else body is left by its last condition when no branch is taken, and its PHI
nodes have an entry for that edge: the value from before, for the block `last_cond_block`.  That
is the block in which the last condition begins.  If the code of the condition branches itself
(`and`, `or`, `if`, `switch`) then it ends in another block, the edge leaves that one, and the PHI
nodes have an entry for a block that is no predecessor and none for one that is.

So the PHI nodes are right exactly if the last condition stays in its block or there is no PHI
node, which is to say that no branch assigns a variable from outside.
-/
import Mathlib.Data.List.Induction
import JitFusion.EntryFunction

namespace JitFusion

/-! ## 1. What a tree assigns -/

namespace ExecNode

mutual

/-- The names that the node assigns in the scope it stands in. -/
def assigns : ExecNode → List String
  | entryArgument _ | execContext _ | output _ | constantValue _ _ | constantListValue _ _
  | ref _ _ | binaryOP _ _ _ _ | function _ _ _ | ifNode _ _ | switchNode _ _ => []
  | unaryOP _ op child => if op = .kPlus then assigns child else []
  | noOP _ args isolated => if isolated then [] else stmtsAssign args
  | ifBlock _ args => bodiesAssign args

def stmtsAssign : List (VarInfo × ExecNode) → List String
  | [] => []
  | (var, arg) :: args =>
    assigns arg ++ (if var.name = "" then [] else [var.name]) ++ stmtsAssign args

/-- The names that the branches of a when-block assign. -/
def bodiesAssign : List ExecNode → List String
  | [] => []
  | [body] => assigns body
  | _ :: body :: args => assigns body ++ bodiesAssign args

end

end ExecNode

namespace CodeGen

open TypeHelper Ssa.Builder Interpreter

theorem mem_bodiesAssign {name : String} {args : List ExecNode} :
    name ∈ ExecNode.bodiesAssign args ↔ ∃ body ∈ bodies args, name ∈ body.assigns := by
  induction args using List.twoStepInduction with
  | nil => simp [ExecNode.bodiesAssign, bodies]
  | singleton body => simp [ExecNode.bodiesAssign, bodies]
  | cons_cons _ body args ih _ =>
    simp only [ExecNode.bodiesAssign, bodies, List.mem_append, List.mem_singleton, ih]
    constructor
    · rintro (h | ⟨b, hb, h⟩)
      · exact ⟨body, .inr rfl, h⟩
      · exact ⟨b, .inl hb, h⟩
    · rintro ⟨b, hb | rfl, h⟩
      · exact .inr ⟨b, hb, h⟩
      · exact .inl h

theorem mem_of_mem_bodies {body : ExecNode} {args : List ExecNode} (h : body ∈ bodies args) :
    body ∈ args := by
  induction args using List.twoStepInduction with
  | nil => exact h
  | singleton _ => exact h
  | cons_cons _ b args ih _ =>
    rcases List.mem_append.mp h with h | h
    · exact List.mem_cons_of_mem _ (List.mem_cons_of_mem _ (ih h))
    · rw [List.mem_singleton.mp h]
      exact List.mem_cons_of_mem _ List.mem_cons_self

theorem forall₂_exists_left {α β : Type} {R : α → β → Prop} {as : List α} {bs : List β}
    (hr : List.Forall₂ R as bs) : ∀ b ∈ bs, ∃ a ∈ as, R a b := by
  induction hr with
  | nil => simp
  | @cons a b as bs hab _ ih =>
    intro b' h
    rcases List.mem_cons.mp h with rfl | h
    · exact ⟨a, List.mem_cons_self, hab⟩
    · rcases ih b' h with ⟨a', ha', hr⟩
      exact ⟨a', List.mem_cons_of_mem _ ha', hr⟩

/-! ## 2. What a node leaves in its scope -/

section Scopes

variable {ctx : Context} {s s' : State} {v : Option Value} {node : ExecNode} {name : String}

/-- The node adds to its scope, of the names that are visible, those it assigns. -/
def Assigns (ctx : Context) (node : ExecNode) : Prop :=
  ∀ {s v s'}, (visit ctx node).run s = .ok (v, s') → Ready s → ∀ name,
    (s.scopeStack.lookup name).isSome →
      (name ∈ s'.scopeStack.top ↔ name ∈ s.scopeStack.top ∨ name ∈ node.assigns)

/-- A node that leaves the scopes alone. -/
theorem Assigns.of_scopes (hnone : node.assigns = [])
    (h : ∀ {s v s'}, (visit ctx node).run s = .ok (v, s') → Ready s →
      s'.scopeStack = s.scopeStack) : Assigns ctx node := by
  intro s v s' hrun hs name _
  rw [h hrun hs, hnone]
  simp

/-- A node that always has a value. -/
theorem Assigns.of_value (hnone : node.assigns = [])
    (h : ∀ {s v s'}, (visit ctx node).run s = .ok (v, s') → v ≠ none) : Assigns ctx node :=
  Assigns.of_scopes hnone fun hrun hs => (visit_lowered hrun hs).scopes (h hrun)

/-- What is visible stays visible. -/
theorem visible_of_top {st st' : ScopeStack (Option Value)} (houter : st'.outer = st.outer)
    (htop : name ∈ st.top → name ∈ st'.top) (h : (st.lookup name).isSome) :
    (st'.lookup name).isSome := by
  rw [ScopeStack.lookup_eq_or] at h ⊢
  rw [houter]
  cases htop' : st'.top.lookup name with
  | some x => rfl
  | none =>
    have hnot : name ∉ st.top := fun hmem => AList.lookup_eq_none.mp htop' (htop hmem)
    rw [AList.lookup_eq_none.mpr hnot] at h
    exact h

theorem Assigns.getValue (h : Assigns ctx node)
    (hrun : (getValue node (visit ctx node)).run s = .ok (v, s')) (hs : Ready s)
    (hname : (s.scopeStack.lookup name).isSome) :
    name ∈ s'.scopeStack.top ↔ name ∈ s.scopeStack.top ∨ name ∈ node.assigns := by
  rcases getValue_run.mp hrun with ⟨s₁, hvisit, rfl⟩
  exact h hvisit hs name hname

theorem mem_bindResult {var : String} :
    name ∈ (bindResult var v s).scopeStack.top ↔
      name ∈ s.scopeStack.top ∨ name ∈ if var = "" then [] else [var] := by
  unfold bindResult
  split
  · simp
  · rw [List.mem_singleton, or_comm]
    exact AList.mem_insert _

/-- What a statement does to the function. -/
theorem stmt_grown {isolated : Bool} {arg : ExecNode} {s₁ : State} (var : String)
    (hrun : (getValue arg (visit ctx arg)).run (openStmt isolated s) = .ok (v, s₁))
    (hs : Ready s) :
    Grown s (closeStmt isolated (bindResult var v s₁)) (arg.whensFine = true) := by
  have harg : Lowers ctx bitMachine Literal.list arg := visit_lowers bitMachine_bits arg
  exact (stmt_lowered harg hrun hs rfl).1

theorem visitStmts_assigns : ∀ (args : List (VarInfo × ExecNode)) {s s' : State},
    (∀ arg ∈ args, Assigns ctx arg.2) → (visitStmts ctx false args).run s = .ok ((), s') →
      Ready s → ∀ name, (s.scopeStack.lookup name).isSome →
        (name ∈ s'.scopeStack.top ↔
          name ∈ s.scopeStack.top ∨ name ∈ ExecNode.stmtsAssign args) := by
  intro args
  induction args with
  | nil =>
    intro s s' _ hrun _ name _
    rw [visitStmts, Checked.run_pure_eq_ok] at hrun
    rw [hrun.2, ExecNode.stmtsAssign]
    simp
  | cons arg args ih =>
    intro s s' h hrun hs name hname
    rcases visitStmts_cons_run.mp hrun with ⟨v, s₁, harg, hargs⟩
    have hg := stmt_grown arg.1.name harg hs
    have htop : name ∈ (bindResult arg.1.name v s₁).scopeStack.top ↔ name ∈ s.scopeStack.top ∨
        name ∈ arg.2.assigns ++ if arg.1.name = "" then [] else [arg.1.name] := by
      rw [mem_bindResult, Assigns.getValue (h arg List.mem_cons_self) harg hs hname,
        List.mem_append, or_assoc]
      rfl
    have hvisible := visible_of_top hg.outer (fun hmem => htop.mpr (.inl hmem)) hname
    refine (ih (fun a ha => h a (List.mem_cons_of_mem _ ha)) hargs hg.ready name hvisible).trans ?_
    rw [ExecNode.stmtsAssign, List.mem_append, ← or_assoc]
    exact or_congr_left htop

theorem visitStmts_isolated : ∀ (args : List (VarInfo × ExecNode)) {s s' : State},
    (visitStmts ctx true args).run s = .ok ((), s') → Ready s →
      s'.scopeStack = s.scopeStack := by
  intro args
  induction args with
  | nil =>
    intro s s' hrun _
    rw [visitStmts, Checked.run_pure_eq_ok] at hrun
    rw [hrun.2]
  | cons arg args ih =>
    intro s s' hrun hs
    rcases visitStmts_cons_run.mp hrun with ⟨v, s₁, harg, hargs⟩
    have hg := stmt_grown arg.1.name harg hs
    have hpush : Ready (s.modifyScope ScopeStack.pushScope) :=
      hs.modifyScope fun name v hv => hs.below name v (ScopeStack.lookup_pushScope _ name ▸ hv)
    rcases getValue_run.mp harg with ⟨s₂, hvisit, rfl⟩
    rw [ih hargs hg.ready]
    exact ScopeStack.popScope_of_outer ((bindResult_outer arg.1.name v _).trans
      (visit_lowered hvisit hpush).grown.outer)

theorem noOP_assigns {info : NodeInfo} {args : List (VarInfo × ExecNode)} {isolated : Bool}
    (h : ∀ arg ∈ args, Assigns ctx arg.2) : Assigns ctx (.noOP info args isolated) := by
  intro s v s' hrun hs name hname
  simp only [visit, Checked.run_bind_eq_ok, Checked.run_pure_eq_ok] at hrun
  rcases hrun with ⟨_, s₁, hstmts, rfl, rfl⟩
  cases isolated with
  | true =>
    rw [visitStmts_isolated args hstmts hs]
    simp [ExecNode.assigns]
  | false => exact visitStmts_assigns args h hstmts hs name hname

theorem unaryOP_assigns {info : NodeInfo} {op : UnaryOPType} {child : ExecNode}
    (h : Assigns ctx child) : Assigns ctx (.unaryOP info op child) := by
  intro s v s' hrun hs name hname
  have hrun' := hrun
  rw [visit, Checked.run_bind_eq_ok] at hrun'
  rcases hrun' with ⟨v₁, s₁, hchild, hrest⟩
  by_cases hop : op = .kPlus
  · rw [if_pos hop, Checked.run_pure_eq_ok] at hrest
    rw [hrest.2, h.getValue hchild hs hname, ExecNode.assigns, if_pos hop]
  · simp only [if_neg hop, Checked.run_bind_eq_ok, Checked.run_pure_eq_ok] at hrest
    rcases hrest with ⟨_, _, -, _, _, -, _, _, -, rfl, -⟩
    rw [(visit_lowered hrun hs).scopes (by simp), ExecNode.assigns, if_neg hop]
    simp

theorem function_assigns {info : NodeInfo} {funcName : String} {args : List ExecNode} :
    Assigns ctx (.function info funcName args) := by
  refine Assigns.of_scopes rfl fun {s v s'} hrun hs => ?_
  rw [visit, Checked.run_bind_eq_ok] at hrun
  rcases hrun with ⟨vs, s₁, hargs, hcall⟩
  have hl : ∀ arg ∈ args, Lowers ctx bitMachine Literal.list arg := args_lower bitMachine_bits args
  have ha := visitArgs_lowered args hl hargs hs
  exact (call_lowered bitMachine hcall ha.grown.ready ha.below True).2.2.1.trans ha.scopes

theorem mem_mergeAll (vars : List MergedVar) (s : State) :
    name ∈ (s.mergeAll vars).scopeStack.top ↔
      name ∈ s.scopeStack.top ∨ name ∈ vars.map MergedVar.name := by
  induction vars generalizing s with
  | nil =>
    change name ∈ s.scopeStack.top ↔ _
    simp
  | cons u vars ih =>
    refine (ih (s.mergeVar u)).trans ?_
    rw [List.map_cons, List.mem_cons, ← or_assoc, or_comm (a := name ∈ s.scopeStack.top)]
    exact or_congr_left (AList.mem_insert _)

/-- What a body has modified: the visible names that it assigns. -/
theorem BodyRun.mem_modified {body : ExecNode} {p : State} {info : BranchInfo}
    (h : BodyRun ctx body p info) (hp : Ready p) (hbody : Assigns ctx body) :
    name ∈ info.modified ↔ (p.scopeStack.lookup name).isSome ∧ name ∈ body.assigns := by
  rcases h with ⟨v, p₁, hrun, hmod⟩
  have hpush : Ready (p.modifyScope ScopeStack.pushScope) :=
    hp.modifyScope fun name v hv => hp.below name v (ScopeStack.lookup_pushScope _ name ▸ hv)
  rcases getValue_run.mp hrun with ⟨p₂, hvisit, rfl⟩
  have houter := (visit_lowered hvisit hpush).grown.outer
  have hlook : info.modified.lookup name =
      if (p.scopeStack.lookup name).isSome then p₂.scopeStack.top.lookup name else none := by
    rw [hmod, ScopeStack.lookup_getShadowed]
    change (if ScopeStack.knownIn name p₂.scopeStack.outer then _ else _) = _
    rw [houter]
    rfl
  rw [← AList.lookup_isSome, hlook]
  by_cases hname : (p.scopeStack.lookup name).isSome
  · rw [if_pos hname, AList.lookup_isSome]
    have hinner : ((p.modifyScope ScopeStack.pushScope).scopeStack.lookup name).isSome :=
      (ScopeStack.lookup_pushScope p.scopeStack name).symm ▸ hname
    refine (hbody hvisit hpush name hinner).trans ?_
    simp [hname, State.modifyScope, ScopeStack.pushScope]
  · simp [hname]

/-- The variables that a when-block merges: the visible names that its branches assign. -/
theorem mem_merged {args : List ExecNode} {r : IfBranches} {vars : List MergedVar}
    (hargs : ∀ arg ∈ args, Assigns ctx arg)
    (hinfos : List.Forall₂ (fun body info => ∃ p, Ready p ∧ p.scopeStack = s.scopeStack ∧
      BodyRun ctx body p info) (bodies args) r.branchInfos)
    (hnames : ∀ name, name ∈ vars.map MergedVar.name ↔
      ∃ info ∈ r.branchInfos, name ∈ info.modified) :
    name ∈ vars.map MergedVar.name ↔
      (s.scopeStack.lookup name).isSome ∧ name ∈ ExecNode.bodiesAssign args := by
  have hmod : ∀ {body info}, body ∈ bodies args → (∃ p, Ready p ∧ p.scopeStack = s.scopeStack ∧
      BodyRun ctx body p info) → (name ∈ info.modified ↔
        (s.scopeStack.lookup name).isSome ∧ name ∈ body.assigns) := by
    rintro body info hbody ⟨p, hp, hscopes, hrun⟩
    rw [← hscopes]
    exact hrun.mem_modified hp (hargs body (mem_of_mem_bodies hbody))
  rw [hnames, mem_bodiesAssign]
  constructor
  · rintro ⟨info, hi, hmem⟩
    rcases forall₂_exists_left hinfos info hi with ⟨body, hbody, hrun⟩
    rcases (hmod hbody hrun).mp hmem with ⟨hvisible, hassigns⟩
    exact ⟨hvisible, body, hbody, hassigns⟩
  · rintro ⟨hvisible, body, hbody, hassigns⟩
    rcases forall₂_exists_left hinfos.flip body hbody with ⟨info, hi, hrun⟩
    exact ⟨info, hi, (hmod hbody hrun).mpr ⟨hvisible, hassigns⟩⟩

theorem ifBlock_assigns {info : NodeInfo} {args : List ExecNode}
    (h : ∀ arg ∈ args, Assigns ctx arg) : Assigns ctx (.ifBlock info args) := by
  intro s v s' hrun hs name hname
  rcases ifBlock_run hrun with ⟨r, s₁, m, merge, vars, hmerge, hargs, hm, rfl, rfl, hnames, -⟩
  have hlowers : ∀ arg ∈ args, Lowers ctx bitMachine Literal.list arg :=
    args_lower bitMachine_bits args
  rcases when_code bitMachine_bits hlowers hs hmerge hargs hm with ⟨fall, l, hcode⟩
  rcases hcode.mid with ⟨T, -, hmid⟩
  rw [mem_mergeAll, hmid.scopes, mem_merged h hcode.infos hnames]
  simp [hname, ExecNode.assigns]

mutual

/-- **What every node leaves in its scope.** -/
theorem visit_assigns : ∀ node : ExecNode, Assigns ctx node
  | .entryArgument _ | .execContext _ | .output _ | .constantValue _ _ =>
    Assigns.of_value rfl fun hrun => by
      rw [visit, Checked.run_pure_eq_ok] at hrun
      rw [hrun.1]
      exact Option.some_ne_none _
  | .constantListValue info valList =>
    Assigns.of_value rfl fun {s v s'} hrun => by
      rw [visit, Checked.run_bind_eq_ok] at hrun
      rcases hrun with ⟨t, u, -, hrun⟩
      split at hrun
      · rw [Checked.run_pure_eq_ok] at hrun
        rw [hrun.1]
        exact Option.some_ne_none _
      · simp only [Checked.run_bind_eq_ok, Checked.run_pure_eq_ok] at hrun
        rcases hrun with ⟨_, _, -, rfl, -⟩
        exact Option.some_ne_none _
  | .ref _ name =>
    Assigns.of_scopes rfl fun {s v s'} hrun _ => by
      rw [visit, Checked.run_bind_eq_ok] at hrun
      rcases hrun with ⟨t, u, hget, hrun⟩
      rcases Checked.run_get_eq_ok.mp hget with ⟨ht, hu⟩
      rw [ht, hu] at hrun
      cases hlook : s.scopeStack.lookup name with
      | none =>
        rw [hlook] at hrun
        exact absurd hrun Checked.run_throw_ne_ok
      | some value =>
        rw [hlook, Checked.run_pure_eq_ok] at hrun
        rw [hrun.2]
  | .unaryOP _ _ child => unaryOP_assigns (visit_assigns child)
  | .binaryOP _ op left right =>
    Assigns.of_value rfl fun {s v s'} hrun => by
      cases hop : isLogicalBinaryOPType op with
      | true =>
        rcases logical_run hop hrun with ⟨_, _, _, _, _, _, _, _, -, -, -, -, -, -, rfl, -⟩
        exact Option.some_ne_none _
      | false =>
        simp only [visit, hop, Bool.false_eq_true, if_false, Checked.run_bind_eq_ok,
          Checked.run_pure_eq_ok] at hrun
        rcases hrun with ⟨_, _, -, _, _, -, _, _, -, _, _, -, _, _, -, _, _, -, rfl, -⟩
        exact Option.some_ne_none _
  | .function _ _ _ => function_assigns
  | .noOP _ args _ => noOP_assigns (stmts_assign args)
  | .ifNode _ _ =>
    Assigns.of_value rfl fun hrun => by
      rcases ifNode_run hrun with ⟨_, _, _, _, _, _, _, _, _, _, _, _, _, _, _, -, -, -, -, -, -, -,
        -, -, -, rfl, -⟩
      exact Option.some_ne_none _
  | .switchNode _ _ =>
    Assigns.of_value rfl fun hrun => by
      rcases switchNode_run hrun with ⟨_, _, _, _, _, -, -, -, -, rfl, -⟩
      exact Option.some_ne_none _
  | .ifBlock _ args => ifBlock_assigns (args_assign args)

theorem args_assign : ∀ args : List ExecNode, ∀ arg ∈ args, Assigns ctx arg
  | [], _, h => nomatch h
  | arg :: args, a, h => by
    rcases List.mem_cons.mp h with he | h
    · exact he ▸ visit_assigns arg
    · exact args_assign args a h

theorem stmts_assign : ∀ args : List (VarInfo × ExecNode), ∀ arg ∈ args, Assigns ctx arg.2
  | [], _, h => nomatch h
  | (_, arg) :: args, a, h => by
    rcases List.mem_cons.mp h with he | h
    · exact he ▸ visit_assigns arg
    · exact stmts_assign args a h

end

end Scopes

/-! ## 3. When the PHI nodes are right -/

section Phis

variable {ctx : Context} {s s' m : State} {vars : List MergedVar} {l : List Nat} {merge : Nat}

/-- The PHI nodes of the merge block, one for each variable. -/
theorem sound_mergeAll {T : Nat → Option (List Nat)} {good : Prop}
    (h : Mid s m (fun j => j = merge) T good) (hm : m.builder.insertPoint = merge)
    (hT : T merge = some l) :
    Sound (m.mergeAll vars).builder.blocks (m.mergeAll vars).builder.insertPoint ↔
      ∀ v ∈ vars, (v.incoming.map Prod.snd).Nodup ∧ ∀ j, j ∈ v.incoming.map Prod.snd ↔ j ∈ l := by
  subst hm
  have hlt := lt_size_of_isOpen (h.ready rfl).isOpen
  have hpreds := (h.traces.preds _ _ hT).2
  rw [mergeAll_builder]
  refine (sound_addPhis hlt (h.traces.noPhis _ _ hT)).trans ?_
  constructor
  · intro hall v hv
    rcases exists_phisOf m.builder.fresh hv with ⟨phi, hphi, he⟩
    have hmatch := hall phi hphi
    rw [Ssa.Phi.Matches, he] at hmatch
    exact ⟨hmatch.1, fun j => (hmatch.2 j).trans (hpreds j)⟩
  · intro hall phi hphi
    rcases mem_phisOf hphi with ⟨v, hv, he⟩
    rcases hall v hv with ⟨hd, hmem⟩
    rw [Ssa.Phi.Matches, he]
    exact ⟨hd, fun j => (hmem j).trans (hpreds j).symm⟩

/-- **The PHI nodes of a when-block** have one entry for each predecessor of its merge block, in
which the generator stands behind it, exactly if the last condition stays in its block or no branch
assigns a variable from outside.  And the verifier has nothing to reject in a function whose
when-blocks all have an else body or a last condition that stays in its block. -/
theorem whenBlock_phis_iff :
    (∀ {info args s v s'}, Ready s → (visit ctx (.ifBlock info args)).run s = .ok (v, s') →
      (Sound s'.builder.blocks s'.builder.insertPoint ↔
        ExecNode.fallsFromSplit args = false ∨
          ∀ name ∈ ExecNode.bodiesAssign args, s.scopeStack.lookup name = none)) ∧
    ∀ {node s'}, (buildEntryFunction ctx node).run entryState = .ok ((), s') →
      node.whensFine = true → Verified s'.builder.blocks := by
  refine ⟨fun {info args s v s'} hs hrun => ?_, entry_verified⟩
  rcases ifBlock_run hrun with ⟨r, s₁, m, merge, vars, hmerge, hargs, hm, rfl, rfl, hnames, hvars⟩
  have hlowers : ∀ arg ∈ args, Lowers ctx bitMachine Literal.list arg :=
    args_lower bitMachine_bits args
  rcases when_code bitMachine_bits hlowers hs hmerge hargs hm with ⟨fall, l, hcode⟩
  rcases hcode.mid with ⟨T, hT, hmid⟩
  have hmerged : ∀ name, name ∈ vars.map MergedVar.name ↔ _ := fun name =>
    mem_merged (args_assign args) hcode.infos hnames
  rw [sound_mergeAll hmid (hm ▸ rfl) hT]
  constructor
  · intro hsound
    by_cases hnone : ∀ name ∈ ExecNode.bodiesAssign args, s.scopeStack.lookup name = none
    · exact .inr hnone
    · push Not at hnone
      rcases hnone with ⟨name, hassigns, hvisible⟩
      rcases List.mem_map.mp ((hmerged name).mpr ⟨Option.isSome_iff_ne_none.mpr hvisible,
        hassigns⟩) with ⟨v, hv, -⟩
      exact .inl (hcode.fine v (hvars v hv).2 fun j hj => ((hsound v hv).2 j).mpr hj)
  · rintro (hfine | hnone) v hv
    · have hperm := (hcode.entries v (hvars v hv).2 hfine).1
      exact ⟨hperm.nodup_iff.mpr (hmid.traces.preds _ _ hT).1, fun j => hperm.mem_iff⟩
    · rcases (hmerged v.name).mp (List.mem_map_of_mem hv) with ⟨hvisible, hassigns⟩
      rw [hnone _ hassigns] at hvisible
      exact nomatch hvisible

/-- `when x and x { x = 2; }` -/
def splitCondition : List ExecNode :=
  [.binaryOP {} .kAnd (.ref {} "x") (.ref {} "x"),
    .noOP {} [({ name := "x" }, .constantValue {} (.i32 2))] false]

/-- With an empty else body. -/
def splitConditionElse : List ExecNode := splitCondition ++ [.noOP {} [] false]

/-- The PHI node of `x` is right if there is an else body. -/
theorem splitConditionElse_phis : ∃ s v s',
    (visit exampleContext (.ifBlock {} splitConditionElse)).run s = .ok (v, s') ∧
      s.scopeStack.lookup "x" ≠ none ∧ Sound s'.builder.blocks s'.builder.insertPoint := by
  have hready : Ready (entryState.modifyScope (·.set "x" (some ⟨.arg 0, .int 32⟩))) := by
    refine entryState_ready.modifyScope fun name v hv => ?_
    by_cases he : name = "x"
    · subst he
      rw [ScopeStack.lookup_set, Option.some.injEq] at hv
      subst hv
      rintro val ⟨⟩
      trivial
    · rw [ScopeStack.lookup_set_ne _ _ he] at hv
      exact nomatch hv
  have hrun : ∃ v s', (visit exampleContext (.ifBlock {} splitConditionElse)).run
      (entryState.modifyScope (·.set "x" (some ⟨.arg 0, .int 32⟩))) = .ok (v, s') := ⟨_, _, rfl⟩
  rcases hrun with ⟨v, s', hrun⟩
  refine ⟨_, v, s', hrun, ?_, (whenBlock_phis_iff.1 hready hrun).mpr (.inl rfl)⟩
  change (ScopeStack.set _ "x" _).lookup "x" ≠ none
  rw [ScopeStack.lookup_set]
  exact Option.some_ne_none _

/-- **A program that is accepted and then rejected**: `x = 1; when x and x { x = 2; }`. -/
theorem splitCondition_rejected :
    ¬ ∀ ctx node node' st' s',
      Validator.validate ctx.functionRegistry node = .ok (node', st') →
      (buildEntryFunction ctx node').run entryState = .ok ((), s') →
        Verified s'.builder.blocks := by
  intro h
  have hverified := h exampleContext (.noOP {}
    [({ name := "x" }, .constantValue {} (.i32 1)), ({}, .ifBlock {} splitCondition)] false)
    _ _ _ rfl rfl
  -- the merge block is block 1; the condition begins in block 2 and ends in block 4
  have hmatch := hverified 1 _ rfl _ List.mem_cons_self
  have hentry := (hmatch.2 4).mpr ⟨_, _, rfl, rfl, by decide⟩
  revert hentry
  decide

end Phis

end CodeGen

end JitFusion
