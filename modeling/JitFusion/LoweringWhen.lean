/-
# Lowering: when-blocks

The branches of a when-block are a chain of conditions like those of a `switch`; what meets at its
merge block is the variables.  Every name that some branch has assigned gets a PHI node, whose
entry for a branch is what the branch has left in the variable, or the value from before.

If no branch is taken, control comes from the block in which the last condition ENDS, and the
entry of the PHI nodes is for the block in which it BEGINS.  The two are the same unless the code
of the condition branches itself; if they differ and there is a PHI node, the verifier rejects the
function.
-/
import Mathlib.Data.List.Dedup
import JitFusion.LoweringChain

namespace JitFusion

namespace CodeGen

open TypeHelper Ssa.Builder Interpreter

variable {V W E : Type}

/-! ## 1. The PHI nodes of a merge block -/

/-- A variable that is merged: its value before the when-block, and the entries of its PHI
node. -/
structure MergedVar where
  name : String
  original : Value
  incoming : List (Ssa.Operand Literal × Nat)

namespace State

def mergeVar (s : State) (v : MergedVar) : State :=
  (s.createPhi v.incoming).modifyScope (·.set v.name (some (s.phi v.original.type)))

def mergeAll (s : State) (vars : List MergedVar) : State := vars.foldl mergeVar s

end State

section Merged

variable {s s' : State} {hasElse : Bool} {branches : IfBranches}

/-- The entry of a branch: what it has left in the variable, or the value from before. -/
def IncomingOf (name : String) (original : Value) (info : BranchInfo)
    (e : Ssa.Operand Literal × Nat) : Prop :=
  ∃ x, (info.modified.lookup name).getD (some original) = some x ∧ e = (x.operand, info.endBlock)

/-- The entries of a PHI node. -/
def Incoming (hasElse : Bool) (branches : IfBranches) (v : MergedVar) : Prop :=
  ∃ l falls, List.Forall₂ (IncomingOf v.name v.original) branches.branchInfos l ∧
    (if hasElse then falls = []
      else ∃ i, branches.lastCondBlock = some i ∧ falls = [(v.original.operand, i)]) ∧
    v.incoming = l ++ falls

theorem incomingOf_run {name : String} {original : Value} {info : BranchInfo}
    {e : Ssa.Operand Literal × Nat} :
    (incomingOf name original info).run s = .ok (e, s') ↔
      IncomingOf name original info e ∧ s' = s := by
  unfold incomingOf IncomingOf
  cases info.modified.lookup name with
  | none =>
    simp only [Checked.run_pure_eq_ok, Option.getD_none, Option.some.injEq]
    exact and_congr_left fun _ => ⟨fun h => ⟨original, rfl, h⟩, by rintro ⟨_, rfl, h⟩; exact h⟩
  | some value =>
    simp only [Checked.run_bind_eq_ok, deref_run, Checked.run_pure_eq_ok, Option.getD_some]
    constructor
    · rintro ⟨x, _, ⟨hx, rfl⟩, rfl, rfl⟩
      exact ⟨⟨x, hx, rfl⟩, rfl⟩
    · rintro ⟨⟨x, hx, rfl⟩, rfl⟩
      exact ⟨x, _, ⟨hx, rfl⟩, rfl, rfl⟩

theorem mapM_incomingOf_run {name : String} {original : Value} (infos : List BranchInfo)
    {s s' : State} {l : List (Ssa.Operand Literal × Nat)} :
    (infos.mapM (incomingOf name original)).run s = .ok (l, s') ↔
      List.Forall₂ (IncomingOf name original) infos l ∧ s' = s := by
  induction infos generalizing s s' l with
  | nil => rw [List.mapM_nil, Checked.run_pure_eq_ok, List.forall₂_nil_left_iff]
  | cons info infos ih =>
    simp only [List.mapM_cons, Checked.run_bind_eq_ok, incomingOf_run, ih,
      Checked.run_pure_eq_ok, List.forall₂_cons_left_iff]
    constructor
    · rintro ⟨e, _, ⟨he, rfl⟩, rest, _, ⟨hrest, rfl⟩, rfl, rfl⟩
      exact ⟨⟨e, rest, he, hrest, rfl⟩, rfl⟩
    · rintro ⟨⟨e, rest, he, hrest, rfl⟩, rfl⟩
      exact ⟨e, _, ⟨he, rfl⟩, rest, _, ⟨hrest, rfl⟩, rfl, rfl⟩

theorem fallthroughOf_run {original : Value} {l : List (Ssa.Operand Literal × Nat)} :
    (fallthroughOf hasElse original branches).run s = .ok (l, s') ↔
      (if hasElse then l = []
        else ∃ i, branches.lastCondBlock = some i ∧ l = [(original.operand, i)]) ∧ s' = s := by
  unfold fallthroughOf
  cases hasElse with
  | true => simp only [if_true, Checked.run_pure_eq_ok]
  | false =>
    simp only [Bool.false_eq_true, if_false, Checked.run_bind_eq_ok, deref_run,
      Checked.run_pure_eq_ok]
    constructor
    · rintro ⟨i, _, ⟨hi, rfl⟩, rfl, rfl⟩
      exact ⟨⟨i, hi, rfl⟩, rfl⟩
    · rintro ⟨⟨i, hi, rfl⟩, rfl⟩
      exact ⟨i, _, ⟨hi, rfl⟩, rfl, rfl⟩

theorem mergeVars_cons_run {name : String} {names : List String} :
    (mergeVars hasElse branches (name :: names)).run s = .ok ((), s') ↔
      ∃ v : MergedVar, v.name = name ∧ s.scopeStack.lookup name = some (some v.original) ∧
        Incoming hasElse branches v ∧
          (mergeVars hasElse branches names).run (s.mergeVar v) = .ok ((), s') := by
  rw [mergeVars]
  simp only [Checked.run_bind_eq_ok, Checked.run_get_eq_ok]
  cases hlook : s.scopeStack.lookup name with
  | none =>
    constructor
    · rintro ⟨_, _, ⟨rfl, rfl⟩, h⟩
      rw [hlook] at h
      exact absurd h Checked.run_throw_ne_ok
    · rintro ⟨v, -, h, -⟩
      cases h
  | some original =>
    constructor
    · rintro ⟨_, _, ⟨rfl, rfl⟩, h⟩
      rw [hlook] at h
      simp only [Checked.run_bind_eq_ok, deref_run, mapM_incomingOf_run, fallthroughOf_run,
        createPhi_run, Checked.run_modify_eq_ok] at h
      rcases h with ⟨x, _, ⟨rfl, rfl⟩, l, _, ⟨hl, rfl⟩, falls, _, ⟨hfalls, rfl⟩, phi, _, ⟨rfl, rfl⟩,
        _, _, rfl, h⟩
      exact ⟨⟨name, x, l ++ falls⟩, rfl, rfl, ⟨l, falls, hl, hfalls, rfl⟩, h⟩
    · rintro ⟨⟨_, x, _⟩, rfl, hx, ⟨l, falls, hl, hfalls, rfl⟩, h⟩
      refine ⟨s, s, ⟨rfl, rfl⟩, ?_⟩
      rw [hlook]
      simp only [Checked.run_bind_eq_ok, deref_run, mapM_incomingOf_run, fallthroughOf_run,
        createPhi_run, Checked.run_modify_eq_ok]
      exact ⟨x, _, ⟨Option.some.inj hx, rfl⟩, l, _, ⟨hl, rfl⟩, falls, _, ⟨hfalls, rfl⟩, _, _,
        ⟨rfl, rfl⟩, (), _, rfl, h⟩

/-- **The loop over the variables that are merged.** -/
theorem mergeVars_run (names : List String) {s s' : State} (hd : names.Nodup)
    (h : (mergeVars hasElse branches names).run s = .ok ((), s')) :
    ∃ vars : List MergedVar, vars.map MergedVar.name = names ∧ s' = s.mergeAll vars ∧
      ∀ v ∈ vars, s.scopeStack.lookup v.name = some (some v.original) ∧
        Incoming hasElse branches v := by
  induction names generalizing s with
  | nil =>
    rw [mergeVars, Checked.run_pure_eq_ok] at h
    exact ⟨[], rfl, h.2, by simp⟩
  | cons name names ih =>
    rcases mergeVars_cons_run.mp h with ⟨v, rfl, hlook, hinc, hrest⟩
    rcases List.nodup_cons.mp hd with ⟨hnot, hd'⟩
    rcases ih hd' hrest with ⟨vars, rfl, rfl, hvars⟩
    refine ⟨v :: vars, rfl, rfl, fun u hu => ?_⟩
    rcases List.mem_cons.mp hu with rfl | hu
    · exact ⟨hlook, hinc⟩
    · have hne : u.name ≠ v.name := fun he => hnot (he ▸ List.mem_map_of_mem hu)
      have hlook' : (s.scopeStack.set v.name (some (s.phi v.original.type))).lookup u.name =
          some (some u.original) := (hvars u hu).1
      rw [ScopeStack.lookup_set_ne _ _ hne] at hlook'
      exact ⟨hlook', (hvars u hu).2⟩

/-- The PHI nodes, the registers from `fresh` on. -/
def phisOf : Nat → List MergedVar → List (Ssa.Phi Literal)
  | _, [] => []
  | fresh, v :: vars => ⟨fresh, v.incoming⟩ :: phisOf (fresh + 1) vars

theorem mem_phisOf {phi : Ssa.Phi Literal} {vars : List MergedVar} {fresh : Nat}
    (h : phi ∈ phisOf fresh vars) : ∃ v ∈ vars, phi.incoming = v.incoming := by
  induction vars generalizing fresh with
  | nil => cases h
  | cons v vars ih =>
    rcases List.mem_cons.mp h with rfl | h
    · exact ⟨v, List.mem_cons_self, rfl⟩
    · rcases ih h with ⟨u, hu, he⟩
      exact ⟨u, List.mem_cons_of_mem _ hu, he⟩

theorem mergeAll_builder : ∀ (vars : List MergedVar) (s : State),
    (s.mergeAll vars).builder = s.builder.modifyInsert
      (fun blk => { blk with phis := blk.phis ++ phisOf s.builder.fresh vars })
      (s.builder.fresh + vars.length)
  | [], s => by
    have hid : (fun blk : Ssa.Block Opcode Literal Label =>
        { blk with phis := blk.phis ++ phisOf s.builder.fresh [] }) = id := by
      funext blk
      simp [phisOf]
    rw [hid]
    change s.builder = _
    simp [Ssa.Builder.modifyInsert]
  | v :: vars, s => by
    change ((s.mergeVar v).mergeAll vars).builder = _
    rw [mergeAll_builder vars (s.mergeVar v)]
    have hv : (s.mergeVar v).builder = s.builder.createPhi v.incoming := rfl
    rw [hv]
    simp only [Ssa.Builder.createPhi, Ssa.Builder.modifyInsert, List.modify_modify_eq, phisOf,
      List.length_cons]
    congr 1
    · congr 1
      funext blk
      simp
    · omega

@[simp] theorem mergeAll_outer (vars : List MergedVar) : ∀ s : State,
    (s.mergeAll vars).scopeStack.outer = s.scopeStack.outer := by
  induction vars with
  | nil => exact fun _ => rfl
  | cons v vars ih => exact fun s => ih (s.mergeVar v)

@[simp] theorem mergeAll_cache (vars : List MergedVar) : ∀ s : State,
    (s.mergeAll vars).constListCache = s.constListCache := by
  induction vars with
  | nil => exact fun _ => rfl
  | cons v vars ih => exact fun s => ih (s.mergeVar v)

/-- A variable that is merged is the register of its PHI node, the others are what they were. -/
theorem lookup_mergeAll (name : String) (vars : List MergedVar) (s : State) :
    (∃ i v, vars[i]? = some v ∧ v.name = name ∧ (s.mergeAll vars).scopeStack.lookup name =
      some (some ⟨.reg (s.builder.fresh + i), v.original.type⟩)) ∨
    ((∀ v ∈ vars, v.name ≠ name) ∧
      (s.mergeAll vars).scopeStack.lookup name = s.scopeStack.lookup name) := by
  induction vars generalizing s with
  | nil => exact .inr ⟨by simp, rfl⟩
  | cons v vars ih =>
    have hfresh : (s.mergeVar v).builder.fresh = s.builder.fresh + 1 := rfl
    rcases ih (s.mergeVar v) with ⟨i, u, hu, hname, hlook⟩ | ⟨hnot, hlook⟩
    · rw [hfresh, Nat.add_assoc, Nat.add_comm 1 i] at hlook
      exact .inl ⟨i + 1, u, hu, hname, hlook⟩
    · have hset : (s.mergeVar v).scopeStack =
          s.scopeStack.set v.name (some (s.phi v.original.type)) := rfl
      rw [hset] at hlook
      by_cases he : v.name = name
      · refine .inl ⟨0, v, rfl, he, ?_⟩
        rw [he, ScopeStack.lookup_set] at hlook
        exact hlook
      · refine .inr ⟨List.forall_mem_cons.mpr ⟨he, hnot⟩, ?_⟩
        rw [ScopeStack.lookup_set_ne _ _ (Ne.symm he)] at hlook
        exact hlook

end Merged

/-! ## 2. Edges into a merge block -/

section Edges

variable {sem : Ssa.Semantics Opcode Literal V W E} {env : Ssa.Env V} {source : Nat}

/-- The PHI node of the variable takes `x` on the edge from `source`. -/
def Reads (sem : Ssa.Semantics Opcode Literal V W E) (env : Ssa.Env V) (source : Nat)
    (v : MergedVar) (x : V) : Prop :=
  ∃ o, v.incoming.find? (fun e => e.2 == source) = some (o, source) ∧ o.eval sem env = some x

/-- **All PHI nodes are read at once.** -/
theorem phis_read (vars : List MergedVar) (fresh : Nat)
    (h : ∀ v ∈ vars, ∃ x, Reads sem env source v x) :
    ∃ l, (phisOf fresh vars).mapM (Ssa.Phi.read sem env source) = some l ∧
      Ssa.AgreeBelow fresh env (env.setAll l) ∧
        ∀ i v, vars[i]? = some v → ∃ x, Reads sem env source v x ∧
          env.setAll l (fresh + i) = some x := by
  induction vars generalizing fresh with
  | nil => exact ⟨[], rfl, .refl _ _, fun i v h => by cases h⟩
  | cons v vars ih =>
    rcases h v List.mem_cons_self with ⟨x, o, hfind, ho⟩
    rcases ih (fresh + 1) fun u hu => h u (List.mem_cons_of_mem _ hu) with ⟨l, hl, hagree, hget⟩
    refine ⟨(fresh, x) :: l, ?_, ?_, fun i u hu => ?_⟩
    · simp [phisOf, Ssa.Phi.read, hfind, ho, hl]
    · exact (hagree.mono (Nat.le_succ _)).set (Nat.le_refl _) _
    · cases i with
      | zero =>
        obtain rfl : v = u := Option.some.inj hu
        exact ⟨x, ⟨o, hfind, ho⟩, Ssa.Env.set_self _ _ _⟩
      | succ i =>
        rcases hget i u hu with ⟨y, hy, hreg⟩
        refine ⟨y, hy, ?_⟩
        rw [Ssa.Env.setAll, Ssa.Env.set_ne _ _ (by omega), ← hreg]
        congr 1
        omega

/-- What a branch has left in the variables from before it. -/
def Leaves (sem : Ssa.Semantics Opcode Literal V W E) (env : Ssa.Env V)
    (scopes : ScopeStack (Option Value)) (modified : Scope (Option Value)) (store : Store V) :
    Prop :=
  ∀ name v, scopes.lookup name = some v →
    Represents sem env ((modified.lookup name).getD v) ((store name).getD none)

/-- **An edge into the merge block**: it leaves the branch, with the variables it has modified. -/
def Edge (sem : Ssa.Semantics Opcode Literal V W E) (F : IRFunction) (fresh : Nat)
    (before : ScopeStack (Option Value)) (merge source : Nat) (modified : Scope (Option Value))
    (dest : Ssa.Env V → W → Ssa.Config V W E) (after : ScopeStack (Option Value)) : Prop :=
  ∀ env store store', Holds sem env before store → Leaves sem env before modified store' →
    RunsTo sem F fresh (fun w => .jump source merge env w) env (pure ((), leave store store'))
      dest after fun _ _ => True

/-- The merge block of a when-block in the finished function; `m` is where the block starts. -/
structure MergeVars (F : IRFunction) (m : State) (merge : Nat) (vars : List MergedVar) : Prop where
  ready : Ready m
  block : m.builder.insertPoint = merge
  fresh : Fresh m merge
  final : Final (m.mergeAll vars).builder F
  originals : ∀ v ∈ vars, m.scopeStack.lookup v.name = some (some v.original)

theorem rel_some_left {α β : Type} {r : α → β → Prop} {a : α} {b : Option β}
    (h : Option.Rel r (some a) b) : ∃ y, b = some y ∧ r a y := by
  cases h with
  | some h => exact ⟨_, rfl, h⟩

/-- The variable that a PHI node merges has a value after the branch. -/
theorem Leaves.value {scopes : ScopeStack (Option Value)} {modified : Scope (Option Value)}
    {store : Store V} (h : Leaves sem env scopes modified store) {v : MergedVar} {x : Value}
    (hlook : scopes.lookup v.name = some (some v.original))
    (hx : (modified.lookup v.name).getD (some v.original) = some x) :
    ∃ d, (store v.name).getD none = some d ∧ HoldsDatum sem env x d :=
  rel_some_left (hx ▸ h v.name _ hlook)

/-- **The variables after the merge block** are what the branch has left in them. -/
theorem MergeVars.edge {F : IRFunction} {m : State} {merge : Nat} {vars : List MergedVar}
    (h : MergeVars F m merge vars) {modified : Scope (Option Value)}
    (hfind : ∀ v ∈ vars, ∃ x, (modified.lookup v.name).getD (some v.original) = some x ∧
      v.incoming.find? (fun e => e.2 == source) = some (x.operand, source))
    (hall : ∀ name, (∀ v ∈ vars, v.name ≠ name) → modified.lookup name = none) :
    Edge sem F m.builder.fresh m.scopeStack merge source modified
      ((m.mergeAll vars).builder.here (W := W)) (m.mergeAll vars).scopeStack := by
  intro env store store' hstore hleaves
  -- what a PHI node reads is what the branch has left in its variable
  have hreads : ∀ v ∈ vars, ∃ d, (store' v.name).getD none = some d ∧
      ∀ x, Reads sem env source v x ↔ x = d.val := by
    intro v hv
    rcases hfind v hv with ⟨x, hx, hf⟩
    rcases hleaves.value (h.originals v hv) hx with ⟨d, hd, hval, -⟩
    refine ⟨d, hd, fun y => ⟨?_, ?_⟩⟩
    · rintro ⟨o, ho, hy⟩
      obtain rfl : x.operand = o := congrArg Prod.fst (Option.some.inj (hf.symm.trans ho))
      exact Option.some.inj (hy.symm.trans hval)
    · rintro rfl
      exact ⟨_, hf, hval⟩
  rcases phis_read vars m.builder.fresh fun v hv => by
    rcases hreads v hv with ⟨d, -, hd⟩
    exact ⟨d.val, (hd _).mpr rfl⟩ with ⟨l, hl, hagree, hregs⟩
  have hblock := h.block
  subst hblock
  rcases h.fresh with ⟨label, hb⟩
  have hphis : (m.mergeAll vars).builder.blocks[m.builder.insertPoint]? =
      some ⟨label, phisOf m.builder.fresh vars, [], none⟩ := by
    rw [mergeAll_builder, block_modifyInsert, if_pos rfl, hb]
    rfl
  have hip : (m.mergeAll vars).builder.insertPoint = m.builder.insertPoint := by
    rw [mergeAll_builder]
    rfl
  have hstep : ∀ w, Ssa.step sem F (.jump source m.builder.insertPoint env w) =
      some ((m.mergeAll vars).builder.here (env.setAll l) w) := by
    intro w
    have hstep := enter_step sem (b := (m.mergeAll vars).builder) (hip.symm ▸ hphis) h.final
      source env w
    rw [hip, hl] at hstep
    exact hstep
  refine .step hstep fun w => .pure ⟨env.setAll l, rfl, hagree, trivial, fun name => ?_⟩
  change Option.Rel (Represents sem (env.setAll l)) _
    ((store name).map fun x => retype x ((store' name).getD none))
  have hname := hstore name
  rcases lookup_mergeAll name vars m with ⟨i, v, hv, rfl, hlook⟩ | ⟨hnot, hlook⟩
  · have hmem := List.mem_of_getElem? hv
    rw [h.originals v hmem] at hname
    rcases rel_some_left hname with ⟨before, hbefore, hrep⟩
    rcases rel_some_left hrep with ⟨d₀, rfl, -, htype⟩
    rcases hreads v hmem with ⟨d, hd, hread⟩
    rcases hregs i v hv with ⟨x, hx, hreg⟩
    obtain rfl := (hread x).mp hx
    rw [hlook, hbefore, hd]
    exact .some (.some ⟨hreg, htype⟩)
  · rw [hlook]
    cases hold : m.scopeStack.lookup name with
    | none =>
      rw [hold] at hname
      cases hname' : store name with
      | none => exact .none
      | some d => rw [hname'] at hname; exact nomatch hname
    | some v =>
      rw [hold] at hname
      rcases rel_some_left hname with ⟨before, hbefore, hrep⟩
      have hafter := hleaves name v hold
      rw [hall name hnot, Option.getD_none] at hafter
      rw [hbefore]
      refine .some (Represents.agree ?_ (h.ready.below name v hold) hagree)
      cases hrep with
      | none =>
        cases hd : (store' name).getD none with
        | none => exact .none
        | some d => rw [hd] at hafter; exact nomatch hafter
      | some h₀ =>
        rcases rel_some_left hafter with ⟨d, hd, hval, -⟩
        rw [hd]
        exact .some ⟨hval, h₀.2⟩

/-- Nothing changes on the edge on which no branch is taken. -/
theorem leave_self (store : Store V) : leave store store = store := by
  funext name
  rw [leave]
  cases store name with
  | none => rfl
  | some x =>
    cases x with
    | none => rfl
    | some d => rfl

theorem leaves_empty {scopes : ScopeStack (Option Value)} {store : Store V}
    (h : Holds sem env scopes store) : Leaves sem env scopes ∅ store := by
  intro name v hlook
  have hname := h name
  rw [hlook] at hname
  rcases rel_some_left hname with ⟨d, hd, hrep⟩
  rw [AList.lookup_empty, Option.getD_none, hd]
  exact hrep

end Edges

/-! ## 3. Bodies -/

section Bodies

variable {ctx : Context} {sem : Ssa.Semantics Opcode Literal V W E}
  {lit : ConstantListValueType → Literal} {node : ExecNode} {p a m : State} {info : BranchInfo}
  {F : IRFunction} {env : Ssa.Env V} {store : Store V}

/-- A body, and what is left of its variables behind the block. -/
def evalBody (ctx : Context) (sem : Ssa.Semantics Opcode Literal V W E)
    (lit : ConstantListValueType → Literal) (node : ExecNode) (store : Store V) :
    Checked.M W E (Unit × Store V) :=
  eval ctx sem lit node store >>= fun r => pure ((), leave store r.2)

/-- The run of a body in a scope of its own, and the outer variables it has assigned. -/
def BodyRun (ctx : Context) (node : ExecNode) (p : State) (info : BranchInfo) : Prop :=
  ∃ v p₁, (getValue node (visit ctx node)).run (p.modifyScope ScopeStack.pushScope) = .ok (v, p₁) ∧
    info.modified = p₁.scopeStack.getShadowed

variable (ctx sem lit) in
/-- A body whose code has been emitted, up to the branch to the merge block. -/
structure LoweredBody (node : ExecNode) (p : State) (info : BranchInfo) (a : State) : Prop where
  run : BodyRun ctx node p info
  grown : Grown p a (node.whensFine = true)
  scopes : a.scopeStack = p.scopeStack
  block : info.endBlock = a.builder.insertPoint
  runs : ∀ {F env store}, Final a.builder F → Literals lit a.constListCache →
    (node.whensFine = true ∨ Verified F) → Holds sem env p.scopeStack store →
      RunsAt sem F p a env (eval ctx sem lit node store >>= fun r => pure (r.2, store))
        fun env' store' => Leaves sem env' p.scopeStack info.modified store'

/-- What the inner scope holds of the outer variables. -/
theorem leaves_getShadowed {scopes inner : ScopeStack (Option Value)}
    (houter : inner.outer = scopes.pushScope.outer) {env : Ssa.Env V} {store : Store V}
    (h : Holds sem env inner store) : Leaves sem env scopes inner.getShadowed store := by
  intro name v hlook
  have hold : ScopeStack.lookupIn name inner.outer = some v := by
    rw [houter]
    exact hlook
  have hname := h name
  rw [ScopeStack.lookup_eq_or, hold] at hname
  have hshadow : inner.getShadowed.lookup name = inner.top.lookup name := by
    rw [ScopeStack.lookup_getShadowed, ScopeStack.knownIn, hold]
    rfl
  rw [hshadow]
  cases htop : inner.top.lookup name with
  | none =>
    rw [htop] at hname
    rcases rel_some_left hname with ⟨d, hd, hrep⟩
    rw [hd]
    exact hrep
  | some w =>
    rw [htop] at hname
    rcases rel_some_left hname with ⟨d, hd, hrep⟩
    rw [hd]
    exact hrep

theorem Lowers.getBranchBody {merge : Nat} {p' : State} (h : Lowers ctx sem lit node)
    (hrun : (getBranchBody node (visit ctx node) merge).run p = .ok (info, p')) (hp : Ready p) :
    ∃ a, LoweredBody ctx sem lit node p info a ∧ p' = a.createBr merge := by
  rcases getBranchBody_run.mp hrun with ⟨v, s₁, hvalue, rfl, rfl⟩
  have hpush : Ready (p.modifyScope ScopeStack.pushScope) :=
    hp.modifyScope fun name v hv => hp.below name v (ScopeStack.lookup_pushScope _ name ▸ hv)
  have hl := h.getValue hvalue hpush
  have hscopes : (s₁.modifyScope ScopeStack.popScope).scopeStack = p.scopeStack :=
    ScopeStack.popScope_of_outer hl.grown.outer
  refine ⟨s₁.modifyScope ScopeStack.popScope, ⟨⟨v, s₁, hvalue, rfl⟩, ⟨hl.grown.grows, ?_, ?_,
    hl.grown.cache, hl.grown.sound⟩, hscopes, rfl, fun {F} {env} {store} hF hlit hv hstore => ?_⟩,
    rfl⟩
  · refine hl.grown.ready.modifyScope fun name v hv => ?_
    change (s₁.modifyScope ScopeStack.popScope).scopeStack.lookup name = some v at hv
    rw [hscopes] at hv
    exact (hp.below name v hv).mono hl.grown.fresh
  · rw [hscopes]
  · have hpushed : Holds sem env (p.modifyScope ScopeStack.pushScope).scopeStack store :=
      fun name => (ScopeStack.lookup_pushScope p.scopeStack name).symm ▸ hstore name
    rw [RunsAt, hscopes]
    refine (hl.runs hF hlit hv hpushed).bind (Nat.le_refl _) fun env₁ x store₁ hagree _ hst => ?_
    exact .weaken (.pure (leaves_getShadowed hl.grown.outer hst) (hstore.agree hp.below hagree))
      hl.grown.fresh

/-- **A body**, from the edge into it to the end of the merge block. -/
theorem LoweredBody.merges {i merge source fresh : Nat}
    {dest : Ssa.Env V → W → Ssa.Config V W E} {after : ScopeStack (Option Value)}
    (h : LoweredBody ctx sem lit node p info a) (hp : Ready p)
    (hi : p.builder.insertPoint = i) (hfresh : Fresh p i)
    (hlater : Later (a.createBr merge).builder.blocks F) (hle : fresh ≤ p.builder.fresh)
    (hedge : Edge sem F fresh p.scopeStack merge info.endBlock info.modified dest after)
    (hlit : Literals lit a.constListCache) (hv : node.whensFine = true ∨ Verified F)
    (hstore : Holds sem env p.scopeStack store) :
    RunsTo sem F fresh (fun w : W => .jump source i env w) env
      (evalBody ctx sem lit node store) dest after fun _ _ => True := by
  have hopen := h.grown.ready.isOpen
  have hFa : Final a.builder F := .of_terminate hopen hlater
  have hFp : Final p.builder F := .of_grows h.grown.grows hp.isOpen hFa
  refine .step (fun w => enter_run hi hfresh hFp source) ?_
  have hbody : evalBody ctx sem lit node store =
      (eval ctx sem lit node store >>= fun r => pure (r.2, store)) >>= fun q =>
        pure ((), leave q.2 q.1) := by
    rw [evalBody, bind_assoc]
    simp only [pure_bind]
  rw [hbody]
  refine RunsTo.bind (.weaken (h.runs hFa hlit hv hstore) hle) (Nat.le_refl _)
    fun env₁ store₁ store₂ _ hleaves hst => ?_
  rw [h.scopes] at hst
  refine .step (fun w => createBr_step hopen hlater) ?_
  rw [← h.block]
  exact hedge env₁ store₂ store₁ hst hleaves

end Bodies

/-! ## 4. The chain -/

section Branches

variable {ctx : Context} {sem : Ssa.Semantics Opcode Literal V W E}
  {lit : ConstantListValueType → Literal}

/-- The branches, and the variables behind the block. -/
def evalChain (ctx : Context) (sem : Ssa.Semantics Opcode Literal V W E)
    (lit : ConstantListValueType → Literal) (args : List ExecNode) (store : Store V) :
    Checked.M W E (Unit × Store V) :=
  evalBranches ctx sem lit args store >>= fun store => pure ((), store)

theorem evalChain_nil (store : Store V) :
    evalChain ctx sem lit [] store = (pure ((), store) : Checked.M W E _) := by
  rw [evalChain, evalBranches, pure_bind]

theorem evalChain_else (body : ExecNode) (store : Store V) :
    evalChain ctx sem lit [body] store = evalBody ctx sem lit body store := by
  rw [evalChain, evalBranches, evalBody, bind_assoc]
  rfl

theorem evalChain_cons (cond body : ExecNode) (args : List ExecNode) (store : Store V) :
    evalChain ctx sem lit (cond :: body :: args) store =
      evalCond ctx sem lit cond store >>= fun r => match r.1 with
        | none => pure ((), r.2)
        | some true => evalBody ctx sem lit body r.2
        | some false => evalChain ctx sem lit args r.2 := by
  rw [evalChain, evalBranches, evalCond, bind_assoc, bind_assoc]
  refine bind_congr fun r => ?_
  rw [bind_assoc, bind_assoc]
  refine bind_congr fun b => ?_
  rw [pure_bind]
  cases b with
  | none => rw [pure_bind]
  | some b =>
    cases b with
    | true =>
      rw [evalBody, bind_assoc]
      rfl
    | false => rfl

/-- The bodies of the branches, in the order in which their code is emitted. -/
def bodies : List ExecNode → List ExecNode
  | [] => []
  | [body] => [body]
  | _ :: body :: args => bodies args ++ [body]

variable (ctx sem lit) in
/-- The branches of a when-block, from `s` to `s'`.  Control that gets to the chain from `source`
and takes no branch gets to the merge block from `fall source`, if there is no else body. -/
structure LoweredBranches (s₀ s : State) (start merge : Nat) (good : Prop) (args : List ExecNode)
    (r : IfBranches) (fall : Nat → Option Nat) (s' : State) : Prop where
  mid : ∃ T l, T r.prevFalseBlock = some l ∧
    (∀ source, ∃ l', Function.update T r.prevFalseBlock (some (source :: l)) merge = some l' ∧
      l'.Perm (r.branchInfos.map BranchInfo.endBlock ++ (fall source).toList)) ∧
    Mid s₀ s' (fun j => j = start ∨ j = merge) T good
  keeps : ∀ j, j < s.builder.size → Keeps s s' j
  le : s.builder.fresh ≤ s'.builder.fresh
  infos : List.Forall₂ (fun body info => ∃ p, Ready p ∧ p.scopeStack = s₀.scopeStack ∧
    BodyRun ctx body p info) (bodies args) r.branchInfos
  nil : args = [] → r.lastCondBlock = none ∧ ∀ source, fall source = some source
  noElse : args.length % 2 = 0 → ∀ source, ∃ i, fall source = some i ∧
    (args ≠ [] → ∃ j, r.lastCondBlock = some j ∧ (ExecNode.fallsFromSplit args = false ↔ i = j))
  hasElse : args.length % 2 ≠ 0 → ∀ source, fall source = none
  runs : ∀ {F env store source fresh} {dest : Ssa.Env V → W → Ssa.Config V W E} {after},
    Later s'.builder.blocks F → Literals lit s'.constListCache →
    (ExecNode.argsFine args = true ∨ Verified F) → fresh ≤ s.builder.fresh →
    (∀ info ∈ r.branchInfos,
      Edge sem F fresh s₀.scopeStack merge info.endBlock info.modified dest after) →
    (∀ i, fall source = some i → Edge sem F fresh s₀.scopeStack merge i ∅ dest after) →
    Holds sem env s₀.scopeStack store →
      RunsTo sem F fresh (fun w : W => .jump source r.prevFalseBlock env w) env
        (evalChain ctx sem lit args store) dest after fun _ _ => True

/-- No more branches: control goes to the merge block. -/
theorem branches_nil {s₀ s : State} {start merge : Nat} {T : Nat → Option (List Nat)} {good : Prop}
    (hmid : Mid s₀ s (fun j => j = start ∨ j = merge) T good) (hT : T merge = some []) :
    LoweredBranches ctx sem lit s₀ s start merge good [] ⟨[], merge, none⟩ some s := by
  refine ⟨⟨T, [], hT, fun source => ⟨[source], Function.update_self _ _ _, .refl _⟩, hmid⟩,
    fun _ _ => rfl, Nat.le_refl _, .nil, fun _ => ⟨rfl, fun _ => rfl⟩,
    fun _ source => ⟨source, rfl, fun h => absurd rfl h⟩, fun h => absurd rfl h, ?_⟩
  intro F env store source fresh dest after hF hlit hv hle hedges hfall hstore
  rw [evalChain_nil]
  have hedge := hfall source rfl env store store hstore (leaves_empty hstore)
  rw [leave_self] at hedge
  exact hedge

/-- The body that starts at `p`, in block `i`. -/
theorem body_code {s₀ p s' : State} {start merge i : Nat} {T : Nat → Option (List Nat)}
    {l : List Nat} {good : Prop} {node : ExecNode} {info : BranchInfo}
    (h : Lowers ctx sem lit node) (hmid : Mid s₀ p (fun j => j = start ∨ j = merge ∨ j = i) T good)
    (hi : p.builder.insertPoint = i) (hne : i ≠ start ∧ i ≠ merge) (hT : T merge = some l)
    (hgood : good → node.whensFine = true)
    (hrun : (getBranchBody node (visit ctx node) merge).run p = .ok (info, s')) :
    ∃ a, LoweredBody ctx sem lit node p info a ∧ s' = a.createBr merge ∧
      (∀ j, j < p.builder.size → j ≠ i → Keeps p s' j) ∧
      Mid s₀ s' (fun j => j = start ∨ j = merge)
        (Function.update T merge (some (info.endBlock :: l))) good := by
  have hready := hmid.ready (.inr (.inr hi))
  rcases h.getBranchBody hrun hready with ⟨a, ha, rfl⟩
  have hend := ha.grown.grows.insertPoint
  have hstart := hmid.frag.lt_size (.inl rfl)
  have hmerge := hmid.frag.lt_size (.inr (.inl rfl))
  rw [hi] at hend
  refine ⟨a, ha, rfl, fun j hj hji => .terminate (.grown rfl hj (hi ▸ hji) ha.grown)
    (by omega) _, ?_⟩
  rw [ha.block]
  exact ((hmid.part (.inr (.inr hi)) ha.grown hgood ha.scopes).createBr merge (.inr rfl) hT).congr
    (fun j => by rw [hi]; omega) fun _ => rfl

/-- The else body. -/
theorem branches_else {s₀ s s' : State} {start merge : Nat} {T : Nat → Option (List Nat)}
    {good : Prop} {body : ExecNode} {r : IfBranches} (h : Lowers ctx sem lit body)
    (hmid : Mid s₀ s (fun j => j = start ∨ j = merge) T good) (hT : T merge = some [])
    (hgood : good → body.whensFine = true)
    (hrun : (visitIfBranches ctx merge [body]).run s = .ok (r, s')) :
    LoweredBranches ctx sem lit s₀ s start merge good [body] r (fun _ => none) s' := by
  simp only [visitIfBranches, Checked.run_bind_eq_ok, createBlock_run, Checked.run_modify_eq_ok,
    Checked.run_pure_eq_ok, and_assoc, exists_and_left, exists_eq_left, exists_const] at hrun
  rcases hrun with ⟨info, _, hinfo, rfl, rfl⟩
  obtain ⟨i, hi⟩ : ∃ i, i = s.builder.size := ⟨_, rfl⟩
  rw [State.nextBlock_eq, ← hi] at hinfo ⊢
  have hstart := hmid.frag.lt_size (.inl rfl)
  have hmerge := hmid.frag.lt_size (.inr rfl)
  have hmid₁ := ((hmid.createBlock .ifblockElse hi).setInsertPoint i).congr
    (Q := fun j => j = start ∨ j = merge ∨ j = i) (fun j => by omega) fun _ => rfl
  rcases body_code h hmid₁ rfl ⟨by omega, by omega⟩
    ((Function.update_of_ne (by omega) _ _).trans hT) hgood hinfo with ⟨a, ha, rfl, hkeeps, hmid₂⟩
  refine ⟨⟨_, [], ?_, fun source => ⟨[info.endBlock], ?_, by simp⟩, hmid₂⟩, fun j hj => ?_,
    ha.grown.fresh, .cons ⟨_, hmid₁.ready (.inr (.inr rfl)), hmid₁.scopes, ha.run⟩ .nil,
    fun h => absurd h (by simp), fun h => absurd h (by simp), fun _ _ => rfl, ?_⟩
  · dsimp only
    rw [Function.update_of_ne (by omega), Function.update_self]
  · dsimp only
    rw [Function.update_of_ne (by omega), Function.update_self]
  · exact (Keeps.setInsertPoint (.createBlock rfl hj _) i).trans (hkeeps j (by simp; omega)
      (by omega))
  · intro F env store source fresh dest after hF hlit hv hle hedges hfall hstore
    have hnew : Fresh ((s.createBlock .ifblockElse).setInsertPoint i) i :=
      hi ▸ Fresh.setInsertPoint (Fresh.new s .ifblockElse) _
    rw [evalChain_else]
    refine ha.merges (hmid₁.ready (.inr (.inr rfl))) rfl hnew hF hle ?_ hlit (fine_left hv) ?_
    · rw [hmid₁.scopes]
      exact hedges info (by simp)
    · rw [hmid₁.scopes]
      exact hstore

/-- One condition with its body, in front of the rest of the chain. -/
theorem branches_link (hbits : BitSemantics sem) {s₀ s s₁ s' : State} {start merge condBlock : Nat}
    {good : Prop} {cond body : ExecNode} {args : List ExecNode} {r : IfBranches}
    {fall : Nat → Option Nat} {c : Value} {t : State} {info : BranchInfo}
    (h : Lowers ctx sem lit cond) (h' : Lowers ctx sem lit body)
    (hl : LoweredBranches ctx sem lit s₀ s start merge good args r fall s₁)
    (hgood : good → cond.whensFine = true) (hgood' : good → body.whensFine = true)
    (hblock : condBlock = s₁.builder.size)
    (hc : (getCondition "if block condition" cond (visit ctx cond)).run
      ((s₁.createBlock .ifblockCond).setInsertPoint condBlock) = .ok (c, t))
    (hinfo : (getBranchBody body (visit ctx body) merge).run
      (((t.createBlock .ifblockBody).createCondBr c t.builder.size r.prevFalseBlock).setInsertPoint
        t.builder.size) = .ok (info, s')) :
    LoweredBranches ctx sem lit s₀ s start merge good (cond :: body :: args)
      ⟨r.branchInfos ++ [info], condBlock, some (r.lastCondBlock.getD condBlock)⟩
      (fun _ => fall t.builder.insertPoint) s' := by
  rcases hl.mid with ⟨T, l, hfalse, hmerges, hmid⟩
  have hlink := link_code hbits _ .ifblockBody h hmid hgood hfalse hblock rfl hc
  have hstart := hmid.frag.lt_size (.inl rfl)
  have hmerge := hmid.frag.lt_size (.inr rfl)
  have hfalse' := (hmid.traces.own _ _ hfalse).2
  have hlt := hlink.cond_lt
  rcases hmerges t.builder.insertPoint with ⟨l', hl', hperm⟩
  have hT : Function.update (Function.update (Function.update T condBlock (some [])) t.builder.size
      (some [t.builder.insertPoint])) r.prevFalseBlock
        ((T r.prevFalseBlock).map (t.builder.insertPoint :: ·)) merge = some l' := by
    rw [hfalse, Option.map_some, ← hl']
    by_cases hm : merge = r.prevFalseBlock
    · rw [hm, Function.update_self, Function.update_self]
    · rw [Function.update_of_ne hm, Function.update_of_ne hm, Function.update_of_ne (by omega),
        Function.update_of_ne (by omega)]
  rcases body_code h' hlink.mid rfl ⟨by omega, by omega⟩ hT hgood' hinfo with
    ⟨a, ha, rfl, hkeeps, hmid'⟩
  refine ⟨⟨_, [], ?_, fun source => ⟨info.endBlock :: l', ?_, ?_⟩, hmid'⟩, fun j hj => ?_,
    (hl.le.trans hlink.fresh).trans ha.grown.fresh, List.rel_append hl.infos (.cons ⟨_,
      hlink.readyBody, hlink.mid.scopes, ha.run⟩ .nil), fun h => (nomatch h),
        fun heven source => ?_,
    fun hodd source => ?_, ?_⟩
  · dsimp only
    rw [Function.update_of_ne (by omega), Function.update_of_ne (by omega),
      Function.update_of_ne (by omega), Function.update_self]
  · dsimp only
    rw [Function.update_of_ne (by omega), Function.update_self]
  · rw [List.map_append, List.map_singleton, List.append_assoc, List.singleton_append]
    exact (hperm.cons _).trans List.perm_middle.symm
  · have hj₁ := (hl.keeps j hj).lt hj
    have hq := hlink.keeps j hj₁
    exact ((hl.keeps j hj).trans hq).trans (hkeeps j (hq.lt hj₁) (by omega))
  · have heven' : args.length % 2 = 0 := by
      simp only [List.length_cons] at heven
      omega
    rcases hl.noElse heven' t.builder.insertPoint with ⟨i, hi, hlast⟩
    refine ⟨i, hi, fun _ => ?_⟩
    cases args with
    | nil =>
      rcases hl.nil rfl with ⟨hnone, hself⟩
      obtain rfl : t.builder.insertPoint = i := Option.some.inj ((hself _).symm.trans hi)
      rw [hnone]
      exact ⟨_, rfl, hlink.cond.splits.symm⟩
    | cons arg args =>
      rcases hlast (List.cons_ne_nil _ _) with ⟨j, hj, hlast'⟩
      rw [hj]
      exact ⟨j, rfl, hlast'⟩
  · refine hl.hasElse ?_ t.builder.insertPoint
    simp only [List.length_cons] at hodd
    omega
  · intro F env store source fresh dest after hF hlit hv hle hedges hfall hstore
    have hopen := ha.grown.ready.isOpen
    have hFq := (Final.of_grows ha.grown.grows hlink.readyBody.isOpen
      (.of_terminate hopen hF)).later
    have hscopes := hlink.mid.scopes
    rw [evalChain_cons]
    refine hlink.runs hbits hFq (hlit.prefix_ ha.grown.cache) (fine_left hv)
      (hmid.scopes.symm ▸ hstore) (hle.trans hl.le) fun env₁ bit store₁ hst => ?_
    rw [hmid.scopes] at hst
    cases bit with
    | true =>
      refine ha.merges hlink.readyBody rfl hlink.freshBody hF
        ((hle.trans hl.le).trans hlink.fresh) ?_ hlit (fine_left (fine_right hv)) ?_
      · rw [hscopes]
        exact hedges info (by simp)
      · rw [hscopes]
        exact hst
    | false =>
      have hlit₁ := (hlit.prefix_ ha.grown.cache).prefix_ hlink.cache
      exact hl.runs (hlink.final hFq).2.2 hlit₁ (fine_right (fine_right hv)) hle
        (fun i hi => hedges i (List.mem_append_left _ hi)) hfall hst

theorem visitIfBranches_lowered (hbits : BitSemantics sem) {s₀ s : State} {start merge : Nat}
    {T : Nat → Option (List Nat)} {good : Prop}
    (hmid : Mid s₀ s (fun j => j = start ∨ j = merge) T good) (hT : T merge = some [])
    (args : List ExecNode) {s' : State} {r : IfBranches}
    (h : ∀ arg ∈ args, Lowers ctx sem lit arg) (hgood : good → ExecNode.argsFine args = true)
    (hrun : (visitIfBranches ctx merge args).run s = .ok (r, s')) :
    ∃ fall, LoweredBranches ctx sem lit s₀ s start merge good args r fall s' := by
  induction args using List.twoStepInduction generalizing s' r with
  | nil =>
    rw [visitIfBranches, Checked.run_pure_eq_ok] at hrun
    rcases hrun with ⟨rfl, rfl⟩
    exact ⟨_, branches_nil hmid hT⟩
  | singleton body =>
    exact ⟨_, branches_else (h _ (by simp)) hmid hT
      (fun hg => (Bool.and_eq_true_iff.mp (hgood hg)).1) hrun⟩
  | cons_cons cond body args ih _ =>
    rw [visitIfBranches] at hrun
    simp only [Checked.run_bind_eq_ok, createBlock_run, Checked.run_modify_eq_ok,
      Checked.run_pure_eq_ok, and_assoc, exists_and_left, exists_eq_left, exists_const] at hrun
    rcases hrun with ⟨r₁, s₁, hrest, c, t, hc, info, s₂, hinfo, rfl, rfl⟩
    have hfine := fun hg => Bool.and_eq_true_iff.mp (hgood hg)
    rcases ih (fun a ha => h a (by simp [ha]))
      (fun hg => (Bool.and_eq_true_iff.mp (hfine hg).2).2) hrest with ⟨fall, hrest'⟩
    exact ⟨_, branches_link hbits (h cond (by simp)) (h body (by simp)) hrest'
      (fun hg => (hfine hg).1) (fun hg => (Bool.and_eq_true_iff.mp (hfine hg).2).1) rfl hc hinfo⟩

end Branches

/-! ## 5. The entries of the PHI nodes -/

section Entries

variable {hasElse : Bool} {r : IfBranches} {v : MergedVar}

theorem forall₂_entries {name : String} {original : Value} {infos : List BranchInfo}
    {l : List (Ssa.Operand Literal × Nat)} (h : List.Forall₂ (IncomingOf name original) infos l) :
    l.map Prod.snd = infos.map BranchInfo.endBlock ∧
      ∀ info ∈ infos, ∃ e ∈ l, IncomingOf name original info e := by
  induction h with
  | nil => exact ⟨rfl, by simp⟩
  | cons he hl ih =>
    rcases ih with ⟨hblocks, hmem⟩
    refine ⟨?_, fun info' hi => ?_⟩
    · rcases he with ⟨x, hx, rfl⟩
      rw [List.map_cons, List.map_cons, hblocks]
    · rcases List.mem_cons.mp hi with rfl | hi
      · exact ⟨_, List.mem_cons_self, he⟩
      · rcases hmem info' hi with ⟨e, he, hinc⟩
        exact ⟨e, List.mem_cons_of_mem _ he, hinc⟩

/-- The blocks the entries are for: those the branches end in, and `lastCondBlock`. -/
theorem Incoming.blocks (h : Incoming hasElse r v) :
    v.incoming.map Prod.snd = r.branchInfos.map BranchInfo.endBlock ++
      (if hasElse then [] else r.lastCondBlock.toList) := by
  rcases h with ⟨l, falls, hl, hfalls, hinc⟩
  rw [hinc, List.map_append, (forall₂_entries hl).1]
  cases hasElse with
  | true =>
    rw [if_pos rfl] at hfalls
    rw [hfalls]
    rfl
  | false =>
    rcases hfalls with ⟨i, hi, rfl⟩
    rw [hi]
    rfl

/-- The entry of a branch is what it has left in the variable. -/
theorem Incoming.mem (h : Incoming hasElse r v) {info : BranchInfo} (hi : info ∈ r.branchInfos) :
    ∃ x, (info.modified.lookup v.name).getD (some v.original) = some x ∧
      (x.operand, info.endBlock) ∈ v.incoming := by
  rcases h with ⟨l, falls, hl, -, hinc⟩
  rcases (forall₂_entries hl).2 info hi with ⟨_, he, x, hx, rfl⟩
  exact ⟨x, hx, hinc ▸ List.mem_append_left _ he⟩

/-- The entry of the edge on which no branch is taken is the value from before. -/
theorem Incoming.mem_fall (h : Incoming false r v) {i : Nat} (hi : r.lastCondBlock = some i) :
    (v.original.operand, i) ∈ v.incoming := by
  rcases h with ⟨l, falls, -, ⟨i', hi', rfl⟩, hinc⟩
  obtain rfl : i = i' := Option.some.inj (hi.symm.trans hi')
  rw [hinc]
  exact List.mem_append_right _ List.mem_cons_self

variable {ctx : Context} {sem : Ssa.Semantics Opcode Literal V W E}
  {lit : ConstantListValueType → Literal} {s₀ s s' : State} {start merge source : Nat}
  {good : Prop} {args : List ExecNode} {fall : Nat → Option Nat} {l : List Nat}

/-- A PHI node has as many entries as its block has predecessors. -/
theorem LoweredBranches.entries_length
    (h : LoweredBranches ctx sem lit s₀ s start merge good args r fall s')
    (hl : l.Perm (r.branchInfos.map BranchInfo.endBlock ++ (fall source).toList))
    (hv : Incoming (args.length % 2 ≠ 0) r v) : (v.incoming.map Prod.snd).length = l.length := by
  rw [hl.length_eq, hv.blocks, List.length_append, List.length_append]
  by_cases hodd : args.length % 2 = 0
  · rcases h.noElse hodd source with ⟨i, hi, -⟩
    rcases hv with ⟨_, _, -, hfalls, -⟩
    simp only [hodd, ne_eq, not_true_eq_false, decide_false, Bool.false_eq_true,
      if_false] at hfalls ⊢
    rcases hfalls with ⟨i', hi', -⟩
    rw [hi, hi']
    rfl
  · rw [h.hasElse hodd source]
    simp [hodd]

/-- **The entries are for the predecessors** if the last condition stays in its block. -/
theorem LoweredBranches.entries_fine
    (h : LoweredBranches ctx sem lit s₀ s start merge good args r fall s')
    (hl : l.Perm (r.branchInfos.map BranchInfo.endBlock ++ (fall source).toList))
    (hv : Incoming (args.length % 2 ≠ 0) r v) (hfine : ExecNode.fallsFromSplit args = false) :
    (v.incoming.map Prod.snd).Perm l := by
  refine .trans ?_ hl.symm
  rw [hv.blocks]
  by_cases hodd : args.length % 2 = 0
  · rcases h.noElse hodd source with ⟨i, hi, hlast⟩
    rcases hv with ⟨_, _, -, hfalls, -⟩
    simp only [hodd, ne_eq, not_true_eq_false, decide_false, Bool.false_eq_true,
      if_false] at hfalls ⊢
    rcases hfalls with ⟨i', hi', -⟩
    have hne : args ≠ [] := fun hnil => by
      rw [(h.nil hnil).1] at hi'
      exact nomatch hi'
    rcases hlast hne with ⟨j, hj, hiff⟩
    rw [hi, hj, hiff.mp hfine]
  · rw [h.hasElse hodd source]
    simp [hodd]

/-- If every predecessor has an entry then there are no others. -/
theorem LoweredBranches.entries_verified
    (h : LoweredBranches ctx sem lit s₀ s start merge good args r fall s')
    (hl : l.Perm (r.branchInfos.map BranchInfo.endBlock ++ (fall source).toList))
    (hv : Incoming (args.length % 2 ≠ 0) r v) (hd : l.Nodup)
    (hmem : ∀ j ∈ l, j ∈ v.incoming.map Prod.snd) : (v.incoming.map Prod.snd).Perm l :=
  ((List.subperm_of_subset hd hmem).perm_of_length_le (h.entries_length hl hv).le).symm

/-- The last condition stays in its block if the entries are for the predecessors. -/
theorem LoweredBranches.lastCondBlock_eq {i : Nat}
    (h : LoweredBranches ctx sem lit s₀ s start merge good args r fall s')
    (hl : l.Perm (r.branchInfos.map BranchInfo.endBlock ++ (fall source).toList))
    (hv : Incoming (args.length % 2 ≠ 0) r v) (hperm : (v.incoming.map Prod.snd).Perm l)
    (hi : fall source = some i) : Incoming false r v ∧ r.lastCondBlock = some i := by
  have hodd : args.length % 2 = 0 := by
    by_contra hodd
    rw [h.hasElse hodd source] at hi
    exact nomatch hi
  have hinc : Incoming false r v := by
    simpa [hodd] using hv
  refine ⟨hinc, ?_⟩
  have hboth := hperm.trans hl
  rw [hinc.blocks, hi, List.perm_append_left_iff] at hboth
  rcases hinc with ⟨_, _, -, ⟨i', hi', -⟩, -⟩
  rw [hi'] at hboth ⊢
  exact congrArg some (List.singleton_perm_singleton.mp hboth)

theorem fallsFromSplit_of_odd {args : List ExecNode} (h : args.length % 2 ≠ 0) :
    ExecNode.fallsFromSplit args = false := by
  induction args using List.twoStepInduction with
  | nil => rfl
  | singleton _ => rfl
  | cons_cons _ _ args ih _ =>
    cases args with
    | nil => exact absurd (Nat.mod_self 2) h
    | cons arg args =>
      have hrest := ih (by
        simp only [List.length_cons] at h ⊢
        omega)
      exact hrest

/-- The entries are for the predecessors only if the last condition stays in its block. -/
theorem LoweredBranches.fine_of_entries
    (h : LoweredBranches ctx sem lit s₀ s start merge good args r fall s')
    (hl : l.Perm (r.branchInfos.map BranchInfo.endBlock ++ (fall source).toList))
    (hv : Incoming (args.length % 2 ≠ 0) r v) (hperm : (v.incoming.map Prod.snd).Perm l) :
    ExecNode.fallsFromSplit args = false := by
  by_cases hodd : args.length % 2 = 0
  · rcases h.noElse hodd source with ⟨i, hi, hlast⟩
    have heq := (h.lastCondBlock_eq hl hv hperm hi).2
    have hne : args ≠ [] := fun hnil => by
      rw [(h.nil hnil).1] at heq
      exact nomatch heq
    rcases hlast hne with ⟨j, hj, hiff⟩
    exact hiff.mpr (Option.some.inj (heq.symm.trans hj))
  · exact fallsFromSplit_of_odd hodd

end Entries

/-! ## 6. When-blocks -/

section When

variable {ctx : Context} {sem : Ssa.Semantics Opcode Literal V W E}
  {lit : ConstantListValueType → Literal} {s₀ s s' m : State} {F : IRFunction}
  {vars : List MergedVar} {merge : Nat} {T : Nat → Option (List Nat)} {l : List Nat}
  {good : Prop}

/-- The merge block of a when-block is its last block. -/
theorem Mid.mergeAll (h : Mid s₀ m (fun j => j = merge) T good)
    (hm : m.builder.insertPoint = merge) (hne : merge ≠ s₀.builder.insertPoint)
    (hT : T merge = some l) (hl : good → ∀ v ∈ vars, (v.incoming.map Prod.snd).Perm l) :
    Grown s₀ (m.mergeAll vars) good := by
  have hbuilder := mergeAll_builder vars m
  have hT' : T m.builder.insertPoint = some l := hm.symm ▸ hT
  have htraces : Traces s₀.builder (m.mergeAll vars).builder
      (Function.update T m.builder.insertPoint none) good := by
    rw [hbuilder]
    refine h.traces.finish hT' fun hg phi hphi => ?_
    rcases mem_phisOf hphi with ⟨v, hv, he⟩
    rw [he]
    exact hl hg v hv
  have hfrag : Frag s₀.builder (m.mergeAll vars).builder fun j => j = merge := by
    rw [hbuilder]
    exact h.frag.modifyInsert hm (Nat.le_add_right _ _)
      (fun blk => ⟨rfl, fun he => absurd (hm.symm.trans he) hne, List.prefix_refl _⟩)
      (fun j => ⟨fun hj => ⟨hj, fun _ _ ht => ht⟩, And.left⟩) (fun _ ht => .inl ht)
      (.inl fun _ ht => ht)
  have hip : (m.mergeAll vars).builder.insertPoint = merge := by
    rw [hbuilder]
    exact hm
  refine ⟨hfrag.congr fun j => by rw [hip], ⟨hfrag.isOpen_of hip, htraces.targets, ?_, ?_⟩, ?_, ?_,
    fun hg => htraces.all hg⟩
  · intro name v hv
    have hfresh : (m.mergeAll vars).builder.fresh = m.builder.fresh + vars.length := by
      rw [hbuilder]
      rfl
    rw [hfresh]
    rcases lookup_mergeAll name vars m with ⟨i, u, hu, -, hlook⟩ | ⟨-, hlook⟩
    · obtain rfl : v = _ := Option.some.inj (hv.symm.trans hlook)
      rintro val ⟨⟩
      exact Nat.add_lt_add_left (List.getElem?_eq_some_iff.mp hu).1 _
    · rw [hlook] at hv
      exact ((h.ready hm).below name v hv).mono (Nat.le_add_right _ _)
  · rw [mergeAll_cache]
    exact h.cached
  · rw [mergeAll_outer, h.scopes]
  · rw [mergeAll_cache]
    exact h.cache

theorem exists_phisOf {v : MergedVar} {vars : List MergedVar} (fresh : Nat) (h : v ∈ vars) :
    ∃ phi ∈ phisOf fresh vars, phi.incoming = v.incoming := by
  induction vars generalizing fresh with
  | nil => cases h
  | cons u vars ih =>
    rcases List.mem_cons.mp h with rfl | h
    · exact ⟨_, List.mem_cons_self, rfl⟩
    · rcases ih (fresh + 1) h with ⟨phi, hphi, he⟩
      exact ⟨phi, List.mem_cons_of_mem _ hphi, he⟩

theorem later_mergeAll (h : Ready m) (vars : List MergedVar) :
    Later m.builder.blocks (m.mergeAll vars).builder.blocks := by
  rw [mergeAll_builder]
  exact .modifyInsert h.isOpen fun blk => List.prefix_refl blk.body

/-- What branches to a block still does in the finished function. -/
theorem isPred_later {C : IRFunction} {i j : Nat} (h : Later C F) (hp : Ssa.IsPred C i j) :
    Ssa.IsPred F i j := by
  rcases hp with ⟨blk, t, hb, ht, hmem⟩
  rcases h i blk hb with ⟨blk', hb', -, he⟩
  obtain rfl : blk' = blk := he (by rw [ht]; exact Option.some_ne_none t)
  exact ⟨blk', t, hb', ht, hmem⟩

/-- **What the verifier has checked**: a PHI node has an entry for every predecessor. -/
theorem MergeVars.entry (h : MergeVars F m merge vars) (hv : Verified F) {v : MergedVar}
    (hmem : v ∈ vars) {j : Nat} (hj : Ssa.IsPred m.builder.blocks j merge) :
    j ∈ v.incoming.map Prod.snd := by
  rcases h.fresh with ⟨label, hb⟩
  have hip : (m.mergeAll vars).builder.insertPoint = merge := by
    rw [mergeAll_builder]
    exact h.block
  have hphis : (m.mergeAll vars).builder.blocks[(m.mergeAll vars).builder.insertPoint]? =
      some ⟨label, phisOf m.builder.fresh vars, [], none⟩ := by
    rw [hip, mergeAll_builder, block_modifyInsert, if_pos h.block.symm, hb]
    rfl
  rcases h.final.later _ _ hphis with ⟨blk', hb', -, -⟩
  rcases exists_phisOf m.builder.fresh hmem with ⟨phi, hphi, he⟩
  have hmatch := hv _ blk' hb' phi (h.final.phis _ _ hphis hb' ▸ hphi)
  rw [hip] at hmatch
  rw [← he]
  exact (hmatch.2 j).mpr (isPred_later ((later_mergeAll h.ready vars).trans h.final.later) hj)

theorem Edge.weaken {fresh fresh' source : Nat} {before after : ScopeStack (Option Value)}
    {modified : Scope (Option Value)} {dest : Ssa.Env V → W → Ssa.Config V W E}
    (h : Edge sem F fresh' before merge source modified dest after) (hle : fresh ≤ fresh') :
    Edge sem F fresh before merge source modified dest after :=
  fun env store store' hstore hleaves => .weaken (h env store store' hstore hleaves) hle

variable (ctx sem lit) in
/-- The code of a when-block up to its merge block: the branches are emitted from `s` to `s₁`, the
merge block starts at `m`, and `l` are its predecessors. -/
structure WhenCode (args : List ExecNode) (s : State) (r : IfBranches) (fall : Option Nat)
    (s₁ m : State) (merge : Nat) (l : List Nat) : Prop where
  join : m = ((s₁.setInsertPoint s.builder.insertPoint).createBr r.prevFalseBlock).setInsertPoint
    merge
  new : s.builder.size ≤ merge
  fresh : Fresh m merge
  mid : ∃ T, T merge = some l ∧
    Mid s m (fun j => j = merge) T (ExecNode.argsFine args = true)
  infos : List.Forall₂ (fun body info => ∃ p, Ready p ∧ p.scopeStack = s.scopeStack ∧
    BodyRun ctx body p info) (bodies args) r.branchInfos
  fine : ∀ v, Incoming (args.length % 2 ≠ 0) r v → (∀ j ∈ l, j ∈ v.incoming.map Prod.snd) →
    ExecNode.fallsFromSplit args = false
  entries : ∀ v, Incoming (args.length % 2 ≠ 0) r v → ExecNode.fallsFromSplit args = false →
    (v.incoming.map Prod.snd).Perm l ∧
      ∀ i, fall = some i → Incoming false r v ∧ r.lastCondBlock = some i
  runs : ∀ {F env store} {dest : Ssa.Env V → W → Ssa.Config V W E} {after},
    Later m.builder.blocks F → Literals lit m.constListCache →
    (ExecNode.argsFine args = true ∨ Verified F) →
    (∀ info ∈ r.branchInfos,
      Edge sem F s.builder.fresh s.scopeStack merge info.endBlock info.modified dest after) →
    (∀ i, fall = some i → Edge sem F s.builder.fresh s.scopeStack merge i ∅ dest after) →
    Holds sem env s.scopeStack store →
      RunsTo sem F s.builder.fresh (s.builder.here env) env
        (evalChain ctx sem lit args store) dest after fun _ _ => True

/-- A run of a when-block: its branches run to `s₁`, the merge block starts at `m`, and `vars` are
the variables that some branch has assigned. -/
theorem ifBlock_run {info : NodeInfo} {args : List ExecNode} {v : Option Value}
    (hrun : (visit ctx (.ifBlock info args)).run s = .ok (v, s')) :
    ∃ r s₁ m merge vars, merge = s.builder.size ∧
      (visitIfBranches ctx merge args).run (s.createBlock .ifblockMerge) = .ok (r, s₁) ∧
      m = ((s₁.setInsertPoint s.builder.insertPoint).createBr r.prevFalseBlock).setInsertPoint
        merge ∧ v = none ∧ s' = m.mergeAll vars ∧
      (∀ name, name ∈ vars.map MergedVar.name ↔ ∃ info ∈ r.branchInfos, name ∈ info.modified) ∧
      ∀ v ∈ vars, m.scopeStack.lookup v.name = some (some v.original) ∧
        Incoming (args.length % 2 ≠ 0) r v := by
  simp only [visit, Checked.run_bind_eq_ok, createBlock_run, getInsertBlock_run,
    Checked.run_modify_eq_ok, Checked.run_pure_eq_ok, and_assoc, exists_and_left, exists_eq_left,
    exists_const] at hrun
  rcases hrun with ⟨r, s₁, hargs, ⟨⟩, _, hmerge, rfl, rfl⟩
  have hperm := ctx.hashOrder.perm (r.branchInfos.flatMap fun info => info.modified.keys)
  rcases mergeVars_run _ (hperm.nodup_iff.mpr (List.nodup_dedup _)) hmerge with
    ⟨vars, hnames, rfl, hvars⟩
  refine ⟨r, s₁, _, _, vars, rfl, hargs, rfl, rfl, rfl, fun name => ?_, hvars⟩
  rw [hnames, hperm.mem_iff, List.mem_dedup, List.mem_flatMap]
  rfl

theorem when_code (hbits : BitSemantics sem) {args : List ExecNode} {r : IfBranches} {s₁ : State}
    (h : ∀ arg ∈ args, Lowers ctx sem lit arg) (hs : Ready s) (hmerge : merge = s.builder.size)
    (hargs : (visitIfBranches ctx merge args).run (s.createBlock .ifblockMerge) = .ok (r, s₁))
    (hm : m = ((s₁.setInsertPoint s.builder.insertPoint).createBr r.prevFalseBlock).setInsertPoint
      merge) :
    ∃ fall l, WhenCode ctx sem lit args s r fall s₁ m merge l := by
  have hip : s.builder.insertPoint < s.builder.size := lt_size_of_isOpen hs.isOpen
  have hmid₀ := (Mid.refl hs (ExecNode.argsFine args = true)).createBlock .ifblockMerge hmerge
  rcases visitIfBranches_lowered hbits hmid₀ (Function.update_self _ _ _) args h (fun hg => hg)
    hargs with ⟨fall, hl⟩
  rcases hl.mid with ⟨T, l₀, hfalse, hblocks, hmid⟩
  rcases hblocks s.builder.insertPoint with ⟨l, hT, hperm⟩
  have hopen : (s₁.setInsertPoint s.builder.insertPoint).builder.IsOpen s.builder.insertPoint :=
    hmid.frag.isOpen_of (.inl rfl)
  -- the branch into the chain
  have hmid₁ := ((hmid.setInsertPoint s.builder.insertPoint).createBr r.prevFalseBlock (.inl rfl)
    hfalse).setInsertPoint merge |>.congr (Q := fun j => j = merge) (fun j => by
      simp only [State.insertPoint_setInsertPoint]; omega) fun _ => rfl
  rw [← hm] at hmid₁
  have hd := (hmid₁.traces.preds _ _ hT).1
  refine ⟨fall s.builder.insertPoint, l, hm, hmerge.ge, ?_, ⟨_, hT, hmid₁⟩, hl.infos,
    fun v hinc hmem => hl.fine_of_entries hperm hinc (hl.entries_verified hperm hinc hd hmem),
    fun v hinc hfine => ?_, ?_⟩
  · have hf : Fresh (s.createBlock .ifblockMerge) merge := hmerge ▸ Fresh.new s .ifblockMerge
    rw [hm]
    refine Fresh.setInsertPoint (.terminate (.setInsertPoint (hf.keeps (hl.keeps _ hf.lt)) _) ?_
      _) _
    simp only [State.insertPoint_setInsertPoint]
    omega
  · have hentries := hl.entries_fine hperm hinc hfine
    exact ⟨hentries, fun i hi => hl.lastCondBlock_eq hperm hinc hentries hi⟩
  · intro F env store dest after hF hlit hv hedges hfall hstore
    rw [hm] at hF hlit
    refine .step (fun _ => start_step hs.isOpen (hl.keeps _ (by
      rw [State.size_createBlock]; omega)) hopen hF) ?_
    exact hl.runs ((Later.terminate (.br r.prevFalseBlock) hopen).trans hF) hlit hv (Nat.le_refl _)
      hedges hfall hstore

theorem ifBlock_lowers (hbits : BitSemantics sem) {info : NodeInfo} {args : List ExecNode}
    (h : ∀ arg ∈ args, Lowers ctx sem lit arg) : Lowers ctx sem lit (.ifBlock info args) := by
  intro s v s' hrun hs
  rcases ifBlock_run hrun with ⟨r, s₁, m, merge, vars, hmerge, hargs, hm, rfl, rfl, hnames,
    hvars⟩
  rcases when_code hbits h hs hmerge hargs hm with ⟨fall, l, hcode⟩
  rcases hcode.mid with ⟨T, hT, hmid⟩
  have hip := lt_size_of_isOpen hs.isOpen
  have hnew := hcode.new
  have hmip : m.builder.insertPoint = merge := hm ▸ rfl
  have hready := hmid.ready hmip
  have hfalls : (ExecNode.ifBlock info args).whensFine = true →
      ExecNode.argsFine args = true ∧ ExecNode.fallsFromSplit args = false := fun hg => by
    rw [ExecNode.whensFine, Bool.and_eq_true_iff, Bool.not_eq_true'] at hg
    exact hg
  have hmid' : Mid s m (fun j => j = merge) T ((ExecNode.ifBlock info args).whensFine = true) :=
    ⟨hmid.frag, ⟨hmid.traces.size, hmid.traces.targets, hmid.traces.own, hmid.traces.noPhis,
      hmid.traces.preds, fun hg => hmid.traces.sound (hfalls hg).1⟩, hmid.start, hmid.scopes,
      hmid.cache, hmid.cached⟩
  have hgrown : Grown s (m.mergeAll vars) ((ExecNode.ifBlock info args).whensFine = true) :=
    hmid'.mergeAll hmip (by omega) hT fun hg v hv =>
      (hcode.entries v (hvars v hv).2 (hfalls hg).2).1
  refine ⟨hgrown, by rintro _ ⟨⟩, fun hne => absurd rfl hne, ?_,
    fun {F} {env} {store} hF hlit hv hstore => ?_⟩
  · have hip' : (m.mergeAll vars).builder.insertPoint = merge := by
      rw [mergeAll_builder]
      exact hmip
    simp only [hip', ExecNode.splits, Bool.true_eq_false, iff_false]
    omega
  · have hmv : MergeVars F m merge vars := ⟨hready, hmip, hcode.fresh, hF, fun v hv =>
      (hvars v hv).1⟩
    have hscopes : m.scopeStack = s.scopeStack := hmid.scopes
    have hle : s.builder.fresh ≤ m.builder.fresh := hmid.frag.fresh
    -- the entries of the PHI nodes are for the predecessors
    have hentries : ∀ v ∈ vars, (v.incoming.map Prod.snd).Perm l ∧
        ∀ i, fall = some i → Incoming false r v ∧ r.lastCondBlock = some i := by
      intro v hv'
      refine hcode.entries v (hvars v hv').2 ?_
      rcases hv with hg | hF'
      · exact (hfalls hg).2
      · exact hcode.fine v (hvars v hv').2 fun j hj =>
          hmv.entry hF' hv' (((hmid.traces.preds _ _ hT).2 j).mpr hj)
    have hnodup : ∀ v ∈ vars, (v.incoming.map Prod.snd).Nodup := fun v hv' =>
      (hentries v hv').1.nodup_iff.mpr (hmid.traces.preds _ _ hT).1
    have heval : eval ctx sem lit (.ifBlock info args) store =
        evalChain ctx sem lit args store >>= fun q => pure (none, q.2) := by
      rw [eval, evalChain, bind_assoc]
      rfl
    rw [heval]
    refine RunsTo.bind (hcode.runs ((later_mergeAll hready vars).trans hF.later)
      (mergeAll_cache vars m ▸ hlit) (hv.imp_left fun hg => (hfalls hg).1) (fun info hi => ?_)
      (fun i hi => ?_) hstore) (Nat.le_refl _) fun env₁ _ store₁ _ _ hst => .pure .none hst
    · rw [← hscopes]
      refine Edge.weaken (hmv.edge (fun v hv' => ?_) fun name hnot => ?_) hle
      · rcases (hvars v hv').2.mem hi with ⟨x, hx, hmem⟩
        exact ⟨x, hx, find_incoming (hnodup v hv') hmem⟩
      · rw [AList.lookup_eq_none]
        intro hmem
        rcases List.mem_map.mp ((hnames name).mpr ⟨info, hi, hmem⟩) with ⟨v, hv', he⟩
        exact hnot v hv' he
    · rw [← hscopes]
      refine Edge.weaken (hmv.edge (fun v hv' => ?_) fun _ _ => AList.lookup_empty _) hle
      rcases (hentries v hv').2 i hi with ⟨hinc, hlast⟩
      exact ⟨v.original, by rw [AList.lookup_empty]; rfl,
        find_incoming (hnodup v hv') (hinc.mem_fall hlast)⟩

end When

/-! ## 7. All nodes -/

section All

variable {ctx : Context} {sem : Ssa.Semantics Opcode Literal V W E}
  {lit : ConstantListValueType → Literal}

mutual

/-- **The code of every node computes its value.** -/
theorem visit_lowers (hbits : BitSemantics sem) : ∀ node : ExecNode, Lowers ctx sem lit node
  | .entryArgument _ => leaf_lowers (d := ⟨sem.arg 0, .ptr⟩)
    (show visit ctx _ = pure (some ⟨.arg 0, .ptr⟩) by rw [visit]) (fun store => by rw [eval])
    (fun _ => trivial) (fun _ => ⟨rfl, rfl⟩) rfl
  | .execContext _ => leaf_lowers (d := ⟨sem.arg 1, .ptr⟩)
    (show visit ctx _ = pure (some ⟨.arg 1, .ptr⟩) by rw [visit]) (fun store => by rw [eval])
    (fun _ => trivial) (fun _ => ⟨rfl, rfl⟩) rfl
  | .output _ => leaf_lowers (d := ⟨sem.arg 2, .ptr⟩)
    (show visit ctx _ = pure (some ⟨.arg 2, .ptr⟩) by rw [visit]) (fun store => by rw [eval])
    (fun _ => trivial) (fun _ => ⟨rfl, rfl⟩) rfl
  | .constantValue _ val => leaf_lowers (d := ⟨sem.const (.value val), (Literal.value val).type⟩)
    (show visit ctx _ = pure (some ⟨.const (.value val), (Literal.value val).type⟩) by rw [visit])
    (fun store => by rw [eval]) (fun _ => trivial) (fun _ => ⟨rfl, rfl⟩) rfl
  | .constantListValue info valList => constantListValue_lowers info valList
  | .unaryOP _ _ child => unaryOP_lowers (visit_lowers hbits child)
  | .binaryOP _ op left right => by
    cases hop : isLogicalBinaryOPType op with
    | true =>
      exact logical_lowers hbits hop (visit_lowers hbits left) (visit_lowers hbits right)
    | false => exact binaryOP_lowers hop (visit_lowers hbits left) (visit_lowers hbits right)
  | .function _ _ args => function_lowers (args_lower hbits args)
  | .noOP _ args _ => noOP_lowers (stmts_lower hbits args)
  | .ifNode _ args => ifNode_lowers hbits (args_lower hbits args)
  | .switchNode _ args => switchNode_lowers hbits (args_lower hbits args)
  | .ifBlock _ args => ifBlock_lowers hbits (args_lower hbits args)
  | .ref _ _ => ref_lowers

theorem args_lower (hbits : BitSemantics sem) :
    ∀ args : List ExecNode, ∀ arg ∈ args, Lowers ctx sem lit arg
  | [], _, h => nomatch h
  | arg :: args, a, h => by
    rcases List.mem_cons.mp h with he | h
    · exact he ▸ visit_lowers hbits arg
    · exact args_lower hbits args a h

theorem stmts_lower (hbits : BitSemantics sem) :
    ∀ args : List (VarInfo × ExecNode), ∀ arg ∈ args, Lowers ctx sem lit arg.2
  | [], _, h => nomatch h
  | (_, arg) :: args, a, h => by
    rcases List.mem_cons.mp h with he | h
    · exact he ▸ visit_lowers hbits arg
    · exact stmts_lower hbits args a h

end

/-- A machine that knows the constants of `i1` and nothing else. -/
def bitMachine : Ssa.Semantics Opcode Literal Bool Unit Empty where
  const
    | .bool b => b
    | .value (.u8 x) => x ≠ 0
    | _ => false
  arg _ := false
  op
    | .zext _, [x] => return x
    | _, _ => return false
  truthy := id

theorem bitMachine_bits : BitSemantics bitMachine where
  icmp_ne _ _ _ h := ⟨false, congrArg Prod.fst (Except.ok.inj h).symm⟩
  fcmp_one _ _ _ h := ⟨false, congrArg Prod.fst (Except.ok.inj h).symm⟩
  truthy _ := rfl
  zext b _ := by cases b <;> rfl

/-- What is static about the code of a node, whatever the opcodes mean. -/
theorem visit_lowered {node : ExecNode} {s s' : State} {v : Option Value}
    (hrun : (visit ctx node).run s = .ok (v, s')) (hs : Ready s) :
    Lowered ctx bitMachine Literal.list node s v s' := visit_lowers bitMachine_bits node hrun hs

end All

end CodeGen

end JitFusion
