/-
# Lowering: chains of conditions

A `switch` and a when-block try their conditions in order.  Their code is emitted the other way
round, from the last branch to the first: each condition gets a block of its own, and its false
edge goes to what has been emitted before it.

`LinkCode` is one link of such a chain, the condition and the empty block of its branch; the chain
itself is an induction on the branches, from the last to the first.
-/
import Mathlib.Data.List.Induction
import JitFusion.LoweringFlow

namespace JitFusion

namespace CodeGen

open TypeHelper Ssa.Builder Interpreter

variable {V W E : Type}

/-! ## 1. One link -/

section Link

variable {ctx : Context} {sem : Ssa.Semantics Opcode Literal V W E}
  {lit : ConstantListValueType → Literal} {s₀ s : State} {F : IRFunction} {env : Ssa.Env V}

variable (ctx sem lit) in
/-- One link: the condition starts at `p` and ends at `t`, the block of its branch starts at `q`,
and `falseBlock` is where the rest of the chain starts.  The blocks `start` and `merge` stay
open. -/
structure LinkCode (s₀ s : State) (start merge falseBlock : Nat) (T : Nat → Option (List Nat))
    (good : Prop) (cond : ExecNode) (p : State) (c : Value) (t q : State)
    (condBlock bodyBlock : Nat) : Prop where
  cond : LoweredCond ctx sem lit cond p c t
  enter : ∃ label, p = (s.createBlock label).setInsertPoint condBlock
  branch : ∃ label, q = ((t.createBlock label).createCondBr c bodyBlock falseBlock).setInsertPoint
    bodyBlock
  readyCond : Ready p
  readyBody : Ready q
  freshCond : Fresh p condBlock
  freshBody : Fresh q bodyBlock
  keeps : ∀ j, j < s.builder.size → Keeps s q j
  cond_eq : condBlock = s.builder.size
  cond_lt : condBlock < bodyBlock
  mid : Mid s₀ q (fun j => j = start ∨ j = merge ∨ j = bodyBlock) (Function.update (Function.update
    (Function.update T condBlock (some [])) bodyBlock (some [t.builder.insertPoint])) falseBlock
      ((T falseBlock).map (t.builder.insertPoint :: ·))) good

theorem link_code (hbits : BitSemantics sem) {what : String} {start merge falseBlock : Nat}
    {T : Nat → Option (List Nat)} {l : List Nat} {good : Prop} {cond : ExecNode} {c : Value}
    {t : State} {condBlock bodyBlock : Nat} (label label' : Label) (h : Lowers ctx sem lit cond)
    (hmid : Mid s₀ s (fun j => j = start ∨ j = merge) T good)
    (hgood : good → cond.whensFine = true) (hfalse : T falseBlock = some l)
    (hcond : condBlock = s.builder.size) (hbody : bodyBlock = t.builder.size)
    (hrun : (getCondition what cond (visit ctx cond)).run
      ((s.createBlock label).setInsertPoint condBlock) = .ok (c, t)) :
    LinkCode ctx sem lit s₀ s start merge falseBlock T good cond
      ((s.createBlock label).setInsertPoint condBlock) c t
      (((t.createBlock label').createCondBr c bodyBlock falseBlock).setInsertPoint bodyBlock)
      condBlock bodyBlock := by
  have hown : ∀ j, j = start ∨ j = merge → j < s.builder.size := fun j hj => hmid.frag.lt_size hj
  have hstart := hown start (.inl rfl)
  have hmerge := hown merge (.inr rfl)
  have hlt : falseBlock < s.builder.size := (hmid.traces.own _ _ hfalse).2
  have hmid₁ := (hmid.createBlock label hcond).setInsertPoint condBlock
  have hready := hmid₁.ready (.inr rfl)
  have hl := h.getCondition hbits hrun hready
  have hend := hl.grown.grows.insertPoint
  have hendlt := hl.grown.grows.insertPoint_lt
  have hsize := Frag.size hl.grown.grows
  simp only [State.size_setInsertPoint, State.size_createBlock,
    State.insertPoint_setInsertPoint] at hend hsize
  have hmid₂ := ((hmid₁.part (.inr rfl) hl.grown hgood hl.scopes).createBlock label'
    hbody).congr (Q := fun j => j = start ∨ j = merge ∨ j = t.builder.insertPoint ∨ j = bodyBlock)
      (fun j => by simp only [State.insertPoint_setInsertPoint]; omega) fun _ => rfl
  have hmid₃ := ((hmid₂.createCondBr c bodyBlock falseBlock (.inr (.inr (.inl rfl))) (by omega)
    (Function.update_self _ _ _) (by
      rw [Function.update_of_ne (by omega), Function.update_of_ne (by omega),
        hfalse])).setInsertPoint bodyBlock).congr
          (Q := fun j => j = start ∨ j = merge ∨ j = bodyBlock)
            (fun j => by simp only [State.insertPoint_createBlock]; omega) fun _ => rfl
  refine ⟨hl, ⟨label, rfl⟩, ⟨label', rfl⟩, hready, hmid₃.ready (.inr (.inr rfl)), ?_, ?_, ?_, hcond,
    by omega, hmid₃.congr (fun _ => Iff.rfl) fun j => ?_⟩
  · exact hcond ▸ Fresh.setInsertPoint (Fresh.new s label) _
  · exact hbody ▸ Fresh.setInsertPoint (.terminate (Fresh.new t label')
      (by simp only [State.insertPoint_createBlock]; omega) _) _
  · intro j hj
    refine Keeps.setInsertPoint (.terminate (.createBlock (.grown (.setInsertPoint
      (.createBlock rfl hj label) condBlock) ?_ ?_ hl.grown) ?_ _) ?_ _) _
    · simp only [State.size_setInsertPoint, State.size_createBlock]
      omega
    · simp only [State.insertPoint_setInsertPoint]
      omega
    · omega
    · simp only [State.insertPoint_createBlock]
      omega
  · rw [hfalse, Option.map_some]
    simp only [Function.update_apply]
    split_ifs <;> rfl

/-- The branch from the block a construct starts in to its chain. -/
theorem start_step {s₁ : State} {label : Label} {target : Nat} {w : W}
    (hs : s.builder.IsOpen s.builder.insertPoint)
    (hkeeps : Keeps (s.createBlock label) s₁ s.builder.insertPoint)
    (hopen : s₁.builder.IsOpen s.builder.insertPoint)
    (hF : Later ((s₁.setInsertPoint s.builder.insertPoint).createBr target).builder.blocks F) :
    Ssa.step sem F (s.builder.here env w) =
      some (.jump s.builder.insertPoint target env w) := by
  rw [← here_createBlock hs label]
  refine (congrArg (Ssa.step sem F) (hkeeps.here ?_ env w).symm).trans ?_
  · exact State.insertPoint_createBlock s label
  · exact createBr_step hopen hF

section

variable {start merge falseBlock : Nat} {T : Nat → Option (List Nat)} {good : Prop}
  {cond : ExecNode} {p : State} {c : Value} {t q : State} {condBlock bodyBlock : Nat}

theorem LinkCode.fresh (h : LinkCode ctx sem lit s₀ s start merge falseBlock T good cond p c t q
    condBlock bodyBlock) : s.builder.fresh ≤ q.builder.fresh := by
  rcases h.enter with ⟨label, hp⟩
  rcases h.branch with ⟨label', hq⟩
  have hle := h.cond.grown.fresh
  rw [hp] at hle
  rw [hq]
  exact hle

theorem LinkCode.cache (h : LinkCode ctx sem lit s₀ s start merge falseBlock T good cond p c t q
    condBlock bodyBlock) : s.constListCache <+: q.constListCache := by
  rcases h.enter with ⟨label, hp⟩
  rcases h.branch with ⟨label', hq⟩
  have hle := h.cond.grown.cache
  rw [hp] at hle
  rw [hq]
  exact hle

/-- What the finished function has kept of a link. -/
theorem LinkCode.final (h : LinkCode ctx sem lit s₀ s start merge falseBlock T good cond p c t q
    condBlock bodyBlock) (hF : Later q.builder.blocks F) :
    Final t.builder F ∧ Final p.builder F ∧ Later s.builder.blocks F := by
  rcases h.enter with ⟨label, hp⟩
  rcases h.branch with ⟨label', hq⟩
  have hopen := h.cond.grown.ready.isOpen
  have hFt : Final t.builder F := by
    rw [hq] at hF
    exact .of_createBlock (.of_terminate (isOpen_createBlock hopen label') hF)
  have hFp : Final p.builder F := .of_grows h.cond.grown.grows h.readyCond.isOpen hFt
  refine ⟨hFt, hFp, ?_⟩
  have hlater := hFp.later
  rw [hp] at hlater
  exact (Later.createBlock label).trans hlater

/-- **A link tests its condition** and goes on to its branch or to the rest of the chain. -/
theorem LinkCode.runs (h : LinkCode ctx sem lit s₀ s start merge falseBlock T good cond p c t q
    condBlock bodyBlock) (hbits : BitSemantics sem) (hF : Later q.builder.blocks F)
    (hlit : Literals lit q.constListCache) (hv : cond.whensFine = true ∨ Verified F)
    {store : Store V} (hstore : Holds sem env s.scopeStack store) {n source : Nat}
    (hn : n ≤ s.builder.fresh) {α : Type}
    {k : Option Bool × Store V → Checked.M W E (α × Store V)}
    {dest : Ssa.Env V → W → Ssa.Config V W E} {scopes : ScopeStack (Option Value)}
    {post : Ssa.Env V → α → Prop}
    (hk : ∀ env₁ bit store₁, Holds sem env₁ s.scopeStack store₁ →
      RunsTo sem F n (fun w => .jump t.builder.insertPoint (if bit then bodyBlock else falseBlock)
        env₁ w) env₁ (k (some bit, store₁)) dest scopes post) :
    RunsTo sem F n (fun w => .jump source condBlock env w) env
      (evalCond ctx sem lit cond store >>= k) dest scopes post := by
  rcases h.final hF with ⟨hFt, hFp, -⟩
  rcases h.enter with ⟨label, hp⟩
  rcases h.branch with ⟨label', hq⟩
  have hpscopes : p.scopeStack = s.scopeStack := by
    rw [hp]
    rfl
  have hpfresh : p.builder.fresh = s.builder.fresh := by
    rw [hp]
    rfl
  have hlitt : Literals lit t.constListCache := by
    rw [hq] at hlit
    exact hlit
  refine .step (fun w => enter_run (hp ▸ rfl) h.freshCond hFp source) ?_
  refine (RunsTo.weaken (h.cond.runs hFt hlitt hv (hpscopes ▸ hstore)) (hpfresh ▸ hn)).bind
    (Nat.le_refl _) fun env₁ b store₁ _ hb hst => ?_
  rcases hb with ⟨bit, rfl, hbit⟩
  refine .step (fun w => ?_) (hk env₁ bit store₁ (hpscopes ▸ h.cond.scopes ▸ hst))
  have hopen := h.cond.grown.ready.isOpen
  rw [hq] at hF
  rw [← here_createBlock hopen label']
  exact createCondBr_step hbits (isOpen_createBlock hopen label') hF hbit

end

end Link

/-! ## 2. `switch` -/

section Switch

variable {ctx : Context} {sem : Ssa.Semantics Opcode Literal V W E}
  {lit : ConstantListValueType → Literal}

variable (ctx sem lit) in
/-- The branches of a `switch`, from `s` to `s'`: `inc` are the entries for the PHI node, and
control that gets to the block `falseBlock` runs them. -/
structure LoweredSwitch (ret : ValueType) (type : LLVMType) (s₀ s : State) (start merge : Nat)
    (good : Prop) (args : List ExecNode) (inc : List (Value × Nat)) (falseBlock : Nat)
    (s' : State) : Prop where
  mid : ∃ T, T merge = some (inc.map Prod.snd).reverse ∧ T falseBlock = some [] ∧
    Mid s₀ s' (fun j => j = start ∨ j = merge) T good
  keeps : ∀ j, j < s.builder.size → Keeps s s' j
  le : s.builder.fresh ≤ s'.builder.fresh
  ne : falseBlock ≠ merge
  runs : ∀ {F m incoming env store source}, MergePoint F m merge incoming →
    Later s'.builder.blocks F → Literals lit s'.constListCache →
    (ExecNode.argsFine args = true ∨ Verified F) →
    (∀ e ∈ inc, (e.1.operand, e.2) ∈ incoming) → m.scopeStack = s₀.scopeStack →
    s'.builder.fresh ≤ m.builder.fresh → Holds sem env m.scopeStack store →
      RunsTo sem F s.builder.fresh (fun w : W => .jump source falseBlock env w) env
        (evalSwitch ctx sem lit ret args store) (m.createPhi incoming).builder.here m.scopeStack
        fun env' x => Represents sem env' (some (m.phi type)) x

/-- The branch that starts at `p`, in block `i`. -/
theorem branch_code {ret : ValueType} {type : LLVMType} {s₀ p s' : State} {start merge i : Nat}
    {T : Nat → Option (List Nat)} {l : List Nat} {good : Prop} {node : ExecNode} {x : Value × Nat}
    (htype : valueTypeToLLVMType ret = .ok type) (h : Lowers ctx sem lit node)
    (hmid : Mid s₀ p (fun j => j = start ∨ j = merge ∨ j = i) T good)
    (hi : p.builder.insertPoint = i) (hne : i ≠ start ∧ i ≠ merge) (hT : T merge = some l)
    (hgood : good → node.whensFine = true)
    (hrun : (getBranchValue node (visit ctx node) ret merge).run p = .ok (x, s')) :
    ∃ a, LoweredBranch ctx sem lit ret type node p x.1 a ∧ x.2 = a.builder.insertPoint ∧
      s' = a.createBr merge ∧ (∀ j, j < p.builder.size → j ≠ i → Keeps p s' j) ∧
      Mid s₀ s' (fun j => j = start ∨ j = merge)
        (Function.update T merge (some (a.builder.insertPoint :: l))) good := by
  have hready := hmid.ready (.inr (.inr hi))
  rcases h.getBranchValue htype hrun hready with ⟨a, ha, hxa, rfl⟩
  have hend := ha.grown.grows.insertPoint
  have hstart := hmid.frag.lt_size (.inl rfl)
  have hmerge := hmid.frag.lt_size (.inr (.inl rfl))
  rw [hi] at hend
  refine ⟨a, ha, hxa, rfl, fun j hj hji => .terminate (.grown rfl hj (hi ▸ hji) ha.grown)
    (by omega) _, ?_⟩
  exact ((hmid.part (.inr (.inr hi)) ha.grown hgood ha.scopes).createBr merge (.inr rfl) hT).congr
    (fun j => by rw [hi]; omega) fun _ => rfl

/-- The last branch. -/
theorem switch_default {ret : ValueType} {type : LLVMType} {s₀ s s' : State} {start merge : Nat}
    {T : Nat → Option (List Nat)} {good : Prop} {default_ : ExecNode}
    {r : List (Value × Nat) × Nat} (htype : valueTypeToLLVMType ret = .ok type)
    (h : Lowers ctx sem lit default_) (hmid : Mid s₀ s (fun j => j = start ∨ j = merge) T good)
    (hT : T merge = some []) (hgood : good → default_.whensFine = true)
    (hrun : (visitSwitch ctx ret merge [default_]).run s = .ok (r, s')) :
    LoweredSwitch ctx sem lit ret type s₀ s start merge good [default_] r.1 r.2 s' := by
  simp only [visitSwitch, Checked.run_bind_eq_ok, createBlock_run, Checked.run_modify_eq_ok,
    Checked.run_pure_eq_ok, and_assoc, exists_and_left, exists_eq_left, exists_const] at hrun
  rcases hrun with ⟨x, _, hx, rfl, rfl⟩
  obtain ⟨i, hi⟩ : ∃ i, i = s.builder.size := ⟨_, rfl⟩
  rw [State.nextBlock_eq, ← hi] at hx ⊢
  have hstart := hmid.frag.lt_size (.inl rfl)
  have hmerge := hmid.frag.lt_size (.inr rfl)
  have hmid₁ := ((hmid.createBlock .switchDefault hi).setInsertPoint i).congr
    (Q := fun j => j = start ∨ j = merge ∨ j = i) (fun j => by omega) fun _ => rfl
  rcases branch_code htype h hmid₁ rfl ⟨by omega, by omega⟩
    ((Function.update_of_ne (by omega) _ _).trans hT) hgood hx with ⟨a, ha, hxa, rfl, hkeeps, hmid₂⟩
  refine ⟨⟨_, ?_, ?_, hmid₂⟩, fun j hj => ?_, ha.grown.fresh, by omega, ?_⟩
  · simp [hxa]
  · rw [Function.update_of_ne (by omega), Function.update_self]
  · exact (Keeps.setInsertPoint (.createBlock rfl hj _) i).trans (hkeeps j (by simp; omega)
      (by omega))
  · intro F m incoming env store source hm hF hlit hv hinc hscopes hle hstore
    have hnew : Fresh ((s.createBlock .switchDefault).setInsertPoint i) i :=
      hi ▸ Fresh.setInsertPoint (Fresh.new s .switchDefault) _
    rw [evalSwitch]
    refine ha.merges hm (hmid₁.ready (.inr (.inr rfl))) rfl hnew hF (hxa ▸ hinc _ (by simp)) ?_ hle
      hlit (fine_left hv) hstore
    exact hmid₁.scopes.trans hscopes.symm

theorem evalSwitch_cons {ret : ValueType} {cond then_ arg : ExecNode} {args : List ExecNode}
    (store : Store V) : evalSwitch ctx sem lit ret (cond :: then_ :: arg :: args) store =
      evalCond ctx sem lit cond store >>= fun r => match r.1 with
        | none => pure (none, r.2)
        | some true => evalBranch ctx sem lit ret then_ r.2
        | some false => evalSwitch ctx sem lit ret (arg :: args) r.2 := by
  rw [evalSwitch, evalCond, bind_assoc]
  refine bind_congr fun r => ?_
  rw [bind_assoc]
  refine bind_congr fun b => ?_
  rw [pure_bind]
  cases b with
  | none => rfl
  | some b => cases b <;> rfl

/-- One condition with its branch, in front of the rest of the chain. -/
theorem switch_link (hbits : BitSemantics sem) {ret : ValueType} {type : LLVMType}
    {s₀ s s₁ s' : State} {start merge condBlock falseBlock : Nat} {good : Prop}
    {cond then_ arg : ExecNode} {args : List ExecNode} {inc : List (Value × Nat)} {c : Value}
    {t : State} {x : Value × Nat} (htype : valueTypeToLLVMType ret = .ok type)
    (h : Lowers ctx sem lit cond) (h' : Lowers ctx sem lit then_)
    (hl : LoweredSwitch ctx sem lit ret type s₀ s start merge good (arg :: args) inc falseBlock s₁)
    (hgood : good → cond.whensFine = true) (hgood' : good → then_.whensFine = true)
    (hblock : condBlock = s₁.builder.size)
    (hc : (getCondition "switch condition" cond (visit ctx cond)).run
      ((s₁.createBlock .switchCond).setInsertPoint condBlock) = .ok (c, t))
    (hx : (getBranchValue then_ (visit ctx then_) ret merge).run
      (((t.createBlock .switchThen).createCondBr c t.builder.size falseBlock).setInsertPoint
        t.builder.size) = .ok (x, s')) :
    LoweredSwitch ctx sem lit ret type s₀ s start merge good (cond :: then_ :: arg :: args)
      (inc ++ [x]) condBlock s' := by
  rcases hl.mid with ⟨T, hT, hfalse, hmid⟩
  have hlink := link_code hbits _ .switchThen h hmid hgood hfalse hblock rfl hc
  have hstart := hmid.frag.lt_size (.inl rfl)
  have hmerge := hmid.frag.lt_size (.inr rfl)
  have hfalse' := (hmid.traces.own _ _ hfalse).2
  have hlt := hlink.cond_lt
  have hne := hl.ne
  rcases branch_code htype h' hlink.mid rfl ⟨by omega, by omega⟩
    (by rw [Function.update_of_ne hne.symm, Function.update_of_ne (by omega),
      Function.update_of_ne (by omega), hT]) hgood' hx with
    ⟨a, ha, hxa, rfl, hkeeps, hmid'⟩
  refine ⟨⟨_, ?_, ?_, hmid'⟩, fun j hj => ?_, (hl.le.trans hlink.fresh).trans ha.grown.fresh,
    by omega, ?_⟩
  · simp [hxa]
  · rw [Function.update_of_ne (by omega), Function.update_of_ne (by omega),
      Function.update_of_ne (by omega), Function.update_self]
  · have hj₁ := (hl.keeps j hj).lt hj
    have hq := hlink.keeps j hj₁
    exact ((hl.keeps j hj).trans hq).trans (hkeeps j (hq.lt hj₁) (by omega))
  · intro F m incoming env store source hm hF hlit hv hinc hscopes hle hstore
    have hopen := ha.grown.ready.isOpen
    have hFq := (Final.of_grows ha.grown.grows hlink.readyBody.isOpen
      (.of_terminate hopen hF)).later
    have hscopes₁ : s₁.scopeStack = m.scopeStack := hmid.scopes.trans hscopes.symm
    rw [evalSwitch_cons]
    refine hlink.runs hbits hFq (hlit.prefix_ ha.grown.cache) (fine_left hv) (hscopes₁ ▸ hstore)
      hl.le fun env₁ bit store₁ hst => ?_
    cases bit with
    | true =>
      refine .weaken (ha.merges hm hlink.readyBody rfl hlink.freshBody hF (hxa ▸ hinc _ (by simp))
        (hlink.mid.scopes.trans hscopes.symm) hle hlit (fine_left (fine_right hv))
          (hscopes₁ ▸ hst)) (hl.le.trans hlink.fresh)
    | false =>
      have hlit₁ := (hlit.prefix_ ha.grown.cache).prefix_ hlink.cache
      have hle₁ : s₁.builder.fresh ≤ m.builder.fresh :=
        (hlink.fresh.trans ha.grown.fresh).trans hle
      exact hl.runs hm (hlink.final hFq).2.2 hlit₁ (fine_right (fine_right hv))
        (fun e he => hinc e (List.mem_append_left _ he)) hscopes hle₁ (hscopes₁ ▸ hst)

theorem visitSwitch_lowered (hbits : BitSemantics sem) {ret : ValueType} {type : LLVMType}
    {s₀ s : State} {start merge : Nat} {T : Nat → Option (List Nat)} {good : Prop}
    (htype : valueTypeToLLVMType ret = .ok type)
    (hmid : Mid s₀ s (fun j => j = start ∨ j = merge) T good) (hT : T merge = some [])
    (args : List ExecNode) {s' : State} {r : List (Value × Nat) × Nat}
    (h : ∀ arg ∈ args, Lowers ctx sem lit arg) (hgood : good → ExecNode.argsFine args = true)
    (hrun : (visitSwitch ctx ret merge args).run s = .ok (r, s')) :
    LoweredSwitch ctx sem lit ret type s₀ s start merge good args r.1 r.2 s' := by
  induction args using List.twoStepInduction generalizing s' r with
  | nil => exact absurd hrun (by rw [visitSwitch]; exact Checked.run_throw_ne_ok)
  | singleton default_ =>
    exact switch_default htype (h _ (by simp)) hmid hT
      (fun hg => (Bool.and_eq_true_iff.mp (hgood hg)).1) hrun
  | cons_cons cond then_ args ih _ =>
    cases args with
    | nil =>
      simp only [visitSwitch, Checked.run_bind_eq_ok] at hrun
      rcases hrun with ⟨_, _, hthrow, -⟩
      exact absurd hthrow Checked.run_throw_ne_ok
    | cons arg args =>
      rw [visitSwitch] at hrun
      simp only [Checked.run_bind_eq_ok, createBlock_run, Checked.run_modify_eq_ok,
        Checked.run_pure_eq_ok, and_assoc, exists_and_left, exists_eq_left, exists_const] at hrun
      rcases hrun with ⟨r₁, s₁, hrest, c, t, hc, x, s₂, hx, rfl, rfl⟩
      have hfine := fun hg => Bool.and_eq_true_iff.mp (hgood hg)
      have hrest' := ih (fun a ha => h a (by simp [List.mem_cons.mp ha])) (fun hg =>
        (Bool.and_eq_true_iff.mp (hfine hg).2).2) hrest
      exact switch_link hbits htype (h cond (by simp)) (h then_ (by simp)) hrest'
        (fun hg => (hfine hg).1) (fun hg => (Bool.and_eq_true_iff.mp (hfine hg).2).1) rfl hc hx

theorem switchNode_run {info : NodeInfo} {args : List ExecNode} {s s' : State} {v : Option Value}
    (hrun : (visit ctx (.switchNode info args)).run s = .ok (v, s')) :
    ∃ type r s₁ m merge, valueTypeToLLVMType info.returnType = .ok type ∧
      merge = s.builder.size ∧
      (visitSwitch ctx info.returnType merge args).run (s.createBlock .switchMerge) =
        .ok (r, s₁) ∧
      m = ((s₁.setInsertPoint s.builder.insertPoint).createBr r.2).setInsertPoint merge ∧
      v = some (m.phi type) ∧ s' = m.createPhi (r.1.map fun e => (e.1.operand, e.2)) := by
  simp only [visit, Checked.run_bind_eq_ok, returnNotOk_run, createBlock_run, getInsertBlock_run,
    Checked.run_modify_eq_ok, createPhi_run, Checked.run_pure_eq_ok, and_assoc, exists_and_left,
    exists_eq_left, exists_const] at hrun
  rcases hrun with ⟨type, htype, r, s₁, hrun, hv, hs'⟩
  exact ⟨type, r, s₁, _, _, htype, rfl, hrun, rfl, hv, hs'⟩

theorem switchNode_lowers (hbits : BitSemantics sem) {info : NodeInfo} {args : List ExecNode}
    (h : ∀ arg ∈ args, Lowers ctx sem lit arg) : Lowers ctx sem lit (.switchNode info args) := by
  intro s v s' hrun hs
  rcases switchNode_run hrun with ⟨type, r, s₁, m, merge, htype, hmerge, hargs, hm, rfl, rfl⟩
  have hip : s.builder.insertPoint < s.builder.size := lt_size_of_isOpen hs.isOpen
  have hmid₀ := (Mid.refl hs (ExecNode.argsFine args = true)).createBlock .switchMerge hmerge
  have hl := visitSwitch_lowered hbits htype hmid₀ (Function.update_self _ _ _) args h
    (fun hg => hg) hargs
  rcases hl.mid with ⟨T, hT, hfalse, hmid⟩
  have hne := hl.ne
  -- the branch into the chain
  have hmid₁ := ((hmid.setInsertPoint s.builder.insertPoint).createBr r.2 (.inl rfl)
    hfalse).setInsertPoint merge |>.congr (Q := fun j => j = merge) (fun j => by
      simp only [State.insertPoint_setInsertPoint]; omega) fun _ => rfl
  rw [← hm] at hmid₁
  have hmip : m.builder.insertPoint = merge := hm ▸ rfl
  have hmready := hmid₁.ready hmip
  have hT' : Function.update T r.2 (some [s.builder.insertPoint]) merge =
      some (r.1.map Prod.snd).reverse := (Function.update_of_ne hne.symm _ _).trans hT
  have hsnd : (r.1.map fun e => (e.1.operand, e.2)).map Prod.snd = r.1.map Prod.snd := by
    simp
  have hmid₂ := hmid₁.createPhi (r.1.map fun e => (e.1.operand, e.2)) hmip (by omega)
    (hmip ▸ hT') fun _ => by rw [hsnd]; exact (List.reverse_perm _).symm
  have hfresh : Fresh m merge := by
    have hf : Fresh (s.createBlock .switchMerge) merge := hmerge ▸ Fresh.new s .switchMerge
    rw [hm]
    refine Fresh.setInsertPoint (.terminate (.setInsertPoint (hf.keeps (hl.keeps _ hf.lt)) _) ?_
      _) _
    simp only [State.insertPoint_setInsertPoint]
    omega
  refine ⟨(hmid₂.congr (fun j => by simp only [State.insertPoint_createPhi, hmip]) fun _ =>
    rfl).grown, ?_, fun _ => hmid₂.scopes, ?_, fun {F} {env} {store} hF hlit hv hstore => ?_⟩
  · rintro val ⟨⟩
    exact Nat.lt_succ_self _
  · simp only [State.insertPoint_createPhi, hmip, ExecNode.splits, Bool.true_eq_false, iff_false]
    omega
  · have hpoint : MergePoint F m merge (r.1.map fun e => (e.1.operand, e.2)) :=
      ⟨hmready, hmip, hfresh, hF, by
        rw [hsnd]
        exact List.nodup_reverse.mp (hmid.traces.preds _ _ hT).1⟩
    have hlater : Later ((s₁.setInsertPoint s.builder.insertPoint).createBr r.2).builder.blocks
        F := by
      have hlater : Later m.builder.blocks F := (Later.createPhi _ hmready.isOpen).trans hF.later
      rw [hm] at hlater
      exact hlater
    have hopen : (s₁.setInsertPoint s.builder.insertPoint).builder.IsOpen s.builder.insertPoint :=
      hmid.frag.isOpen_of (.inl rfl)
    have hscopes : m.scopeStack = s.scopeStack := hmid₁.scopes
    rw [eval]
    refine .step (fun _ => start_step hs.isOpen (hl.keeps _ (by rw [State.size_createBlock]; omega))
      hopen hlater) (hl.runs hpoint ((Later.terminate (.br r.2) hopen).trans hlater) ?_ hv
        (fun e he => List.mem_map.mpr ⟨e, he, rfl⟩) hscopes ?_ (hscopes ▸ hstore))
    · rw [hm] at hlit
      exact hlit
    · rw [hm]
      exact Nat.le_refl _

end Switch

end CodeGen

end JitFusion
