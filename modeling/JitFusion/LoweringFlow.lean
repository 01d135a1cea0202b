/-
# Lowering: `and`, `or`, `if` and `switch`

The expressions whose code branches.  Each has a merge block with one PHI node; its operands are
emitted into blocks of their own, those of a `switch` from the last to the first.

What a run through one of them needs is always the same: a block that has been ended stays as it
is (`Later`), a fresh block is entered where it begins (`enter_run`), and the PHI node of the
merge block is read by the edge that is taken (`phi_run`).
-/
import JitFusion.Lowering

namespace JitFusion

namespace CodeGen

open TypeHelper Ssa.Builder Interpreter

variable {V W E : Type}

/-! ## 1. Blocks that are left alone -/

/-- Block `m` is as it was. -/
def Keeps (s s' : State) (m : Nat) : Prop := s'.builder.blocks[m]? = s.builder.blocks[m]?

/-- Block `m` has been created and nothing else. -/
def Fresh (s : State) (m : Nat) : Prop :=
  ∃ label, s.builder.blocks[m]? = some { label := label }

section Blocks

variable {s s₁ s₂ : State} {m : Nat}

namespace Keeps

theorem trans (h : Keeps s s₁ m) (h' : Keeps s₁ s₂ m) : Keeps s s₂ m := Eq.trans h' h

theorem createBlock (h : Keeps s s₁ m) (hm : m < s₁.builder.size) (label : Label) :
    Keeps s (s₁.createBlock label) m :=
  ((block_createBlock s₁.builder label m).trans (if_neg (by omega))).trans h

theorem setInsertPoint (h : Keeps s s₁ m) (i : Nat) : Keeps s (s₁.setInsertPoint i) m := h

theorem terminate (h : Keeps s s₁ m) (hne : m ≠ s₁.builder.insertPoint) (t : Ssa.Term Literal) :
    Keeps s { s₁ with builder := s₁.builder.terminate t } m :=
  ((block_modifyInsert s₁.builder _ _ m).trans (if_neg hne)).trans h

theorem grown {good : Prop} (h : Keeps s s₁ m) (hm : m < s₁.builder.size)
    (hne : m ≠ s₁.builder.insertPoint) (hg : Grown s₁ s₂ good) : Keeps s s₂ m :=
  (Frag.old hg.grows m hm hne).trans h

theorem lt (h : Keeps s s₁ m) (hm : m < s.builder.size) : m < s₁.builder.size := by
  have hb := List.getElem?_eq_getElem hm
  exact (List.getElem?_eq_some_iff.mp (Eq.trans h hb)).1

end Keeps

namespace Fresh

theorem lt (h : Fresh s m) : m < s.builder.size := by
  rcases h with ⟨label, hb⟩
  exact (List.getElem?_eq_some_iff.mp hb).1

theorem new (s : State) (label : Label) : Fresh (s.createBlock label) s.builder.size :=
  ⟨label, (block_createBlock s.builder label _).trans (if_pos rfl)⟩

theorem keeps (h : Fresh s m) (hk : Keeps s s₁ m) : Fresh s₁ m := by
  rcases h with ⟨label, hb⟩
  exact ⟨label, Eq.trans hk hb⟩

theorem createBlock (h : Fresh s m) (label : Label) : Fresh (s.createBlock label) m :=
  h.keeps (.createBlock rfl h.lt label)

theorem setInsertPoint (h : Fresh s m) (i : Nat) : Fresh (s.setInsertPoint i) m := h

theorem terminate (h : Fresh s m) (hne : m ≠ s.builder.insertPoint) (t : Ssa.Term Literal) :
    Fresh { s with builder := s.builder.terminate t } m :=
  h.keeps (.terminate rfl hne t)

theorem grown {good : Prop} (h : Fresh s m) (hne : m ≠ s.builder.insertPoint)
    (hg : Grown s s₁ good) : Fresh s₁ m :=
  h.keeps (.grown rfl h.lt hne hg)

end Fresh

/-- The machine stands where it stood if the block has been left alone. -/
theorem Keeps.here {i : Nat} (h : Keeps s s₁ i) (hi : s.builder.insertPoint = i) (env : Ssa.Env V)
    (w : W) : ((s₁.setInsertPoint i).builder.here env w : Ssa.Config V W E) =
      s.builder.here env w := by
  have hb : (s₁.setInsertPoint i).builder.blocks[i]? = s.builder.blocks[i]? := h
  simp only [Ssa.Builder.here, Ssa.Builder.pc, State.insertPoint_setInsertPoint, hi, hb]

end Blocks

/-! ## 2. Steps between blocks -/

section Steps

variable {sem : Ssa.Semantics Opcode Literal V W E} {F : IRFunction} {s : State}
  {env : Ssa.Env V} {w : W}

theorem createBr_step {target : Nat} (hopen : s.builder.IsOpen s.builder.insertPoint)
    (hF : Later (s.createBr target).builder.blocks F) :
    Ssa.step sem F (s.builder.here env w) =
      some (.jump s.builder.insertPoint target env w) :=
  terminate_step hopen hF env w

theorem createCondBr_step (hbits : BitSemantics sem) {c : Value} {thenBlock elseBlock : Nat}
    {b : Bool} (hopen : s.builder.IsOpen s.builder.insertPoint)
    (hF : Later (s.createCondBr c thenBlock elseBlock).builder.blocks F)
    (hc : HoldsDatum sem env c ⟨sem.const (.bool b), .int 1⟩) :
    Ssa.step sem F (s.builder.here env w) =
      some (.jump s.builder.insertPoint (if b then thenBlock else elseBlock) env w) := by
  rw [terminate_step hopen hF env w]
  simp only [Ssa.execTerm, hc.1, Option.map_some, hbits.truthy]

/-- **A fresh block is entered where it begins.** -/
theorem enter_run {i : Nat} (hi : s.builder.insertPoint = i) (hfresh : Fresh s i)
    (hF : Final s.builder F) (source : Nat) :
    Ssa.step sem F (.jump source i env w) = some (s.builder.here env w) := by
  subst hi
  rcases hfresh with ⟨label, hb⟩
  exact enter_step sem hb hF source env w

/-- **The PHI node of a merge block** takes the value of the edge. -/
theorem phi_run {incoming : List (Ssa.Operand Literal × Nat)} {source : Nat}
    {o : Ssa.Operand Literal} {v : V} (hfresh : Fresh s s.builder.insertPoint)
    (hF : Final (s.createPhi incoming).builder F)
    (hfind : incoming.find? (fun e => e.2 == source) = some (o, source))
    (ho : o.eval sem env = some v) :
    Ssa.step sem F (.jump source s.builder.insertPoint env w) =
      some ((s.createPhi incoming).builder.here (env.set s.builder.fresh v) w) := by
  rcases hfresh with ⟨label, hb⟩
  have hphi : (s.createPhi incoming).builder.blocks[s.builder.insertPoint]? =
      some ⟨label, [⟨s.builder.fresh, incoming⟩], [], none⟩ := by
    change (s.builder.createPhi incoming).blocks[s.builder.insertPoint]? = _
    unfold Ssa.Builder.createPhi
    rw [block_modifyInsert, if_pos rfl, hb]
    rfl
  have hstep := enter_step sem (b := (s.createPhi incoming).builder) hphi hF source env w
  rw [show (s.createPhi incoming).builder.insertPoint = s.builder.insertPoint from rfl] at hstep
  rw [hstep]
  simp [Ssa.Phi.read, hfind, ho, Ssa.Env.setAll]

end Steps

/-! ## 3. Conditions and branches -/

section Parts

variable {ctx : Context} {sem : Ssa.Semantics Opcode Literal V W E}
  {lit : ConstantListValueType → Literal}

/-- A condition and its test. -/
def evalCond (ctx : Context) (sem : Ssa.Semantics Opcode Literal V W E)
    (lit : ConstantListValueType → Literal) (node : ExecNode) (store : Store V) :
    Checked.M W E (Option Bool × Store V) :=
  eval ctx sem lit node store >>= fun r => test sem r.1 >>= fun b => pure (b, r.2)

/-- The value of a branch, converted. -/
def evalBranch (ctx : Context) (sem : Ssa.Semantics Opcode Literal V W E)
    (lit : ConstantListValueType → Literal) (ret : ValueType) (node : ExecNode) (store : Store V) :
    Checked.M W E (Option (Datum V) × Store V) :=
  eval ctx sem lit node store >>= fun r =>
    convert sem node.getReturnType ret r.1 >>= fun x => pure (x, r.2)

variable (ctx sem lit)

/-- A condition whose code has been emitted; `c` is the `i1` that is branched on. -/
structure LoweredCond (node : ExecNode) (s : State) (c : Value) (s' : State) : Prop where
  grown : Grown s s' (node.whensFine = true)
  below : ValueBelow s'.builder.fresh (some c)
  scopes : s'.scopeStack = s.scopeStack
  splits : s'.builder.insertPoint = s.builder.insertPoint ↔ node.splits = false
  runs : ∀ {F env store}, Final s'.builder F → Literals lit s'.constListCache →
    (node.whensFine = true ∨ Verified F) → Holds sem env s.scopeStack store →
      RunsAt sem F s s' env (evalCond ctx sem lit node store) fun env' b =>
        ∃ bit, b = some bit ∧ HoldsDatum sem env' c ⟨sem.const (.bool bit), .int 1⟩

/-- A branch whose code has been emitted, up to the branch to the merge block. -/
structure LoweredBranch (ret : ValueType) (type : LLVMType) (node : ExecNode) (s : State)
    (v : Value) (s' : State) : Prop where
  grown : Grown s s' (node.whensFine = true)
  below : ValueBelow s'.builder.fresh (some v)
  scopes : s'.scopeStack = s.scopeStack
  runs : ∀ {F env store}, Final s'.builder F → Literals lit s'.constListCache →
    (node.whensFine = true ∨ Verified F) → Holds sem env s.scopeStack store →
      RunsAt sem F s s' env (evalBranch ctx sem lit ret node store) fun env' x =>
        ∃ val, x = some ⟨val, type⟩ ∧ v.operand.eval sem env' = some val

variable {ctx sem lit} {node : ExecNode} {s s' : State}

theorem Lowers.getCondition (hbits : BitSemantics sem) {what : String} {c : Value}
    (h : Lowers ctx sem lit node)
    (hrun : (getCondition what node (visit ctx node)).run s = .ok (c, s')) (hs : Ready s) :
    LoweredCond ctx sem lit node s c s' := by
  rcases getCondition_run.mp hrun with ⟨v, s₁, x, hvalue, hx, rfl, rfl⟩
  have hl := h.getValue hvalue hs
  have hbelow := inputsBelow_one hl.below
  refine ⟨hl.grown.emit hbelow, emitted_below hbelow, hl.scopes (by simp), hl.splits,
    fun hF hlit hv hstore => ?_⟩
  refine (hl.runs (.of_append hl.grown.ready.isOpen hF) hlit hv hstore).bind hl.grown.fresh
    fun env₁ d store₁ _ hd hst => ?_
  cases hd with
  | some hd =>
    refine test_runs hbits hx hl.grown.ready hF hl.below hd hst ?_
    exact fun env' b hdatum _ hst' => .pure ⟨b, rfl, hdatum⟩ hst'

theorem Lowers.getBranchValue {ret : ValueType} {type : LLVMType} {mergeBlock : Nat}
    {r : Value × Nat} (htype : valueTypeToLLVMType ret = .ok type) (h : Lowers ctx sem lit node)
    (hrun : (getBranchValue node (visit ctx node) ret mergeBlock).run s = .ok (r, s'))
    (hs : Ready s) : ∃ s₁, LoweredBranch ctx sem lit ret type node s r.1 s₁ ∧
      r.2 = s₁.builder.insertPoint ∧ s' = s₁.createBr mergeBlock := by
  rcases getBranchValue_run.mp hrun with ⟨v, s₁, x, hvalue, hx, rfl, rfl⟩
  have hl := h.getValue hvalue hs
  have hbelow := inputsBelow_one hl.below
  refine ⟨s₁.emit ![v] x, ⟨hl.grown.emit hbelow, emitted_below hbelow, hl.scopes (by simp),
    fun hF hlit hv hstore => ?_⟩, rfl, rfl⟩
  refine (hl.runs (.of_append hl.grown.ready.isOpen hF) hlit hv hstore).bind hl.grown.fresh
    fun env₁ d store₁ _ hd hst => ?_
  cases hd with
  | some hd =>
    simp only [convert, hx, htype, bind_assoc, pure_bind]
    refine evalCode_runs hl.grown.ready hF hbelow (holdsDatum_one hd) hst ?_
    exact fun env' y w w' _ hdatum _ hst' => .pure ⟨y, rfl, hdatum.1⟩ hst'

end Parts

/-! ## 4. `and` and `or` -/

section Logical

variable {ctx : Context} {sem : Ssa.Semantics Opcode Literal V W E}
  {lit : ConstantListValueType → Literal} {s s' : State} {F : IRFunction} {env : Ssa.Env V}

/-- The merge block of `and` and `or`: the entry of the edge, as `0` or `1`. -/
theorem mergeBool_runs (hbits : BitSemantics sem) {m' : State} {merge : Nat} {b : Bool}
    {incoming : List (Ssa.Operand Literal × Nat)} {source : Nat} {o : Ssa.Operand Literal}
    {store : Store V} (hs : Ready s) (hm' : m' = s.createPhi incoming) (hs' : Ready m')
    (hmerge : s.builder.insertPoint = merge) (hfresh : Fresh s merge)
    (hF : Final (m'.emit ![s.phi (.int 1)] (.op₁ (.zext 8) (.input 0))).builder F)
    (hfind : incoming.find? (fun e => e.2 == source) = some (o, source))
    (ho : o.eval sem env = some (sem.const (.bool b))) (hstore : Holds sem env s.scopeStack store) :
    RunsTo sem F s.builder.fresh (fun w : W => .jump source merge env w) env
      (pure (some (ofBool sem b), store))
      (m'.emit ![s.phi (.int 1)] (.op₁ (.zext 8) (.input 0))).builder.here s.scopeStack
      fun env' x => Represents sem env'
        (some (m'.emitted ![s.phi (.int 1)] (.op₁ (.zext 8) (.input 0)))) x := by
  subst hm' hmerge
  have hbelow : InputsBelow (s.createPhi incoming) ![s.phi (.int 1)] := inputsBelow_one (by
    rintro val ⟨⟩
    exact Nat.lt_succ_self _)
  refine .step (fun w => phi_run hfresh (.of_append hs'.isOpen hF) hfind ho) ?_
  have hset : Ssa.AgreeBelow s.builder.fresh env
      (env.set s.builder.fresh (sem.const (.bool b))) :=
    (Ssa.AgreeBelow.refl _ _).set (Nat.le_refl _) _
  have hdatum : HoldsDatum sem (env.set s.builder.fresh (sem.const (.bool b))) (s.phi (.int 1))
      ⟨sem.const (.bool b), .int 1⟩ := ⟨Ssa.Env.set_self _ _ _, rfl⟩
  intro w
  have hrun := append_run sem (.op₁ (.zext 8) (.input 0) : IRExpr 1) hs'.isOpen hF w hbelow
    fun i => (holdsDatum_one hdatum i).1
  have hzext : ((IRExpr.op₁ (.zext 8) (.input 0) : IRExpr 1).eval sem
      fun i => ((![⟨sem.const (.bool b), .int 1⟩] : Fin 1 → Datum V) i).val).run w =
        .ok (sem.const (.value (.u8 (if b then 1 else 0))), w) := hbits.zext b w
  refine (Ssa.Simulates.bind (hrun.mono_run fun v w' c hv hc => And.intro hv hc)
    (k := fun v => pure (some (⟨v, .int 8⟩ : Datum V), store)) ?_).of_run ?_
  · rintro v w' c ⟨hv, env', rfl, hagree, hval⟩
    rw [hzext] at hv
    cases hv
    exact .pure ⟨env', rfl, hset.trans hagree (Nat.le_succ _), .some ⟨hval, rfl⟩,
      (hstore.agree hs.below hset).agree
        (fun name v hv => (hs.below name v hv).mono (Nat.le_succ _)) hagree⟩
  · rw [Checked.run_bind_ok hzext]
    rfl

/-- A run of `and` or `or`: `t` is the end of the left operand, `r` and `u` are the ends of the
right one, and `m` is where the merge block starts. -/
theorem logical_run {info : NodeInfo} {op : BinaryOPType} {left right : ExecNode}
    (hop : isLogicalBinaryOPType op = true) {v : Option Value}
    (hrun : (visit ctx (.binaryOP info op left right)).run s = .ok (v, s')) :
    ∃ c t d r u m rhs merge, rhs = s.builder.size ∧
      merge = (s.createBlock .scRhs).builder.size ∧
      (getCondition "logical operator lhs" left (visit ctx left)).run
        ((s.createBlock .scRhs).createBlock .scMerge) = .ok (c, t) ∧
      r = (t.createCondBr c (if op = .kAnd then rhs else merge)
        (if op = .kAnd then merge else rhs)).setInsertPoint rhs ∧
      (getCondition "logical operator rhs" right (visit ctx right)).run r = .ok (d, u) ∧
      m = (u.createBr merge).setInsertPoint merge ∧
      let m' := m.createPhi [(.const (.bool (op ≠ .kAnd)), t.builder.insertPoint),
        (d.operand, u.builder.insertPoint)]
      v = some (m'.emitted ![m.phi (.int 1)] (.op₁ (.zext 8) (.input 0))) ∧
        s' = m'.emit ![m.phi (.int 1)] (.op₁ (.zext 8) (.input 0)) := by
  by_cases hand : op = .kAnd
  · subst hand
    simp only [visit, hop, if_true, Checked.run_bind_eq_ok, createBlock_run, getInsertBlock_run,
      Checked.run_modify_eq_ok, createPhi_run, emit_run, Checked.run_pure_eq_ok, and_assoc,
      exists_and_left, exists_eq_left, exists_const] at hrun
    rcases hrun with ⟨c, t, hc, d, u, hd, hv, hs'⟩
    exact ⟨c, t, d, _, u, _, _, _, rfl, rfl, hc, rfl, hd, rfl, hv, hs'⟩
  · simp only [if_neg hand]
    simp only [visit, hop, if_true, if_neg hand, Checked.run_bind_eq_ok, createBlock_run,
      getInsertBlock_run, Checked.run_modify_eq_ok, createPhi_run, emit_run,
      Checked.run_pure_eq_ok, and_assoc, exists_and_left, exists_eq_left, exists_const] at hrun
    rcases hrun with ⟨c, t, hc, d, u, hd, hv, hs'⟩
    exact ⟨c, t, d, _, u, _, _, _, rfl, rfl, hc, rfl, hd, rfl, hv, hs'⟩

/-- The blocks of `and` and `or` after the conditional branch. -/
theorem logical_branch (op : BinaryOPType) (c : Value) {good : Prop} {t : State} {rhs merge : Nat}
    (hne : rhs ≠ merge) (hmid : Mid s t
      (fun j => j = rhs ∨ j = merge ∨ j = t.builder.insertPoint)
      (Function.update (Function.update (fun _ => none) rhs (some [])) merge (some [])) good)
    (ht : t.builder.insertPoint ≠ rhs ∧ t.builder.insertPoint ≠ merge) :
    Mid s (t.createCondBr c (if op = .kAnd then rhs else merge)
        (if op = .kAnd then merge else rhs)) (fun j => j = rhs ∨ j = merge)
      (Function.update (Function.update (fun _ => none) rhs (some [t.builder.insertPoint])) merge
        (some [t.builder.insertPoint])) good := by
  have hrhs := (Function.update_of_ne hne (some []) _).trans (Function.update_self rhs (some [])
    fun _ => (none : Option (List Nat)))
  have hmerge := Function.update_self merge (some []) (Function.update
    (fun _ => (none : Option (List Nat))) rhs (some []))
  by_cases hand : op = .kAnd
  · simp only [if_pos hand]
    refine (hmid.createCondBr c rhs merge (.inr (.inr rfl)) hne hrhs hmerge).congr
      (fun j => ?_) fun j => ?_
    · omega
    · simp only [Function.update_apply]
      split_ifs <;> rfl
  · simp only [if_neg hand]
    refine (hmid.createCondBr c merge rhs (.inr (.inr rfl)) hne.symm hmerge hrhs).congr
      (fun j => ?_) fun j => ?_
    · omega
    · simp only [Function.update_apply]
      split_ifs <;> rfl

variable (ctx sem lit) in
/-- The code of `and` and `or`, up to the merge block; both operands end in a branch to it. -/
structure LogicalCode (op : BinaryOPType) (left right : ExecNode) (s : State) (c : Value)
    (t : State) (d : Value) (r u m : State) (rhs merge : Nat) : Prop where
  condLeft : LoweredCond ctx sem lit left ((s.createBlock .scRhs).createBlock .scMerge) c t
  condRight : LoweredCond ctx sem lit right r d u
  branch : r = (t.createCondBr c (if op = .kAnd then rhs else merge)
    (if op = .kAnd then merge else rhs)).setInsertPoint rhs
  join : m = (u.createBr merge).setInsertPoint merge
  openLeft : t.builder.IsOpen t.builder.insertPoint
  openRight : u.builder.IsOpen u.builder.insertPoint
  distinct : t.builder.insertPoint ≠ u.builder.insertPoint
  freshRhs : Fresh r rhs
  freshMerge : Fresh m merge
  readyRhs : Ready r
  new : s.builder.insertPoint < merge
  mid : Mid s m (· = merge) (Function.update (Function.update (fun _ => none) rhs
    (some [t.builder.insertPoint])) merge (some [u.builder.insertPoint, t.builder.insertPoint]))
      ((left.whensFine && right.whensFine) = true)

theorem logical_code (hbits : BitSemantics sem) {op : BinaryOPType} {left right : ExecNode}
    {c : Value} {t : State} {d : Value} {r u m : State} {rhs merge : Nat}
    (h : Lowers ctx sem lit left) (h' : Lowers ctx sem lit right) (hs : Ready s)
    (hrhs : rhs = s.builder.size) (hmerge : merge = (s.createBlock .scRhs).builder.size)
    (hleft : (getCondition "logical operator lhs" left (visit ctx left)).run
      ((s.createBlock .scRhs).createBlock .scMerge) = .ok (c, t))
    (hr : r = (t.createCondBr c (if op = .kAnd then rhs else merge)
      (if op = .kAnd then merge else rhs)).setInsertPoint rhs)
    (hright : (getCondition "logical operator rhs" right (visit ctx right)).run r = .ok (d, u))
    (hm : m = (u.createBr merge).setInsertPoint merge) :
    LogicalCode ctx sem lit op left right s c t d r u m rhs merge := by
  have hip : s.builder.insertPoint < s.builder.size := lt_size_of_isOpen hs.isOpen
  have hmerge' : merge = s.builder.size + 1 := hmerge.trans (State.size_createBlock s .scRhs)
  have hne : rhs ≠ merge := by omega
  have hmid₀ := ((Mid.refl hs ((left.whensFine && right.whensFine) = true)).createBlock
    .scRhs hrhs).createBlock .scMerge hmerge
  have hl := h.getCondition hbits hleft (hmid₀.ready (.inl (.inl rfl)))
  have hlend := hl.grown.grows.insertPoint
  have hllt := hl.grown.grows.insertPoint_lt
  have hlsize := Frag.size hl.grown.grows
  simp only [State.size_createBlock, State.insertPoint_createBlock] at hlend hlsize
  have hmid₁ := hmid₀.part (.inl (.inl rfl)) hl.grown
    (fun hg => (Bool.and_eq_true_iff.mp hg).1) hl.scopes
  -- both blocks wait, and so does the one the left operand has ended in
  have hmid₂ := (logical_branch op c hne (hmid₁.congr (fun j => by
    simp only [State.insertPoint_createBlock]; omega) fun _ => rfl)
      ⟨by omega, by omega⟩).setInsertPoint rhs
  rw [← hr] at hmid₂
  have hrip : r.builder.insertPoint = rhs := hr ▸ rfl
  have hready : Ready r := hmid₂.ready (.inl hrip)
  have hr' := h'.getCondition hbits hright hready
  have hrend := hr'.grown.grows.insertPoint
  have hrsize : r.builder.size = t.builder.size := by rw [hr]; simp
  rw [hrip, hrsize] at hrend
  have hmid₃ := hmid₂.part (.inl hrip) hr'.grown (fun hg => (Bool.and_eq_true_iff.mp hg).2)
    hr'.scopes
  refine ⟨hl, hr', hr, hm, hmid₁.frag.isOpen_of (.inr rfl), hmid₃.frag.isOpen_of (.inr rfl),
    by omega, ?_, ?_, hready, by omega, ?_⟩
  · rw [hr, hrhs]
    refine Fresh.setInsertPoint (.terminate (.grown (.createBlock (.new s .scRhs) .scMerge) ?_
      hl.grown) ?_ _) _
    · exact hip.ne'
    · omega
  · rw [hm]
    refine Fresh.setInsertPoint (.terminate (.grown (s := r) ?_ ?_ hr'.grown) ?_ _) _
    · rw [hr, hmerge]
      refine Fresh.setInsertPoint (.terminate (.grown (.new _ _) ?_ hl.grown) ?_ _) _
      · simp only [State.size_createBlock, State.insertPoint_createBlock]
        omega
      · omega
    · omega
    · omega
  · rw [hm]
    exact ((hmid₃.createBr merge (.inr rfl) (Function.update_self merge _ _)).setInsertPoint
      merge).congr (fun j => by rw [hrip]; omega) fun _ => by rw [Function.update_idem]

theorem eval_logical {info : NodeInfo} {op : BinaryOPType} {left right : ExecNode}
    (hop : isLogicalBinaryOPType op = true) (store : Store V) :
    eval ctx sem lit (.binaryOP info op left right) store =
      evalCond ctx sem lit left store >>= fun r => match r.1 with
        | none => pure (none, r.2)
        | some b => if b = decide (op ≠ .kAnd) then pure (some (ofBool sem b), r.2) else
          evalCond ctx sem lit right r.2 >>= fun q => pure (q.1.map (ofBool sem), q.2) := by
  rw [eval, evalCond, bind_assoc]
  refine bind_congr fun r => ?_
  rcases r with ⟨x, store₁⟩
  simp only [if_pos hop]
  rw [bind_assoc]
  refine bind_congr fun b => ?_
  rw [pure_bind]
  cases b with
  | none => rfl
  | some b =>
    refine if_congr Iff.rfl rfl ?_
    rw [evalCond, bind_assoc]
    refine bind_congr fun q => ?_
    rw [bind_assoc]
    exact bind_congr fun d => (pure_bind _ _).symm

/-- The block the conditional branch of `and` and `or` goes to. -/
theorem logical_target (op : BinaryOPType) (rhs merge : Nat) (bit : Bool) :
    (if bit = true then (if op = .kAnd then rhs else merge) else
      if op = .kAnd then merge else rhs) = if bit = decide (op ≠ .kAnd) then merge else rhs := by
  by_cases hand : op = .kAnd
  · cases bit <;> simp [hand]
  · cases bit <;> simp [hand]

section

variable {op : BinaryOPType} {left right : ExecNode} {c : Value} {t : State} {d : Value}
  {r u m : State} {rhs merge : Nat}

/-- What the finished function has kept of the code of `and` and `or`. -/
theorem LogicalCode.final (h : LogicalCode ctx sem lit op left right s c t d r u m rhs merge)
    (hF : Later m.builder.blocks F) :
    Final u.builder F ∧ Final r.builder F ∧ Final t.builder F := by
  have hFu : Final u.builder F := by
    rw [h.join] at hF
    exact .of_terminate h.openRight hF
  have hFr : Final r.builder F := .of_grows h.condRight.grown.grows h.readyRhs.isOpen hFu
  refine ⟨hFu, hFr, ?_⟩
  have hlater := hFr.later
  rw [h.branch] at hlater
  exact .of_terminate h.openLeft hlater

/-- **`and` and `or` evaluate the right operand only when the left one does not decide.** -/
theorem LogicalCode.runs (h : LogicalCode ctx sem lit op left right s c t d r u m rhs merge)
    (hbits : BitSemantics sem) (hs : Ready s) {m' : State}
    (hm' : m' = m.createPhi [(.const (.bool (op ≠ .kAnd)), t.builder.insertPoint),
      (d.operand, u.builder.insertPoint)]) (hready : Ready m')
    (hF : Final (m'.emit ![m.phi (.int 1)] (.op₁ (.zext 8) (.input 0))).builder F)
    (hlit : Literals lit u.constListCache)
    (hv : (left.whensFine && right.whensFine) = true ∨ Verified F) {store : Store V}
    (hstore : Holds sem env s.scopeStack store) :
    RunsTo sem F s.builder.fresh (s.builder.here env) env
      (evalCond ctx sem lit left store >>= fun r => match r.1 with
        | none => pure (none, r.2)
        | some b => if b = decide (op ≠ .kAnd) then pure (some (ofBool sem b), r.2) else
          evalCond ctx sem lit right r.2 >>= fun q => pure (q.1.map (ofBool sem), q.2))
      (m'.emit ![m.phi (.int 1)] (.op₁ (.zext 8) (.input 0))).builder.here m.scopeStack
      fun env' x => Represents sem env'
        (some (m'.emitted ![m.phi (.int 1)] (.op₁ (.zext 8) (.input 0)))) x := by
  have hmip : m.builder.insertPoint = merge := h.join ▸ rfl
  have hrip : r.builder.insertPoint = rhs := h.branch ▸ rfl
  have hmready : Ready m := h.mid.ready hmip
  have hmscopes : m.scopeStack = u.scopeStack := h.join ▸ rfl
  have hrscopes : r.scopeStack = t.scopeStack := h.branch ▸ rfl
  have hlater : Later m.builder.blocks F := by
    have hF' := (Final.of_append hready.isOpen hF).later
    rw [hm'] at hF'
    exact (Later.createPhi _ hmready.isOpen).trans hF'
  rcases h.final hlater with ⟨hFu, hFr, hFt⟩
  have hlitr : Literals lit r.constListCache := hlit.prefix_ h.condRight.grown.cache
  have hlitt : Literals lit t.constListCache := by
    rw [h.branch] at hlitr
    exact hlitr
  have hbegin : (((s.createBlock .scRhs).createBlock .scMerge).builder.here env :
      W → Ssa.Config V W E) = s.builder.here env := by
    funext w
    exact (here_createBlock (b := (s.createBlock .scRhs).builder)
      (isOpen_createBlock hs.isOpen _) _ _ _).trans (here_createBlock hs.isOpen _ _ _)
  have hleft := h.condLeft.runs hFt hlitt (fine_left hv) hstore
  rw [RunsAt, hbegin] at hleft
  have hfresh := h.condLeft.grown.fresh
  refine hleft.bind hfresh fun env₁ b store₁ hagree hb hst => ?_
  rcases hb with ⟨bit, rfl, hbit⟩
  -- the branch
  refine .step (d := fun w => .jump t.builder.insertPoint
    (if bit = decide (op ≠ .kAnd) then merge else rhs) env₁ w) (fun w => ?_) ?_
  · rw [← logical_target op rhs merge bit]
    have hlater := hFr.later
    rw [h.branch] at hlater
    exact createCondBr_step hbits h.openLeft hlater hbit
  have htm : t.builder.fresh ≤ m.builder.fresh := by
    have hle := h.condRight.grown.fresh
    rw [h.branch] at hle
    rw [h.join]
    exact hle
  have hum : m.builder.fresh = u.builder.fresh := h.join ▸ rfl
  by_cases hdec : bit = decide (op ≠ .kAnd)
  · -- the left operand decides
    subst hdec
    simp only [if_pos]
    refine .weaken (mergeBool_runs hbits hmready hm' hready hmip h.freshMerge hF
      (o := .const (.bool (op ≠ .kAnd))) ?_ rfl ?_) htm
    · simp
    · rw [hmscopes, h.condRight.scopes, hrscopes]
      exact hst
  · simp only [if_neg hdec]
    refine .step (fun w => enter_run hrip h.freshRhs hFr _) ?_
    have hright := h.condRight.runs hFu hlit (fine_right hv) (hrscopes ▸ hst)
    refine .weaken (hright.bind h.condRight.grown.fresh fun env₂ b store₂ hagree₂ hb₂ hst₂ => ?_) ?_
    · rcases hb₂ with ⟨bit₂, rfl, hbit₂⟩
      have hjoin : Later (u.createBr merge).builder.blocks F := by
        rw [h.join] at hlater
        exact hlater
      refine .step (fun w => createBr_step h.openRight hjoin) ?_
      refine .weaken (mergeBool_runs hbits hmready hm' hready hmip h.freshMerge hF ?_ hbit₂.1
        (hmscopes ▸ hst₂)) hum.ge
      simp [h.distinct]
    · rw [h.branch]
      exact Nat.le_refl _

end

theorem logical_lowers (hbits : BitSemantics sem) {info : NodeInfo} {op : BinaryOPType}
    {left right : ExecNode} (hop : isLogicalBinaryOPType op = true)
    (h : Lowers ctx sem lit left) (h' : Lowers ctx sem lit right) :
    Lowers ctx sem lit (.binaryOP info op left right) := by
  intro s v s' hrun hs
  rcases logical_run hop hrun with ⟨c, t, d, r, u, m, rhs, merge, hrhs, hmerge, hleft, hr,
    hright, hm, rfl, rfl⟩
  have hc := logical_code hbits h h' hs hrhs hmerge hleft hr hright hm
  have hmip : m.builder.insertPoint = merge := hm ▸ rfl
  have hmid := hc.mid.createPhi [(.const (.bool (op ≠ .kAnd)),
    t.builder.insertPoint), (d.operand, u.builder.insertPoint)] hmip (by have := hc.new; omega)
    (hmip ▸ Function.update_self _ _ _) fun _ => List.Perm.swap _ _ _
  have hready := hmid.ready hmip
  have hphi : InputsBelow (m.createPhi [(.const (.bool (op ≠ .kAnd)),
      t.builder.insertPoint), (d.operand, u.builder.insertPoint)]) ![m.phi (.int 1)] :=
    inputsBelow_one (by
      rintro val ⟨⟩
      exact Nat.lt_succ_self _)
  have hmid' := hmid.emit (x := .op₁ (.zext 8) (.input 0)) hmip hphi
  refine ⟨(hmid'.congr (fun j => ?_) fun _ => rfl).grown, emitted_below hphi,
    fun _ => hmid'.scopes, ?_, fun hF hlit hv hstore => ?_⟩
  · simp only [State.insertPoint_emit, State.insertPoint_createPhi, hmip]
  · simp only [State.insertPoint_emit, State.insertPoint_createPhi, hmip, ExecNode.splits, hop,
      Bool.true_or, Bool.true_eq_false, iff_false]
    exact hc.new.ne'
  · have hlit' : Literals lit u.constListCache := by
      rw [hm] at hlit
      exact hlit
    rw [eval_logical hop]
    exact hc.runs hbits hs rfl hready hF hlit' hv hstore

end Logical

/-! ## 5. Merge blocks -/

section Merge

variable {ctx : Context} {sem : Ssa.Semantics Opcode Literal V W E}
  {lit : ConstantListValueType → Literal} {F : IRFunction} {env : Ssa.Env V} {store : Store V}

/-- The block where the branches of an expression meet, with one PHI node, in the finished
function; `m` is where the block starts. -/
structure MergePoint (F : IRFunction) (m : State) (merge : Nat)
    (incoming : List (Ssa.Operand Literal × Nat)) : Prop where
  ready : Ready m
  block : m.builder.insertPoint = merge
  fresh : Fresh m merge
  final : Final (m.createPhi incoming).builder F
  nodup : (incoming.map Prod.snd).Nodup

/-- The entry of a block is found by the block. -/
theorem find_incoming {incoming : List (Ssa.Operand Literal × Nat)} {o : Ssa.Operand Literal}
    {source : Nat} (hd : (incoming.map Prod.snd).Nodup) (h : (o, source) ∈ incoming) :
    incoming.find? (fun e => e.2 == source) = some (o, source) := by
  induction incoming with
  | nil => exact nomatch h
  | cons e l ih =>
    rcases List.nodup_cons.mp hd with ⟨hnot, hd'⟩
    rcases List.mem_cons.mp h with h | h
    · rw [← h, List.find?_cons_of_pos (by simp)]
    · have hne : e.2 ≠ source := by
        intro he
        exact hnot (he ▸ List.mem_map_of_mem h)
      rw [List.find?_cons_of_neg (by simpa using hne), ih hd' h]

theorem MergePoint.runs {m : State} {merge source : Nat} {type : LLVMType} {val : V}
    {incoming : List (Ssa.Operand Literal × Nat)} {o : Ssa.Operand Literal}
    (h : MergePoint F m merge incoming) (hmem : (o, source) ∈ incoming)
    (ho : o.eval sem env = some val) (hstore : Holds sem env m.scopeStack store) :
    RunsTo sem F m.builder.fresh (fun w : W => .jump source merge env w) env
      (pure (some (⟨val, type⟩ : Datum V), store)) (m.createPhi incoming).builder.here
      m.scopeStack fun env' x => Represents sem env' (some (m.phi type)) x := by
  have hblock := h.block
  subst hblock
  refine .step (fun w => phi_run h.fresh h.final (find_incoming h.nodup hmem) ho) ?_
  have hset : Ssa.AgreeBelow m.builder.fresh env (env.set m.builder.fresh val) :=
    (Ssa.AgreeBelow.refl _ _).set (Nat.le_refl _) _
  intro w
  exact .pure ⟨_, rfl, hset, .some ⟨Ssa.Env.set_self _ _ _, rfl⟩,
    hstore.agree h.ready.below hset⟩

/-- **A branch**, from the edge into it to the end of the merge block. -/
theorem LoweredBranch.merges {ret : ValueType} {type : LLVMType} {node : ExecNode} {p a m : State}
    {v : Value} {i merge source : Nat} {incoming : List (Ssa.Operand Literal × Nat)}
    (h : LoweredBranch ctx sem lit ret type node p v a) (hm : MergePoint F m merge incoming)
    (hp : Ready p) (hi : p.builder.insertPoint = i) (hfresh : Fresh p i)
    (hlater : Later (a.createBr merge).builder.blocks F)
    (hmem : (v.operand, a.builder.insertPoint) ∈ incoming)
    (hscopes : p.scopeStack = m.scopeStack) (hle : a.builder.fresh ≤ m.builder.fresh)
    (hlit : Literals lit a.constListCache) (hv : node.whensFine = true ∨ Verified F)
    (hstore : Holds sem env m.scopeStack store) :
    RunsTo sem F p.builder.fresh (fun w : W => .jump source i env w) env
      (evalBranch ctx sem lit ret node store) (m.createPhi incoming).builder.here
      m.scopeStack fun env' x => Represents sem env' (some (m.phi type)) x := by
  have hopen := h.grown.ready.isOpen
  have hFa : Final a.builder F := .of_terminate hopen hlater
  have hFp : Final p.builder F := .of_grows h.grown.grows hp.isOpen hFa
  refine .step (fun w => enter_run hi hfresh hFp source) ?_
  rw [← bind_pure (evalBranch ctx sem lit ret node store)]
  refine (h.runs hFa hlit hv (hscopes ▸ hstore)).bind h.grown.fresh
    fun env₁ x store₁ _ hx hst => ?_
  rcases hx with ⟨val, rfl, hval⟩
  refine .step (fun w => createBr_step hopen hlater) ?_
  refine .weaken (hm.runs hmem hval ?_) hle
  rw [← hscopes, ← h.scopes]
  exact hst

end Merge

/-! ## 6. `if` -/

section If

variable {ctx : Context} {sem : Ssa.Semantics Opcode Literal V W E}
  {lit : ConstantListValueType → Literal} {s s' : State} {F : IRFunction} {env : Ssa.Env V}

/-- A run of `if`: `t` is the end of the condition, the branches run from `p` to `p'` and from `q`
to `q'`, and `m` is where the merge block starts. -/
theorem ifNode_run {info : NodeInfo} {args : List ExecNode} {v : Option Value}
    (hrun : (visit ctx (.ifNode info args)).run s = .ok (v, s')) :
    ∃ cond then_ else_ type c t p x y p' q' m thenBlock elseBlock merge,
      args = [cond, then_, else_] ∧ valueTypeToLLVMType info.returnType = .ok type ∧
      (getCondition "if condition" cond (visit ctx cond)).run s = .ok (c, t) ∧
      thenBlock = t.builder.size ∧ elseBlock = (t.createBlock .then_).builder.size ∧
      merge = ((t.createBlock .then_).createBlock .else_).builder.size ∧
      p = ((((t.createBlock .then_).createBlock .else_).createBlock .merge).createCondBr c
        thenBlock elseBlock).setInsertPoint thenBlock ∧
      (getBranchValue then_ (visit ctx then_) info.returnType merge).run p = .ok (x, p') ∧
      (getBranchValue else_ (visit ctx else_) info.returnType merge).run
        (p'.setInsertPoint elseBlock) = .ok (y, q') ∧
      m = q'.setInsertPoint merge ∧ v = some (m.phi type) ∧
      s' = m.createPhi [(x.1.operand, x.2), (y.1.operand, y.2)] := by
  unfold visit at hrun
  split at hrun
  · next cond then_ else_ =>
    simp only [Checked.run_bind_eq_ok, returnNotOk_run, createBlock_run, Checked.run_modify_eq_ok,
      createPhi_run, Checked.run_pure_eq_ok, and_assoc, exists_and_left, exists_eq_left,
      exists_const] at hrun
    rcases hrun with ⟨type, htype, c, t, hc, x, p', hx, y, q', hy, hv, hs'⟩
    exact ⟨cond, then_, else_, type, c, t, _, x, y, p', q', _, _, _, _, rfl, htype, hc, rfl, rfl,
      rfl, rfl, hx, hy, rfl, hv, hs'⟩
  · exact absurd hrun Checked.run_throw_ne_ok

variable (ctx sem lit) in
/-- The code of `if` behind its condition, up to the merge block; both branches end in a branch
to it. -/
structure IfCode (ret : ValueType) (type : LLVMType) (then_ else_ : ExecNode) (t : State)
    (c : Value)
    (p : State) (v : Value) (a q : State) (w : Value) (b m : State)
    (thenBlock elseBlock merge : Nat) : Prop where
  onTrue : LoweredBranch ctx sem lit ret type then_ p v a
  onFalse : LoweredBranch ctx sem lit ret type else_ q w b
  branch : p = ((((t.createBlock .then_).createBlock .else_).createBlock .merge).createCondBr c
    thenBlock elseBlock).setInsertPoint thenBlock
  next : q = (a.createBr merge).setInsertPoint elseBlock
  join : m = (b.createBr merge).setInsertPoint merge
  readyThen : Ready p
  readyElse : Ready q
  freshThen : Fresh p thenBlock
  freshElse : Fresh q elseBlock
  freshMerge : Fresh m merge
  distinct : a.builder.insertPoint ≠ b.builder.insertPoint
  new : t.builder.size ≤ merge
  mid : Mid t m (· = merge) (Function.update (Function.update (Function.update (fun _ => none)
    thenBlock (some [t.builder.insertPoint])) elseBlock (some [t.builder.insertPoint])) merge
      (some [b.builder.insertPoint, a.builder.insertPoint]))
        ((then_.whensFine && else_.whensFine) = true)

theorem if_code {ret : ValueType} {type : LLVMType} {then_ else_ : ExecNode} {t : State} {c : Value}
    {p p' q' m : State} {x y : Value × Nat} {thenBlock elseBlock merge : Nat}
    (h : Lowers ctx sem lit then_) (h' : Lowers ctx sem lit else_)
    (htype : valueTypeToLLVMType ret = .ok type) (hs : Ready t)
    (hthen : thenBlock = t.builder.size)
    (helse : elseBlock = (t.createBlock .then_).builder.size)
    (hmerge : merge = ((t.createBlock .then_).createBlock .else_).builder.size)
    (hp : p = ((((t.createBlock .then_).createBlock .else_).createBlock .merge).createCondBr c
      thenBlock elseBlock).setInsertPoint thenBlock)
    (hx : (getBranchValue then_ (visit ctx then_) ret merge).run p = .ok (x, p'))
    (hy : (getBranchValue else_ (visit ctx else_) ret merge).run
      (p'.setInsertPoint elseBlock) = .ok (y, q')) (hm : m = q'.setInsertPoint merge) :
    ∃ a b, x.2 = a.builder.insertPoint ∧ y.2 = b.builder.insertPoint ∧
      IfCode ctx sem lit ret type then_ else_ t c p x.1 a (p'.setInsertPoint elseBlock) y.1 b m
        thenBlock elseBlock merge := by
  have hip : t.builder.insertPoint < t.builder.size := lt_size_of_isOpen hs.isOpen
  have helse' : elseBlock = t.builder.size + 1 := by rw [helse, State.size_createBlock]
  have hmerge' : merge = t.builder.size + 2 := by
    rw [hmerge, State.size_createBlock, State.size_createBlock]
  have hmid₀ := (((Mid.refl hs ((then_.whensFine && else_.whensFine) = true)).createBlock
    .then_ hthen).createBlock .else_ helse).createBlock .merge hmerge
  -- the conditional branch
  have hmid₁ := ((hmid₀.createCondBr c thenBlock elseBlock (.inl (.inl (.inl rfl))) (by omega)
    (by rw [Function.update_of_ne (by omega), Function.update_of_ne (by omega),
      Function.update_self])
    (by rw [Function.update_of_ne (by omega), Function.update_self])).setInsertPoint
      thenBlock).congr (Q := fun j => j = thenBlock ∨ j = elseBlock ∨ j = merge)
        (fun j => by simp only [State.insertPoint_createBlock]; omega) fun _ => rfl
  rw [← hp] at hmid₁
  have hpip : p.builder.insertPoint = thenBlock := hp ▸ rfl
  have hpsize : p.builder.size = t.builder.size + 3 := by rw [hp]; simp
  have hpready : Ready p := hmid₁.ready (.inl hpip)
  rcases h.getBranchValue htype hx hpready with ⟨a, ha, hxa, rfl⟩
  have haend := ha.grown.grows.insertPoint
  have hasize := Frag.size ha.grown.grows
  have halt := ha.grown.grows.insertPoint_lt
  rw [hpip] at haend
  -- the branches
  have hmid₂ := ((hmid₁.part (.inl hpip) ha.grown (fun hg => (Bool.and_eq_true_iff.mp hg).1)
    ha.scopes).createBr merge (.inr rfl) (by rw [Function.update_of_ne (by omega),
      Function.update_of_ne (by omega), Function.update_self])).setInsertPoint elseBlock |>.congr
        (Q := fun j => j = elseBlock ∨ j = merge) (fun j => by rw [hpip]; omega) fun _ => rfl
  have hqready := hmid₂.ready (.inl rfl)
  rcases h'.getBranchValue htype hy hqready with ⟨b, hb, hyb, rfl⟩
  have hbend := hb.grown.grows.insertPoint
  have hbsize := Frag.size hb.grown.grows
  simp only [State.insertPoint_setInsertPoint, State.size_setInsertPoint,
    State.size_createBr] at hbend hbsize
  have hmid₃ := ((hmid₂.part (.inl rfl) hb.grown (fun hg => (Bool.and_eq_true_iff.mp hg).2)
    hb.scopes).createBr merge (.inr rfl) (Function.update_self _ _ _)).setInsertPoint merge
      |>.congr (Q := fun j => j = merge)
        (fun j => by simp only [State.insertPoint_setInsertPoint]; omega) fun _ => rfl
  rw [← hm] at hmid₃
  refine ⟨a, b, hxa, hyb, ha, hb, hp, rfl, hm, hpready, hqready, ?_, ?_, ?_, by omega, by omega,
    hmid₃.congr (fun _ => Iff.rfl) fun j => ?_⟩
  · rw [hp, hthen]
    refine Fresh.setInsertPoint (.terminate (((Fresh.new t .then_).createBlock _).createBlock _) ?_
      _) _
    exact hip.ne'
  · exact (Fresh.grown (s := p) (hp ▸ helse ▸ Fresh.setInsertPoint (.terminate
      ((Fresh.new _ .else_).createBlock _) (by simp only [State.insertPoint_createBlock]; omega) _)
        _) (by omega) ha.grown).terminate (by omega) _
  · have hfresh : Fresh p merge := hp ▸ hmerge ▸ Fresh.setInsertPoint (.terminate
      (Fresh.new _ .merge) (by simp only [State.insertPoint_createBlock]; omega) _) _
    rw [hm]
    exact Fresh.setInsertPoint (.terminate (.grown (.setInsertPoint (.terminate (hfresh.grown
      (by omega) ha.grown) (by omega) _) elseBlock)
        (by simp only [State.insertPoint_setInsertPoint]; omega) hb.grown) (by omega) _) _
  · simp only [Function.update_apply]
    split_ifs <;> rfl

theorem eval_if {info : NodeInfo} {cond then_ else_ : ExecNode} (store : Store V) :
    eval ctx sem lit (.ifNode info [cond, then_, else_]) store =
      evalCond ctx sem lit cond store >>= fun r => match r.1 with
        | none => pure (none, r.2)
        | some bit =>
          evalBranch ctx sem lit info.returnType (if bit then then_ else else_) r.2 := by
  rw [eval]
  simp only [evalCond, evalBranch, bind_assoc, pure_bind]
  refine bind_congr fun r => bind_congr fun b => ?_
  cases b with
  | none => rfl
  | some b => cases b <;> rfl

/-- **Only the branch that is chosen runs.** -/
theorem IfCode.runs {ret : ValueType} {type : LLVMType} {then_ else_ : ExecNode} {t : State}
    {c : Value} {p : State} {v : Value} {a q : State} {w : Value} {b m : State}
    {thenBlock elseBlock merge : Nat}
    (h : IfCode ctx sem lit ret type then_ else_ t c p v a q w b m thenBlock elseBlock merge)
    (hbits : BitSemantics sem) (ht : Ready t)
    (hF : Final (m.createPhi [(v.operand, a.builder.insertPoint),
      (w.operand, b.builder.insertPoint)]).builder F) (hlit : Literals lit m.constListCache)
    (hv : (then_.whensFine && else_.whensFine) = true ∨ Verified F) {store : Store V} {bit : Bool}
    (hc : HoldsDatum sem env c ⟨sem.const (.bool bit), .int 1⟩)
    (hstore : Holds sem env t.scopeStack store) :
    RunsTo sem F t.builder.fresh (t.builder.here env) env
      (evalBranch ctx sem lit ret (if bit then then_ else else_) store)
      (m.createPhi [(v.operand, a.builder.insertPoint),
        (w.operand, b.builder.insertPoint)]).builder.here m.scopeStack
      fun env' x => Represents sem env' (some (m.phi type)) x := by
  have hmready : Ready m := h.mid.ready (h.join ▸ rfl)
  have hpoint : MergePoint F m merge [(v.operand, a.builder.insertPoint),
      (w.operand, b.builder.insertPoint)] :=
    ⟨hmready, h.join ▸ rfl, h.freshMerge, hF, by simp [h.distinct]⟩
  have hmb : Later (b.createBr merge).builder.blocks F := by
    have hlater := (Later.createPhi [(v.operand, a.builder.insertPoint),
      (w.operand, b.builder.insertPoint)] hmready.isOpen).trans hF.later
    rw [h.join] at hlater
    exact hlater
  have hFb : Final b.builder F := .of_terminate h.onFalse.grown.ready.isOpen hmb
  have hFq : Final q.builder F := .of_grows h.onFalse.grown.grows h.readyElse.isOpen hFb
  have hqa : Later (a.createBr merge).builder.blocks F := by
    have hlater := hFq.later
    rw [h.next] at hlater
    exact hlater
  have hFa : Final a.builder F := .of_terminate h.onTrue.grown.ready.isOpen hqa
  have hFp : Final p.builder F := .of_grows h.onTrue.grown.grows h.readyThen.isOpen hFa
  -- registers, scopes and list literals
  have hta : p.builder.fresh = t.builder.fresh := by rw [h.branch]; rfl
  have haq : q.builder.fresh = a.builder.fresh := by rw [h.next]; rfl
  have hbm : m.builder.fresh = b.builder.fresh := by rw [h.join]; rfl
  have hpa := h.onTrue.grown.fresh
  have hqb := h.onFalse.grown.fresh
  have hscopes : m.scopeStack = t.scopeStack := h.mid.scopes
  have hpscopes : p.scopeStack = m.scopeStack := by rw [hscopes, h.branch]; rfl
  have hqscopes : q.scopeStack = m.scopeStack := by
    rw [← hpscopes, ← h.onTrue.scopes, h.next]
    rfl
  have hlitb : Literals lit b.constListCache := by
    rw [h.join] at hlit
    exact hlit
  have hlita : Literals lit a.constListCache := by
    have hlitq := hlitb.prefix_ h.onFalse.grown.cache
    rw [h.next] at hlitq
    exact hlitq
  refine .step (d := fun w => .jump t.builder.insertPoint (if bit then thenBlock else elseBlock)
    env w) (fun w => ?_) ?_
  · have hlater := hFp.later
    rw [h.branch] at hlater
    have hopen₁ := isOpen_createBlock ht.isOpen Label.then_
    have hopen₂ := isOpen_createBlock hopen₁ Label.else_
    rw [← here_createBlock ht.isOpen Label.then_, ← here_createBlock hopen₁ Label.else_,
      ← here_createBlock hopen₂ Label.merge]
    exact createCondBr_step hbits (isOpen_createBlock hopen₂ _) hlater hc
  · cases bit with
    | true =>
      exact .weaken (h.onTrue.merges hpoint h.readyThen (h.branch ▸ rfl) h.freshThen hqa (by simp)
        hpscopes (by omega) hlita (fine_left hv) (hscopes ▸ hstore)) hta.ge
    | false =>
      exact .weaken (h.onFalse.merges hpoint h.readyElse (h.next ▸ rfl) h.freshElse hmb (by simp)
        hqscopes (by omega) hlitb (fine_right hv) (hscopes ▸ hstore)) (by omega)

theorem ifNode_lowers (hbits : BitSemantics sem) {info : NodeInfo} {args : List ExecNode}
    (h : ∀ arg ∈ args, Lowers ctx sem lit arg) : Lowers ctx sem lit (.ifNode info args) := by
  intro s v s' hrun hs
  rcases ifNode_run hrun with ⟨cond, then_, else_, type, c, t, p, x, y, p', q', m, thenBlock,
    elseBlock, merge, rfl, htype, hcond, hthenB, helseB, hmergeB, hp, hx, hy, hm, rfl, rfl⟩
  have hlc := Lowers.getCondition hbits (h cond (by simp)) hcond hs
  have hready := hlc.grown.ready
  rcases if_code (h then_ (by simp)) (h else_ (by simp)) htype hready hthenB helseB hmergeB hp hx hy
    hm with ⟨a, b, hxa, hyb, hcode⟩
  rw [hxa, hyb]
  have hnew := hcode.new
  have hip := lt_size_of_isOpen hready.isOpen
  have hmip : m.builder.insertPoint = merge := hm ▸ rfl
  have hmid := hcode.mid.createPhi [(x.1.operand, a.builder.insertPoint),
    (y.1.operand, b.builder.insertPoint)] hmip (by omega) (hmip ▸ Function.update_self _ _ _)
      fun _ => List.Perm.swap _ _ _
  have hgrown := (hmid.congr (fun j => by simp only [State.insertPoint_createPhi, hmip]) fun _ =>
    rfl).grown
  have hfine : ExecNode.argsFine [cond, then_, else_] =
      (cond.whensFine && (then_.whensFine && else_.whensFine)) := by
    simp only [ExecNode.argsFine, Bool.and_true]
  refine ⟨?_, ?_, fun _ => hmid.scopes.trans hlc.scopes, ?_, fun hF hlit hv hstore => ?_⟩
  · rw [ExecNode.whensFine, hfine]
    exact (hlc.grown.mono fun hg => (Bool.and_eq_true_iff.mp hg).1).trans
      (hgrown.mono fun hg => (Bool.and_eq_true_iff.mp hg).2)
  · rintro val ⟨⟩
    exact Nat.lt_succ_self _
  · simp only [State.insertPoint_createPhi, hmip, ExecNode.splits, Bool.true_eq_false, iff_false]
    have hlt := Frag.insert_lt hlc.grown.grows
    have hsize := Frag.size hlc.grown.grows
    omega
  · rw [ExecNode.whensFine, hfine] at hv
    have hFt := Final.of_grows hgrown.grows hready.isOpen hF
    rw [eval_if]
    refine (hlc.runs hFt (hlit.prefix_ hgrown.cache) (fine_left hv) hstore).bind hlc.grown.fresh
      fun env₁ bit store₁ _ hbit hst => ?_
    rcases hbit with ⟨bit, rfl, hbit⟩
    exact hcode.runs hbits hready hF hlit (fine_right hv) hbit hst

end If

end CodeGen

end JitFusion
