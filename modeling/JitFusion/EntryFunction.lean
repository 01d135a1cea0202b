/-
# The entry function

`BuildEntryFunction` emits the code of an accepted root into a function of its own.  If the
verifier accepts the function, a run of it is a run of the interpreter: the same calls in the same
order, the same traps, and the value of the root at the end.

For an expression the verifier has nothing to say: every PHI node of `and`, `or`, `if` and `switch`
has one entry for each predecessor of its block.
-/
import JitFusion.LoweringWhen
import JitFusion.Validator

namespace JitFusion

/-! ## 1. Expressions -/

namespace ExecNode

mutual

theorem whensFine_of_isExpression : ∀ node : ExecNode, node.isExpression = true →
    node.whensFine = true
  | entryArgument _, _ | execContext _, _ | output _, _ | constantValue _ _, _
  | constantListValue _ _, _ | ref _ _, _ => by rw [whensFine]
  | unaryOP _ _ child, h => by
    rw [isExpression] at h
    rw [whensFine, whensFine_of_isExpression child h]
  | binaryOP _ _ left right, h => by
    rw [isExpression, Bool.and_eq_true_iff] at h
    rw [whensFine, whensFine_of_isExpression left h.1, whensFine_of_isExpression right h.2,
      Bool.and_self]
  | function _ _ args, h | ifNode _ args, h | switchNode _ args, h => by
    rw [isExpression] at h
    rw [whensFine, argsFine_of_argsAreExpressions args h]
  | noOP _ _ _, h | ifBlock _ _, h => by
    rw [isExpression] at h
    cases h

theorem argsFine_of_argsAreExpressions : ∀ args : List ExecNode,
    argsAreExpressions args = true → argsFine args = true
  | [], _ => by rw [argsFine]
  | arg :: args, h => by
    rw [argsAreExpressions, Bool.and_eq_true_iff] at h
    rw [argsFine, whensFine_of_isExpression arg h.1, argsFine_of_argsAreExpressions args h.2,
      Bool.and_self]

end

end ExecNode

namespace CodeGen

open TypeHelper Ssa.Builder Interpreter

variable {V W E : Type} {ctx : Context} {sem : Ssa.Semantics Opcode Literal V W E}
  {lit : ConstantListValueType → Literal}

/-- What a test asks of an integer: whether it is other than zero. -/
theorem test_of_int {x : Datum V} (hx : x.type.isIntegerTy = true) :
    test sem (some x) = sem.op (.icmp .ne) [x.val, sem.const (.zero x.type)] >>= fun b =>
      pure (some (sem.truthy b)) := by
  simp [test, toBool, hx, evalCode, IRExpr.op₂, Ssa.Expr.eval, Ssa.Expr.evalArgs]

/-- What a test asks of a float: whether it is ordered and other than zero. -/
theorem test_of_float {x : Datum V} (hx : x.type.isFloatingPointTy = true) :
    test sem (some x) = sem.op (.fcmp .one) [x.val, sem.const (.zero x.type)] >>= fun b =>
      pure (some (sem.truthy b)) := by
  have hint : x.type.isIntegerTy = false := by
    cases hx' : x.type <;> rw [hx'] at hx <;> first | rfl | exact nomatch hx
  simp [test, toBool, hx, hint, evalCode, IRExpr.op₂, Ssa.Expr.eval, Ssa.Expr.evalArgs]

/-- The value of `and` and `or` is `0` or `1`. -/
theorem eval_logical_value {info : NodeInfo} {op : BinaryOPType} {left right : ExecNode}
    (hop : isLogicalBinaryOPType op = true) {store store' : Store V} {x : Option (Datum V)}
    {w w' : W}
    (h : (eval ctx sem lit (.binaryOP info op left right) store).run w = .ok ((x, store'), w')) :
    x = none ∨ ∃ b, x = some (ofBool sem b) := by
  rw [eval_logical hop, Checked.run_bind_eq_ok] at h
  rcases h with ⟨⟨b, store₁⟩, w₁, -, h⟩
  cases b with
  | none =>
    rw [Checked.run_pure_eq_ok] at h
    exact .inl (congrArg Prod.fst h.1)
  | some b =>
    by_cases hdec : b = decide (op ≠ .kAnd)
    · simp only [if_pos hdec, Checked.run_pure_eq_ok] at h
      exact .inr ⟨b, congrArg Prod.fst h.1⟩
    · simp only [if_neg hdec, Checked.run_bind_eq_ok, Checked.run_pure_eq_ok] at h
      rcases h with ⟨⟨d, store₂⟩, w₂, -, h, -⟩
      cases d with
      | none => exact .inl (congrArg Prod.fst h)
      | some d => exact .inr ⟨d, congrArg Prod.fst h⟩

/-- **Lazy control flow.**  From any place where the generator may stand, the code of an expression
does what the interpreter does: the same calls in the same order, the same traps, the same value.
The value of `and` and `or` is `0` or `1`, and every PHI node has one entry for each predecessor of
its block. -/
theorem expression_lowered (hbits : BitSemantics sem) {node : ExecNode} {s s' : State}
    {v : Option Value} (hnode : node.isExpression = true) (hs : Ready s)
    (hrun : (visit ctx node).run s = .ok (v, s')) :
    (∀ m, s.builder.size ≤ m → m < s'.builder.size → Sound s'.builder.blocks m) ∧
    (∀ {lit F env store} w, Final s'.builder F → Literals lit s'.constListCache →
      Holds sem env s.scopeStack store →
        Ssa.Simulates sem F (s.builder.here env w) (eval ctx sem lit node store) w fun r w' c =>
          (∃ env', c = s'.builder.here env' w' ∧ Represents sem env' v r.1 ∧
            Holds sem env' s'.scopeStack r.2) ∧
          ∀ info op left right, node = .binaryOP info op left right →
            isLogicalBinaryOPType op = true → ∃ b, r.1 = some (ofBool sem b)) ∧
    (∀ x : Datum V, x.type.isIntegerTy = true → test sem (some x) =
      sem.op (.icmp .ne) [x.val, sem.const (.zero x.type)] >>= fun b =>
        pure (some (sem.truthy b))) ∧
    ∀ x : Datum V, x.type.isFloatingPointTy = true → test sem (some x) =
      sem.op (.fcmp .one) [x.val, sem.const (.zero x.type)] >>= fun b =>
        pure (some (sem.truthy b)) := by
  have hfine := ExecNode.whensFine_of_isExpression node hnode
  refine ⟨(visit_lowered hrun hs).grown.sound hfine, fun {lit F env store} w hF hlit hstore => ?_,
    fun _ => test_of_int, fun _ => test_of_float⟩
  have hl : Lowered ctx sem lit node s v s' := visit_lowers hbits node hrun hs
  refine (hl.runs hF hlit (.inl hfine) hstore w).mono_run ?_
  rintro ⟨x, store'⟩ w' c hx ⟨env', rfl, -, hrep, hst⟩
  refine ⟨⟨env', rfl, hrep, hst⟩, ?_⟩
  rintro info op left right rfl hop
  refine (eval_logical_value hop hx).resolve_left ?_
  -- the code of `and` and `or` always has a value
  rcases logical_run hop hrun with ⟨c, t, d, r, u, m, rhs, merge, -, -, -, -, -, -, rfl, -⟩
  rcases rel_some_left hrep with ⟨y, rfl, -⟩
  exact Option.some_ne_none y

/-! ## 2. The entry function -/

/-- The constant that stands for a list literal: that of the first literal that the cache takes
for the same. -/
def literalOf (cache : List (ConstantListValueType × Value)) (l : ConstantListValueType) :
    Literal :=
  .list (((cache.find? fun e => constListEquivalent e.1 l).map Prod.fst).getD l)

theorem literalOf_literals {cache : List (ConstantListValueType × Value)}
    (h : ∀ e ∈ cache, e.2 = ⟨.const (.list e.1), (Literal.list e.1).type⟩) :
    Literals (literalOf cache) cache := by
  intro l e he
  rw [h e (List.mem_of_find?_eq_some he), literalOf, he]
  rfl

theorem entryState_ready : Ready entryState where
  isOpen := ⟨_, rfl, rfl⟩
  targets := by
    rintro j m ⟨blk, t, hb, ht, -⟩
    cases j with
    | zero =>
      cases hb
      exact nomatch ht
    | succ j => exact nomatch hb
  below _ _ h := nomatch h
  cached _ h := nomatch h

/-- A run of `BuildEntryFunction`. -/
theorem buildEntryFunction_run {node : ExecNode} {s' : State}
    (hrun : (buildEntryFunction ctx node).run entryState = .ok ((), s')) :
    ∃ v s₁, (getValue node (visit ctx node)).run entryState = .ok (v, s₁) ∧
      s' = s₁.createRet (if node.getReturnType = .kVoid then none else v) := by
  simp only [buildEntryFunction, Checked.run_bind_eq_ok, returnNotOk_run,
    Checked.run_modify_eq_ok] at hrun
  rcases hrun with ⟨_, _, ⟨-, rfl⟩, v, s₁, hvalue, rfl⟩
  exact ⟨v, s₁, hvalue, rfl⟩

/-- The end of the entry function returns the value. -/
theorem createRet_step {s : State} {env : Ssa.Env V} {v : Option Value} {x : Option (Datum V)}
    {F : IRFunction} (hopen : s.builder.IsOpen s.builder.insertPoint)
    (hF : Later (s.createRet v).builder.blocks F) (hv : Represents sem env v x) (w : W) :
    Ssa.step sem F (s.builder.here env w) = some (.returned (x.map Datum.val) w) := by
  rw [terminate_step hopen hF env w]
  cases hv with
  | none => rfl
  | some hv => simp only [Option.map_some, Ssa.execTerm, hv.1]

/-- **A run of the entry function is a run of the interpreter.** -/
theorem entry_runs (hbits : BitSemantics sem) {node : ExecNode} {s' : State}
    (hrun : (buildEntryFunction ctx node).run entryState = .ok ((), s'))
    (hv : node.whensFine = true ∨ Verified s'.builder.blocks) (w : W) :
    Ssa.Simulates sem s'.builder.blocks (.at 0 0 (fun _ => none) w)
      (eval ctx sem (literalOf s'.constListCache) node fun _ => none) w fun r w' c =>
        c = .returned ((if node.getReturnType = .kVoid then none else r.1).map Datum.val) w' := by
  rcases buildEntryFunction_run hrun with ⟨v, s₁, hvalue, rfl⟩
  have hl : Lowered ctx sem (literalOf s₁.constListCache) node entryState v s₁ :=
    Lowers.getValue (visit_lowers hbits node) hvalue entryState_ready
  have hopen := hl.grown.ready.isOpen
  have hF : Later (s₁.createRet (if node.getReturnType = .kVoid then none else v)).builder.blocks
    (s₁.createRet (if node.getReturnType = .kVoid then none else v)).builder.blocks := .refl _
  have hstore : Holds sem (fun _ => none) entryState.scopeStack fun _ => (none : Option _) :=
    fun _ => .none
  have hrun' := hl.runs (.of_terminate hopen hF) (literalOf_literals hl.grown.ready.cached) hv
    hstore w
  rw [← bind_pure (eval ctx sem _ node _)]
  refine hrun'.bind ?_
  rintro ⟨x, store⟩ w' c ⟨env', rfl, -, hrep, -⟩
  refine Ssa.Simulates.step (createRet_step hopen hF (x := if node.getReturnType = .kVoid then none
    else x) ?_ w') (.pure rfl)
  split
  · exact .none
  · exact hrep

/-- **Nothing to reject**: if every when-block has an else body, or a last condition that stays in
its block, then all PHI nodes are right. -/
theorem entry_verified {node : ExecNode} {s' : State}
    (hrun : (buildEntryFunction ctx node).run entryState = .ok ((), s'))
    (hfine : node.whensFine = true) : Verified s'.builder.blocks := by
  rcases buildEntryFunction_run hrun with ⟨v, s₁, hvalue, rfl⟩
  rcases getValue_run.mp hvalue with ⟨s₂, hvisit, rfl⟩
  have hl := visit_lowered hvisit entryState_ready
  have hopen := hl.grown.ready.isOpen
  intro m
  refine (Stable.terminate hopen (by simp [Ssa.Term.targets])).sound_iff.mpr ?_
  by_cases hm : m < s₂.builder.size
  · cases m with
    | zero =>
      -- the entry block has no PHI nodes
      rcases hl.grown.grows.start with ⟨blk₀, blk, hb₀, hb, -, hphis, -⟩
      cases hb₀
      refine NoPhis.sound fun blk' hb' => ?_
      obtain rfl : blk = blk' := Option.some.inj (hb.symm.trans hb')
      exact hphis
    | succ m => exact hl.grown.sound hfine _ (Nat.succ_le_succ (Nat.zero_le m)) hm
  · intro blk hb
    exact absurd (List.getElem?_eq_some_iff.mp hb).1 hm

/-- **When-blocks are block scoping.**  If the verifier accepts the entry function of a pipeline,
then a run of it, on any input, is a run of the interpreter: the conditions in order, the body of
the first one that is true and no other, and behind the block the variables as it has left them. -/
theorem pipeline_refines (hbits : BitSemantics sem) {node : ExecNode} {s' : State}
    (hrun : (buildEntryFunction ctx node).run entryState = .ok ((), s'))
    (hverified : Verified s'.builder.blocks) (w : W) :
    Ssa.Simulates sem s'.builder.blocks (.at 0 0 (fun _ => none) w)
      (eval ctx sem (literalOf s'.constListCache) node fun _ => none) w fun r w' c =>
        c = .returned ((if node.getReturnType = .kVoid then none else r.1).map Datum.val) w' :=
  entry_runs hbits hrun (.inr hverified) w

/-! ## 3. Two runs -/

/-- A machine for the examples: integers, and a log of the calls. -/
def callLog : Ssa.Semantics Opcode Literal Int (List (String × List Int)) Empty where
  const
    | .value (.i32 x) => x.toInt
    | .value (.u8 x) => x.toNat
    | .bool b => if b then 1 else 0
    | _ => 0
  arg _ := 0
  op
    | .call f _, args => do
      modify (· ++ [(f, args)])
      return args.headD 0
    | .zext _, [x] => return x
    | .icmp .ne, [x, y] => return if x = y then 0 else 1
    | _, _ => return 0
  truthy x := x ≠ 0

theorem callLog_bits : BitSemantics callLog where
  icmp_ne xs w r h := by
    rcases xs with _ | ⟨x, _ | ⟨y, _ | ⟨z, xs⟩⟩⟩
    all_goals obtain rfl := (Except.ok.inj h).symm
    · exact ⟨false, rfl⟩
    · exact ⟨false, rfl⟩
    · by_cases hxy : x = y
      · exact ⟨false, if_pos hxy⟩
      · exact ⟨true, if_neg hxy⟩
    · exact ⟨false, rfl⟩
  fcmp_one _ _ _ h := ⟨false, congrArg Prod.fst (Except.ok.inj h).symm⟩
  truthy b := by cases b <;> rfl
  zext b _ := by cases b <;> rfl

/-- A registry with one C function, `f(i32) -> i32`. -/
def exampleContext : Context where
  functionRegistry :=
    FunctionRegistry.assign {} ⟨"f", [.kI32], .kI32⟩ { funcType := .kCFunc, cFuncPtr := 1 }
  callback _ _ _ _ := none
  hashOrder := .dedup

/-- `x = 1; when (f(x)) { x = 2; y = f(x); } elif (x) { x = 3; }` -/
def partialModify : ExecNode :=
  .noOP {}
    [({ name := "x" }, .constantValue {} (.i32 1)),
      ({}, .ifBlock {}
        [.function {} "f" [.ref {} "x"],
          .noOP {} [({ name := "x" }, .constantValue {} (.i32 2)),
            ({ name := "y" }, .function {} "f" [.ref {} "x"])] false,
          .ref {} "x", .noOP {} [({ name := "x" }, .constantValue {} (.i32 3))] false])] false

theorem partialModify_refines : ∃ node st' s',
    Validator.validate exampleContext.functionRegistry partialModify = .ok (node, st') ∧
      (buildEntryFunction exampleContext node).run entryState = .ok ((), s') ∧
      Ssa.Simulates callLog s'.builder.blocks (.at 0 0 (fun _ => none) [])
        (eval exampleContext callLog (literalOf s'.constListCache) node fun _ => none) []
        fun r w' c => c = .returned
          ((if node.getReturnType = .kVoid then none else r.1).map Datum.val) w' := by
  have hbuild : ∃ node st' s',
      Validator.validate exampleContext.functionRegistry partialModify = .ok (node, st') ∧
        (buildEntryFunction exampleContext node).run entryState = .ok ((), s') ∧
        node.whensFine = true := ⟨_, _, _, rfl, rfl, rfl⟩
  rcases hbuild with ⟨node, st', s', hval, hrun, hfine⟩
  exact ⟨node, st', s', hval, hrun,
    pipeline_refines callLog_bits hrun (entry_verified hrun hfine) []⟩

/-- `f(1) and if (f(f(0)), 5, f(7))` -/
def nestedCalls : ExecNode :=
  .binaryOP {} .kAnd (.function {} "f" [.constantValue {} (.i32 1)])
    (.ifNode {} [.function {} "f" [.function {} "f" [.constantValue {} (.i32 0)]],
      .constantValue {} (.i32 5), .function {} "f" [.constantValue {} (.i32 7)]])

theorem nestedCalls_lowered : ∃ node st' v s',
    Validator.validate exampleContext.functionRegistry nestedCalls = .ok (node, st') ∧
      (visit exampleContext node).run entryState = .ok (v, s') ∧
      (∀ m, 1 ≤ m → m < s'.builder.size → Sound s'.builder.blocks m) ∧
      Ssa.Simulates callLog s'.builder.blocks (.at 0 0 (fun _ => none) [])
        (eval exampleContext callLog (literalOf s'.constListCache) node fun _ => none) []
        fun r w' c => ∃ env', c = s'.builder.here env' w' ∧ Represents callLog env' v r.1 := by
  have hbuild : ∃ node st' v s',
      Validator.validate exampleContext.functionRegistry nestedCalls = .ok (node, st') ∧
        (visit exampleContext node).run entryState = .ok (v, s') ∧
        node.isExpression = true := ⟨_, _, _, _, rfl, rfl, rfl⟩
  rcases hbuild with ⟨node, st', v, s', hval, hrun, hexpr⟩
  have hl := expression_lowered callLog_bits hexpr entryState_ready hrun
  refine ⟨node, st', v, s', hval, hrun, hl.1, ?_⟩
  refine (hl.2.1 [] ⟨.refl _, fun blk blk' hb hb' => ?_⟩ (literalOf_literals
    (visit_lowered hrun entryState_ready).grown.ready.cached) fun _ => .none).mono ?_
  · rw [hb] at hb'
    cases hb'
    rfl
  · rintro r w' c ⟨⟨env', hc, hrep, -⟩, -⟩
    exact ⟨env', hc, hrep⟩

end CodeGen

end JitFusion
