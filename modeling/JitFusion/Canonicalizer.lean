/-
# The canonicalizer pass

`CommutativeCallCanonicalizerPass` (`src/jit_core.cc`) goes over all calls of a function.  If the
called function is marked commutative, and its first two operands are of one type, it puts the two
in the order of their addresses.  Two calls that differ in the order of these operands are then the
same call, and LLVM keeps one of them.

* `canonicalizer_sound`: the new function runs in lockstep with the old one on every machine whose
  commutative calls do not tell their operands apart, up to a relation on worlds; the pass says
  truthfully whether it has changed anything, and a second run changes nothing.
* `canonicalized_entry_runs`: on a machine whose commutative calls are the kernels of this library,
  on integer lists, a compiled program after the pass still does what the interpreter does: the same
  value, and errors in the one exactly if there are errors in the other.  The texts of the errors
  may differ (`Commutative.lean`).
-/
import JitFusion.Commutative
import JitFusion.EntryFunction
import JitFusion.Lib.Rewrite

namespace JitFusion

/-! ## 1. The attribute -/

namespace FunctionRegistry

/-- `SetCFuncAttr`: the function declared under `symbol` gets the attribute of a commutative
function. -/
def hasCommutative (reg : FunctionRegistry) (symbol : String) : Bool :=
  reg.signature2funcstruct.entries.any fun e =>
    linkName e.1 e.2.2 == some symbol && e.2.2.funcAttrSetter == .commutant

end FunctionRegistry

/-! ## 2. The pass -/

/-- What the pass reads of a module: the attributes, and the type and the address of every value. -/
structure CommutativeCallCanonicalizerPass where
  functionRegistry : FunctionRegistry
  registerType : Nat → LLVMType
  address : Ssa.Operand Literal → Nat

namespace CommutativeCallCanonicalizerPass

abbrev CallInst := Ssa.Instr Opcode Literal

variable (pass : CommutativeCallCanonicalizerPass)

/-- `getType`. -/
def operandType : Ssa.Operand Literal → LLVMType
  | .reg n => pass.registerType n
  | .arg _ => .ptr
  | .const k => k.type

/-- `ShouldSwapArguments`. -/
def shouldSwapArguments (arg0 arg1 : Ssa.Operand Literal) : Bool :=
  pass.address arg0 > pass.address arg1

/-- The body of the loop: the instruction afterwards, and whether it has changed. -/
def runOnInst (i : CallInst) : CallInst × Bool :=
  match i.op with
  | .call calledFunc _ =>
    if pass.functionRegistry.hasCommutative calledFunc = false then (i, false)
    else
      match i.args with
      | arg0 :: arg1 :: rest =>
        if pass.operandType arg0 ≠ pass.operandType arg1 then (i, false)
        else if pass.shouldSwapArguments arg0 arg1 then
          ({ i with args := arg1 :: arg0 :: rest }, true)
        else (i, false)
      | _ => (i, false)
  | _ => (i, false)

def runOnBody : List CallInst → List CallInst × Bool
  | [] => ([], false)
  | i :: body =>
    let (i', changed) := pass.runOnInst i
    let (body', changed') := runOnBody body
    (i' :: body', changed || changed')

/-- The function afterwards, and whether anything has changed. -/
def run : IRFunction → IRFunction × Bool
  | [] => ([], false)
  | bb :: f =>
    let (body, changed) := pass.runOnBody bb.body
    let (f', changed') := run f
    ({ bb with body } :: f', changed || changed')

/-! ## 3. The calls -/

/-- The calls the pass looks at: commutative, with two operands of one type in front. -/
structure Canonical (i : CallInst) (calledFunc : String) (type : LLVMType)
    (arg0 arg1 : Ssa.Operand Literal) (rest : List (Ssa.Operand Literal)) : Prop where
  op : i.op = .call calledFunc type
  commutative : pass.functionRegistry.hasCommutative calledFunc = true
  args : i.args = arg0 :: arg1 :: rest
  types : pass.operandType arg0 = pass.operandType arg1

variable {pass} {i j : CallInst} {calledFunc : String} {type : LLVMType}
  {arg0 arg1 : Ssa.Operand Literal} {rest : List (Ssa.Operand Literal)}

theorem Canonical.runOnInst (h : pass.Canonical i calledFunc type arg0 arg1 rest) :
    pass.runOnInst i = if pass.shouldSwapArguments arg0 arg1 then
      ({ i with args := arg1 :: arg0 :: rest }, true) else (i, false) := by
  simp [CommutativeCallCanonicalizerPass.runOnInst, h.op, h.commutative, h.args, h.types]

/-- What the pass does with an instruction: nothing, or the exchange. -/
theorem runOnInst_cases (pass : CommutativeCallCanonicalizerPass) (i : CallInst) :
    pass.runOnInst i = (i, false) ∨ ∃ calledFunc type arg0 arg1 rest,
      pass.Canonical i calledFunc type arg0 arg1 rest ∧
        pass.shouldSwapArguments arg0 arg1 = true ∧
          pass.runOnInst i = ({ i with args := arg1 :: arg0 :: rest }, true) := by
  rcases i with ⟨dst, op, args⟩
  cases op with
  | call calledFunc type =>
    by_cases hc : pass.functionRegistry.hasCommutative calledFunc = true
    · rcases args with _ | ⟨arg0, _ | ⟨arg1, rest⟩⟩
      · exact .inl (by simp [CommutativeCallCanonicalizerPass.runOnInst])
      · exact .inl (by simp [CommutativeCallCanonicalizerPass.runOnInst])
      · by_cases ht : pass.operandType arg0 = pass.operandType arg1
        · have h : pass.Canonical ⟨dst, .call calledFunc type, arg0 :: arg1 :: rest⟩ calledFunc type
              arg0 arg1 rest := ⟨rfl, hc, rfl, ht⟩
          by_cases hs : pass.shouldSwapArguments arg0 arg1 = true
          · exact .inr ⟨_, _, _, _, _, h, hs, by rw [h.runOnInst, if_pos hs]⟩
          · exact .inl (by rw [h.runOnInst, if_neg hs])
        · exact .inl (by simp [CommutativeCallCanonicalizerPass.runOnInst, ht])
    · exact .inl (by simp [CommutativeCallCanonicalizerPass.runOnInst, hc])
  | _ => exact .inl rfl

/-- The exchange is strict: the operands are two, and in the other order they stay. -/
theorem shouldSwapArguments_ne (h : pass.shouldSwapArguments arg0 arg1 = true) : arg0 ≠ arg1 := by
  rintro rfl
  simp [shouldSwapArguments] at h

theorem shouldSwapArguments_swap (h : pass.shouldSwapArguments arg0 arg1 = true) :
    pass.shouldSwapArguments arg1 arg0 = false := by
  simp only [shouldSwapArguments, decide_eq_true_eq, decide_eq_false_iff_not] at h ⊢
  omega

theorem runOnInst_changed (pass : CommutativeCallCanonicalizerPass) (i : CallInst) :
    (pass.runOnInst i).2 = true ↔ (pass.runOnInst i).1 ≠ i := by
  rcases runOnInst_cases pass i with h | ⟨f, t, a, b, rest, hc, hs, h⟩
  · simp [h]
  · rw [h]
    refine iff_of_true rfl fun heq => ?_
    have hargs := congrArg Ssa.Instr.args heq
    rw [hc.args] at hargs
    exact shouldSwapArguments_ne hs (List.cons.inj hargs).1.symm

theorem runOnInst_idem (pass : CommutativeCallCanonicalizerPass) (i : CallInst) :
    pass.runOnInst (pass.runOnInst i).1 = ((pass.runOnInst i).1, false) := by
  rcases runOnInst_cases pass i with h | ⟨f, t, a, b, rest, hc, hs, h⟩
  · rw [h, h]
  · rw [h]
    have hc' : pass.Canonical { i with args := b :: a :: rest } f t b a rest :=
      ⟨hc.op, hc.commutative, rfl, hc.types.symm⟩
    rw [hc'.runOnInst, shouldSwapArguments_swap hs]
    rfl

/-- Two calls that differ in the order of their first operands get the same operands. -/
theorem runOnInst_merges (h : pass.Canonical i calledFunc type arg0 arg1 rest)
    (h' : pass.Canonical j calledFunc type arg1 arg0 rest)
    (hne : pass.address arg0 = pass.address arg1 → arg0 = arg1) :
    (pass.runOnInst i).1.args = (pass.runOnInst j).1.args := by
  rw [h.runOnInst, h'.runOnInst]
  rcases lt_trichotomy (pass.address arg0) (pass.address arg1) with hlt | heq | hgt
  · simp [shouldSwapArguments, hlt, Nat.not_lt.mpr hlt.le, h.args]
  · obtain rfl := hne heq
    simp [shouldSwapArguments, h.args, h'.args]
  · simp [shouldSwapArguments, hgt, Nat.not_lt.mpr hgt.le, h'.args]

/-! ## 4. A whole function -/

theorem runOnBody_eq (pass : CommutativeCallCanonicalizerPass) (body : List CallInst) :
    pass.runOnBody body =
      (body.map fun i => (pass.runOnInst i).1, body.any fun i => (pass.runOnInst i).2) := by
  induction body with
  | nil => rfl
  | cons i body ih => rw [runOnBody, ih]; rfl

theorem run_eq (pass : CommutativeCallCanonicalizerPass) (f : IRFunction) :
    pass.run f = (Ssa.Cfg.mapBody (fun i => (pass.runOnInst i).1) f,
      f.any fun bb => bb.body.any fun i => (pass.runOnInst i).2) := by
  induction f with
  | nil => rfl
  | cons bb f ih => rw [run, ih, runOnBody_eq]; rfl

/-- A list that a map leaves as it is. -/
theorem map_eq_self_iff {α : Type} {f : α → α} {l : List α} : l.map f = l ↔ ∀ x ∈ l, f x = x := by
  conv_lhs => rw [← List.map_id l, List.map_map]
  exact List.map_inj_left

theorem run_eq_self_iff (pass : CommutativeCallCanonicalizerPass) (f : IRFunction) :
    (pass.run f).1 = f ↔ ∀ bb ∈ f, ∀ i ∈ bb.body, (pass.runOnInst i).1 = i := by
  rw [run_eq, Ssa.Cfg.mapBody, map_eq_self_iff]
  refine forall₂_congr fun bb _ => ?_
  rw [← map_eq_self_iff]
  rcases bb with ⟨label, phis, body, term⟩
  simp [Ssa.Block.mapBody]

/-- The pass says whether it has changed anything. -/
theorem run_changed (pass : CommutativeCallCanonicalizerPass) (f : IRFunction) :
    (pass.run f).2 = true ↔ (pass.run f).1 ≠ f := by
  rw [ne_eq, run_eq_self_iff, run_eq]
  simp only [List.any_eq_true, runOnInst_changed, not_forall, exists_prop, ne_eq]

/-- A second run changes nothing. -/
theorem run_idem (pass : CommutativeCallCanonicalizerPass) (f : IRFunction) :
    pass.run (pass.run f).1 = ((pass.run f).1, false) := by
  have hstay : (pass.run (pass.run f).1).1 = (pass.run f).1 := by
    rw [run_eq_self_iff, run_eq]
    simp only [Ssa.Cfg.mapBody, Ssa.Block.mapBody, List.forall_mem_map]
    intro _ _ i _
    rw [runOnInst_idem]
  refine Prod.ext hstay ?_
  by_contra hne
  exact (run_changed pass _).mp (Bool.eq_true_of_not_eq_false hne) hstay

/-! ## 5. Runs -/

section Runs

variable {V W E : Type} {sem : Ssa.Semantics Opcode Literal V W E} {R : W → W → Prop}

/-- Exchanging the first two operands of a call cannot be seen across the relation. -/
def Symmetric (sem : Ssa.Semantics Opcode Literal V W E) (R : W → W → Prop) (calledFunc : String) :
    Prop :=
  ∀ type x y rest w w', R w w' →
    Ssa.SameOutcome R ((sem.op (.call calledFunc type) (x :: y :: rest)).run w)
      ((sem.op (.call calledFunc type) (y :: x :: rest)).run w')

theorem runOnInst_replaces (hsem : Ssa.RespectedBy sem R)
    (hsym : ∀ calledFunc type arg0 arg1 rest, pass.Canonical i calledFunc type arg0 arg1 rest →
      Symmetric sem R calledFunc) : Ssa.Replaces sem R (pass.runOnInst i).1 i := by
  rcases runOnInst_cases pass i with h | ⟨f, t, a, b, rest, hc, -, h⟩
  · rw [h]
    exact .refl hsem i
  · rw [h]
    refine .of_op rfl fun env => ?_
    simp only [hc.args, hc.op, List.mapM_cons]
    -- the operands are evaluated in the other order
    cases a.eval sem env with
    | none => cases b.eval sem env <;> exact .none
    | some x =>
      cases b.eval sem env with
      | none => exact .none
      | some y =>
        cases rest.mapM (Ssa.Operand.eval sem env) with
        | none => exact .none
        | some vs => exact .some (hsym _ _ _ _ _ hc t x y vs)

/-- **The pass is sound.**  If no opcode sees the difference between related worlds, and no call the
pass looks at sees the order of its first two operands, then the new function is in lockstep with
the old one.  The pass says whether it has changed anything, a second run changes nothing, and calls
that differ in the order of these operands get the same operands. -/
theorem canonicalizer_sound (pass : CommutativeCallCanonicalizerPass) (f : IRFunction)
    (hsem : Ssa.RespectedBy sem R)
    (hsym : ∀ bb ∈ f, ∀ i ∈ bb.body, ∀ calledFunc type arg0 arg1 rest,
      pass.Canonical i calledFunc type arg0 arg1 rest → Symmetric sem R calledFunc) :
    StateTransition.Respects (Ssa.step sem f) (Ssa.step sem (pass.run f).1)
        (Ssa.SameConfig (V := V) (E := E) R) ∧
      ((pass.run f).2 = true ↔ (pass.run f).1 ≠ f) ∧
      pass.run (pass.run f).1 = ((pass.run f).1, false) ∧
      ∀ i j calledFunc type arg0 arg1 rest, pass.Canonical i calledFunc type arg0 arg1 rest →
        pass.Canonical j calledFunc type arg1 arg0 rest →
        (pass.address arg0 = pass.address arg1 → arg0 = arg1) →
        (pass.runOnInst i).1.args = (pass.runOnInst j).1.args := by
  refine ⟨?_, run_changed pass f, run_idem pass f,
    fun _ _ _ _ _ _ _ h h' hne => runOnInst_merges h h' hne⟩
  rw [run_eq]
  exact Ssa.mapBody_respects fun bb hbb i hi => runOnInst_replaces hsem (hsym bb hbb i hi)

/-! ## 6. Compiled programs -/

open Kernels CodeGen Interpreter

/-- **The machine runs a kernel**: a call decodes the two lists, finds some memory in the arena of
its world, and leaves the world `after` the result. -/
structure KernelCall (sem : Ssa.Semantics Opcode Literal V W E)
    (after : W → List Int × List String → W) (calledFunc : String) where
  kernel : CommutativeKernel
  elementType : IntegerType
  decode : V → ListStruct elementType.Value
  encode : List Int → V
  memory : W → Nat → elementType.Value
  bytes : W → Nat → UInt8
  op_call : ∀ type x y rest w,
    let r := kernel.call (memory w) (bytes w) (decode x) (decode y)
    (sem.op (.call calledFunc type) (x :: y :: rest)).run w = .ok (encode r.1, after w r)

/-- The relation is kept by calls with the same elements and the same decision. -/
def KeptBy (R : W → W → Prop) (after : W → List Int × List String → W) : Prop :=
  ∀ w w' r r', R w w' → r.1 = r'.1 → (r.2 = [] ↔ r'.2 = []) → R (after w r) (after w' r')

theorem KernelCall.symmetric {after : W → List Int × List String → W}
    (call : KernelCall sem after calledFunc) (hR : KeptBy R after) :
    Symmetric sem R calledFunc := by
  intro type x y rest w w' hw
  rw [call.op_call, call.op_call]
  have hswap := CommutativeKernel.swapped (call.memory w) (call.memory w') (call.bytes w)
    (call.bytes w') (call.decode x) (call.decode y) call.kernel
  rw [← hswap.elements]
  exact .ok (hR _ _ _ _ hw hswap.elements hswap.decision)

/-- **The pass cannot be seen in a compiled program.**  If every commutative call of the entry
function runs one of the kernels on integer lists, then the function the pass makes of it does what
the interpreter does with the program: the same traps, the same value, and errors exactly if it had
errors. -/
theorem canonicalized_entry_runs {ctx : Context} (hbits : BitSemantics sem)
    (pass : CommutativeCallCanonicalizerPass) {node : ExecNode} {s' : State}
    (hrun : (buildEntryFunction ctx node).run entryState = .ok ((), s'))
    (hv : node.whensFine = true ∨ Verified s'.builder.blocks)
    (errors : W → List String) (herrors : ∀ w w', R w w' → (errors w = [] ↔ errors w' = []))
    (hsem : Ssa.RespectedBy sem R) {after : W → List Int × List String → W} (hR : KeptBy R after)
    (hkernels : ∀ bb ∈ s'.builder.blocks, ∀ i ∈ bb.body, ∀ calledFunc type arg0 arg1 rest,
      pass.Canonical i calledFunc type arg0 arg1 rest → Nonempty (KernelCall sem after calledFunc))
    {w w₀ : W} (hw : R w w₀) :
    Ssa.Simulates sem (pass.run s'.builder.blocks).1 (.at 0 0 (fun _ => none) w₀)
      (eval ctx sem (literalOf s'.constListCache) node fun _ => none) w fun r w₁ c =>
        ∃ w₂, c = .returned ((if node.getReturnType = .kVoid then none else r.1).map Datum.val) w₂ ∧
          (errors w₁ = [] ↔ errors w₂ = []) := by
  have hentry := entry_runs hbits hrun hv w
  rw [run_eq]
  refine (hentry.mapBody (fun bb hbb i hi => runOnInst_replaces hsem ?_) (.at hw)).mono ?_
  · intro calledFunc type arg0 arg1 rest hc
    obtain ⟨call⟩ := hkernels bb hbb i hi calledFunc type arg0 arg1 rest hc
    exact call.symmetric hR
  · rintro r w₁ c ⟨d, rfl, hc⟩
    cases hc with
    | returned h => exact ⟨_, rfl, herrors _ _ h⟩

end Runs

/-! ## 7. A run -/

section Example

open Kernels CodeGen Interpreter

/-- A machine with lists for values: its functions are all `ListAdd` of 32-bit integers, and its
world is the errors so far. -/
def listMachine : Ssa.Semantics Opcode Literal (List Int) (List String) Empty where
  const
    | .list (.i32 xs) => xs.map BitVec.toInt
    | .value (.u8 x) => [x.toNat]
    | .bool b => [if b then 1 else 0]
    | _ => []
  arg _ := []
  op
    | .call _ _, x :: y :: _ => fun errors =>
      let r := CommutativeKernel.listAdd.call (fun _ => 0) (fun _ => 0) (decode x) (decode y)
      .ok (r.1, errors ++ r.2)
    | .zext _, [x] => fun errors => .ok (x, errors)
    | .icmp .ne, [x, y] => fun errors => .ok (if x = y then [0] else [1], errors)
    | _, _ => fun errors => .ok ([0], errors)
  truthy x := x ≠ [0]
where
  decode (x : List Int) : ListStruct IntegerType.int32.Value :=
    if h : (x.map IntegerType.int32.wrap).length < 2 ^ 32 then .ofList _ h
    else ⟨fun _ => 0, 0, Nat.two_pow_pos 32⟩

theorem listMachine_bits : BitSemantics listMachine where
  icmp_ne xs w r h := by
    rcases xs with _ | ⟨x, _ | ⟨y, _ | ⟨z, xs⟩⟩⟩
    all_goals obtain rfl := (Except.ok.inj h).symm
    · exact ⟨false, rfl⟩
    · exact ⟨false, rfl⟩
    · by_cases hxy : x = y
      · exact ⟨false, if_pos hxy⟩
      · exact ⟨true, if_neg hxy⟩
    · exact ⟨false, rfl⟩
  fcmp_one _ _ _ h := ⟨false, congrArg Prod.fst (Except.ok.inj h).symm⟩
  truthy b := by cases b <;> rfl
  zext b _ := by cases b <;> rfl

/-- Errors in the one exactly if there are errors in the other. -/
def SameDecision (errors errors' : List String) : Prop := errors = [] ↔ errors' = []

theorem listMachine_respects : Ssa.RespectedBy listMachine SameDecision := by
  intro o vs w w' h
  simp only [listMachine]
  split
  · refine .ok ?_
    simp only [SameDecision, List.append_eq_nil_iff] at h ⊢
    rw [h]
  all_goals exact .ok h

theorem listMachine_kept : KeptBy SameDecision fun errors r => errors ++ r.2 := by
  intro w w' r r' h _ hr
  simp only [SameDecision, List.append_eq_nil_iff] at h ⊢
  rw [h, hr]

def listMachine_kernel (calledFunc : String) :
    KernelCall listMachine (fun errors r => errors ++ r.2) calledFunc where
  kernel := .listAdd
  elementType := .int32
  decode := listMachine.decode
  encode := id
  memory _ _ := 0
  bytes _ _ := 0
  op_call _ _ _ _ _ := rfl

def listContext : Context where
  functionRegistry := (FunctionRegistry.registerCommutativeCFuncWithExecCtx {}
    ⟨"ListAdd", [.kI32List, .kI32List], .kI32List⟩ 1).2
  callback _ _ _ _ := none
  hashOrder := .dedup

/-- `ListAdd([1, 2], [1])`, whose first operand has the larger address. -/
def listPass : CommutativeCallCanonicalizerPass where
  functionRegistry := listContext.functionRegistry
  registerType _ := .void
  address x := if x = .const (.list (.i32 [1, 2])) then 1 else 0

/-- `ListAdd(a, b)` and `ListAdd(b, a)`. -/
def swappedCalls : IRFunction :=
  let a : Ssa.Operand Literal := .const (.list (.i32 [1, 2]))
  let b : Ssa.Operand Literal := .const (.list (.i32 [1]))
  let op := Opcode.call "ListAdd(i32list, i32list, ptr)" (.struct .i32list_type)
  [{ label := .entryBB, body := [⟨0, op, [a, b, .arg 1]⟩, ⟨1, op, [b, a, .arg 1]⟩],
     term := some (.ret (some (.reg 1))) }]

theorem swappedCalls_canonicalized :
    StateTransition.Respects (Ssa.step listMachine swappedCalls)
        (Ssa.step listMachine (listPass.run swappedCalls).1) (Ssa.SameConfig SameDecision) ∧
      listPass.run (listPass.run swappedCalls).1 = ((listPass.run swappedCalls).1, false) ∧
      ((listPass.run swappedCalls).1.flatMap fun bb => bb.body.map Ssa.Instr.args) =
        [[.const (.list (.i32 [1])), .const (.list (.i32 [1, 2])), .arg 1],
          [.const (.list (.i32 [1])), .const (.list (.i32 [1, 2])), .arg 1]] := by
  have h := canonicalizer_sound listPass swappedCalls listMachine_respects
    fun _ _ _ _ calledFunc _ _ _ _ _ => (listMachine_kernel calledFunc).symmetric listMachine_kept
  exact ⟨h.1, h.2.2.1, by decide +kernel⟩

def mismatchedLists : ExecNode :=
  .function {} "ListAdd" [.constantListValue {} (.i32 [1, 2]), .constantListValue {} (.i32 [1])]

theorem mismatchedLists_canonicalized : ∃ node st' s',
    Validator.validate listContext.functionRegistry mismatchedLists = .ok (node, st') ∧
      (buildEntryFunction listContext node).run entryState = .ok ((), s') ∧
      (listPass.run s'.builder.blocks).2 = true ∧
      Ssa.Simulates listMachine (listPass.run s'.builder.blocks).1 (.at 0 0 (fun _ => none) [])
        (eval listContext listMachine (literalOf s'.constListCache) node fun _ => none) []
        fun r w₁ c => ∃ w₂, c = .returned
          ((if node.getReturnType = .kVoid then none else r.1).map Datum.val) w₂ ∧
            (w₁ = [] ↔ w₂ = []) := by
  have hbuild : ∃ node st' s',
      Validator.validate listContext.functionRegistry mismatchedLists = .ok (node, st') ∧
        (buildEntryFunction listContext node).run entryState = .ok ((), s') ∧
        (listPass.run s'.builder.blocks).2 = true ∧ node.whensFine = true :=
    ⟨_, _, _, rfl, rfl, by decide +kernel, rfl⟩
  obtain ⟨node, st', s', hval, hrun, hchanged, hfine⟩ := hbuild
  refine ⟨node, st', s', hval, hrun, hchanged, ?_⟩
  exact canonicalized_entry_runs listMachine_bits listPass hrun (.inl hfine) id
    (fun _ _ h => h) listMachine_respects
    listMachine_kept (fun _ _ _ _ calledFunc _ _ _ _ _ => ⟨listMachine_kernel calledFunc⟩) Iff.rfl

end Example

end CommutativeCallCanonicalizerPass

end JitFusion
