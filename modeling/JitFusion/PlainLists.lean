/-
# List constants without NaN and negative zero

The generator keeps one constant for all list literals that `<` does not tell apart.  The literals
of a text have no sign, so they are never a NaN or a negative zero, and then equivalent lists are
equal: each list has the constant that is the list (`literalOf_eq_list`).

What the interpreter makes of a list is a parameter of it.  With plain lists the code of an entry
function is that of the interpreter that takes every list for itself (`eval_literalOf`), whatever
else the function holds.
-/
import JitFusion.EntryFunction
import JitFusion.Typing

namespace JitFusion

/-! ## 1. The lists of a tree -/

namespace ExecNode

mutual

/-- The list constants of a tree. -/
def lists : ExecNode → List ConstantListValueType
  | entryArgument _ | execContext _ | output _ | constantValue _ _ | ref _ _ => []
  | constantListValue _ valList => [valList]
  | unaryOP _ _ child => lists child
  | binaryOP _ _ left right => lists left ++ lists right
  | function _ _ args | ifNode _ args | switchNode _ args | ifBlock _ args => argsLists args
  | noOP _ args _ => stmtsLists args

def argsLists : List ExecNode → List ConstantListValueType
  | [] => []
  | arg :: args => lists arg ++ argsLists args

def stmtsLists : List (VarInfo × ExecNode) → List ConstantListValueType
  | [] => []
  | (_, arg) :: args => lists arg ++ stmtsLists args

end

end ExecNode

namespace Validator

variable {reg : FunctionRegistry}

mutual

/-- The validator leaves the list constants as they are. -/
theorem Visits.lists {node node' : ExecNode} {st st' : ScopeStack VarEntry} :
    Visits reg st node node' st' → node'.lists = node.lists
  | .entryArgument | .execContext | .output | .constantValue | .constantListValue | .ref _ => rfl
  | .unaryOP hc _ => hc.lists
  | .binaryOP hl hr _ => congrArg₂ (· ++ ·) hl.lists hr.lists
  | .function ha _ | .ifNode _ ha _ | .switchNode _ ha _ => ha.lists
  | .noOP hs => hs.lists
  | .ifBlock _ hb => hb.lists

theorem VisitsArgs.lists {args args' : List ExecNode} {st st' : ScopeStack VarEntry} :
    VisitsArgs reg st args args' st' → ExecNode.argsLists args' = ExecNode.argsLists args
  | .nil => rfl
  | .cons h _ hs => congrArg₂ (· ++ ·) h.lists hs.lists

theorem VisitsStmts.lists {isolated : Bool} {args args' : List (VarInfo × ExecNode)}
    {st st' : ScopeStack VarEntry} : VisitsStmts reg isolated st args args' st' →
      ExecNode.stmtsLists args' = ExecNode.stmtsLists args
  | .nil => rfl
  | .cons h _ hs => congrArg₂ (· ++ ·) h.lists hs.lists

theorem VisitsBranches.lists {acc acc' : Scope ValueType} {args args' : List ExecNode}
    {st st' : ScopeStack VarEntry} : VisitsBranches reg acc st args args' acc' st' →
      ExecNode.argsLists args' = ExecNode.argsLists args
  | .nil => rfl
  | .elseBody h _ => congrArg₂ (· ++ ·) h.lists rfl
  | .cons hc _ h _ hs => congrArg₂ (· ++ ·) hc.lists (congrArg₂ (· ++ ·) h.lists hs.lists)

end

end Validator

/-! ## 2. The keys of the cache -/

namespace CodeGen

open Checked

section Keys

variable {ctx : Context} {K : ConstantListValueType → Prop}

/-- The keys of the cache satisfy `K`. -/
def Keys (K : ConstantListValueType → Prop) (s : State) : Prop := ∀ e ∈ s.constListCache, K e.1

section Steps

variable {α : Type} {node : ExecNode} {m : Gen (Option Value)}

theorem returnNotOk_keys (x : Except Status α) : Maintains (Keys K) (returnNotOk x) := by
  cases x with
  | ok a => exact .pure a
  | error e => exact .throw _

theorem deref_keys (p : Option α) : Maintains (Keys K) (deref p) := by
  cases p with
  | some a => exact .pure a
  | none => exact .throw _

theorem createBlock_keys (label : Label) : Maintains (Keys K) (createBlock label) := by
  intro s a s' hs hrun
  rw [(createBlock_run.mp hrun).2]
  exact hs

theorem emit_keys {n : Nat} (inputs : Fin n → Value) (x : IRExpr n) :
    Maintains (Keys K) (emit inputs x) := by
  intro s a s' hs hrun
  rw [(emit_run.mp hrun).2]
  exact hs

theorem createPhi_keys (type : LLVMType) (incoming : List (Ssa.Operand Literal × Nat)) :
    Maintains (Keys K) (createPhi type incoming) := by
  intro s a s' hs hrun
  rw [(createPhi_run.mp hrun).2]
  exact hs

theorem getInsertBlock_keys : Maintains (Keys K) getInsertBlock := .bind .get fun _ => .pure _

/-- The cache is left alone. -/
theorem modify_keys {f : State → State} (hf : ∀ s, (f s).constListCache = s.constListCache) :
    Maintains (Keys K) (modify f : Gen Unit) :=
  .modify fun s hs => by
    unfold Keys
    rw [hf]
    exact hs

theorem getValue_keys (h : Maintains (Keys K) m) : Maintains (Keys K) (getValue node m) :=
  .bind h fun _ => .bind (modify_keys fun _ => rfl) fun _ => .pure _

theorem getCondition_keys {what : String} (h : Maintains (Keys K) m) :
    Maintains (Keys K) (getCondition what node m) :=
  .bind (getValue_keys h) fun v => .bind (deref_keys v) fun _ => .bind (returnNotOk_keys _) fun _ =>
    emit_keys _ _

theorem getBranchValue_keys {ret : ValueType} {mergeBlock : Nat} (h : Maintains (Keys K) m) :
    Maintains (Keys K) (getBranchValue node m ret mergeBlock) :=
  .bind (getValue_keys h) fun v => .bind (deref_keys v) fun _ => .bind (returnNotOk_keys _) fun _ =>
    .bind (emit_keys _ _) fun _ => .bind getInsertBlock_keys fun _ =>
      .bind (modify_keys fun _ => rfl) fun _ => .pure _

theorem getBranchBody_keys {mergeBlock : Nat} (h : Maintains (Keys K) m) :
    Maintains (Keys K) (getBranchBody node m mergeBlock) :=
  .bind (modify_keys fun _ => rfl) fun _ => .bind (getValue_keys h) fun _ => .bind .get fun _ =>
    .bind getInsertBlock_keys fun _ => .bind (modify_keys fun _ => rfl) fun _ =>
      .bind (modify_keys fun _ => rfl) fun _ => .pure _

theorem incomingOf_keys (name : String) (original : Value) (info : BranchInfo) :
    Maintains (Keys K) (incomingOf name original info) := by
  unfold incomingOf
  split
  · exact .pure _
  · exact .bind (deref_keys _) fun _ => .pure _

theorem incomings_keys (name : String) (original : Value) (infos : List BranchInfo) :
    Maintains (Keys K) (infos.mapM (incomingOf name original)) := by
  induction infos with
  | nil => exact .pure _
  | cons info infos ih =>
    rw [List.mapM_cons]
    exact .bind (incomingOf_keys name original info) fun _ => .bind ih fun _ => .pure _

theorem fallthroughOf_keys (hasElse : Bool) (original : Value) (branches : IfBranches) :
    Maintains (Keys K) (fallthroughOf hasElse original branches) := by
  unfold fallthroughOf
  split
  · exact .pure _
  · exact .bind (deref_keys _) fun _ => .pure _

theorem mergeVars_keys (hasElse : Bool) (branches : IfBranches) (names : List String) :
    Maintains (Keys K) (mergeVars hasElse branches names) := by
  induction names with
  | nil => exact .pure _
  | cons name names ih =>
    rw [mergeVars]
    refine .bind .get fun s => ?_
    split
    · exact .throw _
    · exact .bind (deref_keys _) fun original => .bind (incomings_keys name original _) fun _ =>
        .bind (fallthroughOf_keys hasElse original branches) fun _ => .bind (createPhi_keys _ _)
          fun _ => .bind (modify_keys fun _ => rfl) fun _ => ih

theorem call_keys (ret : ValueType) (sign : FunctionSignature) (args : List Value) :
    Maintains (Keys K) (call ctx ret sign args) := by
  refine .bind (returnNotOk_keys _) fun (sign, fs) => ?_
  dsimp only
  split
  · split
    · exact .throw _
    · split
      · exact .pure _
      · exact .bind (emit_keys _ _) fun _ => .pure _
  · exact .bind (returnNotOk_keys _) fun _ => .bind (emit_keys _ _) fun _ => .pure _

end Steps

mutual

/-- **The keys of the cache are list constants of the tree.** -/
theorem visit_keys : ∀ node : ExecNode, (∀ l ∈ node.lists, K l) →
    Maintains (Keys K) (visit ctx node)
  | .entryArgument _, _ | .execContext _, _ | .output _, _ | .constantValue _ _, _ => by
    rw [visit]
    exact .pure _
  | .constantListValue _ valList, h => by
    rw [visit]
    refine .bind .get fun s => ?_
    split
    · exact .pure _
    · refine .bind (.modify fun s hs e he => ?_) fun _ => .pure _
      rcases List.mem_append.mp he with he | he
      · exact hs e he
      · rw [List.mem_singleton.mp he]
        exact h valList List.mem_cons_self
  | .unaryOP _ op child, h => by
    rw [visit]
    refine .bind (getValue_keys (visit_keys child h)) fun v => ?_
    split
    · exact .pure _
    · exact .bind (deref_keys _) fun _ => .bind (returnNotOk_keys _) fun _ =>
        .bind (emit_keys _ _) fun _ => .pure _
  | .binaryOP _ op left right, h => by
    have hl := visit_keys left fun l hl => h l (List.mem_append_left _ hl)
    have hr := visit_keys right fun l hl => h l (List.mem_append_right _ hl)
    rw [visit]
    split
    · refine .bind (createBlock_keys _) fun _ => .bind (createBlock_keys _) fun _ =>
        .bind (getCondition_keys hl) fun _ => .bind getInsertBlock_keys fun _ => ?_
      split
      all_goals
        exact .bind (modify_keys fun _ => rfl) fun _ => .bind (modify_keys fun _ => rfl) fun _ =>
          .bind (getCondition_keys hr) fun _ => .bind getInsertBlock_keys fun _ =>
            .bind (modify_keys fun _ => rfl) fun _ => .bind (modify_keys fun _ => rfl) fun _ =>
              .bind (createPhi_keys _ _) fun _ => .bind (emit_keys _ _) fun _ => .pure _
    · exact .bind (getValue_keys hl) fun _ => .bind (getValue_keys hr) fun _ =>
        .bind (deref_keys _) fun _ => .bind (deref_keys _) fun _ => .bind (returnNotOk_keys _)
          fun _ => .bind (emit_keys _ _) fun _ => .pure _
  | .function _ _ args, h => by
    rw [visit]
    exact .bind (visitArgs_keys args h) fun _ => call_keys _ _ _
  | .noOP _ args isolated, h => by
    rw [visit]
    exact .bind (visitStmts_keys isolated args h) fun _ => .pure _
  | .ifNode _ args, h => by
    unfold visit
    split
    · next cond then_ else_ =>
      have hc := visit_keys cond fun l hl => h l (List.mem_append_left _ hl)
      have ht := visit_keys then_ fun l hl =>
        h l (List.mem_append_right _ (List.mem_append_left _ hl))
      have he := visit_keys else_ fun l hl =>
        h l (List.mem_append_right _ (List.mem_append_right _ (List.mem_append_left _ hl)))
      exact .bind (returnNotOk_keys _) fun _ => .bind (getCondition_keys hc) fun _ =>
        .bind (createBlock_keys _) fun _ => .bind (createBlock_keys _) fun _ =>
          .bind (createBlock_keys _) fun _ => .bind (modify_keys fun _ => rfl) fun _ =>
            .bind (modify_keys fun _ => rfl) fun _ => .bind (getBranchValue_keys ht) fun _ =>
              .bind (modify_keys fun _ => rfl) fun _ => .bind (getBranchValue_keys he) fun _ =>
                .bind (modify_keys fun _ => rfl) fun _ =>
                  .bind (createPhi_keys _ _) fun _ => .pure _
    · exact .throw _
  | .switchNode _ args, h => by
    rw [visit]
    exact .bind (returnNotOk_keys _) fun _ => .bind getInsertBlock_keys fun _ =>
      .bind (createBlock_keys _) fun _ => .bind (visitSwitch_keys _ _ args h) fun _ =>
        .bind (modify_keys fun _ => rfl) fun _ => .bind (modify_keys fun _ => rfl) fun _ =>
          .bind (modify_keys fun _ => rfl) fun _ => .bind (createPhi_keys _ _) fun _ => .pure _
  | .ifBlock _ args, h => by
    rw [visit]
    exact .bind getInsertBlock_keys fun _ => .bind (createBlock_keys _) fun _ =>
      .bind (visitIfBranches_keys _ args h) fun _ => .bind (modify_keys fun _ => rfl) fun _ =>
        .bind (modify_keys fun _ => rfl) fun _ => .bind (modify_keys fun _ => rfl) fun _ =>
          .bind (mergeVars_keys _ _ _) fun _ => .pure _
  | .ref _ name, _ => by
    rw [visit]
    refine .bind .get fun s => ?_
    split
    · exact .throw _
    · exact .pure _

theorem visitArgs_keys : ∀ args : List ExecNode, (∀ l ∈ ExecNode.argsLists args, K l) →
    Maintains (Keys K) (visitArgs ctx args)
  | [], _ => .pure _
  | arg :: args, h => by
    rw [visitArgs]
    exact .bind (getValue_keys (visit_keys arg fun l hl => h l (List.mem_append_left _ hl)))
      fun _ => .bind (deref_keys _) fun _ =>
        .bind (visitArgs_keys args fun l hl => h l (List.mem_append_right _ hl)) fun _ => .pure _

theorem visitStmts_keys (isolated : Bool) : ∀ args : List (VarInfo × ExecNode),
    (∀ l ∈ ExecNode.stmtsLists args, K l) → Maintains (Keys K) (visitStmts ctx isolated args)
  | [], _ => .pure _
  | (var, arg) :: args, h => by
    intro s u s' hs hrun
    obtain ⟨v, s₁, harg, hargs⟩ := visitStmts_cons_run.mp hrun
    refine visitStmts_keys isolated args (fun l hl => h l (List.mem_append_right _ hl)) _ _ _ ?_
      hargs
    have hopen : Keys K (openStmt isolated s) := by
      cases isolated <;> exact hs
    have harg' := getValue_keys (visit_keys arg fun l hl => h l (List.mem_append_left _ hl)) _ _ _
      hopen harg
    have hclose : (closeStmt isolated (bindResult var.name v s₁)).constListCache =
        s₁.constListCache := by
      cases isolated <;> exact bindResult_cache _ _ _
    unfold Keys
    rw [hclose]
    exact harg'

theorem visitSwitch_keys (ret : ValueType) (mergeBlock : Nat) : ∀ args : List ExecNode,
    (∀ l ∈ ExecNode.argsLists args, K l) → Maintains (Keys K) (visitSwitch ctx ret mergeBlock args)
  | [], _ => .throw _
  | [default_], h => by
    rw [visitSwitch]
    exact .bind (createBlock_keys _) fun _ => .bind (modify_keys fun _ => rfl) fun _ =>
      .bind (getBranchValue_keys (visit_keys default_ fun l hl => h l (List.mem_append_left _ hl)))
        fun _ => .pure _
  | cond :: then_ :: args, h => by
    have hc := visit_keys cond fun l hl => h l (List.mem_append_left _ hl)
    have ht := visit_keys then_ fun l hl =>
      h l (List.mem_append_right _ (List.mem_append_left _ hl))
    have ha := visitSwitch_keys ret mergeBlock args fun l hl =>
      h l (List.mem_append_right _ (List.mem_append_right _ hl))
    rw [visitSwitch]
    exact .bind ha fun _ => .bind (createBlock_keys _) fun _ => .bind (modify_keys fun _ => rfl)
      fun _ => .bind (getCondition_keys hc) fun _ => .bind (createBlock_keys _) fun _ =>
        .bind (modify_keys fun _ => rfl) fun _ => .bind (modify_keys fun _ => rfl) fun _ =>
          .bind (getBranchValue_keys ht) fun _ => .pure _

theorem visitIfBranches_keys (mergeBlock : Nat) : ∀ args : List ExecNode,
    (∀ l ∈ ExecNode.argsLists args, K l) → Maintains (Keys K) (visitIfBranches ctx mergeBlock args)
  | [], _ => .pure _
  | [body], h => by
    rw [visitIfBranches]
    exact .bind (createBlock_keys _) fun _ => .bind (modify_keys fun _ => rfl) fun _ =>
      .bind (getBranchBody_keys (visit_keys body fun l hl => h l (List.mem_append_left _ hl)))
        fun _ => .pure _
  | cond :: body :: args, h => by
    have hc := visit_keys cond fun l hl => h l (List.mem_append_left _ hl)
    have hb := visit_keys body fun l hl =>
      h l (List.mem_append_right _ (List.mem_append_left _ hl))
    have ha := visitIfBranches_keys mergeBlock args fun l hl =>
      h l (List.mem_append_right _ (List.mem_append_right _ hl))
    rw [visitIfBranches]
    exact .bind ha fun _ => .bind (createBlock_keys _) fun _ => .bind (modify_keys fun _ => rfl)
      fun _ => .bind (getCondition_keys hc) fun _ => .bind (createBlock_keys _) fun _ =>
        .bind (modify_keys fun _ => rfl) fun _ => .bind (modify_keys fun _ => rfl) fun _ =>
          .bind (getBranchBody_keys hb) fun _ => .pure _

end

end Keys

end CodeGen

/-! ## 3. The lists that count -/

namespace Interpreter

open CodeGen

variable {V W E : Type} {ctx : Context} {sem : Ssa.Semantics Opcode Literal V W E}
  {lit lit' : ConstantListValueType → Literal}

mutual

/-- Only the literals of the tree count. -/
theorem eval_congr : ∀ (node : ExecNode) (store : Store V), (∀ l ∈ node.lists, lit l = lit' l) →
    eval ctx sem lit node store = eval ctx sem lit' node store
  | .entryArgument _, _, _ | .execContext _, _, _ | .output _, _, _ | .constantValue _ _, _, _
  | .ref _ _, _, _ => by rw [eval, eval]
  | .constantListValue _ valList, _, h => by rw [eval, eval, h valList List.mem_cons_self]
  | .unaryOP _ op child, store, h => by
    rw [eval, eval, eval_congr child store h]
  | .binaryOP _ op left right, store, h => by
    have hr := fun store => eval_congr right store fun l hl => h l (List.mem_append_right _ hl)
    rw [eval, eval, eval_congr left store fun l hl => h l (List.mem_append_left _ hl)]
    simp only [hr]
  | .function _ _ args, store, h => by
    rw [eval, eval, evalArgs_congr args store h]
  | .noOP _ args isolated, store, h => by
    rw [eval, eval, evalStmts_congr isolated args store h]
  | .ifNode _ args, store, h => by
    unfold eval
    split
    · next cond then_ else_ =>
      have hc := eval_congr cond store fun l hl => h l (List.mem_append_left _ hl)
      have ht := fun store => eval_congr then_ store fun l hl =>
        h l (List.mem_append_right _ (List.mem_append_left _ hl))
      have he := fun store => eval_congr else_ store fun l hl =>
        h l (List.mem_append_right _ (List.mem_append_right _ (List.mem_append_left _ hl)))
      simp only [hc, ht, he]
    · rfl
  | .switchNode info args, store, h => by
    rw [eval, eval, evalSwitch_congr info.returnType args store h]
  | .ifBlock _ args, store, h => by
    rw [eval, eval, evalBranches_congr args store h]

theorem evalArgs_congr : ∀ (args : List ExecNode) (store : Store V),
    (∀ l ∈ ExecNode.argsLists args, lit l = lit' l) →
      evalArgs ctx sem lit args store = evalArgs ctx sem lit' args store
  | [], _, _ => rfl
  | arg :: args, store, h => by
    have ha := fun store => evalArgs_congr args store fun l hl => h l (List.mem_append_right _ hl)
    rw [evalArgs, evalArgs, eval_congr arg store fun l hl => h l (List.mem_append_left _ hl)]
    simp only [ha]

theorem evalStmts_congr (isolated : Bool) : ∀ (args : List (VarInfo × ExecNode)) (store : Store V),
    (∀ l ∈ ExecNode.stmtsLists args, lit l = lit' l) →
      evalStmts ctx sem lit isolated args store = evalStmts ctx sem lit' isolated args store
  | [], _, _ => rfl
  | (var, arg) :: args, store, h => by
    have ha := fun store => evalStmts_congr isolated args store fun l hl =>
      h l (List.mem_append_right _ hl)
    rw [evalStmts, evalStmts, eval_congr arg store fun l hl => h l (List.mem_append_left _ hl)]
    simp only [ha]

theorem evalSwitch_congr (ret : ValueType) : ∀ (args : List ExecNode) (store : Store V),
    (∀ l ∈ ExecNode.argsLists args, lit l = lit' l) →
      evalSwitch ctx sem lit ret args store = evalSwitch ctx sem lit' ret args store
  | [], _, _ => rfl
  | [default_], store, h => by
    rw [evalSwitch, evalSwitch, eval_congr default_ store fun l hl =>
      h l (List.mem_append_left _ hl)]
  | cond :: then_ :: args, store, h => by
    have hc := eval_congr cond store fun l hl => h l (List.mem_append_left _ hl)
    have ht := fun store => eval_congr then_ store fun l hl =>
      h l (List.mem_append_right _ (List.mem_append_left _ hl))
    have ha := fun store => evalSwitch_congr ret args store fun l hl =>
      h l (List.mem_append_right _ (List.mem_append_right _ hl))
    rw [evalSwitch, evalSwitch, hc]
    simp only [ht, ha]

theorem evalBranches_congr : ∀ (args : List ExecNode) (store : Store V),
    (∀ l ∈ ExecNode.argsLists args, lit l = lit' l) →
      evalBranches ctx sem lit args store = evalBranches ctx sem lit' args store
  | [], _, _ => rfl
  | [body], store, h => by
    rw [evalBranches, evalBranches, eval_congr body store fun l hl =>
      h l (List.mem_append_left _ hl)]
  | cond :: body :: args, store, h => by
    have hc := eval_congr cond store fun l hl => h l (List.mem_append_left _ hl)
    have hb := fun store => eval_congr body store fun l hl =>
      h l (List.mem_append_right _ (List.mem_append_left _ hl))
    have ha := fun store => evalBranches_congr args store fun l hl =>
      h l (List.mem_append_right _ (List.mem_append_right _ hl))
    rw [evalBranches, evalBranches, hc]
    simp only [hb, ha]

end

end Interpreter

/-! ## 4. Plain lists -/

namespace CodeGen

open Checked Interpreter

/-- No element is a NaN or a negative zero. -/
def IsPlain : ConstantListValueType → Prop
  | .f32 l => ∀ b ∈ l, isNaN32 b = false ∧ b ≠ .intMin 32
  | .f64 l => ∀ b ∈ l, isNaN64 b = false ∧ b ≠ .intMin 64
  | _ => True

theorem eq_zero_of_shiftLeft {w : Nat} {a : BitVec (w + 1)} (h : a <<< 1 = 0)
    (ha : a ≠ .intMin (w + 1)) : a = 0 := by
  have hnat := congrArg BitVec.toNat h
  rw [BitVec.toNat_shiftLeft, Nat.shiftLeft_eq, Nat.pow_one] at hnat
  have hmin : a.toNat ≠ 2 ^ w := by
    intro he
    refine ha (BitVec.eq_of_toNat_eq ?_)
    rw [he, BitVec.toNat_intMin, Nat.add_sub_cancel]
    exact (Nat.mod_eq_of_lt (Nat.pow_lt_pow_right (by decide) (Nat.lt_succ_self w))).symm
  have hlt := a.isLt
  refine BitVec.eq_of_toNat_eq ?_
  rw [Nat.pow_succ] at hlt hnat
  change a.toNat * 2 % (2 ^ w * 2) = 0 at hnat
  rw [Nat.mul_mod_mul_right] at hnat
  change a.toNat = 0
  have hmod : a.toNat % 2 ^ w = 0 := by omega
  obtain ⟨q, hq⟩ := Nat.dvd_of_mod_eq_zero hmod
  have hpos : 0 < 2 ^ w := Nat.two_pow_pos w
  have hq2 : q < 2 := by
    rw [hq] at hlt
    exact Nat.lt_of_mul_lt_mul_left hlt
  rcases (by omega : q = 0 ∨ q = 1) with rfl | rfl
  · rw [hq, Nat.mul_zero]
  · rw [Nat.mul_one] at hq
    exact absurd hq hmin

theorem eq_of_floatEquivalent {w : Nat} {isNaN : BitVec (w + 1) → Bool} {a b : BitVec (w + 1)}
    (ha : isNaN a = false ∧ a ≠ .intMin (w + 1)) (hb : isNaN b = false ∧ b ≠ .intMin (w + 1))
    (h : floatEquivalent isNaN a b = true) : a = b := by
  simp only [floatEquivalent, ha.1, hb.1, Bool.false_or, Bool.or_eq_true, beq_iff_eq,
    Bool.and_eq_true] at h
  rcases h with h | ⟨h, h'⟩
  · exact h
  · rw [eq_zero_of_shiftLeft h ha.2, eq_zero_of_shiftLeft h' hb.2]

theorem eq_of_listEquivalent {α : Type} {P : α → Prop} {equivalent : α → α → Bool}
    (heq : ∀ {a b}, P a → P b → equivalent a b = true → a = b) {as bs : List α}
    (ha : ∀ a ∈ as, P a) (hb : ∀ b ∈ bs, P b) (h : listEquivalent equivalent as bs = true) :
    as = bs := by
  induction as generalizing bs with
  | nil =>
    cases bs with
    | nil => rfl
    | cons b bs => cases h
  | cons a as ih =>
    cases bs with
    | nil => cases h
    | cons b bs =>
      rw [listEquivalent, Bool.and_eq_true_iff] at h
      rw [heq (ha a List.mem_cons_self) (hb b List.mem_cons_self) h.1,
        ih (fun a h => ha a (List.mem_cons_of_mem _ h))
          (fun b h => hb b (List.mem_cons_of_mem _ h)) h.2]

/-- Plain lists that are equivalent are the same. -/
theorem IsPlain.eq {k l : ConstantListValueType} (hk : IsPlain k) (hl : IsPlain l)
    (h : constListEquivalent k l = true) : k = l := by
  cases k <;> cases l <;> simp only [constListEquivalent, Bool.false_eq_true, beq_iff_eq] at h
  case f32.f32 => exact congrArg _ (eq_of_listEquivalent eq_of_floatEquivalent hk hl h)
  case f64.f64 => exact congrArg _ (eq_of_listEquivalent eq_of_floatEquivalent hk hl h)
  all_goals exact congrArg _ h

/-- With plain keys a plain list has its own constant. -/
theorem literalOf_eq_list {cache : List (ConstantListValueType × Value)} {l : ConstantListValueType}
    (hc : ∀ e ∈ cache, IsPlain e.1) (hl : IsPlain l) : literalOf cache l = .list l := by
  rw [literalOf]
  cases hfind : cache.find? fun e => constListEquivalent e.1 l with
  | none => rfl
  | some e =>
    have hkey : constListEquivalent e.1 l = true :=
      List.find?_some (p := fun e : ConstantListValueType × Value =>
        constListEquivalent e.1 l) hfind
    rw [Option.map_some, Option.getD_some, (hc e (List.mem_of_find?_eq_some hfind)).eq hl hkey]

variable {V W E : Type} {ctx : Context} {sem : Ssa.Semantics Opcode Literal V W E}

/-- In the entry function of a tree with plain lists all constants are its own. -/
theorem eval_literalOf {node : ExecNode} {s' : State}
    (hrun : (buildEntryFunction ctx node).run entryState = .ok ((), s'))
    (hplain : ∀ l ∈ node.lists, IsPlain l) (store : Store V) :
    eval ctx sem (literalOf s'.constListCache) node store =
      eval ctx sem Literal.list node store := by
  obtain ⟨v, s₁, hvalue, rfl⟩ := buildEntryFunction_run hrun
  have hkeys : Keys IsPlain s₁ :=
    getValue_keys (visit_keys node hplain) entryState v s₁ (fun _ h => nomatch h) hvalue
  exact eval_congr node store fun l hl => literalOf_eq_list hkeys (hplain l hl)

end CodeGen

end JitFusion
