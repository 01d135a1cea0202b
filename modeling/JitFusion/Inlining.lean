/-
# Inlining

`BuildExpression` keeps no statements: a reference is a copy of the tree of its definition, and the
tree of the last statement is all that is left.  This module compares that tree with the program it
comes from, whose statements are evaluated in order and bind their names in an environment.

* `visit_cloned`, `Visits.setLocation`: a copy, and a tree whose location is set, has the type of
  the original.
* `inline_both`: in an environment that agrees with the definitions, a statement and its inlined
  tree both have a type or both have none, and if they have one it is the same and so is the value.
* `inlined_evaluates`: so the last statement and the tree of the program have the same meaning.

One thing tells the two apart.  The validator rejects a division by a literal zero, and a name that
stands for one is a literal once it is inlined (`divides`).
-/
import Mathlib.Data.List.Induction
import JitFusion.AstBuild
import JitFusion.Interpreter
import JitFusion.Typing

namespace JitFusion

open Validator TypeHelper

/-! ## 1. Copies have the type of the original -/

namespace Athena

section

variable {reg : FunctionRegistry}

theorem length_clonedArgs (args : List ExecNode) : (clonedArgs args).length = args.length := by
  induction args with
  | nil => rfl
  | cons arg args ih => exact congrArg (· + 1) ih

mutual

/-- **The validator does the same with a copy**: it does not read the recorded types. -/
theorem visit_cloned : ∀ e : ExecNode, visit reg (cloned e) = visit reg e
  | .entryArgument _ | .execContext _ | .output _ | .constantValue _ _ | .constantListValue _ _
  | .ref _ _ => rfl
  | .unaryOP _ _ child => by simp only [cloned, visit, visit_cloned child]; rfl
  | .binaryOP _ _ left right => by
    simp only [cloned, visit, visit_cloned left, visit_cloned right]; rfl
  | .function _ _ args => by simp only [cloned, visit, visitArgs_clonedArgs _ args]; rfl
  | .noOP _ args _ => by simp only [cloned, visit, visitStmts_clonedStmts _ args]; rfl
  | .ifNode _ args => by
    simp only [cloned, visit, visitArgs_clonedArgs _ args, length_clonedArgs]; rfl
  | .switchNode _ args => by
    simp only [cloned, visit, visitArgs_clonedArgs _ args, length_clonedArgs]; rfl
  | .ifBlock _ args => by
    simp only [cloned, visit, visitBranches_clonedArgs args, length_clonedArgs]; rfl

theorem visitArgs_clonedArgs (voidError : ExecNode → Status) : ∀ args : List ExecNode,
    visitArgs reg voidError (clonedArgs args) = visitArgs reg voidError args
  | [] => rfl
  | arg :: args => by
    simp only [clonedArgs, visitArgs, visit_cloned arg, visitArgs_clonedArgs voidError args]

theorem visitStmts_clonedStmts (isolated : Bool) : ∀ args : List (VarInfo × ExecNode),
    visitStmts reg isolated (clonedStmts args) = visitStmts reg isolated args
  | [] => rfl
  | (_, arg) :: args => by
    simp only [clonedStmts, visitStmts, visit_cloned arg, visitStmts_clonedStmts isolated args]

theorem visitBranches_clonedArgs : ∀ (args : List ExecNode) (acc : Scope ValueType),
    visitBranches reg acc (clonedArgs args) = visitBranches reg acc args
  | [], _ => rfl
  | [body], _ => by simp only [clonedArgs, visitBranches, visit_cloned body]
  | cond :: body :: args, _ => by
    simp only [clonedArgs, visitBranches, visit_cloned cond, visit_cloned body,
      visitBranches_clonedArgs args]

end

/-- The type of a unary operation, where it has one. -/
theorem unaryOPType_congr {loc loc' : SourceLocation} {op : UnaryOPType} {child t : ValueType}
    (h : unaryOPType loc op child = .ok t) : unaryOPType loc' op child = .ok t := by
  unfold unaryOPType at h ⊢
  split at h
  · exact nomatch h
  · next hv =>
    rw [if_neg hv]
    split at h
    · exact nomatch h
    · next hn =>
      rw [if_neg hn]
      cases op with
      | kPlus | kNot => exact h
      | kMinus => cases child <;> exact h
      | kBitwiseNot =>
        simp only at h ⊢
        split at h
        · exact nomatch h
        · next hi => rwa [if_neg hi]

/-- The type of a binary operation by the types of its operands, where it has one and the right
operand is not a literal zero. -/
def binaryTable (op : BinaryOPType) (lhs rhs : ValueType) : Option ValueType :=
  if lhs = .kVoid ∨ rhs = .kVoid then none
  else if isLogicalBinaryOPType op then
    if isNumericType lhs ∧ isNumericType rhs then some .kU8 else none
  else if isRelationalBinaryOPType op then
    if (isNumericType lhs ∧ isNumericType rhs) ∨ (lhs = .kString ∧ rhs = .kString) then some .kU8
    else none
  else if isBitwiseBinaryOPType op then
    if isIntegerType lhs ∧ isIntegerType rhs then
      if op = .kBitwiseShiftLeft ∨ op = .kBitwiseShiftRight then some lhs
      else some (getPromotedType lhs rhs)
    else none
  else if op = .kAdd then
    if isNumericType lhs ∧ isNumericType rhs then some (getPromotedType lhs rhs)
    else if lhs = .kString ∧ rhs = .kString then some .kString
    else if isListType lhs ∧ lhs = rhs then some lhs
    else none
  else if isNumericType lhs ∧ isNumericType rhs then some (getPromotedType lhs rhs)
  else none

def isDivision (op : BinaryOPType) : Prop := op = .kDiv ∨ op = .kMod

instance : DecidablePred isDivision := fun _ => inferInstanceAs (Decidable (_ ∨ _))

theorem binaryOPType_eq_ok_iff {loc : SourceLocation} {op : BinaryOPType} {left right : ExecNode}
    {t : ValueType} : binaryOPType loc op left right = .ok t ↔
      binaryTable op left.getReturnType right.getReturnType = some t ∧
        ¬ (isDivision op ∧ isConstZero right = true) := by
  have hother : ∀ {c : BinaryOPType → Bool}, c .kDiv = false → c .kMod = false → c op = true →
      ¬ (isDivision op ∧ isConstZero right = true) := by
    rintro c hd hm hop ⟨rfl | rfl, -⟩
    · exact Bool.false_ne_true (hd.symm.trans hop)
    · exact Bool.false_ne_true (hm.symm.trans hop)
  unfold binaryOPType binaryTable
  generalize left.getReturnType = lhs
  generalize right.getReturnType = rhs
  by_cases hv : lhs = .kVoid ∨ rhs = .kVoid
  · simp only [if_pos hv, reduceCtorEq, false_and]
  rw [if_neg hv, if_neg hv]
  by_cases hl : isLogicalBinaryOPType op = true
  · rw [if_pos hl, if_pos hl, and_iff_left (hother rfl rfl hl)]
    split <;> simp
  rw [if_neg hl, if_neg hl]
  by_cases hr : isRelationalBinaryOPType op = true
  · rw [if_pos hr, if_pos hr, and_iff_left (hother rfl rfl hr)]
    split <;> simp
  rw [if_neg hr, if_neg hr]
  by_cases hb : isBitwiseBinaryOPType op = true
  · rw [if_pos hb, if_pos hb, and_iff_left (hother rfl rfl hb)]
    split
    · split <;> simp
    · simp
  rw [if_neg hb, if_neg hb]
  by_cases ha : op = .kAdd
  · have hdiv : ¬ (isDivision op ∧ isConstZero right = true) := by simp [isDivision, ha]
    rw [if_pos ha, if_pos ha, and_iff_left hdiv]
    split
    · simp
    · split
      · simp
      · split <;> simp
  rw [if_neg ha, if_neg ha]
  by_cases hn : isNumericType lhs = true ∧ isNumericType rhs = true
  · rw [if_pos hn, if_pos hn]
    by_cases hz : (op = .kDiv ∨ op = .kMod) ∧ isConstZero right = true
    · simp [isDivision, hz]
    · simp [isDivision, hz]
  · simp [hn]

theorem functionType_congr {loc loc' : SourceLocation} {funcName : String}
    {args args' : List ExecNode} {t : ValueType}
    (hargs : args.map ExecNode.getReturnType = args'.map ExecNode.getReturnType)
    (h : functionType reg loc funcName args = .ok t) :
    functionType reg loc' funcName args' = .ok t := by
  rw [functionType, callSignature, hargs] at h
  rw [functionType, callSignature]
  split at h
  · exact nomatch h
  · next hf => simpa only [hf] using h

theorem ifNodeType_congr {loc loc' : SourceLocation} {args args' : List ExecNode} {t : ValueType}
    (hargs : args.map ExecNode.getReturnType = args'.map ExecNode.getReturnType)
    (h : ifNodeType loc args = .ok t) : ifNodeType loc' args' = .ok t := by
  rcases args with _ | ⟨c, _ | ⟨a, _ | ⟨b, _ | ⟨d, args⟩⟩⟩⟩
  · simp [ifNodeType] at h
  · simp [ifNodeType] at h
  · simp [ifNodeType] at h
  · rcases args' with _ | ⟨c', _ | ⟨a', _ | ⟨b', _ | ⟨d', args'⟩⟩⟩⟩
    · simp at hargs
    · simp at hargs
    · simp at hargs
    · simp only [List.map_cons, List.map_nil, List.cons.injEq, and_true] at hargs
      obtain ⟨hc, ha, hb⟩ := hargs
      simp only [ifNodeType, hc, ha, hb] at h ⊢
      split at h
      · cases h
      · next hnum =>
        rw [if_neg hnum]
        split at h
        · next hpair => rwa [if_pos hpair]
        · next hpair =>
          rw [if_neg hpair]
          split at h
          · next heq => rwa [if_pos heq]
          · cases h
    · simp at hargs
  · simp [ifNodeType] at h

theorem switchBranch_congr {numeric complex : ValueType} {arg arg' : ExecNode}
    {types : ValueType × ValueType} (harg : arg.getReturnType = arg'.getReturnType)
    (h : switchBranch numeric complex arg = .ok types) :
    switchBranch numeric complex arg' = .ok types := by
  simp only [switchBranch, harg] at h ⊢
  split at h
  · next hn => rwa [if_pos hn]
  · next hn =>
    rw [if_neg hn]
    split at h
    · exact nomatch h
    · next hc => rwa [if_neg hc]

theorem switchBranches_congr {args args' : List ExecNode} {numeric complex : ValueType}
    {types : ValueType × ValueType}
    (hargs : args.map ExecNode.getReturnType = args'.map ExecNode.getReturnType)
    (h : switchBranches numeric complex args = .ok types) :
    switchBranches numeric complex args' = .ok types := by
  induction args using List.twoStepInduction generalizing args' numeric complex with
  | nil =>
    cases args' with
    | nil => exact h
    | cons d' args' => cases hargs
  | singleton d =>
    rcases args' with _ | ⟨d', _ | ⟨a', args'⟩⟩
    · cases hargs
    · exact switchBranch_congr (List.cons.inj hargs).1 h
    · cases (List.cons.inj hargs).2
  | cons_cons c a args ih _ =>
    rcases args' with _ | ⟨c', _ | ⟨a', args'⟩⟩
    · cases hargs
    · cases (List.cons.inj hargs).2
    obtain ⟨hc, ha, hrest⟩ : c.getReturnType = c'.getReturnType ∧
        a.getReturnType = a'.getReturnType ∧
        args.map ExecNode.getReturnType = args'.map ExecNode.getReturnType := by
      simpa using hargs
    rw [switchBranches, hc] at h
    rw [switchBranches]
    split at h
    · cases h
    · next hn =>
      rw [if_neg hn]
      cases hb : switchBranch numeric complex a with
      | error st =>
        rw [hb] at h
        cases h
      | ok types =>
        rw [hb] at h
        rw [switchBranch_congr ha hb]
        exact ih hrest h

theorem switchNodeType_congr {loc loc' : SourceLocation} {args args' : List ExecNode}
    {t : ValueType} (hargs : args.map ExecNode.getReturnType = args'.map ExecNode.getReturnType)
    (h : switchNodeType loc args = .ok t) : switchNodeType loc' args' = .ok t := by
  rw [switchNodeType] at h ⊢
  cases hb : switchBranches .kUnknown .kUnknown args with
  | error st =>
    rw [hb] at h
    exact nomatch h
  | ok types =>
    rw [hb] at h
    rw [switchBranches_congr hargs hb]
    simp only at h ⊢
    split at h
    · exact nomatch h
    · next hmix => rwa [if_neg hmix]

/-- A tree whose location is set has the type it had. -/
theorem Visits_setLocation {e a : ExecNode} {st st' : ScopeStack VarEntry}
    (h : Visits reg st e a st') (loc : SourceLocation) :
    Visits reg st (setLocation loc e) (setLocation loc a) st' := by
  cases h with
  | entryArgument => exact .entryArgument
  | execContext => exact .execContext
  | output => exact .output
  | constantValue => exact .constantValue
  | constantListValue => exact .constantListValue
  | unaryOP hc ht => exact .unaryOP hc (unaryOPType_congr ht)
  | binaryOP hl hr ht =>
    exact .binaryOP hl hr (binaryOPType_eq_ok_iff.mpr (binaryOPType_eq_ok_iff.mp ht))
  | function ha ht => exact .function ha (functionType_congr rfl ht)
  | noOP hs => exact .noOP hs
  | ifNode hn ha ht => exact .ifNode hn ha (ifNodeType_congr rfl ht)
  | switchNode hn ha ht => exact .switchNode hn ha (switchNodeType_congr rfl ht)
  | ifBlock hn hb => exact .ifBlock hn hb
  | ref h => exact .ref h

@[simp] theorem setLocation_setLocation (loc loc' : SourceLocation) (e : ExecNode) :
    setLocation loc (setLocation loc' e) = setLocation loc e := by
  cases e <;> rfl

@[simp] theorem setLocation_getLocation (e : ExecNode) : setLocation e.getLocation e = e := by
  cases e <;> rfl

@[simp] theorem getReturnType_setLocation (loc : SourceLocation) (e : ExecNode) :
    (setLocation loc e).getReturnType = e.getReturnType := by
  cases e <;> rfl

@[simp] theorem isConstZero_setLocation (loc : SourceLocation) (e : ExecNode) :
    isConstZero (setLocation loc e) = isConstZero e := by
  cases e with
  | constantValue info v => cases v <;> rfl
  | _ => rfl

@[simp] theorem isConstZero_cloned (e : ExecNode) : isConstZero (cloned e) = isConstZero e := by
  cases e with
  | constantValue info v => cases v <;> rfl
  | _ => rfl

/-- **A reference's copy of a definition has the type of the definition.** -/
theorem visits_copy {e a : ExecNode} {st st' : ScopeStack VarEntry} (loc : SourceLocation)
    (h : Visits reg st e a st') :
    Visits reg st (setLocation loc (cloned e)) (setLocation loc a) st' := by
  refine Visits_setLocation ?_ loc
  rw [← visit_run_eq_ok, visit_cloned]
  exact (visit_run_eq_ok e).mpr h

/-- A copy has a type only if the definition has one. -/
theorem visits_of_copy {e a : ExecNode} {st st' : ScopeStack VarEntry} {loc : SourceLocation}
    (h : Visits reg st (setLocation loc (cloned e)) a st') : ∃ a', Visits reg st e a' st' := by
  have h' := Visits_setLocation h (cloned e).getLocation
  rw [setLocation_setLocation, setLocation_getLocation, ← visit_run_eq_ok, visit_cloned] at h'
  exact ⟨_, (visit_run_eq_ok e).mp h'⟩

/-- The annotated tree keeps a literal. -/
theorem isConstZero_of_visits {e a : ExecNode} {st st' : ScopeStack VarEntry}
    (h : Visits reg st e a st') : isConstZero a = isConstZero e := by
  cases h with
  | @constantValue _ _ val => cases val <;> rfl
  | _ => rfl

end

end Athena

/-! ## 2. The statements in order -/

namespace Athena

open Interpreter

/-- What a tree means: its type and its value, if the validator accepts it. -/
abbrev Meaning (V : Type) := Option (ValueType × Option (Datum V))

/-- The environment the statements share: the type and the value of every name. -/
structure Environment (V : Type) where
  types : ScopeStack VarEntry := {}
  store : Store V := fun _ => none

/-- A statement binds its name; a name whose statement has no meaning is unknown. -/
def Environment.bind {V : Type} (env : Environment V) (name : String) (m : Meaning V) :
    Environment V :=
  if name = "" then env
  else
    match m with
    | some (t, v) => ⟨env.types.set name ⟨t, false⟩, Function.update env.store name (some v)⟩
    | none => { env with types := { env.types with top := env.types.top.erase name } }

section

variable {V W E : Type} (ctx : CodeGen.Context) (sem : Ssa.Semantics Opcode Literal V W E)
  (lit : ConstantListValueType → Literal)

/-- The meaning of an expression in an environment. -/
def evalStatement (e : ExecNode) (env : Environment V) : Checked.M W E (Meaning V) :=
  match validate ctx.functionRegistry e env.types with
  | .error _ => return none
  | .ok (e, _) => do
    let (v, _) ← eval ctx sem lit e env.store
    return some (e.getReturnType, v)

/-- **The sequential semantics**: the statements in order, and the meaning of the last one. -/
def evalProgram : List (VarInfo × ExecNode) → Environment V → Checked.M W E (Meaning V)
  | [], _ => return none
  | [(_, e)], env => evalStatement ctx sem lit e env
  | (var, e) :: args, env => do
    let m ← evalStatement ctx sem lit e env
    evalProgram args (env.bind var.name m)

end

/-- The operations have no effect: what one answers depends on its operands alone. -/
def SideEffectFree {V W E : Type} (sem : Ssa.Semantics Opcode Literal V W E) : Prop :=
  ∀ o vs, (∃ v, sem.op o vs = pure v) ∨ ∃ err, sem.op o vs = throw err

/-! ## 3. Runs without effects -/

section

variable {V W E : Type} {ctx : CodeGen.Context} {sem : Ssa.Semantics Opcode Literal V W E}
  {lit : ConstantListValueType → Literal} {α β : Type}

/-- The run answers or stops, and does not look at the world. -/
def Settled (m : Checked.M W E α) : Prop := (∃ x, m = pure x) ∨ ∃ err, m = throw err

theorem throw_bind (err : E) (f : α → Checked.M W E β) :
    ((throw err : Checked.M W E α) >>= f) = throw err := rfl

theorem Settled.pure (x : α) : Settled (pure x : Checked.M W E α) := .inl ⟨x, rfl⟩

theorem Settled.bind {m : Checked.M W E α} {f : α → Checked.M W E β} (h : Settled m)
    (hf : ∀ x, Settled (f x)) : Settled (m >>= f) := by
  rcases h with ⟨x, rfl⟩ | ⟨err, rfl⟩
  · rw [pure_bind]
    exact hf x
  · exact .inr ⟨err, throw_bind err f⟩

/-- A settled run that answers once answers always. -/
theorem Settled.eq_pure {m : Checked.M W E α} (h : Settled m) {x : α} {w w' : W}
    (hrun : m.run w = .ok (x, w')) : m = Pure.pure x ∧ w' = w := by
  rcases h with ⟨y, rfl⟩ | ⟨err, rfl⟩
  · obtain ⟨rfl, rfl⟩ := Checked.run_pure_eq_ok.mp hrun
    exact ⟨rfl, rfl⟩
  · exact absurd hrun Checked.run_throw_ne_ok

mutual

theorem settled_eval (hfree : SideEffectFree sem) {n : Nat} (inputs : Fin n → V) :
    ∀ x : IRExpr n, Settled (x.eval sem inputs)
  | .input _ | .arg _ | .const _ => .pure _
  | .op o args => (settled_evalArgs hfree inputs args).bind fun vs => hfree o vs

theorem settled_evalArgs (hfree : SideEffectFree sem) {n : Nat} (inputs : Fin n → V) :
    ∀ xs : List (IRExpr n), Settled (Ssa.Expr.evalArgs sem inputs xs)
  | [] => .pure _
  | x :: xs =>
    (settled_eval hfree inputs x).bind fun _ =>
      (settled_evalArgs hfree inputs xs).bind fun _ => .pure _

end

theorem settled_evalCode (hfree : SideEffectFree sem) {n : Nat} (code : Except Status (IRExpr n))
    (inputs : Fin n → Datum V) : Settled (evalCode sem code inputs) := by
  cases code with
  | error _ => exact .pure _
  | ok x => exact (settled_eval hfree _ x).bind fun _ => .pure _

theorem settled_test (hfree : SideEffectFree sem) (value : Option (Datum V)) :
    Settled (test sem value) := by
  cases value with
  | none => exact .pure _
  | some x => exact (settled_evalCode hfree _ _).bind fun _ => .pure _

theorem settled_convert (hfree : SideEffectFree sem) (fromType toType : ValueType)
    (value : Option (Datum V)) : Settled (convert sem fromType toType value) := by
  unfold convert
  split
  · exact (settled_evalCode hfree _ _).bind fun _ => .pure _
  · exact .pure _

theorem settled_callFunction (hfree : SideEffectFree sem) (ret : ValueType)
    (sign : FunctionSignature) {n : Nat} (args : Fin n → Datum V) :
    Settled (callFunction ctx sem ret sign args) := by
  unfold callFunction
  split
  · exact .pure _
  · split
    · split
      · exact .pure _
      · exact settled_evalCode hfree _ _
    · split
      · exact .pure _
      · exact (settled_evalCode hfree _ _).bind fun _ => .pure _

/-- Two runs over two stores that answer the same and leave the stores as they are. -/
def SameRun (store store' : Store V) (m m' : Checked.M W E (α × Store V)) : Prop :=
  (∃ x, m = pure (x, store) ∧ m' = pure (x, store')) ∨ ∃ err, m = throw err ∧ m' = throw err

namespace SameRun

variable {store store' : Store V} {m m' : Checked.M W E (α × Store V)}
  {f f' : α × Store V → Checked.M W E (β × Store V)}

protected theorem pure (x : α) :
    SameRun store store' (pure (x, store) : Checked.M W E _) (pure (x, store')) :=
  .inl ⟨x, rfl, rfl⟩

theorem bind (h : SameRun store store' m m')
    (hf : ∀ x, SameRun store store' (f (x, store)) (f' (x, store'))) :
    SameRun store store' (m >>= f) (m' >>= f') := by
  rcases h with ⟨x, rfl, rfl⟩ | ⟨err, rfl, rfl⟩
  · rw [pure_bind, pure_bind]
    exact hf x
  · exact .inr ⟨err, throw_bind err f, throw_bind err f'⟩

theorem settled {g : Checked.M W E β} {k k' : β → Checked.M W E (α × Store V)} (hg : Settled g)
    (hk : ∀ x, SameRun store store' (k x) (k' x)) : SameRun store store' (g >>= k) (g >>= k') := by
  rcases hg with ⟨x, rfl⟩ | ⟨err, rfl⟩
  · rw [pure_bind, pure_bind]
    exact hk x
  · exact .inr ⟨err, throw_bind err k, throw_bind err k'⟩

end SameRun

/-- Two annotated trees of one type and one value. -/
structure Matches (ctx : CodeGen.Context) (sem : Ssa.Semantics Opcode Literal V W E)
    (lit : ConstantListValueType → Literal) (store store' : Store V) (a a' : ExecNode) : Prop where
  type : a.getReturnType = a'.getReturnType
  value : SameRun store store' (eval ctx sem lit a store) (eval ctx sem lit a' store')

section

variable {store store' : Store V} {a a' b b' : ExecNode} {info : NodeInfo}

theorem Matches.unaryOP (hfree : SideEffectFree sem) (h : Matches ctx sem lit store store' a a')
    (op : UnaryOPType) : SameRun store store' (eval ctx sem lit (.unaryOP info op a) store)
      (eval ctx sem lit (.unaryOP info op a') store') := by
  rw [eval, eval, h.type]
  refine h.value.bind fun x => ?_
  by_cases hop : op = .kPlus
  · simp only [if_pos hop]
    exact .pure x
  · simp only [if_neg hop]
    cases x with
    | none => exact .pure none
    | some x => exact .settled (settled_evalCode hfree _ _) fun y => .pure y

theorem Matches.binaryOP (hfree : SideEffectFree sem) (h : Matches ctx sem lit store store' a a')
    (hb : Matches ctx sem lit store store' b b') (op : BinaryOPType) :
    SameRun store store' (eval ctx sem lit (.binaryOP info op a b) store)
      (eval ctx sem lit (.binaryOP info op a' b') store') := by
  rw [eval, eval, h.type, hb.type]
  refine h.value.bind fun x => ?_
  by_cases hop : isLogicalBinaryOPType op = true
  · simp only [if_pos hop]
    refine .settled (settled_test hfree x) fun t => ?_
    cases t with
    | none => exact .pure none
    | some t =>
      by_cases ht : t = decide (op ≠ .kAnd)
      · simp only [if_pos ht]
        exact .pure _
      · simp only [if_neg ht]
        exact hb.value.bind fun y => .settled (settled_test hfree y) fun u => .pure _
  · simp only [if_neg hop]
    refine hb.value.bind fun y => ?_
    cases x with
    | none => exact .pure none
    | some x =>
      cases y with
      | none => exact .pure none
      | some y => exact .settled (settled_evalCode hfree _ _) fun z => .pure z

/-- Two lists of annotated trees, one by one. -/
abbrev MatchesAll (ctx : CodeGen.Context) (sem : Ssa.Semantics Opcode Literal V W E)
    (lit : ConstantListValueType → Literal) (store store' : Store V) :=
  List.Forall₂ (Matches ctx sem lit store store')

theorem MatchesAll.types {as as' : List ExecNode} (h : MatchesAll ctx sem lit store store' as as') :
    as.map ExecNode.getReturnType = as'.map ExecNode.getReturnType := by
  induction h with
  | nil => rfl
  | cons h _ ih => rw [List.map_cons, List.map_cons, h.type, ih]

theorem MatchesAll.evalArgs {as as' : List ExecNode}
    (h : MatchesAll ctx sem lit store store' as as') :
    SameRun store store' (Interpreter.evalArgs ctx sem lit as store)
      (Interpreter.evalArgs ctx sem lit as' store') := by
  induction h with
  | nil => exact .pure _
  | cons h _ ih =>
    rw [Interpreter.evalArgs, Interpreter.evalArgs]
    refine h.value.bind fun x => ?_
    cases x with
    | none => exact .pure none
    | some x => exact ih.bind fun xs => .pure _

/-- A branch, converted to the type of the construct. -/
theorem Matches.branch (hfree : SideEffectFree sem) (h : Matches ctx sem lit store store' a a')
    (ret : ValueType) :
    SameRun store store'
      (eval ctx sem lit a store >>= fun r => convert sem a.getReturnType ret r.1 >>= fun y =>
        pure (y, r.2))
      (eval ctx sem lit a' store' >>= fun r => convert sem a'.getReturnType ret r.1 >>= fun y =>
        pure (y, r.2)) := by
  rw [h.type]
  exact h.value.bind fun x => .settled (settled_convert hfree _ _ x) fun y => .pure y

theorem MatchesAll.evalSwitch (hfree : SideEffectFree sem) (ret : ValueType) :
    ∀ {as as' : List ExecNode}, MatchesAll ctx sem lit store store' as as' →
      SameRun store store' (Interpreter.evalSwitch ctx sem lit ret as store)
        (Interpreter.evalSwitch ctx sem lit ret as' store')
  | _, _, .nil => .pure none
  | _, _, .cons h .nil => h.branch hfree ret
  | _, _, .cons h (.cons h' hs) => by
    rw [Interpreter.evalSwitch, Interpreter.evalSwitch]
    refine h.value.bind fun c => .settled (settled_test hfree c) fun t => ?_
    cases t with
    | none => exact .pure none
    | some t =>
      cases t with
      | true => exact h'.branch hfree ret
      | false => exact MatchesAll.evalSwitch hfree ret hs

/-- An `if` without its three operands has no value. -/
theorem eval_ifNode_of_length_ne {args : List ExecNode} (hlen : args.length ≠ 3) :
    eval ctx sem lit (.ifNode info args) store = pure (none, store) := by
  rw [eval]
  rintro cond then_ else_ rfl
  exact hlen rfl

theorem MatchesAll.ifNode (hfree : SideEffectFree sem) {as as' : List ExecNode}
    (h : MatchesAll ctx sem lit store store' as as') :
    SameRun store store' (eval ctx sem lit (.ifNode info as) store)
      (eval ctx sem lit (.ifNode info as') store') := by
  by_cases hlen : as.length = 3
  · obtain ⟨c, a, b, rfl⟩ := List.length_eq_three.mp hlen
    obtain _ | ⟨hc, _ | ⟨ha, _ | ⟨hb, _ | _⟩⟩⟩ := h
    rw [eval, eval]
    refine hc.value.bind fun c => .settled (settled_test hfree c) fun t => ?_
    cases t with
    | none => exact .pure none
    | some t =>
      cases t with
      | true => exact ha.branch hfree _
      | false => exact hb.branch hfree _
  · rw [eval_ifNode_of_length_ne hlen, eval_ifNode_of_length_ne (h.length_eq ▸ hlen)]
    exact .pure none

theorem MatchesAll.function (hfree : SideEffectFree sem) {as as' : List ExecNode}
    (h : MatchesAll ctx sem lit store store' as as') (funcName : String) :
    SameRun store store' (eval ctx sem lit (.function info funcName as) store)
      (eval ctx sem lit (.function info funcName as') store') := by
  rw [eval, eval, callSignature, callSignature, h.types]
  refine h.evalArgs.bind fun xs => ?_
  cases xs with
  | none => exact .pure none
  | some xs => exact .settled (settled_callFunction hfree _ _ _) fun y => .pure y

end

/-! ## 4. Inlined trees -/

mutual

/-- An expression with its references replaced by copies of their definitions. -/
def inline (defs : String → Option ExecNode) : ExecNode → ExecNode
  | .ref info name =>
    match defs name with
    | some d => setLocation info.loc (cloned d)
    | none => .ref info name
  | .unaryOP info op child => .unaryOP info op (inline defs child)
  | .binaryOP info op left right => .binaryOP info op (inline defs left) (inline defs right)
  | .function info funcName args => .function info funcName (inlineArgs defs args)
  | .ifNode info args => .ifNode info (inlineArgs defs args)
  | .switchNode info args => .switchNode info (inlineArgs defs args)
  | .entryArgument info => .entryArgument info
  | .execContext info => .execContext info
  | .output info => .output info
  | .constantValue info val => .constantValue info val
  | .constantListValue info valList => .constantListValue info valList
  | .noOP info args isolated => .noOP info args isolated
  | .ifBlock info args => .ifBlock info args

def inlineArgs (defs : String → Option ExecNode) : List ExecNode → List ExecNode
  | [] => []
  | arg :: args => inline defs arg :: inlineArgs defs args

end

@[simp] theorem length_inlineArgs (defs : String → Option ExecNode) (args : List ExecNode) :
    (inlineArgs defs args).length = args.length := by
  induction args with
  | nil => rfl
  | cons arg args ih => exact congrArg (· + 1) ih

/-- A name that stands for an integer literal zero. -/
def isZeroName (zero : String → Bool) : ExecNode → Bool
  | .ref _ name => zero name
  | _ => false

mutual

/-- The expression divides by a name that stands for zero, or uses a name whose definition does. -/
def divides (zero bad : String → Bool) : ExecNode → Bool
  | .ref _ name => bad name
  | .unaryOP _ _ child => divides zero bad child
  | .binaryOP _ op left right =>
    decide (isDivision op) && isZeroName zero right || (divides zero bad left ||
      divides zero bad right)
  | .function _ _ args | .ifNode _ args | .switchNode _ args => dividesArgs zero bad args
  | .entryArgument _ | .execContext _ | .output _ | .constantValue _ _ | .constantListValue _ _
  | .noOP _ _ _ | .ifBlock _ _ => false

def dividesArgs (zero bad : String → Bool) : List ExecNode → Bool
  | [] => false
  | arg :: args => divides zero bad arg || dividesArgs zero bad args

end

/-- What is recorded of the definitions: which are an integer literal zero, and some that are never
accepted. -/
structure Tracks (reg : FunctionRegistry) (defs : String → Option ExecNode)
    (zero bad : String → Bool) : Prop where
  zero_eq : ∀ name, zero name = (defs name).elim false isConstZero
  isBad : ∀ name d, defs name = some d → bad name = true → ∀ a s, ¬ Visits reg {} d a s

/-- What the environment and the definitions have in common.  The definition of a name either has
the type and the value the environment has, or has no meaning, and the environment does not know
the name. -/
structure Agrees (ctx : CodeGen.Context) (sem : Ssa.Semantics Opcode Literal V W E)
    (lit : ConstantListValueType → Literal) (env : Environment V) (defs : String → Option ExecNode)
    (zero bad : String → Bool) : Prop extends Tracks ctx.functionRegistry defs zero bad where
  good : ∀ name d, defs name = some d → bad name = false →
    (∃ a c v, Visits ctx.functionRegistry {} d a {} ∧
      eval ctx sem lit a (fun _ => none) = pure (v, fun _ => none) ∧
      env.types.lookup name = some ⟨a.getReturnType, c⟩ ∧ env.store name = some v) ∨
    ((∀ a s, ¬ Visits ctx.functionRegistry {} d a s) ∧ env.types.lookup name = none)
  unknown : ∀ name, defs name = none → env.types.lookup name = none
  outer : env.types.outer = []

/-- Both trees are accepted and match, or neither is accepted. -/
def Both (ctx : CodeGen.Context) (sem : Ssa.Semantics Opcode Literal V W E)
    (lit : ConstantListValueType → Literal) (env : Environment V) (e e' : ExecNode) : Prop :=
  (∃ a a', Visits ctx.functionRegistry env.types e a env.types ∧
    Visits ctx.functionRegistry {} e' a' {} ∧ Matches ctx sem lit env.store (fun _ => none) a a') ∨
  ((∀ a s, ¬ Visits ctx.functionRegistry env.types e a s) ∧
    ∀ a s, ¬ Visits ctx.functionRegistry {} e' a s)

def BothArgs (ctx : CodeGen.Context) (sem : Ssa.Semantics Opcode Literal V W E)
    (lit : ConstantListValueType → Literal) (env : Environment V) (args args' : List ExecNode) :
    Prop :=
  (∃ as as', VisitsArgs ctx.functionRegistry env.types args as env.types ∧
    VisitsArgs ctx.functionRegistry {} args' as' {} ∧
      MatchesAll ctx sem lit env.store (fun _ => none) as as') ∨
  ((∀ as s, ¬ VisitsArgs ctx.functionRegistry env.types args as s) ∧
    ∀ as s, ¬ VisitsArgs ctx.functionRegistry {} args' as s)

section

variable {reg : FunctionRegistry} {env : Environment V} {defs : String → Option ExecNode}
  {zero bad : String → Bool}

theorem Visits_unique {st st₁ st₂ : ScopeStack VarEntry} {e a b : ExecNode}
    (h : Visits reg st e a st₁) (h' : Visits reg st e b st₂) : a = b ∧ st₁ = st₂ := by
  have heq := ((visit_run_eq_ok e).mpr h).symm.trans ((visit_run_eq_ok e).mpr h')
  exact Prod.mk.inj (Except.ok.inj heq)

theorem VisitsArgs_unique {st st₁ st₂ : ScopeStack VarEntry} {args as bs : List ExecNode}
    (h : VisitsArgs reg st args as st₁) (h' : VisitsArgs reg st args bs st₂) :
    as = bs ∧ st₁ = st₂ := by
  have hrun : (visitArgs reg ifVoidError args).run st = .ok (as, st₁) :=
    (visitArgs_run_eq_ok args).mpr h
  have heq := hrun.symm.trans ((visitArgs_run_eq_ok args).mpr h')
  exact Prod.mk.inj (Except.ok.inj heq)

theorem isConstZero_inline (htracks : Tracks reg defs zero bad) (e : ExecNode) :
    isConstZero (inline defs e) = (isConstZero e || isZeroName zero e) := by
  cases e with
  | ref info name =>
    rw [inline, isZeroName, htracks.zero_eq name]
    cases defs name with
    | none => rfl
    | some d =>
      simp only [isConstZero_setLocation, isConstZero_cloned]
      rfl
  | constantValue info v => cases v <;> simp [inline, isZeroName]
  | _ => simp [inline, isZeroName, isConstZero]

/-- A leaf is its own inlined tree. -/
theorem both_leaf {e a : ExecNode} (h : ∀ st, Visits ctx.functionRegistry st e a st)
    {x : Option (Datum V)} (heval : ∀ store, eval ctx sem lit a store = pure (x, store)) :
    Both ctx sem lit env e e :=
  .inl ⟨a, a, h _, h _, rfl, .inl ⟨x, heval _, heval _⟩⟩

theorem eval_setLocation (loc : SourceLocation) (a : ExecNode) (store : Store V) :
    eval ctx sem lit (setLocation loc a) store = eval ctx sem lit a store := by
  cases a with
  | ifNode info args => rcases args with _ | ⟨c, _ | ⟨a, _ | ⟨b, _ | ⟨d, args⟩⟩⟩⟩ <;> rfl
  | _ => rfl

/-! What the validator does at a node whose children it has accepted. -/

section

variable {st s : ScopeStack VarEntry} {info : NodeInfo} {b : ExecNode}

theorem visits_unaryOP_iff {op : UnaryOPType} {child a : ExecNode} (ha : Visits reg st child a st) :
    Visits reg st (.unaryOP info op child) b s ↔ ∃ t,
      unaryOPType info.loc op a.getReturnType = .ok t ∧
        b = .unaryOP (info.setReturnType t) op a ∧ s = st := by
  constructor
  · intro h
    cases h with
    | unaryOP hc ht =>
      obtain ⟨rfl, rfl⟩ := Visits_unique ha hc
      exact ⟨_, ht, rfl, rfl⟩
  · rintro ⟨t, ht, rfl, rfl⟩
    exact .unaryOP ha ht

theorem visits_binaryOP_iff {op : BinaryOPType} {left right l r : ExecNode}
    (hl : Visits reg st left l st) (hr : Visits reg st right r st) :
    Visits reg st (.binaryOP info op left right) b s ↔ ∃ t,
      binaryOPType info.loc op l r = .ok t ∧
        b = .binaryOP (info.setReturnType t) op l r ∧ s = st := by
  constructor
  · intro h
    cases h with
    | binaryOP hl' hr' ht =>
      obtain ⟨rfl, rfl⟩ := Visits_unique hl hl'
      obtain ⟨rfl, rfl⟩ := Visits_unique hr hr'
      exact ⟨_, ht, rfl, rfl⟩
  · rintro ⟨t, ht, rfl, rfl⟩
    exact .binaryOP hl hr ht

theorem visits_function_iff {funcName : String} {args as : List ExecNode}
    (ha : VisitsArgs reg st args as st) :
    Visits reg st (.function info funcName args) b s ↔ ∃ t,
      functionType reg info.loc funcName as = .ok t ∧
        b = .function (info.setReturnType t) funcName as ∧ s = st := by
  constructor
  · intro h
    cases h with
    | function ha' ht =>
      obtain ⟨rfl, rfl⟩ := VisitsArgs_unique ha ha'
      exact ⟨_, ht, rfl, rfl⟩
  · rintro ⟨t, ht, rfl, rfl⟩
    exact .function ha ht

theorem visits_ifNode_iff {args as : List ExecNode} (hn : args.length = 3)
    (ha : VisitsArgs reg st args as st) :
    Visits reg st (.ifNode info args) b s ↔ ∃ t, ifNodeType info.loc as = .ok t ∧
      b = .ifNode (info.setReturnType t) as ∧ s = st := by
  constructor
  · intro h
    cases h with
    | ifNode _ ha' ht =>
      obtain ⟨rfl, rfl⟩ := VisitsArgs_unique ha ha'
      exact ⟨_, ht, rfl, rfl⟩
  · rintro ⟨t, ht, rfl, rfl⟩
    exact .ifNode hn ha ht

theorem visits_switchNode_iff {args as : List ExecNode} (hn : args.length % 2 ≠ 0)
    (ha : VisitsArgs reg st args as st) :
    Visits reg st (.switchNode info args) b s ↔ ∃ t, switchNodeType info.loc as = .ok t ∧
      b = .switchNode (info.setReturnType t) as ∧ s = st := by
  constructor
  · intro h
    cases h with
    | switchNode _ ha' ht =>
      obtain ⟨rfl, rfl⟩ := VisitsArgs_unique ha ha'
      exact ⟨_, ht, rfl, rfl⟩
  · rintro ⟨t, ht, rfl, rfl⟩
    exact .switchNode hn ha ht

end

/-- A node whose children match: the type decides. -/
theorem Both.node {e e' : ExecNode} {f f' : Except Status ValueType}
    {mk mk' : ValueType → ExecNode}
    (h : ∀ b s, Visits ctx.functionRegistry env.types e b s ↔
      ∃ t, f = .ok t ∧ b = mk t ∧ s = env.types)
    (h' : ∀ b s, Visits ctx.functionRegistry {} e' b s ↔ ∃ t, f' = .ok t ∧ b = mk' t ∧ s = {})
    (hf : ∀ t, f = .ok t ↔ f' = .ok t)
    (hm : ∀ t, Matches ctx sem lit env.store (fun _ => none) (mk t) (mk' t)) :
    Both ctx sem lit env e e' := by
  cases hft : f with
  | ok t =>
    exact .inl ⟨mk t, mk' t, (h _ _).mpr ⟨t, hft, rfl, rfl⟩,
      (h' _ _).mpr ⟨t, (hf t).mp hft, rfl, rfl⟩, hm t⟩
  | error st =>
    refine .inr ⟨fun b s hb => ?_, fun b s hb => ?_⟩
    · rcases (h b s).mp hb with ⟨t, ht, -⟩
      exact nomatch hft.symm.trans ht
    · rcases (h' b s).mp hb with ⟨t, ht, -⟩
      exact nomatch hft.symm.trans ((hf t).mpr ht)

mutual

/-- **A tree and its inlined tree**: both are accepted, with one type and one value, or neither
is. -/
theorem inline_both (hfree : SideEffectFree sem)
    (hagrees : Agrees ctx sem lit env defs zero bad) : ∀ e : ExecNode, e.isExpression = true →
    divides zero bad e = false → Both ctx sem lit env e (inline defs e)
  | .entryArgument _, _, _ => both_leaf (fun _ => .entryArgument) fun _ => rfl
  | .execContext _, _, _ => both_leaf (fun _ => .execContext) fun _ => rfl
  | .output _, _, _ => both_leaf (fun _ => .output) fun _ => rfl
  | .constantValue _ _, _, _ => both_leaf (fun _ => .constantValue) fun _ => rfl
  | .constantListValue _ _, _, _ => both_leaf (fun _ => .constantListValue) fun _ => rfl
  | .ref info name, _, hd => by
    rw [inline]
    cases hdef : defs name with
    | none =>
      have hnone := hagrees.unknown name hdef
      refine .inr ⟨fun a s h => ?_, fun a s h => ?_⟩
      · cases h with
        | ref h => exact nomatch hnone.symm.trans h
      · cases h with
        | ref h => exact nomatch h
    | some d =>
      rcases hagrees.good name d hdef hd with ⟨a, c, v, ha, heval, htype, hstore⟩ | ⟨hd', hnone⟩
      · refine .inl ⟨_, _, .ref htype, visits_copy info.loc ha, ?_, .inl ⟨v, ?_, ?_⟩⟩
        · rw [getReturnType_setLocation]
          rfl
        · rw [eval, hstore]
          rfl
        · rw [eval_setLocation, heval]
      · refine .inr ⟨fun a s h => ?_, fun a s h => ?_⟩
        · cases h with
          | ref h => exact nomatch hnone.symm.trans h
        · rcases visits_of_copy h with ⟨a', h'⟩
          exact hd' a' s h'
  | .unaryOP info op child, he, hd => by
    rcases inline_both hfree hagrees child he hd with ⟨a, a', ha, ha', hm⟩ | ⟨hn, hn'⟩
    · exact .node (fun _ _ => visits_unaryOP_iff ha) (fun _ _ => visits_unaryOP_iff ha')
        (fun t => by rw [hm.type]) fun t => ⟨rfl, hm.unaryOP hfree op⟩
    · refine .inr ⟨fun b s h => ?_, fun b s h => ?_⟩
      · cases h with
        | unaryOP hc _ => exact hn _ _ hc
      · cases h with
        | unaryOP hc _ => exact hn' _ _ hc
  | .binaryOP info op left right, he, hd => by
    obtain ⟨hel, her⟩ := Bool.and_eq_true_iff.mp he
    obtain ⟨hdz, hdl, hdr⟩ : (decide (isDivision op) && isZeroName zero right) = false ∧
        divides zero bad left = false ∧ divides zero bad right = false := by
      simpa only [divides, Bool.or_eq_false_iff] using hd
    rcases inline_both hfree hagrees left hel hdl with ⟨l, l', hl, hl', hml⟩ | ⟨hn, hn'⟩
    · rcases inline_both hfree hagrees right her hdr with ⟨r, r', hr, hr', hmr⟩ | ⟨hn, hn'⟩
      · refine .node (fun _ _ => visits_binaryOP_iff hl hr)
          (fun _ _ => visits_binaryOP_iff hl' hr') (fun t => ?_) fun t =>
            ⟨rfl, hml.binaryOP hfree hmr op⟩
        -- a divisor that is a literal zero once it is inlined was one before
        have hzero : isDivision op → isConstZero r' = isConstZero r := by
          intro hop
          have hnot : isZeroName zero right = false := by simpa [hop] using hdz
          rw [isConstZero_of_visits hr', isConstZero_of_visits hr,
            isConstZero_inline hagrees.toTracks,
            hnot, Bool.or_false]
        rw [binaryOPType_eq_ok_iff, binaryOPType_eq_ok_iff, hml.type, hmr.type]
        refine and_congr_right fun _ => not_congr (and_congr_right fun hop => ?_)
        rw [hzero hop]
      · refine .inr ⟨fun b s h => ?_, fun b s h => ?_⟩
        · cases h with
          | binaryOP hl₁ hr₁ ht =>
            obtain rfl := hl₁.scopes_eq (ne_kVoid_of_binaryOPType ht).1
            exact hn _ _ hr₁
        · cases h with
          | binaryOP hl₁ hr₁ ht =>
            obtain rfl := hl₁.scopes_eq (ne_kVoid_of_binaryOPType ht).1
            exact hn' _ _ hr₁
    · refine .inr ⟨fun b s h => ?_, fun b s h => ?_⟩
      · cases h with
        | binaryOP hl _ _ => exact hn _ _ hl
      · cases h with
        | binaryOP hl _ _ => exact hn' _ _ hl
  | .function info funcName args, he, hd => by
    rcases inlineArgs_both hfree hagrees args he hd with ⟨as, as', ha, ha', hm⟩ | ⟨hn, hn'⟩
    · refine .node (fun _ _ => visits_function_iff ha) (fun _ _ => visits_function_iff ha')
        (fun t => ⟨functionType_congr hm.types, functionType_congr hm.types.symm⟩)
        fun t => ⟨rfl, hm.function hfree funcName⟩
    · refine .inr ⟨fun b s h => ?_, fun b s h => ?_⟩
      · cases h with
        | function ha _ => exact hn _ _ ha
      · cases h with
        | function ha _ => exact hn' _ _ ha
  | .ifNode info args, he, hd => by
    by_cases hlen : args.length = 3
    · have hlen' : (inlineArgs defs args).length = 3 := by rw [length_inlineArgs, hlen]
      rcases inlineArgs_both hfree hagrees args he hd with ⟨as, as', ha, ha', hm⟩ | ⟨hn, hn'⟩
      · refine .node (fun _ _ => visits_ifNode_iff hlen ha)
          (fun _ _ => visits_ifNode_iff hlen' ha')
          (fun t => ⟨ifNodeType_congr hm.types, ifNodeType_congr hm.types.symm⟩)
          fun t => ⟨rfl, hm.ifNode hfree⟩
      · refine .inr ⟨fun b s h => ?_, fun b s h => ?_⟩
        · cases h with
          | ifNode _ ha _ => exact hn _ _ ha
        · cases h with
          | ifNode _ ha _ => exact hn' _ _ ha
    · refine .inr ⟨fun b s h => ?_, fun b s h => ?_⟩
      · cases h with
        | ifNode hn _ _ => exact hlen hn
      · cases h with
        | ifNode hn _ _ => exact hlen (by rwa [length_inlineArgs] at hn)
  | .switchNode info args, he, hd => by
    by_cases hlen : args.length % 2 ≠ 0
    · have hlen' : (inlineArgs defs args).length % 2 ≠ 0 := by rwa [length_inlineArgs]
      rcases inlineArgs_both hfree hagrees args he hd with ⟨as, as', ha, ha', hm⟩ | ⟨hn, hn'⟩
      · refine .node (fun _ _ => visits_switchNode_iff hlen ha)
          (fun _ _ => visits_switchNode_iff hlen' ha')
          (fun t => ⟨switchNodeType_congr hm.types, switchNodeType_congr hm.types.symm⟩)
          fun t => ⟨rfl, hm.evalSwitch hfree t⟩
      · refine .inr ⟨fun b s h => ?_, fun b s h => ?_⟩
        · cases h with
          | switchNode _ ha _ => exact hn _ _ ha
        · cases h with
          | switchNode _ ha _ => exact hn' _ _ ha
    · refine .inr ⟨fun b s h => ?_, fun b s h => ?_⟩
      · cases h with
        | switchNode hn _ _ => exact hlen hn
      · cases h with
        | switchNode hn _ _ => exact hlen (by rwa [length_inlineArgs] at hn)
  | .noOP _ _ _, he, _ => nomatch he
  | .ifBlock _ _, he, _ => nomatch he

theorem inlineArgs_both (hfree : SideEffectFree sem)
    (hagrees : Agrees ctx sem lit env defs zero bad) : ∀ args : List ExecNode,
    ExecNode.argsAreExpressions args = true → dividesArgs zero bad args = false →
      BothArgs ctx sem lit env args (inlineArgs defs args)
  | [], _, _ => .inl ⟨[], [], .nil, .nil, .nil⟩
  | arg :: args, he, hd => by
    obtain ⟨hea, hes⟩ := Bool.and_eq_true_iff.mp he
    obtain ⟨hda, hds⟩ := Bool.or_eq_false_iff.mp hd
    rcases inline_both hfree hagrees arg hea hda with ⟨a, a', ha, ha', hm⟩ | ⟨hn, hn'⟩
    · rcases inlineArgs_both hfree hagrees args hes hds with ⟨as, as', hs, hs', hms⟩ | ⟨hn, hn'⟩
      · by_cases hv : a.getReturnType = .kVoid
        · refine .inr ⟨fun bs s h => ?_, fun bs s h => ?_⟩
          · cases h with
            | cons h hne _ =>
              obtain ⟨rfl, -⟩ := Visits_unique ha h
              exact hne hv
          · cases h with
            | cons h hne _ =>
              obtain ⟨rfl, -⟩ := Visits_unique ha' h
              exact hne (hm.type ▸ hv)
        · exact .inl ⟨_, _, .cons ha hv hs, .cons ha' (hm.type ▸ hv) hs', .cons hm hms⟩
      · refine .inr ⟨fun bs s h => ?_, fun bs s h => ?_⟩
        · cases h with
          | cons h hne hs =>
            obtain rfl := h.scopes_eq hne
            exact hn _ _ hs
        · cases h with
          | cons h hne hs =>
            obtain rfl := h.scopes_eq hne
            exact hn' _ _ hs
    · refine .inr ⟨fun bs s h => ?_, fun bs s h => ?_⟩
      · cases h with
        | cons h _ _ => exact hn _ _ h
      · cases h with
        | cons h _ _ => exact hn' _ _ h

end

mutual

/-- **A division by a name that stands for zero is rejected**, however deep it is. -/
theorem not_visits_of_divides (htracks : Tracks reg defs zero bad) :
    ∀ e : ExecNode, divides zero bad e = true →
      ∀ a s, ¬ Visits reg {} (inline defs e) a s
  | .entryArgument _, hd | .execContext _, hd | .output _, hd | .constantValue _ _, hd
  | .constantListValue _ _, hd | .noOP _ _ _, hd | .ifBlock _ _, hd => nomatch hd
  | .ref info name, hd => by
    intro a s h
    rw [inline] at h
    cases hdef : defs name with
    | none =>
      rw [hdef] at h
      cases h with
      | ref h => exact nomatch h
    | some d =>
      rw [hdef] at h
      rcases visits_of_copy h with ⟨a', h'⟩
      exact htracks.isBad name d hdef hd a' s h'
  | .unaryOP info op child, hd => by
    intro a s h
    cases h with
    | unaryOP hc _ => exact not_visits_of_divides htracks child hd _ _ hc
  | .binaryOP info op left right, hd => by
    intro a s h
    cases h with
    | binaryOP hl hr ht =>
      obtain rfl := hl.scopes_eq (ne_kVoid_of_binaryOPType ht).1
      rcases Bool.or_eq_true_iff.mp hd with hz | hd
      · obtain ⟨hop, hz⟩ := Bool.and_eq_true_iff.mp hz
        refine (binaryOPType_eq_ok_iff.mp ht).2 ⟨of_decide_eq_true hop, ?_⟩
        rw [isConstZero_of_visits hr, isConstZero_inline htracks, hz, Bool.or_true]
      · rcases Bool.or_eq_true_iff.mp hd with hd | hd
        · exact not_visits_of_divides htracks left hd _ _ hl
        · exact not_visits_of_divides htracks right hd _ _ hr
  | .function info funcName args, hd => by
    intro a s h
    cases h with
    | function ha _ => exact not_visitsArgs_of_divides htracks args hd _ _ ha
  | .ifNode info args, hd => by
    intro a s h
    cases h with
    | ifNode _ ha _ => exact not_visitsArgs_of_divides htracks args hd _ _ ha
  | .switchNode info args, hd => by
    intro a s h
    cases h with
    | switchNode _ ha _ => exact not_visitsArgs_of_divides htracks args hd _ _ ha

theorem not_visitsArgs_of_divides (htracks : Tracks reg defs zero bad) :
    ∀ args : List ExecNode, dividesArgs zero bad args = true →
      ∀ as s, ¬ VisitsArgs reg {} (inlineArgs defs args) as s
  | [], hd => nomatch hd
  | arg :: args, hd => by
    intro as s h
    cases h with
    | cons h hv hs =>
      obtain rfl := h.scopes_eq hv
      rcases Bool.or_eq_true_iff.mp hd with hd | hd
      · exact not_visits_of_divides htracks arg hd _ _ h
      · exact not_visitsArgs_of_divides htracks args hd _ _ hs

end

/-- What an accepted tree means. -/
theorem evalStatement_of_visits {e a : ExecNode} {st : ScopeStack VarEntry}
    (h : Visits ctx.functionRegistry env.types e a st) :
    evalStatement ctx sem lit e env = (do
      let (v, _) ← eval ctx sem lit a env.store
      return some (a.getReturnType, v)) := by
  have hval : validate ctx.functionRegistry e env.types = .ok (a, st) := (visit_run_eq_ok e).mpr h
  rw [evalStatement, hval]

/-- What a rejected tree means. -/
theorem evalStatement_of_rejected {e : ExecNode}
    (h : ∀ a s, ¬ Visits ctx.functionRegistry env.types e a s) :
    evalStatement ctx sem lit e env = pure none := by
  rw [evalStatement]
  cases hval : validate ctx.functionRegistry e env.types with
  | error _ => rfl
  | ok r => exact absurd ((visit_run_eq_ok e).mp hval) (h _ _)

/-! ## 5. A program -/

/-- A table of names after a statement. -/
def bindName {α : Type} (name : String) (x : α) (f : String → α) : String → α :=
  if name = "" then f else Function.update f name x

/-- Whether the last statement divides by a name that stands for an integer literal zero, itself or
in a definition that it uses. -/
def lastDivides (zero bad : String → Bool) : List (VarInfo × ExecNode) → Bool
  | [] => false
  | [(_, e)] => divides zero bad e
  | (var, e) :: args =>
    lastDivides (bindName var.name (isConstZero e || isZeroName zero e) zero)
      (bindName var.name (divides zero bad e) bad) args

@[simp] theorem bindName_self {α : Type} {name : String} (h : name ≠ "") (x : α)
    (f : String → α) : bindName name x f name = x := by
  rw [bindName, if_neg h, Function.update_self]

theorem bindName_ne {α : Type} {name x : String} (h : x ≠ name) (v : α) (f : String → α) :
    bindName name v f x = f x := by
  unfold bindName
  split
  · rfl
  · exact Function.update_of_ne h _ _

/-! What an environment knows after a statement. -/

theorem Environment.bind_types_ne {name x : String} (h : x ≠ name) (m : Meaning V) :
    (env.bind name m).types.lookup x = env.types.lookup x := by
  unfold Environment.bind
  split
  · rfl
  · cases m with
    | some m => exact ScopeStack.lookup_set_ne _ _ h
    | none => simp [ScopeStack.lookup_eq_or, AList.lookup_erase_ne h]

theorem Environment.bind_store_ne {name x : String} (h : x ≠ name) (m : Meaning V) :
    (env.bind name m).store x = env.store x := by
  unfold Environment.bind
  split
  · rfl
  · cases m with
    | some m => exact Function.update_of_ne h _ _
    | none => rfl

theorem Environment.bind_outer (name : String) (m : Meaning V) :
    (env.bind name m).types.outer = env.types.outer := by
  unfold Environment.bind
  split
  · rfl
  · cases m <;> rfl

theorem Tracks.bind (htracks : Tracks reg defs zero bad) (e : ExecNode) (name : String) :
    Tracks reg (bindName name (some (inline defs e)) defs)
      (bindName name (isConstZero e || isZeroName zero e) zero)
      (bindName name (divides zero bad e) bad) := by
  by_cases hname : name = ""
  · simpa only [bindName, if_pos hname] using htracks
  refine ⟨fun x => ?_, fun x d hd hbad => ?_⟩
  · by_cases hx : x = name
    · subst hx
      rw [bindName_self hname, bindName_self hname, ← isConstZero_inline htracks]
      rfl
    · rw [bindName_ne hx, bindName_ne hx, htracks.zero_eq]
  · by_cases hx : x = name
    · subst hx
      rw [bindName_self hname] at hd hbad
      obtain rfl := Option.some.inj hd
      exact not_visits_of_divides htracks e hbad
    · rw [bindName_ne hx] at hd hbad
      exact htracks.isBad x d hd hbad

/-- **A statement keeps the agreement.** -/
theorem Agrees.bind (hfree : SideEffectFree sem) (hagrees : Agrees ctx sem lit env defs zero bad)
    {e : ExecNode} (he : e.isExpression = true) (name : String) {m : Meaning V} {w w' : W}
    (hm : (evalStatement ctx sem lit e env).run w = .ok (m, w')) :
    Agrees ctx sem lit (env.bind name m) (bindName name (some (inline defs e)) defs)
      (bindName name (isConstZero e || isZeroName zero e) zero)
      (bindName name (divides zero bad e) bad) := by
  by_cases hname : name = ""
  · simpa only [bindName, Environment.bind, if_pos hname] using hagrees
  refine ⟨hagrees.toTracks.bind e name, fun x d hd hbad => ?_, fun x hd => ?_, ?_⟩
  · by_cases hx : x = name
    · subst hx
      rw [bindName_self hname] at hd hbad
      obtain rfl := Option.some.inj hd
      rcases inline_both hfree hagrees e he hbad with ⟨a, a', ha, ha', htype, hval⟩ | ⟨hn, hn'⟩
      · rw [evalStatement_of_visits ha] at hm
        rcases hval with ⟨v, hv, hv'⟩ | ⟨err, hv, -⟩
        · rw [hv, pure_bind] at hm
          obtain ⟨rfl, -⟩ := Checked.run_pure_eq_ok.mp hm
          refine .inl ⟨a', false, v, ha', hv', ?_, ?_⟩
          · rw [Environment.bind, if_neg hname, ← htype]
            exact ScopeStack.lookup_set _ _ _
          · rw [Environment.bind, if_neg hname]
            exact Function.update_self _ _ _
        · rw [hv, throw_bind] at hm
          exact absurd hm Checked.run_throw_ne_ok
      · rw [evalStatement_of_rejected hn] at hm
        obtain ⟨rfl, -⟩ := Checked.run_pure_eq_ok.mp hm
        refine .inr ⟨hn', ?_⟩
        rw [ScopeStack.lookup_eq_or, Environment.bind_outer, hagrees.outer, Environment.bind,
          if_neg hname]
        simp [ScopeStack.lookupIn]
    · rw [bindName_ne hx] at hd hbad
      rw [Environment.bind_types_ne hx, Environment.bind_store_ne hx]
      exact hagrees.good x d hd hbad
  · by_cases hx : x = name
    · subst hx
      rw [bindName_self hname] at hd
      cases hd
    · rw [bindName_ne hx] at hd
      rw [Environment.bind_types_ne hx]
      exact hagrees.unknown x hd
  · rw [Environment.bind_outer, hagrees.outer]

/-- The tree of the last statement, with the definitions before it inlined. -/
def inlinedLast (defs : String → Option ExecNode) : List (VarInfo × ExecNode) → Option ExecNode
  | [] => none
  | [(_, e)] => some (inline defs e)
  | (var, e) :: args => inlinedLast (bindName var.name (some (inline defs e)) defs) args

/-- A run of a statement that ends well says what its inlined tree means. -/
theorem Both.eq_pure {e e' : ExecNode} (h : Both ctx sem lit env e e') {m : Meaning V} {w w' : W}
    (hm : (evalStatement ctx sem lit e env).run w = .ok (m, w')) :
    evalStatement ctx sem lit e' {} = pure m := by
  rcases h with ⟨a, a', ha, ha', htype, hval⟩ | ⟨hn, hn'⟩
  · have ha₀ : Visits ctx.functionRegistry ({} : Environment V).types e' a' {} := ha'
    rw [evalStatement_of_visits ha] at hm
    rw [evalStatement_of_visits ha₀, ← htype]
    rcases hval with ⟨x, hx, hx'⟩ | ⟨err, hx, -⟩
    · rw [hx, pure_bind] at hm
      obtain ⟨rfl, -⟩ := Checked.run_pure_eq_ok.mp hm
      rw [hx', pure_bind]
    · rw [hx, throw_bind] at hm
      exact absurd hm Checked.run_throw_ne_ok
  · rw [evalStatement_of_rejected hn] at hm
    obtain ⟨rfl, -⟩ := Checked.run_pure_eq_ok.mp hm
    exact evalStatement_of_rejected hn'

/-- **The inlined tree means what the last statement means**, at the end of a run of the
statements. -/
theorem inlined_evaluates (hfree : SideEffectFree sem) {args : List (VarInfo × ExecNode)}
    {env : Environment V} {defs : String → Option ExecNode} {zero bad : String → Bool}
    (hne : args ≠ []) (he : ∀ a ∈ args, a.2.isExpression = true)
    (hagrees : Agrees ctx sem lit env defs zero bad) (hd : lastDivides zero bad args = false)
    {w w' : W} {m : Meaning V} (hm : (evalProgram ctx sem lit args env).run w = .ok (m, w')) :
    ∃ e, inlinedLast defs args = some e ∧ evalStatement ctx sem lit e {} = pure m := by
  induction args generalizing env defs zero bad w with
  | nil => exact absurd rfl hne
  | cons arg args ih =>
    rcases arg with ⟨var, e⟩
    cases args with
    | nil => exact ⟨_, rfl, (inline_both hfree hagrees e (he _ List.mem_cons_self) hd).eq_pure hm⟩
    | cons a args =>
      rw [evalProgram] at hm
      · rcases Checked.run_bind_eq_ok.mp hm with ⟨m₁, w₁, hm₁, hrest⟩
        exact ih (List.cons_ne_nil a args) (fun b hb => he b (List.mem_cons_of_mem _ hb))
          (hagrees.bind hfree (he _ List.mem_cons_self) var.name hm₁) hd hrest
      · exact List.cons_ne_nil a args

/-- **A program that divides by a name for zero has no inlined tree the validator accepts.** -/
theorem inlined_rejected {args : List (VarInfo × ExecNode)} {defs : String → Option ExecNode}
    {zero bad : String → Bool} (htracks : Tracks reg defs zero bad)
    (hd : lastDivides zero bad args = true) :
    ∃ e, inlinedLast defs args = some e ∧ ∀ r, validate reg e ≠ .ok r := by
  induction args generalizing defs zero bad with
  | nil => cases hd
  | cons arg args ih =>
    rcases arg with ⟨var, e⟩
    cases args with
    | nil =>
      exact ⟨_, rfl, fun r hr => not_visits_of_divides htracks e hd _ _ ((visit_run_eq_ok _).mp hr)⟩
    | cons a args => exact ih (htracks.bind e var.name) hd

end

end

/-! ## 6. What the builder makes -/

section

variable {source : String} {defsP defsE : Defs} {defs : String → Option ExecNode}

/-- The names a pipeline knows have definitions. -/
def Defined (defsP defsE : Defs) (defs : String → Option ExecNode) : Prop :=
  ∀ name, defsP.lookup name ≠ none →
    ∃ d, defsE.lookup name = some (some d) ∧ defs name = some d

mutual

/-- **The tree of a term in an expression** is that in a pipeline, with its references inlined. -/
theorem tree_inline (h : Defined defsP defsE defs) : ∀ (t : Term) {e : ExecNode},
    t.tree .kPipeline source defsP = some e →
      e.isExpression = true ∧ t.tree .kExpression source defsE = some (inline defs e)
  | .literal _ _, _, he | .list _ _, _, he | .entryArg _, _, he | .execCtx _, _, he
  | .output _, _, he => by
    rw [Term.tree, Option.some.injEq] at he
    subst he
    exact ⟨rfl, rfl⟩
  | .identifier loc name, _, he => by
    rw [Term.tree, refTree] at he
    rcases Option.bind_eq_some_iff.mp he with ⟨d', hd', he⟩
    rw [if_pos rfl, Option.some.injEq] at he
    subst he
    rcases h name (by rw [hd']; exact Option.some_ne_none _) with ⟨d, hd, hdef⟩
    refine ⟨rfl, ?_⟩
    rw [Term.tree, refTree, hd, inline, hdef]
    rfl
  | .paren t, _, he => tree_inline h t he
  | .unary loc op t, _, he => by
    rw [Term.tree] at he
    rcases Option.map_eq_some_iff.mp he with ⟨c, hc, rfl⟩
    rcases tree_inline h t hc with ⟨hexpr, htree⟩
    refine ⟨hexpr, ?_⟩
    rw [Term.tree, htree]
    rfl
  | .binary loc op left right, _, he => by
    rw [Term.tree] at he
    rcases Option.bind_eq_some_iff.mp he with ⟨l, hl, he⟩
    rcases Option.map_eq_some_iff.mp he with ⟨r, hr, rfl⟩
    rcases tree_inline h left hl with ⟨hel, htl⟩
    rcases tree_inline h right hr with ⟨her, htr⟩
    refine ⟨Bool.and_eq_true_iff.mpr ⟨hel, her⟩, ?_⟩
    rw [Term.tree, htl, htr]
    rfl
  | .in_ loc left right, _, he => by
    rw [Term.tree] at he
    rcases Option.bind_eq_some_iff.mp he with ⟨l, hl, he⟩
    rcases Option.map_eq_some_iff.mp he with ⟨r, hr, rfl⟩
    rcases tree_inline h left hl with ⟨hel, htl⟩
    rcases tree_inline h right hr with ⟨her, htr⟩
    refine ⟨by simp [ExecNode.isExpression, ExecNode.argsAreExpressions, hel, her], ?_⟩
    rw [Term.tree, htl, htr]
    rfl
  | .if_ _ args, _, he | .call _ _ args, _, he | .switch_ _ args, _, he => by
    rw [Term.tree] at he
    rcases Option.map_eq_some_iff.mp he with ⟨as, has, rfl⟩
    rcases argsTree_inline h args has with ⟨hexpr, htree⟩
    refine ⟨hexpr, ?_⟩
    rw [Term.tree, htree]
    rfl

theorem argsTree_inline (h : Defined defsP defsE defs) : ∀ (args : List Term) {as : List ExecNode},
    argsTree .kPipeline source defsP args = some as →
      ExecNode.argsAreExpressions as = true ∧
        argsTree .kExpression source defsE args = some (inlineArgs defs as)
  | [], _, he => by
    rw [argsTree, Option.some.injEq] at he
    subst he
    exact ⟨rfl, rfl⟩
  | arg :: args, _, he => by
    rw [argsTree] at he
    rcases Option.bind_eq_some_iff.mp he with ⟨a, ha, he⟩
    rcases Option.map_eq_some_iff.mp he with ⟨as, has, rfl⟩
    rcases tree_inline h arg ha with ⟨hea, hta⟩
    rcases argsTree_inline h args has with ⟨hes, hts⟩
    refine ⟨Bool.and_eq_true_iff.mpr ⟨hea, hes⟩, ?_⟩
    rw [argsTree, hta, hts]
    rfl

end

/-- A statement without a when-block: its tree, and the definitions after it. -/
theorem stmtTree_inline (h : Defined defsP defsE defs) {stmt : Stmt} (hw : stmt.isWhen = false)
    {e : ExecNode} (he : stmt.tree .kPipeline source defsP = some e) :
    e.isExpression = true ∧ stmt.tree .kExpression source defsE = some (inline defs e) ∧
      Defined (stmt.addTo (some e) defsP) (stmt.addTo (some (inline defs e)) defsE)
        (bindName stmt.var.name (some (inline defs e)) defs) := by
  have htree : e.isExpression = true ∧
      stmt.tree .kExpression source defsE = some (inline defs e) := by
    cases stmt with
    | assign _ t | let_ _ t | expr t =>
      rw [Stmt.tree] at he ⊢
      exact tree_inline h t he
    | when_ _ _ _ _ _ => exact nomatch hw
  refine ⟨htree.1, htree.2, fun name hname => ?_⟩
  unfold Stmt.addTo Stmt.defines at hname ⊢
  by_cases hv : stmt.var.name = ""
  · rw [if_pos hv] at hname ⊢
    rw [bindName, if_pos hv]
    exact h name hname
  · rw [if_neg hv] at hname ⊢
    by_cases hn : name = stmt.var.name
    · subst hn
      exact ⟨_, by simp, bindName_self hv _ _⟩
    · rw [bindName_ne hn]
      have hb : (name == stmt.var.name) = false := beq_eq_false_iff_ne.mpr hn
      simp only [List.map_cons, List.map_nil, List.singleton_append, List.lookup_cons,
        hb] at hname ⊢
      exact h name hname

/-- **The tree of a program in an expression.** -/
theorem stmtsTree_inline (stmts : List Stmt) {defsP defsE : Defs}
    {defs : String → Option ExecNode} {args : List (VarInfo × ExecNode)}
    (h : Defined defsP defsE defs) (hw : ∀ stmt ∈ stmts, stmt.isWhen = false)
    (hargs : stmtsTree .kPipeline source defsP stmts = some args) :
    (∀ a ∈ args, a.2.isExpression = true) ∧ ∃ args',
      stmtsTree .kExpression source defsE stmts = some args' ∧ args'.length = args.length ∧
        args'.getLast?.map Prod.snd = inlinedLast defs args := by
  induction stmts generalizing defsP defsE defs args with
  | nil =>
    rw [stmtsTree, Option.some.injEq] at hargs
    subst hargs
    exact ⟨by simp, [], rfl, rfl, rfl⟩
  | cons stmt stmts ih =>
    rw [stmtsTree] at hargs
    rcases Option.bind_eq_some_iff.mp hargs with ⟨e, he, hargs⟩
    rcases Option.map_eq_some_iff.mp hargs with ⟨rest, hrest, rfl⟩
    rcases stmtTree_inline h (hw stmt List.mem_cons_self) he with ⟨hexpr, htree, hdefs⟩
    rw [he] at hrest
    rcases ih hdefs (fun s hs => hw s (List.mem_cons_of_mem _ hs)) hrest with
      ⟨hexprs, rest', hrest', hlen, hlast⟩
    refine ⟨fun a ha => ?_, (stmt.var, inline defs e) :: rest', ?_, congrArg (· + 1) hlen, ?_⟩
    · rcases List.mem_cons.mp ha with rfl | ha
      · exact hexpr
      · exact hexprs a ha
    · rw [stmtsTree, htree, Option.bind_some, hrest']
      rfl
    · cases rest with
      | nil =>
        rw [List.eq_nil_of_length_eq_zero hlen]
        rfl
      | cons a rest =>
        cases rest' with
        | nil => cases hlen
        | cons a' rest' =>
          rw [List.getLast?_cons_cons, hlast]
          rfl

end

/-! ## 7. Expressions mean what their programs mean -/

mutual

/-- A tree without its recorded types: operators, constants, names, the order of the arguments and
the source locations. -/
def untyped : ExecNode → ExecNode
  | .entryArgument info => .entryArgument (info.setReturnType .kUnknown)
  | .execContext info => .execContext (info.setReturnType .kUnknown)
  | .output info => .output (info.setReturnType .kUnknown)
  | .constantValue info v => .constantValue (info.setReturnType .kUnknown) v
  | .constantListValue info v => .constantListValue (info.setReturnType .kUnknown) v
  | .unaryOP info op child => .unaryOP (info.setReturnType .kUnknown) op (untyped child)
  | .binaryOP info op left right =>
    .binaryOP (info.setReturnType .kUnknown) op (untyped left) (untyped right)
  | .function info name args => .function (info.setReturnType .kUnknown) name (untypedArgs args)
  | .noOP info args isolated => .noOP (info.setReturnType .kUnknown) (untypedStmts args) isolated
  | .ifNode info args => .ifNode (info.setReturnType .kUnknown) (untypedArgs args)
  | .switchNode info args => .switchNode (info.setReturnType .kUnknown) (untypedArgs args)
  | .ifBlock info args => .ifBlock (info.setReturnType .kUnknown) (untypedArgs args)
  | .ref info name => .ref (info.setReturnType .kUnknown) name

def untypedArgs : List ExecNode → List ExecNode
  | [] => []
  | arg :: args => untyped arg :: untypedArgs args

def untypedStmts : List (VarInfo × ExecNode) → List (VarInfo × ExecNode)
  | [] => []
  | (var, arg) :: args => (var, untyped arg) :: untypedStmts args

end

mutual

theorem untyped_cloned : ∀ e : ExecNode, untyped (cloned e) = untyped e
  | .entryArgument _ | .execContext _ | .output _ | .constantValue _ _ | .constantListValue _ _
  | .ref _ _ => rfl
  | .unaryOP _ _ child => by simp only [cloned, untyped, untyped_cloned child]; rfl
  | .binaryOP _ _ left right => by
    simp only [cloned, untyped, untyped_cloned left, untyped_cloned right]; rfl
  | .function _ _ args | .ifNode _ args | .switchNode _ args | .ifBlock _ args => by
    simp only [cloned, untyped, untypedArgs_cloned args]; rfl
  | .noOP _ args _ => by simp only [cloned, untyped, untypedStmts_cloned args]; rfl

theorem untypedArgs_cloned : ∀ args : List ExecNode,
    untypedArgs (clonedArgs args) = untypedArgs args
  | [] => rfl
  | arg :: args => by rw [clonedArgs, untypedArgs, untypedArgs, untyped_cloned arg,
      untypedArgs_cloned args]

theorem untypedStmts_cloned : ∀ args : List (VarInfo × ExecNode),
    untypedStmts (clonedStmts args) = untypedStmts args
  | [] => rfl
  | (_, arg) :: args => by rw [clonedStmts, untypedStmts, untypedStmts, untyped_cloned arg,
      untypedStmts_cloned args]

end

/-- **`Clone`**: a structurally equal tree, none of whose nodes is one of the original's. -/
theorem clone_spec {n : NodePtr} {e : ExecNode} (hn : n.toExecNode = some e) {k : Nat}
    (hk : ∀ a ∈ n.addrs, a < k) : ∃ n' k' e', n.clone.run k = some (n', k') ∧
      n'.toExecNode = some e' ∧ untyped e' = untyped e ∧ n.addrs.Disjoint n'.addrs := by
  have hcopies := NodePtr.clone_copies n k
  rw [hn] at hcopies
  rcases hcopies with ⟨n', k', hrun, hnew, hfresh⟩
  refine ⟨n', k', cloned e, hrun, hnew, untyped_cloned e, fun a ha ha' => ?_⟩
  have hlt := hk a ha
  have hle := (hfresh.bounds a ha').1
  omega

/-- **Inlining is correct substitution**, for the statements `args` and the tree `e`: if the run of
the statements ends with a meaning, the tree has it, and needs no environment. -/
def InliningCorrect {V W E : Type} (ctx : CodeGen.Context)
    (sem : Ssa.Semantics Opcode Literal V W E) (lit : ConstantListValueType → Literal)
    (args : List (VarInfo × ExecNode)) (e : ExecNode) : Prop :=
  ∀ w w' m, (evalProgram ctx sem lit args {}).run w = .ok (m, w') →
    evalStatement ctx sem lit e {} = pure m

/-- Whether the last statement of a program divides by a name that stands for an integer literal
zero. -/
def dividesByZeroName (args : List (VarInfo × ExecNode)) : Bool :=
  lastDivides (fun _ => false) (fun _ => false) args

theorem tracks_empty {reg : FunctionRegistry} :
    Tracks reg (fun _ => none) (fun _ => false) (fun _ => false) :=
  ⟨fun _ => rfl, fun _ _ h => nomatch h⟩

theorem agrees_empty {V W E : Type} {ctx : CodeGen.Context}
    {sem : Ssa.Semantics Opcode Literal V W E} {lit : ConstantListValueType → Literal} :
    Agrees ctx sem lit {} (fun _ => none) (fun _ => false) (fun _ => false) :=
  ⟨tracks_empty, fun _ _ h => (nomatch h), fun _ _ => rfl, rfl⟩

/-- **An expression means what its program means.**  The tree a fresh builder returns has the type
and the value of the last statement, with operations without effects, unless a divisor is a name
that stands for an integer literal zero; then the validator rejects the tree. -/
theorem inlining_correct {V W E : Type} (ctx : CodeGen.Context)
    (sem : Ssa.Semantics Opcode Literal V W E) (lit : ConstantListValueType → Literal)
    (hfree : SideEffectFree sem) (code : String) (parse : Parse)
    (hg : Grammatical .kExpression parse) (hrefs : parse.program.undefinedRefs = []) :
    (∃ n p e args, (buildExpression code parse).run ⟨{}, none⟩ = (.ok n, p) ∧
      n.toExecNode = some e ∧
      stmtsTree .kPipeline code [] parse.program.statements = some args ∧
      (dividesByZeroName args = false → InliningCorrect ctx sem lit args e) ∧
      (dividesByZeroName args = true → ∀ r, validate ctx.functionRegistry e ≠ .ok r)) ∧
    ∀ (n : NodePtr) (e : ExecNode) (k : Nat), n.toExecNode = some e → (∀ a ∈ n.addrs, a < k) →
      ∃ n' k' e', n.clone.run k = some (n', k') ∧ n'.toExecNode = some e' ∧
        untyped e' = untyped e ∧ n.addrs.Disjoint n'.addrs := by
  refine ⟨?_, fun n e k hn hk => clone_spec hn hk⟩
  have hgp : Grammatical .kPipeline parse := ⟨hg.1, fun h => nomatch h⟩
  rcases build_ok (p := ⟨{}, none⟩) code (.of_nil rfl) (verdict_eq_none hg hrefs) hrefs with
    ⟨n, p, e, hrun, hn, htree, -⟩
  rcases build_ok (p := ⟨{}, none⟩) code (.of_nil rfl) (verdict_eq_none hgp hrefs) hrefs with
    ⟨-, -, root, -, -, hroot, -⟩
  rcases Option.map_eq_some_iff.mp hroot with ⟨args, hargs, -⟩
  have hdefined : Defined [] [] fun _ => none := fun _ h => absurd rfl h
  rcases stmtsTree_inline _ hdefined (hg.2 rfl) hargs with ⟨hexprs, args', hargs', hlen, hlast⟩
  have he : inlinedLast (fun _ => none) args = some e := by
    rw [Program.tree, hargs', Option.bind_some, hlast] at htree
    exact htree
  refine ⟨n, p, e, args, hrun, hn, hargs, fun hd w w' m hm => ?_, fun hd => ?_⟩
  · rcases inlined_evaluates hfree (stmtsTree_ne_nil hargs) hexprs agrees_empty hd hm with
      ⟨e', he', hmean⟩
    rw [he, Option.some.injEq] at he'
    exact he' ▸ hmean
  · rcases inlined_rejected tracks_empty hd with ⟨e', he', hrej⟩
    rw [he, Option.some.injEq] at he'
    exact he' ▸ hrej

/-! ### Two programs -/

/-- A machine whose operations answer nothing but that they have run. -/
def idle : Ssa.Semantics Opcode Literal Unit Unit Empty where
  const _ := ()
  arg _ := ()
  op _ _ := pure ()
  truthy _ := true

def calculatorResult : Opcode → List (BitVec 32) → BitVec 32
  | .add, [x, y] => x + y
  | .mul, [x, y] => x * y
  | .neg, [x] => -x
  | _, _ => 0

/-- A machine that computes with `i32`. -/
def calculator : Ssa.Semantics Opcode Literal (BitVec 32) Unit Empty where
  const
    | .value (.i32 x) => x
    | _ => 0
  arg _ := 0
  op o xs := pure (calculatorResult o xs)
  truthy x := x ≠ 0

theorem calculator_sideEffectFree : SideEffectFree calculator :=
  fun o xs => .inl ⟨calculatorResult o xs, rfl⟩

def noFunctions : CodeGen.Context where
  functionRegistry := {}
  callback _ _ _ _ := none
  hashOrder := .dedup

/-- `x = 1; x = x + 2; y = -x; x * 3;` -/
def reassignedName : Parse where
  program :=
    { statements :=
        [.assign "x" (.literal ⟨1, 5, 1, 6⟩ (.i32 1)),
          .assign "x" (.binary ⟨1, 12, 1, 17⟩ .kAdd (.identifier ⟨1, 12, 1, 13⟩ "x")
            (.literal ⟨1, 16, 1, 17⟩ (.i32 2))),
          .assign "y" (.unary ⟨1, 23, 1, 25⟩ .kMinus (.identifier ⟨1, 24, 1, 25⟩ "x")),
          .expr (.binary ⟨1, 27, 1, 32⟩ .kMul (.identifier ⟨1, 27, 1, 28⟩ "x")
            (.literal ⟨1, 31, 1, 32⟩ (.i32 3)))]
      nonempty := List.cons_ne_nil _ _ }

/-- It means 9, with the second value of `x`. -/
theorem reassignedName_inlined : ∃ n p e args,
    (buildExpression "x = 1; x = x + 2; y = -x; x * 3;" reassignedName).run ⟨{}, none⟩ =
        (.ok n, p) ∧ n.toExecNode = some e ∧
      InliningCorrect noFunctions calculator Literal.list args e ∧
      evalStatement noFunctions calculator Literal.list e {} =
        pure (some (.kI32, some ⟨9, .int 32⟩)) := by
  rcases (inlining_correct noFunctions calculator Literal.list calculator_sideEffectFree
    "x = 1; x = x + 2; y = -x; x * 3;" reassignedName ⟨rfl, by decide⟩ rfl).1 with
    ⟨n, p, e, args, hrun, hn, hargs, hcorrect, -⟩
  obtain rfl := Option.some.inj hargs
  exact ⟨n, p, e, _, hrun, hn, hcorrect rfl, hcorrect rfl () () _ rfl⟩

/-- `x = 0; 5.0 / x;` -/
def zeroDivisor : Parse where
  program :=
    { statements :=
        [.assign "x" (.literal ⟨1, 5, 1, 6⟩ (.i32 0)),
          .expr (.binary ⟨1, 8, 1, 15⟩ .kDiv (.literal ⟨1, 8, 1, 11⟩ (.f64 0x4014000000000000))
            (.identifier ⟨1, 14, 1, 15⟩ "x"))]
      nonempty := List.cons_ne_nil _ _ }

/-- In order, the last statement divides floats and has a value; its inlined tree is rejected. -/
theorem zeroDivisor_not_inlined : ∃ n p e args,
    (buildExpression "x = 0; 5.0 / x;" zeroDivisor).run ⟨{}, none⟩ = (.ok n, p) ∧
      n.toExecNode = some e ∧
      stmtsTree .kPipeline "x = 0; 5.0 / x;" [] zeroDivisor.program.statements = some args ∧
      ¬ InliningCorrect noFunctions idle Literal.list args e := by
  refine ⟨_, _, _, _, rfl, rfl, rfl, fun hcorrect => ?_⟩
  have hmeans := hcorrect () () (some (.kF64, some ⟨(), .double⟩)) rfl
  have hrun : (Except.ok (none, ()) : Except Empty (Meaning Unit × Unit)) =
      .ok (some (.kF64, some ⟨(), .double⟩), ()) := congrArg (fun m => StateT.run m ()) hmeans
  exact nomatch (Prod.mk.inj (Except.ok.inj hrun)).1

end Athena

end JitFusion
