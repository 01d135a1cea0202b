/-
# Accepted trees are lowered

Soundness of the validator for the code generator.  From scopes in step with those of the
validator, the visit of an accepted tree succeeds if the tree is lowerable, and the value of every
node is of the LLVM type of its return type (`visit_emits`): an induction on the validator's
judgement, with a lemma for each kind of list of nodes.

For an entry function one thing more is asked for, that the root is not a pointer
(`accepted_generates_iff`).
-/
import Mathlib.Data.List.Dedup
import JitFusion.EmitRules

namespace JitFusion

namespace CodeGen

open TypeHelper Validator

variable {sure : Prop} {ctx : Context} {st st' st₁ : ScopeStack VarEntry} {known : List String}

/-! ## 1. Lists of expressions -/

/-- The nodes are not void, and can be generated from the scopes if they are lowerable. -/
def AllEmit (sure : Prop) (ctx : Context) (known : List String) (st : ScopeStack VarEntry)
    (args : List ExecNode) : Prop :=
  ∀ arg ∈ args, arg.getReturnType ≠ .kVoid ∧
    Emits sure (lowerable known arg = true) st (visit ctx arg) (Carries sure arg.getReturnType) st

theorem visitArgs_emits {args : List ExecNode} (h : AllEmit sure ctx known st args) :
    Emits sure (lowerableArgs known args = true) st (visitArgs ctx args)
      (ArgsTyped (args.map ExecNode.getReturnType)) st := by
  induction args with
  | nil =>
    rw [visitArgs]
    exact (Emits.pure List.Forall₂.nil).of_true rfl
  | cons arg args ih =>
    obtain ⟨⟨hv, harg⟩, hrest⟩ := List.forall_mem_cons.mp h
    rw [visitArgs, lowerableArgs, Bool.and_eq_true]
    refine getValue_deref_emits harg hv fun x hx => ?_
    exact (ih hrest).last fun values hvals => .pure (.cons hx hvals)

theorem visitSwitch_emits {ret : ValueType} {mergeBlock : Nat} {args : List ExecNode}
    (h : AllEmit sure ctx known st args) (hfit : BranchesFit (Fits ret) args) :
    Emits sure (lowerableArgs known args = true) st (visitSwitch ctx ret mergeBlock args)
      (fun _ => ret ≠ .kVoid) st := by
  induction args using List.twoStepInduction with
  | nil => exact hfit.elim
  | singleton default_ =>
    obtain ⟨hv, hdefault⟩ := h default_ List.mem_cons_self
    rw [visitSwitch, lowerableArgs, lowerableArgs, Bool.and_true]
    refine (Emits.createBlock _).step fun _ _ => ?_
    refine (Emits.build fun s => ⟨_, rfl⟩).step fun _ _ => ?_
    exact (getBranchValue_emits hdefault hv hfit).last fun _ hret => .pure hret
  | cons_cons cond then_ args ih _ =>
    obtain ⟨⟨-, hcond⟩, h'⟩ := List.forall_mem_cons.mp h
    obtain ⟨⟨hv, hthen⟩, hrest⟩ := List.forall_mem_cons.mp h'
    obtain ⟨hnum, hfits, hfit'⟩ := hfit
    have hgood : lowerableArgs known args = true ∧ lowerable known cond = true ∧
        lowerable known then_ = true ↔ lowerableArgs known (cond :: then_ :: args) = true := by
      rw [lowerableArgs, lowerableArgs, Bool.and_eq_true, Bool.and_eq_true, and_comm, and_assoc]
    rw [visitSwitch]
    refine ((ih hrest hfit').bind fun r _ => ?_).congr hgood
    refine (Emits.createBlock _).step fun _ _ => ?_
    refine (Emits.build fun s => ⟨_, rfl⟩).step fun _ _ => ?_
    refine (getCondition_emits hcond hnum).bind fun _ _ => ?_
    refine (Emits.createBlock _).step fun _ _ => ?_
    refine (Emits.build fun s => ⟨_, rfl⟩).step fun _ _ => ?_
    refine (Emits.build fun s => ⟨_, rfl⟩).step fun _ _ => ?_
    exact (getBranchValue_emits hthen hv hfits).last fun _ hret => .pure hret

/-! ## 2. Calls -/

/-- A call the validator has resolved. -/
theorem call_emits (hctx : Backed sure ctx) {loc : SourceLocation} {funcName : String}
    {args : List ExecNode} {ret : ValueType} {values : List Value}
    (ht : functionType ctx.functionRegistry loc funcName args = .ok ret)
    (hvals : ArgsTyped (args.map ExecNode.getReturnType) values) :
    Emits sure (ret ≠ .kUnknown) st (call ctx ret (callSignature funcName args) values)
      (Carries sure ret) st := by
  unfold functionType FunctionRegistry.getFuncBySign at ht
  cases hfind : ctx.functionRegistry.find (callSignature funcName args).key with
  | none =>
    rw [hfind] at ht
    cases ht
  | some entry =>
    obtain ⟨t, fs⟩ := entry
    rw [hfind] at ht
    obtain rfl : t = ret := Except.ok.inj ht
    unfold call
    refine (Emits.returnNotOk (getFuncBySign_find hfind)).step ?_
    rintro _ rfl
    dsimp only
    cases htype : fs.funcType with
    | kLLVMIntrinicFunc =>
      obtain ⟨f, hf, hcode⟩ := hctx.callbacks _ t fs hfind htype
      dsimp only
      rw [hf]
      dsimp only
      generalize hc : codegenFunc ctx f _ values.length _ = code
      have hcode : t ≠ .kVoid →
          ∃ x, code = some x ∧ Typed (fun i => (values.get i).type) x t := by
        intro hv
        obtain ⟨x, hx, htx⟩ := hcode values hvals hv
        exact ⟨x, hc.symm.trans hx, htx⟩
      have hnull : sure → t = .kVoid → code = none := by
        rintro hsure rfl
        exact hc.symm.trans (hctx.voids hsure _ fs f hfind hf values hvals)
      have hknown : t ≠ .kUnknown := by
        rintro rfl
        obtain ⟨x, -, hx⟩ := hcode nofun
        cases hx
      refine Emits.of_true ?_ hknown
      cases code with
      | none =>
        refine .pure ⟨fun hv => ?_, fun _ _ => rfl⟩
        obtain ⟨x, hx, -⟩ := hcode hv
        cases hx
      | some x =>
        refine (Emits.emit _ _).step fun v hv => .pure ⟨fun hne => ?_, fun hsure ht => ?_⟩
        · obtain ⟨y, hy, hty⟩ := hcode hne
          obtain rfl : x = y := Option.some.inj hy
          exact ⟨v, rfl, hv ▸ hty⟩
        · exact nomatch hnull hsure ht
    | kCFunc =>
      refine (Emits.llvmType t).last fun type htype => ?_
      refine (Emits.emit _ _).step fun v hv => .pure ?_
      split
      · next hvoid => exact hvoid ▸ Carries.none
      · next hvoid => exact .some hvoid (by rw [hv]; exact htype)

/-! ## 3. When-blocks -/

/-- What the branches of a when-block have modified: the variables the validator has collected,
each with a value of its type. -/
structure Collects (sure : Prop) (st : ScopeStack VarEntry) (acc acc' : Scope ValueType)
    (infos : List BranchInfo) : Prop where
  names : ∀ x, acc'.lookup x ≠ none ↔
    acc.lookup x ≠ none ∨ ∃ info ∈ infos, info.modified.lookup x ≠ none
  values : ∀ info ∈ infos, ∀ x v, info.modified.lookup x = some v →
    ∃ e, st.lookup x = some e ∧ Carries sure e.type v

theorem collects_nil {acc : Scope ValueType} : Collects sure st acc acc [] where
  names x := by simp
  values _ h := nomatch h

/-- One more branch, in front for the validator and at the end for the code generator. -/
theorem Collects.cons {acc acc' : Scope ValueType} {infos : List BranchInfo} {info : BranchInfo}
    (h : Collects sure st (addShadowed acc st₁.getShadowed) acc' infos)
    (hkeep : Validator.Keeps st.pushScope st₁)
    (hinfo : ScopeTracks sure st₁.getShadowed info.modified) :
    Collects sure st acc acc' (infos ++ [info]) where
  names x := by
    have hx : st₁.getShadowed.lookup x ≠ none ↔ info.modified.lookup x ≠ none := by
      have hrel := hinfo x
      generalize st₁.getShadowed.lookup x = entry at hrel ⊢
      generalize info.modified.lookup x = value at hrel ⊢
      cases hrel <;> simp
    have hhead : (addShadowed acc st₁.getShadowed).lookup x ≠ none ↔
        info.modified.lookup x ≠ none ∨ acc.lookup x ≠ none := by
      rw [addShadowed_lookup, ne_eq, Option.or_eq_none_iff, Option.map_eq_none_iff, not_and_or]
      exact or_congr_left hx
    have hall : (∃ i ∈ infos ++ [info], i.modified.lookup x ≠ none) ↔
        (∃ i ∈ infos, i.modified.lookup x ≠ none) ∨ info.modified.lookup x ≠ none := by
      simp only [List.mem_append, List.mem_singleton, or_and_right, exists_or, exists_eq_left]
    rw [h.names, hhead, hall, or_comm (a := info.modified.lookup x ≠ none), or_assoc]
    exact or_congr_right or_comm
  values := by
    intro i hi x v hv
    rcases List.mem_append.mp hi with hi | hi
    · exact h.values i hi x v hv
    · obtain rfl := List.mem_singleton.mp hi
      have hrel := hinfo x
      rw [hv] at hrel
      cases hs : st₁.getShadowed.lookup x with
      | none =>
        rw [hs] at hrel
        cases hrel
      | some e =>
        rw [hs] at hrel
        cases hrel with
        | some hc => exact ⟨e, (hkeep.getShadowed hs).1, hc⟩

/-- The variable gets a new value in the innermost scope. -/
def merged (st : ScopeStack VarEntry) (x : String) : ScopeStack VarEntry :=
  match st.lookup x with
  | none => st
  | some e => st.set x e

@[simp] theorem merged_lookup (x y : String) : (merged st x).lookup y = st.lookup y := by
  unfold merged
  cases hx : st.lookup x with
  | none => rfl
  | some e =>
    by_cases hy : y = x
    · subst hy
      exact (ScopeStack.lookup_set st y e).trans hx.symm
    · exact ScopeStack.lookup_set_ne st e hy

@[simp] theorem merged_outer (st : ScopeStack VarEntry) (x : String) :
    (merged st x).outer = st.outer := by
  unfold merged
  split <;> rfl

theorem merged_top (st : ScopeStack VarEntry) (x y : String) :
    (merged st x).top.lookup y = if y = x then st.lookup y else st.top.lookup y := by
  unfold merged
  split
  · next hx =>
    split
    · next hy =>
      subst hy
      cases ht : st.top.lookup y with
      | none => exact hx.symm
      | some e => exact (lookup_of_top ht).symm
    · rfl
  · next e hx =>
    split
    · next hy =>
      subst hy
      exact (AList.lookup_insert st.top).trans hx.symm
    · next hy => exact AList.lookup_insert_ne hy

theorem foldl_merged (x : String) (names : List String) (st : ScopeStack VarEntry) :
    (names.foldl merged st).outer = st.outer ∧ (names.foldl merged st).top.lookup x =
      if x ∈ names then st.lookup x else st.top.lookup x := by
  induction names generalizing st with
  | nil => exact ⟨rfl, rfl⟩
  | cons name names ih =>
    obtain ⟨hout, htop⟩ := ih (merged st name)
    rw [List.foldl_cons, htop, hout, merged_lookup, merged_top]
    refine ⟨merged_outer st name, ?_⟩
    by_cases hx : x = name
    · simp [hx]
    · simp [hx]

theorem incomingOf_emits {name : String} {original : Value} {e : VarEntry} {info : BranchInfo}
    (he : st.lookup name = some e) (hv : e.type ≠ .kVoid)
    (hinfo : ∀ v, info.modified.lookup name = some v →
      ∃ e, st.lookup name = some e ∧ Carries sure e.type v) :
    Emits sure True st (incomingOf name original info) (fun _ => True) st := by
  unfold incomingOf
  cases hl : info.modified.lookup name with
  | none => exact .pure trivial
  | some value =>
    obtain ⟨e', he', hc⟩ := hinfo value hl
    rw [he] at he'
    obtain rfl : e = e' := Option.some.inj he'
    obtain ⟨x, rfl, -⟩ := hc.value hv
    exact (Emits.deref x).step fun _ _ => .pure trivial

theorem fallthroughOf_emits {hasElse : Bool} {original : Value} {branches : IfBranches}
    (hlast : branches.lastCondBlock ≠ none) :
    Emits sure True st (fallthroughOf hasElse original branches) (fun _ => True) st := by
  unfold fallthroughOf
  split
  · exact .pure trivial
  · obtain ⟨b, hb⟩ := Option.ne_none_iff_exists'.mp hlast
    rw [hb]
    exact (Emits.deref b).step fun _ _ => .pure trivial

/-- **The loop over the variables that are merged** succeeds if none of them is void. -/
theorem mergeVars_emits (hasElse : Bool) {branches : IfBranches}
    (hlast : branches.lastCondBlock ≠ none) (names : List String) (st : ScopeStack VarEntry)
    (hnames : ∀ x ∈ names, st.lookup x ≠ none)
    (hvals : ∀ info ∈ branches.branchInfos, ∀ x v, info.modified.lookup x = some v →
      ∃ e, st.lookup x = some e ∧ Carries sure e.type v) :
    Emits sure (∀ x ∈ names, ∀ e, st.lookup x = some e → e.type ≠ .kVoid) st
      (mergeVars hasElse branches names) (fun _ => True) (names.foldl merged st) := by
  induction names generalizing st with
  | nil => exact (Emits.pure trivial).of_true (by simp)
  | cons name names ih =>
    obtain ⟨hname, hrest⟩ := List.forall_mem_cons.mp hnames
    obtain ⟨e, he⟩ := Option.ne_none_iff_exists'.mp hname
    have htail := ih (merged st name) (by simpa using hrest) (by simpa using hvals)
    rw [mergeVars]
    by_cases hv : e.type = .kVoid
    · -- the value of a void variable is null
      refine .fails (fun hgood => hgood name List.mem_cons_self e he hv) fun hsure s r hs hrun => ?_
      obtain ⟨v, hlook, hc⟩ := hs.lookup_some he
      obtain ⟨s₁, s₂, hget, hrest⟩ := Checked.run_bind_eq_ok.mp hrun
      obtain ⟨rfl, rfl⟩ := Checked.run_get_eq_ok.mp hget
      rw [hlook, hc.null hsure hv] at hrest
      cases hrest
    · have hgood : (∀ x ∈ names, ∀ e, (merged st name).lookup x = some e → e.type ≠ .kVoid) ↔
          ∀ x ∈ name :: names, ∀ e, st.lookup x = some e → e.type ≠ .kVoid := by
        have hhead : ∀ e, st.lookup name = some e → e.type ≠ .kVoid := by
          intro e' he'
          rw [he] at he'
          exact Option.some.inj he' ▸ hv
        simp only [merged_lookup, List.forall_mem_cons]
        exact ⟨fun h => ⟨hhead, h⟩, fun h => h.2⟩
      refine (Emits.get_bind fun s hs => ?_).congr hgood
      obtain ⟨v, hlook, hc⟩ := hs.lookup_some he
      obtain ⟨original, rfl, horig⟩ := hc.value hv
      rw [hlook]
      refine (Emits.deref original).step ?_
      rintro _ rfl
      refine (Emits.mapM fun info hi => incomingOf_emits he hv (hvals info hi name)).step
        fun incoming _ => ?_
      refine (fallthroughOf_emits hlast).step fun falls _ => ?_
      refine (Emits.createPhi _ _).step fun phi hphi => ?_
      refine Emits.step (Emits.modify fun s hs => ?_) fun _ _ => htail
      rw [merged, he]
      exact hs.set name (.some hv (hphi ▸ horig))

/-! ## 4. The visitor -/

theorem valueTypeToLLVMType_value (val : ConstantValueType) :
    valueTypeToLLVMType (constantValueType val) = .ok (Literal.value val).type := by
  cases val <;> rfl

theorem valueTypeToLLVMType_list (valList : ConstantListValueType) :
    valueTypeToLLVMType (constantListValueType valList) = .ok (Literal.list valList).type := by
  cases valList <;> rfl

theorem constantListValueType_ne_kVoid (valList : ConstantListValueType) :
    constantListValueType valList ≠ .kVoid := by
  cases valList <;> nofun

theorem constantValueType_ne_kVoid (val : ConstantValueType) :
    constantValueType val ≠ .kVoid := by
  cases val <;> nofun

/-- List literals that share a cache entry are of one type. -/
theorem constListEquivalent_type {a b : ConstantListValueType}
    (h : constListEquivalent a b = true) : (Literal.list a).type = (Literal.list b).type := by
  cases a <;> cases b <;> first | rfl | exact nomatch h

theorem constantList_emits (info : NodeInfo) (valList : ConstantListValueType) :
    Emits sure True st (visit ctx (.constantListValue info valList))
      (Carries sure (constantListValueType valList)) st := by
  have hne := constantListValueType_ne_kVoid valList
  have htype := valueTypeToLLVMType_list valList
  rw [visit]
  refine Emits.get_bind fun s hs => ?_
  split
  · next e he =>
    have hequiv : constListEquivalent e.1 valList = true := by
      simpa using List.find?_some he
    have hsame := constListEquivalent_type hequiv
    refine .pure (.some hne ?_)
    rw [hs.cache e (List.mem_of_find?_eq_some he), hsame]
    exact htype
  · dsimp only
    exact (Emits.modify fun s hs => hs.cacheList rfl).step fun _ _ => .pure (.some hne htype)

/-- The merge of a when-block, after its branches. -/
theorem merge_emits {hasElse : Bool} {branches : IfBranches} {acc : Scope ValueType}
    (hb : Collects sure st ∅ acc branches.branchInfos) (hlast : branches.lastCondBlock ≠ none)
    (hacc : ∀ x t, acc.lookup x = some t → st.lookup x = some ⟨t, false⟩) :
    Emits sure (¬ ∃ x, acc.lookup x = some .kVoid) st
      (mergeVars hasElse branches
        (ctx.hashOrder.order (branches.branchInfos.flatMap fun info => info.modified.keys)))
      (fun _ => True) (setShadowed st acc) := by
  generalize hnames : ctx.hashOrder.order _ = names
  have hmem : ∀ x, x ∈ names ↔ acc.lookup x ≠ none := by
    intro x
    rw [← hnames, (ctx.hashOrder.perm _).mem_iff, List.mem_dedup, List.mem_flatMap, hb.names]
    simp only [AList.lookup_empty, ne_eq, not_true, false_or, AList.mem_keys,
      AList.lookup_eq_none, not_not]
  have hknown : ∀ x ∈ names, st.lookup x ≠ none := by
    intro x hx
    obtain ⟨t, ht⟩ := Option.ne_none_iff_exists'.mp ((hmem x).mp hx)
    rw [hacc x t ht]
    exact Option.some_ne_none _
  have hgood : (∀ x ∈ names, ∀ e, st.lookup x = some e → e.type ≠ .kVoid) ↔
      ¬ ∃ x, acc.lookup x = some .kVoid := by
    constructor
    · rintro h ⟨x, hx⟩
      exact h x ((hmem x).mpr (by rw [hx]; exact Option.some_ne_none _)) _ (hacc x _ hx) rfl
    · intro h x hx e he hv
      obtain ⟨t, ht⟩ := Option.ne_none_iff_exists'.mp ((hmem x).mp hx)
      rw [hacc x t ht] at he
      cases Option.some.inj he
      exact h ⟨x, ht.trans (congrArg some hv)⟩
  refine ((mergeVars_emits hasElse hlast names st hknown hb.values).congr hgood).weaken
    (fun _ hs => hs) fun _ s hs => ⟨trivial, hs.2.congr (fun x => ?_) ?_⟩
  · rw [setShadowed_top_lookup, (foldl_merged x names st).2]
    cases ha : acc.lookup x with
    | none =>
      rw [if_neg fun hx => (hmem x).mp hx ha]
      rfl
    | some t =>
      rw [if_pos ((hmem x).mpr (by rw [ha]; exact Option.some_ne_none _)), hacc x t ha]
      rfl
  · rw [setShadowed_outer, (foldl_merged "" names st).1]

/-- `&&` and `||`, from the two operands. -/
theorem logical_emits {info : NodeInfo} {op : BinaryOPType} {left right : ExecNode}
    {good good' : Prop} (hlog : isLogicalBinaryOPType op = true)
    (hl : Emits sure good st (visit ctx left) (Carries sure left.getReturnType) st)
    (hr : Emits sure good' st (visit ctx right) (Carries sure right.getReturnType) st)
    (hln : isNumericType left.getReturnType = true)
    (hrn : isNumericType right.getReturnType = true) :
    Emits sure (good ∧ good') st (visit ctx (.binaryOP info op left right)) (Carries sure .kU8)
      st := by
  rw [visit, if_pos hlog]
  refine (Emits.createBlock _).step fun _ _ => ?_
  refine (Emits.createBlock _).step fun _ _ => ?_
  refine (getCondition_emits hl hln).bind fun _ _ => ?_
  refine Emits.getInsertBlock.step fun _ _ => ?_
  split
  all_goals
    refine (Emits.build fun s => ⟨_, rfl⟩).step fun _ _ => ?_
    refine (Emits.build fun s => ⟨_, rfl⟩).step fun _ _ => ?_
    refine (getCondition_emits hr hrn).last fun _ _ => ?_
    refine Emits.getInsertBlock.step fun _ _ => ?_
    refine (Emits.build fun s => ⟨_, rfl⟩).step fun _ _ => ?_
    refine (Emits.build fun s => ⟨_, rfl⟩).step fun _ _ => ?_
    refine (Emits.createPhi _ _).step fun phi _ => ?_
    refine (Emits.emit _ _).step fun value hvalue =>
      .pure (.some (fun h => absurd h (by decide)) ?_)
    rw [hvalue]
    exact typed_truth _

/-- Any other operator on two operands. -/
theorem operator_emits {info : NodeInfo} {op : BinaryOPType} {left right : ExecNode} {t : ValueType}
    {good good' : Prop} (hctx : Backed sure ctx) (hlog : isLogicalBinaryOPType op = false)
    (hl : Emits sure good st (visit ctx left) (Carries sure left.getReturnType) st)
    (hr : Emits sure good' st (visit ctx right) (Carries sure right.getReturnType) st)
    (hlv : left.getReturnType ≠ .kVoid) (hrv : right.getReturnType ≠ .kVoid)
    (ht : BinaryTyped op left.getReturnType right.getReturnType t) :
    Emits sure (good ∧ good') st (visit ctx (.binaryOP (info.setReturnType t) op left right))
      (Carries sure t) st := by
  rw [visit, hlog, if_neg Bool.false_ne_true]
  refine (getValue_emits hl).bind fun l hlc => ?_
  obtain ⟨x, rfl, hx⟩ := hlc.value hlv
  refine (getValue_emits hr).last fun r hrc => ?_
  obtain ⟨y, rfl, hy⟩ := hrc.value hrv
  refine (Emits.deref x).step ?_
  rintro x rfl
  refine (Emits.deref y).step ?_
  rintro y rfl
  have hxt : Typed (fun i => (![x, y] i).type) (.input 0) left.getReturnType := hx
  have hyt : Typed (fun i => (![x, y] i).type) (.input 1) right.getReturnType := hy
  obtain ⟨z, hz, htz⟩ : ∃ z : IRExpr 2,
      (if isNumericType left.getReturnType ∧ isNumericType right.getReturnType then
        solveBinaryOpNumericType op left.getReturnType right.getReturnType t (.input 0) (.input 1)
      else solveBinaryOpComplexType ctx.functionRegistry op left.getReturnType right.getReturnType t
        (.input 0) (.input 1)) = .ok z ∧ Typed (fun i => (![x, y] i).type) z t := by
    split
    · next hn => exact solveBinaryOpNumericType_typed ht hlog hn.1 hn.2 hxt hyt
    · next hn => exact solveBinaryOpComplexType_typed hctx.builtins ht hn
  refine (Emits.returnNotOk hz).step ?_
  rintro _ rfl
  refine (Emits.emit _ _).step fun value hvalue => .pure (.some ht.ne_kVoid ?_)
  rw [hvalue]
  exact htz

theorem unaryOP_emits {info : NodeInfo} {op : UnaryOPType} {child : ExecNode} {t : ValueType}
    {good : Prop} (hc : Emits sure good st (visit ctx child) (Carries sure child.getReturnType) st')
    (ht : unaryOPType info.loc op child.getReturnType = .ok t) :
    Emits sure good st (visit ctx (.unaryOP (info.setReturnType t) op child)) (Carries sure t)
      st' := by
  obtain ⟨-, hnum, hsame, -⟩ := unaryOPType_numeric ht
  rw [visit]
  refine (getValue_emits hc).last fun value hval => ?_
  split
  · next hop =>
    refine .pure ?_
    rw [hsame (.inl hop)]
    exact hval
  · obtain ⟨x, rfl, hx⟩ := hval.value (ne_kVoid_of_unaryOPType ht)
    refine (Emits.deref x).step ?_
    rintro x rfl
    have hxt : Typed (fun i => (![x] i).type) (.input 0) child.getReturnType := hx
    obtain ⟨z, hz, htz⟩ := unaryOP_typed x.type ht hxt
    refine (Emits.returnNotOk hz).step ?_
    rintro _ rfl
    refine (Emits.emit _ _).step fun v hv => .pure (.some (ne_kVoid_of_isNumericType hnum) ?_)
    rw [hv]
    exact htz

/-- `if`: three arguments. -/
theorem ifNode_emits {info : NodeInfo} {args : List ExecNode} {t : ValueType}
    (hargs : AllEmit sure ctx known st args) (ht : ifNodeType info.loc args = .ok t) :
    Emits sure (t ≠ .kUnknown ∧ lowerableArgs known args = true) st
      (visit ctx (.ifNode (info.setReturnType t) args)) (Carries sure t) st := by
  obtain ⟨hfit, hlen⟩ := ifNodeType_fits ht
  match args, hlen with
  | [cond, then_, else_], _ =>
    obtain ⟨hnum, hfit₁, hfit₂⟩ := hfit
    obtain ⟨⟨-, hcond⟩, hargs⟩ := List.forall_mem_cons.mp hargs
    obtain ⟨⟨hv₁, hthen⟩, hargs⟩ := List.forall_mem_cons.mp hargs
    obtain ⟨⟨hv₂, helse⟩, -⟩ := List.forall_mem_cons.mp hargs
    simp only [lowerableArgs, Bool.and_eq_true, Bool.and_true]
    rw [visit]
    refine (Emits.llvmType t).bind fun retType hret => ?_
    refine (getCondition_emits hcond hnum).bind fun _ _ => ?_
    refine (Emits.createBlock _).step fun _ _ => ?_
    refine (Emits.createBlock _).step fun _ _ => ?_
    refine (Emits.createBlock _).step fun _ _ => ?_
    refine (Emits.build fun s => ⟨_, rfl⟩).step fun _ _ => ?_
    refine (Emits.build fun s => ⟨_, rfl⟩).step fun _ _ => ?_
    refine (getBranchValue_emits hthen hv₁ hfit₁).bind fun _ htv => ?_
    refine (Emits.build fun s => ⟨_, rfl⟩).step fun _ _ => ?_
    refine (getBranchValue_emits helse hv₂ hfit₂).last fun _ _ => ?_
    refine (Emits.build fun s => ⟨_, rfl⟩).step fun _ _ => ?_
    refine (Emits.createPhi _ _).step fun phi hphi => .pure (.some htv ?_)
    rw [hphi]
    exact hret

theorem switchNode_emits {info : NodeInfo} {args : List ExecNode} {t : ValueType}
    (hargs : AllEmit sure ctx known st args) (hfit : BranchesFit (Fits t) args) :
    Emits sure (t ≠ .kUnknown ∧ lowerableArgs known args = true) st
      (visit ctx (.switchNode (info.setReturnType t) args)) (Carries sure t) st := by
  rw [visit]
  refine (Emits.llvmType t).bind fun retType hret => ?_
  refine Emits.getInsertBlock.step fun _ _ => ?_
  refine (Emits.createBlock _).step fun _ _ => ?_
  refine (visitSwitch_emits hargs hfit).last fun r htv => ?_
  refine (Emits.build fun s => ⟨_, rfl⟩).step fun _ _ => ?_
  refine (Emits.build fun s => ⟨_, rfl⟩).step fun _ _ => ?_
  refine (Emits.build fun s => ⟨_, rfl⟩).step fun _ _ => ?_
  refine (Emits.createPhi _ _).step fun phi hphi => .pure (.some htv ?_)
  rw [hphi]
  exact hret

/-- What a statement does once its value is known, and the statements after it. -/
theorem bindStmt_emits {var : VarInfo} {node : ExecNode} {value : Option Value} {rest : Gen Unit}
    {good : Prop} {A : Unit → Prop} (hb : bindStmt var node st = .ok st₁)
    (hv : Carries sure node.getReturnType value) (hrest : Emits sure good st₁ rest A st') :
    Emits sure good st (if var.name ≠ "" then do
      modify (·.modifyScope (·.set var.name value))
      rest
    else rest) A st' := by
  rcases bindStmt_eq_ok_iff.mp hb with ⟨hn, rfl⟩ | ⟨hn, -, rfl⟩
  · rw [if_neg (not_not.mpr hn)]
    exact hrest
  · rw [if_pos hn]
    exact (Emits.modify fun s hs => hs.set var.name hv).step fun _ _ => hrest

/-! ## 5. Soundness -/

mutual

/-- **An accepted tree is lowered if it is lowerable**, and the value of every node is of the LLVM
type of its return type. -/
theorem visit_emits (hctx : Backed sure ctx) {node node' : ExecNode}
    {st st' : ScopeStack VarEntry} {known : List String} :
    Visits ctx.functionRegistry st node node' st' → Names known st →
      Emits sure (lowerable known node' = true) st (visit ctx node')
        (Carries sure node'.getReturnType) st'
  | .entryArgument, _ | .execContext, _ | .output, _ =>
    (Emits.pure (.some nofun rfl)).of_true rfl
  | .constantValue, _ =>
    (Emits.pure (.some (constantValueType_ne_kVoid _) (valueTypeToLLVMType_value _))).of_true rfl
  | .constantListValue, _ => (constantList_emits _ _).of_true rfl
  | .unaryOP hc ht, hk => unaryOP_emits (visit_emits hctx hc hk) ht
  | @Visits.binaryOP _ _ _ _ _ op _ _ _ _ _ hl hr ht, hk => by
    have hv := ne_kVoid_of_binaryOPType ht
    have htyped := binaryOPType_typed ht
    have hst := hl.scopes_eq hv.1
    have hleft := visit_emits hctx hl hk
    have hright := visit_emits hctx hr (hst ▸ hk)
    obtain rfl := hst
    obtain rfl := hr.scopes_eq hv.2
    rw [lowerable, Bool.and_eq_true]
    cases hlog : isLogicalBinaryOPType op with
    | true =>
      obtain ⟨hln, hrn, rfl⟩ := htyped.logical hlog
      exact logical_emits hlog hleft hright hln hrn
    | false => exact operator_emits hctx hlog hleft hright hv.1 hv.2 htyped
  | .function ha ht, hk => by
    have hargs := visitArgs_allEmit hctx ha hk
    obtain rfl := ha.scopes_eq
    rw [visit, lowerable, Bool.and_eq_true, decide_eq_true_eq, and_comm]
    exact (visitArgs_emits hargs).bind fun _ hvals => call_emits hctx ht hvals
  | .noOP hs, hk => by
    rw [visit, lowerable]
    exact (visitStmts_emits hctx hs hk).last fun _ _ => .pure .none
  | .ifNode hn ha ht, hk => by
    have hnode := Visits.ifNode hn ha ht
    have hargs := visitArgs_allEmit hctx ha hk
    obtain rfl := ha.scopes_eq
    refine .of_tracks fun s hs => (ifNode_emits hargs ht).congr (and_iff_right_of_imp fun hl => ?_)
    exact hnode.ne_kUnknown (fun x e => hs.ne_kUnknown) hl
  | .switchNode hn ha ht, hk => by
    have hnode := Visits.switchNode hn ha ht
    have hargs := visitArgs_allEmit hctx ha hk
    have hfit := switchNodeType_fits ht (ha.length_eq ▸ hn)
    obtain rfl := ha.scopes_eq
    refine .of_tracks fun s hs =>
      (switchNode_emits hargs hfit).congr (and_iff_right_of_imp fun hl => ?_)
    exact hnode.ne_kUnknown (fun x e => hs.ne_kUnknown) hl
  | .ifBlock hn hb, hk => by
    have hbranches := fun mergeBlock => visitIfBranches_emits hctx mergeBlock hb hk
    obtain ⟨rfl, hacc⟩ := hb.keeps
    rw [lowerable, Bool.and_eq_true, visit]
    refine Emits.getInsertBlock.step fun _ _ => ?_
    refine (Emits.createBlock _).step fun mergeBlock _ => ?_
    refine ((hbranches mergeBlock).bind fun branches hbr => ?_).congr
      (and_congr_right fun hl => (not_congr (hb.void_iff hk hl)).trans (by simp))
    refine (Emits.build fun s => ⟨_, rfl⟩).step fun _ _ => ?_
    refine (Emits.build fun s => ⟨_, rfl⟩).step fun _ _ => ?_
    refine (Emits.build fun s => ⟨_, rfl⟩).step fun _ _ => ?_
    refine (merge_emits hbr.1 (hbr.2 (hb.length_eq ▸ hn)) fun x t hx => ?_).last fun _ _ =>
      .pure .none
    exact (hacc hx).resolve_left (by simp)
  | .ref he, _ => by
    rw [visit]
    refine (Emits.get_bind fun s hs => ?_).of_true rfl
    obtain ⟨v, hlook, hv⟩ := hs.lookup_some he
    rw [hlook]
    exact .pure hv

theorem visitArgs_allEmit (hctx : Backed sure ctx) {args args' : List ExecNode}
    {st st' : ScopeStack VarEntry} {known : List String} :
    VisitsArgs ctx.functionRegistry st args args' st' → Names known st →
      AllEmit sure ctx known st args'
  | .nil, _ => fun _ h => nomatch h
  | .cons h hv hs, hk => by
    have hst := h.scopes_eq hv
    have harg := visit_emits hctx h hk
    have hrest := visitArgs_allEmit hctx hs (hst ▸ hk)
    rw [hst] at harg hrest
    exact List.forall_mem_cons.mpr ⟨⟨hv, harg⟩, hrest⟩

theorem visitStmts_emits (hctx : Backed sure ctx) {isolated : Bool}
    {args args' : List (VarInfo × ExecNode)} {st st' : ScopeStack VarEntry}
    {known : List String} : VisitsStmts ctx.functionRegistry isolated st args args' st' →
      Names known st →
        Emits sure (lowerableStmts isolated known args' = true) st (visitStmts ctx isolated args')
          (fun _ => True) st'
  | .nil, _ => (Emits.pure trivial).of_true rfl
  | .cons h hb hs, hk => by
    have hvisit := visit_emits hctx h hk.enterStmt
    have hrest := visitStmts_emits hctx hs (hk.stmt h hb)
    rw [visitStmts, lowerableStmts, Bool.and_eq_true]
    cases isolated with
    | true =>
      simp only [if_true] at hrest ⊢
      refine Emits.step (Emits.modify fun s hs => hs.pushScope) fun _ _ => ?_
      refine (getValue_emits hvisit).bind fun value hv => bindStmt_emits hb hv ?_
      exact Emits.step (Emits.modify fun s hs => hs.popScope) fun _ _ => hrest
    | false =>
      simp only [Bool.false_eq_true, if_false] at hrest ⊢
      exact (getValue_emits hvisit).bind fun value hv => bindStmt_emits hb hv hrest

theorem visitIfBranches_emits (hctx : Backed sure ctx) (mergeBlock : Nat)
    {acc acc' : Scope ValueType} {args args' : List ExecNode} {st st' : ScopeStack VarEntry}
    {known : List String} : VisitsBranches ctx.functionRegistry acc st args args' acc' st' →
      Names known st →
        Emits sure (lowerableArgs known args' = true) st (visitIfBranches ctx mergeBlock args')
          (fun branches => Collects sure st acc acc' branches.branchInfos ∧
            (2 ≤ args'.length → branches.lastCondBlock ≠ none)) st
  | .nil, _ => (Emits.pure ⟨collects_nil, nofun⟩).of_true rfl
  | .elseBody h _, hk => by
    rw [visitIfBranches, lowerableArgs, lowerableArgs, Bool.and_true]
    refine (Emits.createBlock _).step fun _ _ => ?_
    refine (Emits.build fun s => ⟨_, rfl⟩).step fun _ _ => ?_
    refine (getBranchBody_emits (visit_emits hctx h hk.pushScope) h.keeps).last fun info hinfo =>
      .pure ⟨collects_nil.cons h.keeps hinfo, by simp⟩
  | .cons hc hn h _ hs, hk => by
    have hst := hc.scopes_eq (ne_kVoid_of_isNumericType hn)
    have hpop := h.keeps.popScope
    have hcond := visit_emits hctx hc hk
    have hbody := visit_emits hctx h (hst ▸ hk.pushScope)
    have hrest := visitIfBranches_emits hctx mergeBlock hs (hpop.trans hst ▸ hk)
    obtain rfl := hst
    rw [hpop] at hrest
    rw [visitIfBranches, lowerableArgs, lowerableArgs, Bool.and_eq_true, Bool.and_eq_true]
    rw [← and_assoc, and_comm]
    refine hrest.bind fun branches hbr => ?_
    refine (Emits.createBlock _).step fun _ _ => ?_
    refine (Emits.build fun s => ⟨_, rfl⟩).step fun _ _ => ?_
    refine (getCondition_emits hcond hn).bind fun _ _ => ?_
    refine (Emits.createBlock _).step fun _ _ => ?_
    refine (Emits.build fun s => ⟨_, rfl⟩).step fun _ _ => ?_
    refine (Emits.build fun s => ⟨_, rfl⟩).step fun _ _ => ?_
    exact (getBranchBody_emits hbody h.keeps).last fun info hinfo =>
      .pure ⟨hbr.1.cons h.keeps hinfo, fun _ => Option.some_ne_none _⟩

end

/-! ## 6. The entry function -/

/-- `BuildEntryFunction` of an annotated root succeeds, and every visited node that is not void has
a value of the LLVM type of its return type. -/
def Generates (ctx : Context) (node : ExecNode) : Prop :=
  ∃ s', (buildEntryFunction ctx node).run entryState = .ok ((), s') ∧
    ∀ e ∈ s'.visited, e.1 ≠ .kVoid → ∃ x, e.2 = some x ∧ valueTypeToLLVMType e.1 = .ok x.type

theorem getEntryFunctionCallee_emits (t : ValueType) :
    Emits sure (t ≠ .kPtr ∧ t ≠ .kUnknown) st (returnNotOk (getEntryFunctionCallee t))
      (fun _ => True) st := by
  by_cases hp : t = .kPtr
  · subst hp
    exact .throw fun h => h.1 rfl
  · by_cases hu : t = .kUnknown
    · subst hu
      exact .throw fun h => h.2 rfl
    · obtain ⟨type, htype⟩ := valueTypeToLLVMType_ok hu
      have hcallee : getEntryFunctionCallee t = .ok type := by
        cases t with
        | kUnknown => exact absurd rfl hu
        | kPtr => exact absurd rfl hp
        | _ => exact htype
      exact ((Emits.returnNotOk hcallee).imp fun _ _ => trivial).of_true ⟨hp, hu⟩

theorem buildEntryFunction_emits (hctx : Backed sure ctx) {node node' : ExecNode}
    (h : Visits ctx.functionRegistry {} node node' st') :
    Emits sure (node'.getReturnType ≠ .kPtr ∧ lowerable [] node' = true) {}
      (buildEntryFunction ctx node') (fun _ => True) st' := by
  have hgood : (node'.getReturnType ≠ .kPtr ∧ node'.getReturnType ≠ .kUnknown) ∧
      lowerable [] node' = true ↔ node'.getReturnType ≠ .kPtr ∧ lowerable [] node' = true := by
    rw [and_assoc]
    exact and_congr_right fun _ => and_iff_right_of_imp (h.ne_kUnknown nofun)
  unfold buildEntryFunction
  refine ((getEntryFunctionCallee_emits _).bind fun _ _ => ?_).congr hgood
  refine (getValue_emits (visit_emits hctx h .empty)).last fun value _ => ?_
  exact Emits.build fun s => ⟨_, rfl⟩

/-- **Soundness of the validator, and what it lacks**: the code of an accepted tree is generated if
its root is not a pointer and it is lowerable, and, where void callbacks return null, only then. -/
theorem accepted_generates_iff (ctx : Context) (hreg : Builtins ctx.functionRegistry)
    (hcb : CallbacksTyped ctx) {node node' : ExecNode} {st' : ScopeStack VarEntry}
    (hv : Validator.validate ctx.functionRegistry node = .ok (node', st')) :
    (node'.getReturnType ≠ .kPtr ∧ lowerable [] node' = true → Generates ctx node') ∧
      (VoidCallbacksNull ctx →
        (Generates ctx node' ↔ node'.getReturnType ≠ .kPtr ∧ lowerable [] node' = true)) := by
  have hvisits := (visit_run_eq_ok node).mp hv
  have hsufficient : node'.getReturnType ≠ .kPtr ∧ lowerable [] node' = true →
      Generates ctx node' := by
    intro hgood
    have hctx : Backed False ctx := ⟨hreg, hcb, False.elim⟩
    have hbuild := buildEntryFunction_emits hctx hvisits
    obtain ⟨_, s', hrun, -, hs'⟩ := hbuild.succeeds hgood _ .entryState
    exact ⟨s', hrun, fun e he => (hs'.visited e he).value⟩
  refine ⟨hsufficient, fun hnull => ⟨?_, hsufficient⟩⟩
  · rintro ⟨s', hrun, -⟩
    have hctx : Backed True ctx := ⟨hreg, hcb, fun _ => hnull⟩
    have hbuild := buildEntryFunction_emits hctx hvisits
    exact hbuild.only trivial _ _ .entryState hrun

/-! ## 7. Two trees -/

def plainCFunc : FunctionStructure := { funcType := .kCFunc, cFuncPtr := 1 }

def listTypes : List ValueType :=
  [.kU8List, .kU16List, .kU32List, .kU64List, .kI8List, .kI16List, .kI32List, .kI64List,
    .kF32List, .kF64List, .kStringList]

/-- What the operators on strings and lists call, the conversion `i32(u8)`, and
`store(ptr, i32, f32) -> void`. -/
def storeRegistry : FunctionRegistry where
  signature2funcstruct :=
    ⟨⟨("i32", [.kU8]), .kI32,
        { funcType := .kLLVMIntrinicFunc, codegenFunc := some .callBuiltinCastFunction }⟩ ::
      ⟨("StringConcat", [.kString, .kString, .kPtr]), .kString, plainCFunc⟩ ::
      ⟨("StringCmp", [.kString, .kString]), .kI32, plainCFunc⟩ ::
      ⟨("store", [.kPtr, .kI32, .kF32]), .kVoid, plainCFunc⟩ ::
      listTypes.map fun t => ⟨("ListConcat", [t, t, .kPtr]), t, plainCFunc⟩,
      by unfold List.NodupKeys; decide⟩

def storeRegistryContext : Context where
  functionRegistry := storeRegistry
  callback _ _ _ _ := none
  hashOrder := .dedup

theorem storeRegistry_builtins : Builtins storeRegistry where
  stringConcat := ⟨_, rfl⟩
  stringCmp := ⟨_, rfl⟩
  listConcat t ht := by cases t <;> first | exact ⟨_, rfl⟩ | exact nomatch ht

/-- Every entry but the conversion is a C function. -/
theorem storeRegistry_find {key : SigKey} {t : ValueType} {fs : FunctionStructure}
    (h : storeRegistry.find key = some (t, fs)) :
    (key = ("i32", [.kU8]) ∧ t = .kI32 ∧ fs.codegenFunc = some .callBuiltinCastFunction) ∨
      fs = plainCFunc := by
  have hmem := List.of_mem_dlookup h
  simp only [storeRegistry, List.mem_cons, List.mem_map, Sigma.mk.injEq, heq_eq_eq,
    Prod.mk.injEq] at hmem
  rcases hmem with ⟨rfl, rfl, rfl⟩ | h | h | h | ⟨u, -, h⟩
  · exact .inl ⟨rfl, rfl, rfl⟩
  · exact .inr h.2.2
  · exact .inr h.2.2
  · exact .inr h.2.2
  · exact .inr h.2.2.symm

theorem storeRegistry_callbacks : CallbacksTyped storeRegistryContext := by
  intro key t fs hfind htype
  rcases storeRegistry_find hfind with ⟨rfl, rfl, hf⟩ | rfl
  · refine ⟨_, hf, fun args hargs _ => ?_⟩
    rcases hargs with - | ⟨hx, hrest⟩
    cases hrest
    exact ⟨_, rfl, rfl⟩
  · cases htype

theorem storeRegistry_voids : VoidCallbacksNull storeRegistryContext := by
  intro key fs f hfind hf
  rcases storeRegistry_find hfind with ⟨-, ht, -⟩ | rfl
  · cases ht
  · cases hf

/-- `store(output, 0, 1.0)`. -/
def storeCall : ExecNode :=
  .function {} "store" [.output {}, .constantValue {} (.i32 0), .constantValue {} (.f32 0x3F800000)]

/-- `result = 1; when (i32(2u8)) { result = 2; store(output, 0, 1.0) }` -/
def storeInBranch : ExecNode :=
  .noOP {}
    [({ name := "result" }, .constantValue {} (.i32 1)),
      ({}, .ifBlock {}
        [.function {} "i32" [.constantValue {} (.u8 2)],
          .noOP {} [({ name := "result" }, .constantValue {} (.i32 2)), ({}, storeCall)] false])]
    false

theorem storeInBranch_generates : ∃ node' st',
    Validator.validate storeRegistry storeInBranch = .ok (node', st') ∧
      VoidCallbacksNull storeRegistryContext ∧ Generates storeRegistryContext node' := by
  have hval : ∃ node' st', Validator.validate storeRegistry storeInBranch = .ok (node', st') ∧
      node'.getReturnType ≠ .kPtr ∧ lowerable [] node' = true := ⟨_, _, rfl, nofun, rfl⟩
  rcases hval with ⟨node', st', hv, hgood⟩
  have hgen := accepted_generates_iff storeRegistryContext storeRegistry_builtins
    storeRegistry_callbacks hv
  exact ⟨node', st', hv, storeRegistry_voids, (hgen.2 storeRegistry_voids).mpr hgood⟩

/-- `x = store(output, 0, 1.0); when (1) { x = store(output, 0, 1.0) }` -/
def voidVariable : ExecNode :=
  .noOP {}
    [({ name := "x" }, storeCall),
      ({}, .ifBlock {}
        [.constantValue {} (.i32 1), .noOP {} [({ name := "x" }, storeCall)] false])]
    false

/-- The variable that is merged has no value. -/
theorem voidVariable_nullDeref : Builtins storeRegistry ∧ CallbacksTyped storeRegistryContext ∧
    ∃ node' st', Validator.validate storeRegistry voidVariable = .ok (node', st') ∧
      (buildEntryFunction storeRegistryContext node').run entryState = .error .nullDeref ∧
      ¬ Generates storeRegistryContext node' := by
  have hrun : ∃ node' st', Validator.validate storeRegistry voidVariable = .ok (node', st') ∧
      (buildEntryFunction storeRegistryContext node').run entryState = .error .nullDeref :=
    ⟨_, _, rfl, rfl⟩
  rcases hrun with ⟨node', st', hv, hnull⟩
  refine ⟨storeRegistry_builtins, storeRegistry_callbacks, node', st', hv, hnull, ?_⟩
  rintro ⟨s', hok, -⟩
  rw [hnull] at hok
  cases hok

end CodeGen

end JitFusion
