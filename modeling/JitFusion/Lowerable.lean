/-
# What lowering asks of an accepted tree

The code generator walks a tree the validator has accepted.  Two things it relies on the validator
does not check: that a called function is registered with a type LLVM has a counterpart for, and
that a variable a when-block merges has a value, which a void variable has not.  `lowerable` is
what is missing.

A void variable of the scope around a when-block reaches the variables the block merges only
through a binding of one of its bodies (`VisitsBranches.void_iff`).  And in a lowerable tree no
node has the type `unknown` (`Visits.ne_kUnknown`).
-/
import Mathlib.Data.List.Induction
import JitFusion.BatchValidation

namespace JitFusion

namespace Validator

open TypeHelper ScopeStack

/-! ## 1. The condition -/

/-- The body binds a void variable that is known around it. -/
def bindsVoid (known : List String) (body : ExecNode) : Bool :=
  (exports body).any fun b => decide (b.1 ∈ known) && decide (b.2.type = .kVoid)

mutual

/-- In an annotated tree, where `known` are the variables around it: no call is of the type
`unknown`, and no body of a when-block binds a void variable that is known around the block. -/
def lowerable (known : List String) : ExecNode → Bool
  | .unaryOP _ _ child => lowerable known child
  | .binaryOP _ _ left right => lowerable known left && lowerable known right
  | .function info _ args => decide (info.returnType ≠ .kUnknown) && lowerableArgs known args
  | .ifNode _ args | .switchNode _ args => lowerableArgs known args
  | .ifBlock _ args => lowerableArgs known args && !(args.any (bindsVoid known))
  | .noOP _ args isolated => lowerableStmts isolated known args
  | _ => true

def lowerableArgs (known : List String) : List ExecNode → Bool
  | [] => true
  | arg :: args => lowerable known arg && lowerableArgs known args

def lowerableStmts (isolated : Bool) (known : List String) : List (VarInfo × ExecNode) → Bool
  | [] => true
  | (var, arg) :: args =>
    lowerable known arg &&
      lowerableStmts isolated (if isolated then known
        else (exports arg ++ ownBinding var arg).map Prod.fst ++ known) args

end

variable {reg : FunctionRegistry} {st st' st'' : ScopeStack VarEntry} {known : List String}

theorem bindsVoid_iff {body : ExecNode} :
    bindsVoid known body = true ↔
      ∃ x e, (x, e) ∈ exports body ∧ x ∈ known ∧ e.type = .kVoid := by
  simp only [bindsVoid, List.any_eq_true, Prod.exists, Bool.and_eq_true, decide_eq_true_eq]

/-- `known` are the variables of the scopes. -/
def Names (known : List String) (st : ScopeStack VarEntry) : Prop :=
  ∀ x, x ∈ known ↔ st.lookup x ≠ none

namespace Names

theorem empty : Names [] {} := fun x => by simp

theorem pushScope (h : Names known st) : Names known st.pushScope := by
  intro x
  rw [lookup_pushScope]
  exact h x

theorem mem (h : Names known st) {x : String} {e : VarEntry} (hx : st.lookup x = some e) :
    x ∈ known := by
  rw [h x, hx]
  exact Option.some_ne_none e

theorem enterStmt {isolated : Bool} (h : Names known st) : Names known (enterStmt isolated st) := by
  cases isolated with
  | false => exact h
  | true => exact h.pushScope

/-- After a statement the scopes know what it binds, too. -/
theorem stmt {isolated : Bool} {var : VarInfo} {arg arg' : ExecNode} (hk : Names known st)
    (h : Visits reg (Validator.enterStmt isolated st) arg arg' st')
    (hb : bindStmt var arg' st' = .ok st'') :
    Names (if isolated then known else (exports arg' ++ ownBinding var arg').map Prod.fst ++ known)
      (leaveStmt isolated st'') := by
  cases isolated with
  | true =>
    have hpop : leaveStmt true st'' = st := (h.keeps.trans (.bindStmt hb)).popScope
    rw [if_pos rfl, hpop]
    exact hk
  | false =>
    rw [if_neg Bool.false_ne_true]
    intro x
    have hlook : ∀ e, st''.lookup x = some e ↔
        st.lookup x = some e ∨ (x, e) ∈ exports arg' ++ ownBinding var arg' := by
      intro e
      rw [bindStmt_lookup hb, h.lookup_iff, or_assoc, List.mem_append]
      rfl
    rw [List.mem_append, hk x, Option.ne_none_iff_exists', Option.ne_none_iff_exists']
    constructor
    · rintro (hx | ⟨e, he⟩)
      · obtain ⟨⟨y, e⟩, he, rfl⟩ := List.mem_map.mp hx
        exact ⟨e, (hlook e).mpr (.inr he)⟩
      · exact ⟨e, (hlook e).mpr (.inl he)⟩
    · rintro ⟨e, he⟩
      rcases (hlook e).mp he with he | he
      · exact .inr ⟨e, he⟩
      · exact .inl (List.mem_map_of_mem (f := Prod.fst) he)

end Names

theorem VisitsArgs.length_eq {args args' : List ExecNode} {st st' : ScopeStack VarEntry}
    (h : VisitsArgs reg st args args' st') : args.length = args'.length := by
  induction args generalizing args' st with
  | nil =>
    cases h
    rfl
  | cons arg args ih =>
    cases h with
    | cons _ _ hs => exact congrArg (· + 1) (ih hs)

theorem VisitsBranches.length_eq {acc acc' : Scope ValueType} {args args' : List ExecNode}
    {st st' : ScopeStack VarEntry} (h : VisitsBranches reg acc st args args' acc' st') :
    args.length = args'.length := by
  induction args using List.twoStepInduction generalizing acc args' st with
  | nil =>
    cases h
    rfl
  | singleton body =>
    cases h
    rfl
  | cons_cons guard body args ih _ =>
    cases h with
    | cons _ _ _ _ hs => exact congrArg (· + 2) (ih hs)

/-! ## 2. The innermost scope -/

theorem lookup_of_top {x : String} {e : VarEntry} (h : st.top.lookup x = some e) :
    st.lookup x = some e := by
  rw [lookup_eq_or, h]
  rfl

theorem bindStmt_top {var : VarInfo} {node : ExecNode} (h : bindStmt var node st = .ok st')
    {x : String} {e : VarEntry} :
    st'.top.lookup x = some e ↔ st.top.lookup x = some e ∨ (x, e) ∈ ownBinding var node := by
  rw [mem_ownBinding]
  rcases bindStmt_eq_ok_iff.mp h with ⟨hn, rfl⟩ | ⟨hn, hk, rfl⟩
  · simp [hn]
  · rw [set_top]
    by_cases hx : x = var.name
    · subst hx
      rw [AList.lookup_insert, Option.some.injEq]
      constructor
      · exact fun he => .inr ⟨hn, rfl, he.symm⟩
      · rintro (he | ⟨-, -, rfl⟩)
        · obtain ⟨rfl, hc⟩ := hk e (lookup_of_top he)
          rw [hc]
        · rfl
    · rw [AList.lookup_insert_ne hx]
      simp [hx]

mutual

/-- What the innermost scope has it keeps, and it gets what the tree exports. -/
theorem Visits.top_lookup {node node' : ExecNode} {st st' : ScopeStack VarEntry} {x : String}
    {e : VarEntry} : Visits reg st node node' st' →
      st.top.lookup x = some e ∨ (x, e) ∈ exports node' → st'.top.lookup x = some e
  | .entryArgument, h | .execContext, h | .output, h | .constantValue, h | .constantListValue, h
  | .ref _, h => h.resolve_right fun hx => nomatch hx
  | .unaryOP hc ht, h => by
    rw [hc.scopes_eq (ne_kVoid_of_unaryOPType ht)]
    exact h.resolve_right fun hx => nomatch hx
  | .binaryOP hl hr ht, h => by
    have hv := ne_kVoid_of_binaryOPType ht
    rw [hr.scopes_eq hv.2, hl.scopes_eq hv.1]
    exact h.resolve_right fun hx => nomatch hx
  | .function ha _, h | .ifNode _ ha _, h | .switchNode _ ha _, h => by
    rw [ha.scopes_eq]
    exact h.resolve_right fun hx => nomatch hx
  | @Visits.noOP _ _ _ _ _ _ false hs, h => hs.top_lookup (by rwa [exports] at h)
  | @Visits.noOP _ _ _ _ _ _ true hs, h => by
    rw [hs.isolated_eq]
    exact h.resolve_right fun hx => nomatch hx
  | @Visits.ifBlock _ _ _ _ _ _ acc _ hb, h => by
    obtain ⟨rfl, hacc⟩ := hb.keeps
    have htop := h.resolve_right fun hx => nomatch hx
    rw [setShadowed_top_lookup]
    cases ha : acc.lookup x with
    | none => exact htop
    | some t =>
      have he := (hacc ha).resolve_left (by simp)
      rw [lookup_of_top htop] at he
      rw [Option.some.inj he]
      rfl

theorem VisitsStmts.top_lookup {args args' : List (VarInfo × ExecNode)}
    {st st' : ScopeStack VarEntry} {x : String} {e : VarEntry} :
    VisitsStmts reg false st args args' st' →
      st.top.lookup x = some e ∨ (x, e) ∈ exportsStmts args' → st'.top.lookup x = some e
  | .nil, h => h.resolve_right fun hx => nomatch hx
  | .cons h hb hs, hx => by
    rw [exportsStmts, List.mem_append, List.mem_append] at hx
    refine hs.top_lookup ?_
    rcases hx with hx | (hx | hx) | hx
    · exact .inl ((bindStmt_top hb).mpr (.inl (h.top_lookup (.inl hx))))
    · exact .inl ((bindStmt_top hb).mpr (.inl (h.top_lookup (.inr hx))))
    · exact .inl ((bindStmt_top hb).mpr (.inr hx))
    · exact .inr hx

end

/-- Only a sequence of statements exports anything. -/
theorem Visits.exports_eq_nil {node node' : ExecNode} (h : Visits reg st node node' st')
    (hv : node'.getReturnType ≠ .kVoid) : exports node' = [] := by
  cases h with
  | noOP => exact absurd rfl hv
  | _ => rfl

/-- What a body of a when-block adds to the collected variables is in its innermost scope. -/
theorem addShadowed_some {body body' : ExecNode} {acc : Scope ValueType} {x : String}
    {t : ValueType} (h : Visits reg st.pushScope body body' st')
    (hx : (addShadowed acc st'.getShadowed).lookup x = some t) :
    acc.lookup x = some t ∨
      ∃ e, st'.top.lookup x = some e ∧ st.lookup x = some e ∧ e.type = t := by
  rw [addShadowed_lookup] at hx
  cases hs : st'.getShadowed.lookup x with
  | none =>
    rw [hs] at hx
    exact .inl hx
  | some e =>
    rw [hs] at hx
    have hout := (h.keeps.getShadowed hs).1
    rw [lookup_getShadowed] at hs
    split at hs
    · exact .inr ⟨e, hs, hout, Option.some.inj hx⟩
    · cases hs

theorem addShadowed_of_top {body body' : ExecNode} {acc : Scope ValueType} {x : String}
    {e e' : VarEntry} (h : Visits reg st.pushScope body body' st')
    (hx : st'.top.lookup x = some e) (hk : st.lookup x = some e') :
    (addShadowed acc st'.getShadowed).lookup x = some e.type := by
  have hknown : knownIn x st'.outer = true := by
    rw [h.keeps.outer]
    exact Option.isSome_iff_exists.mpr ⟨e', hk⟩
  rw [addShadowed_lookup, lookup_getShadowed, if_pos hknown, hx]
  rfl

/-! ## 3. The void variables a when-block merges -/

mutual

/-- A void variable of the innermost scope is exported by the tree, if it is new. -/
theorem Visits.void_top {node node' : ExecNode} {st st' : ScopeStack VarEntry}
    {known : List String} {x : String} {e : VarEntry} (hv : e.type = .kVoid) :
    Visits reg st node node' st' → Names known st → lowerable known node' = true →
      st'.top.lookup x = some e → st.top.lookup x = some e ∨ (x, e) ∈ exports node'
  | .entryArgument, _, _, hx | .execContext, _, _, hx | .output, _, _, hx
  | .constantValue, _, _, hx | .constantListValue, _, _, hx | .ref _, _, _, hx => .inl hx
  | .unaryOP hc ht, _, _, hx => .inl (hc.scopes_eq (ne_kVoid_of_unaryOPType ht) ▸ hx)
  | .binaryOP hl hr ht, _, _, hx => by
    have hne := ne_kVoid_of_binaryOPType ht
    rw [hr.scopes_eq hne.2, hl.scopes_eq hne.1] at hx
    exact .inl hx
  | .function ha _, _, _, hx | .ifNode _ ha _, _, _, hx | .switchNode _ ha _, _, _, hx =>
    .inl (ha.scopes_eq ▸ hx)
  | @Visits.noOP _ _ _ _ _ _ false hs, hk, hl, hx => by
    rw [exports]
    exact hs.void_top hv hk hl hx
  | @Visits.noOP _ _ _ _ _ _ true hs, _, _, hx => .inl (hs.isolated_eq ▸ hx)
  | @Visits.ifBlock _ _ _ _ _ _ acc _ hb, hk, hl, hx => by
    rw [lowerable, Bool.and_eq_true] at hl
    rw [setShadowed_top_lookup, hb.keeps.1] at hx
    cases ha : acc.lookup x with
    | none =>
      rw [ha] at hx
      exact .inl hx
    | some t =>
      rw [ha] at hx
      obtain rfl : (⟨t, false⟩ : VarEntry) = e := Option.some.inj hx
      obtain rfl : t = .kVoid := hv
      rcases hb.void hk hl.1 ha with he | hany
      · simp at he
      · rw [hany] at hl
        exact nomatch hl.2

theorem VisitsStmts.void_top {args args' : List (VarInfo × ExecNode)}
    {st st' : ScopeStack VarEntry} {known : List String} {x : String} {e : VarEntry}
    (hv : e.type = .kVoid) : VisitsStmts reg false st args args' st' → Names known st →
      lowerableStmts false known args' = true → st'.top.lookup x = some e →
        st.top.lookup x = some e ∨ (x, e) ∈ exportsStmts args'
  | .nil, _, _, hx => .inl hx
  | .cons h hb hs, hk, hl, hx => by
    rw [lowerableStmts, Bool.and_eq_true] at hl
    rw [exportsStmts, List.mem_append, List.mem_append, or_assoc, ← or_assoc]
    rcases hs.void_top hv (hk.stmt h hb) hl.2 hx with hx | hx
    · rcases (bindStmt_top hb).mp hx with hx | hx
      · rcases h.void_top hv hk hl.1 hx with hx | hx
        · exact .inl (.inl hx)
        · exact .inl (.inr hx)
      · exact .inr (.inl hx)
    · exact .inr (.inr hx)

/-- A void variable that is collected is bound by a body. -/
theorem VisitsBranches.void {acc acc' : Scope ValueType} {args args' : List ExecNode}
    {st st' : ScopeStack VarEntry} {known : List String} {x : String} :
    VisitsBranches reg acc st args args' acc' st' → Names known st →
      lowerableArgs known args' = true → acc'.lookup x = some .kVoid →
        acc.lookup x = some .kVoid ∨ args'.any (bindsVoid known) = true
  | .nil, _, _, hx => .inl hx
  | .elseBody h _, hk, hl, hx => by
    rw [lowerableArgs, Bool.and_eq_true] at hl
    rcases addShadowed_some h hx with hx | ⟨e, htop, hout, hv⟩
    · exact .inl hx
    · have hmem := (h.void_top hv hk.pushScope hl.1 htop).resolve_left (by simp [pushScope])
      have hbinds := bindsVoid_iff.mpr ⟨x, e, hmem, hk.mem hout, hv⟩
      simp [hbinds]
  | .cons hc hn h _ hs, hk, hl, hx => by
    obtain rfl := hc.scopes_eq (ne_kVoid_of_isNumericType hn)
    rw [lowerableArgs, lowerableArgs, Bool.and_eq_true, Bool.and_eq_true] at hl
    have hrest : Names known (popScope _) := h.keeps.popScope ▸ hk
    rcases hs.void hrest hl.2.2 hx with hx | hany
    · rcases addShadowed_some h hx with hx | ⟨e, htop, hout, hv⟩
      · exact .inl hx
      · have hmem := (h.void_top hv hk.pushScope hl.2.1 htop).resolve_left (by simp [pushScope])
        have hbinds := bindsVoid_iff.mpr ⟨x, e, hmem, hk.mem hout, hv⟩
        simp [hbinds]
    · simp [hany]

end

/-- Collecting keeps what is collected. -/
theorem VisitsBranches.mono {acc acc' : Scope ValueType} {args args' : List ExecNode}
    {st st' : ScopeStack VarEntry} {x : String}
    (h : VisitsBranches reg acc st args args' acc' st') (hx : acc.lookup x ≠ none) :
    acc'.lookup x ≠ none := by
  have hadd : ∀ {acc : Scope ValueType} (shadowed : Scope VarEntry), acc.lookup x ≠ none →
      (addShadowed acc shadowed).lookup x ≠ none := by
    intro acc shadowed hx
    rw [addShadowed_lookup, ne_eq, Option.or_eq_none_iff]
    exact fun h => hx h.2
  induction args using List.twoStepInduction generalizing acc args' st with
  | nil =>
    cases h
    exact hx
  | singleton body =>
    cases h
    exact hadd _ hx
  | cons_cons guard body args ih _ =>
    cases h with
    | cons _ _ _ _ hs => exact ih hs (hadd _ hx)

/-- A void variable a body binds, and that is known around it, is collected. -/
theorem Visits.collects {body body' : ExecNode} {acc : Scope ValueType} {known : List String}
    (h : Visits reg st.pushScope body body' st') (hk : Names known st)
    (hb : bindsVoid known body' = true) :
    ∃ x e, st.lookup x = some e ∧ e.type = .kVoid ∧
      (addShadowed acc st'.getShadowed).lookup x ≠ none := by
  obtain ⟨x, e, hmem, hx, hv⟩ := bindsVoid_iff.mp hb
  obtain ⟨e', he'⟩ := Option.ne_none_iff_exists'.mp ((hk x).mp hx)
  have htop := h.top_lookup (.inr hmem)
  have hsame : st'.lookup x = some e' := h.keeps.lookup ((lookup_pushScope st x).trans he')
  rw [lookup_of_top htop] at hsame
  refine ⟨x, e', he', Option.some.inj hsame ▸ hv, ?_⟩
  rw [addShadowed_of_top h htop he']
  exact Option.some_ne_none _

/-- A node of a type but void binds nothing. -/
theorem Visits.bindsVoid_eq_false {node node' : ExecNode} {known : List String}
    (h : Visits reg st node node' st') (hv : node'.getReturnType ≠ .kVoid) :
    bindsVoid known node' = false := by
  rw [bindsVoid, h.exports_eq_nil hv, List.any_nil]

theorem VisitsBranches.collects {acc acc' : Scope ValueType} {args args' : List ExecNode}
    {st st' : ScopeStack VarEntry} {known : List String}
    (h : VisitsBranches reg acc st args args' acc' st') (hk : Names known st)
    (hb : args'.any (bindsVoid known) = true) :
    ∃ x e, st.lookup x = some e ∧ e.type = .kVoid ∧ acc'.lookup x ≠ none := by
  induction args using List.twoStepInduction generalizing acc args' st with
  | nil =>
    cases h
    cases hb
  | singleton body =>
    cases h with
    | elseBody h _ => exact h.collects hk (by simpa using hb)
  | cons_cons cond body args ih _ =>
    cases h with
    | cons hc hn h _ hs =>
      have hv := ne_kVoid_of_isNumericType hn
      obtain rfl := hc.scopes_eq hv
      rw [List.any_cons, List.any_cons, hc.bindsVoid_eq_false hv, Bool.false_or,
        Bool.or_eq_true] at hb
      rcases hb with hb | hb
      · obtain ⟨x, e, hx, he, hacc⟩ := h.collects hk hb
        exact ⟨x, e, hx, he, hs.mono hacc⟩
      · have hpop := h.keeps.popScope
        rw [hpop] at hs
        exact ih hs hk hb

/-- **A when-block merges a void variable where a body binds one.** -/
theorem VisitsBranches.void_iff {acc : Scope ValueType} {args args' : List ExecNode}
    (h : VisitsBranches reg ∅ st args args' acc st') (hk : Names known st)
    (hl : lowerableArgs known args' = true) :
    (∃ x, acc.lookup x = some .kVoid) ↔ args'.any (bindsVoid known) = true := by
  constructor
  · rintro ⟨x, hx⟩
    exact (h.void hk hl hx).resolve_left (by simp)
  · intro hb
    obtain ⟨x, e, hx, hv, hacc⟩ := h.collects hk hb
    obtain ⟨t, ht⟩ := Option.ne_none_iff_exists'.mp hacc
    have he := (h.keeps.2 ht).resolve_left (by simp)
    rw [hx] at he
    cases Option.some.inj he
    cases hv
    exact ⟨x, ht⟩

/-! ## 4. The branches of an expression -/

/-- A value of type `t` can stand where one of type `u` is expected: it is of that type, or both
are numbers. -/
def Convertible (t u : ValueType) : Prop :=
  t = u ∨ (isNumericType t = true ∧ isNumericType u = true)

theorem Convertible.ne_kUnknown {t u : ValueType} (h : Convertible t u) (ht : t ≠ .kUnknown) :
    u ≠ .kUnknown := by
  rcases h with rfl | ⟨-, hu⟩
  · exact ht
  · rintro rfl
    simp [isNumericType] at hu

theorem Convertible.ne_kVoid {t u : ValueType} (h : Convertible t u) (ht : t ≠ .kVoid) :
    u ≠ .kVoid := by
  rcases h with rfl | ⟨-, hu⟩
  · exact ht
  · exact ne_kVoid_of_isNumericType hu

/-- The arguments of a conditional expression: the conditions are numeric, and the type of every
branch, the default included, satisfies `fits`. -/
def BranchesFit (fits : ValueType → Prop) : List ExecNode → Prop
  | [] => False
  | [default_] => fits default_.getReturnType
  | cond :: then_ :: args => isNumericType cond.getReturnType = true ∧
    fits then_.getReturnType ∧ BranchesFit fits args

theorem BranchesFit.imp {fits fits' : ValueType → Prop} (h : ∀ t, fits t → fits' t)
    {args : List ExecNode} (hb : BranchesFit fits args) : BranchesFit fits' args := by
  induction args using List.twoStepInduction with
  | nil => exact hb
  | singleton _ => exact h _ hb
  | cons_cons _ _ args ih _ => exact ⟨hb.1, h _ hb.2.1, ih hb.2.2⟩

/-- A branch that is of a known type can be converted to the type of the expression. -/
def Fits (ret t : ValueType) : Prop := t ≠ .kUnknown → Convertible t ret

theorem ifNodeType_fits {loc : SourceLocation} {args : List ExecNode} {t : ValueType}
    (h : ifNodeType loc args = .ok t) : BranchesFit (Fits t) args ∧ args.length = 3 := by
  unfold ifNodeType at h
  split at h
  · next cond then_ else_ =>
    split at h
    · cases h
    · next hc =>
      rw [Bool.not_eq_false] at hc
      split at h
      · next hn =>
        cases h
        have hp := isNumericType_getPromotedType hn.1 hn.2
        exact ⟨⟨hc, fun _ => .inr ⟨hn.1, hp⟩, fun _ => .inr ⟨hn.2, hp⟩⟩, rfl⟩
      · split at h
        · next he =>
          cases h
          exact ⟨⟨hc, fun _ => .inl rfl, fun _ => .inl he.symm⟩, rfl⟩
        · cases h
  · cases h

/-- What the loop over the branches of a switch has gathered accounts for a branch of type `t`:
a numeric one is promoted, any other one has to agree. -/
def Gathered (types : ValueType × ValueType) (t : ValueType) : Prop :=
  if isNumericType t then isNumericType types.1 = true else t ≠ .kUnknown → types.2 = t

/-- `kUnknown` stands for no numeric branch yet. -/
def NumberOrNone (t : ValueType) : Prop := t = .kUnknown ∨ isNumericType t = true

theorem switchBranch_gathered {numeric complex : ValueType} {arg : ExecNode}
    {types : ValueType × ValueType} (hn : NumberOrNone numeric)
    (h : switchBranch numeric complex arg = .ok types) :
    NumberOrNone types.1 ∧ Gathered types arg.getReturnType ∧
      ∀ t, Gathered (numeric, complex) t → Gathered types t := by
  unfold switchBranch at h
  split at h
  · next harg =>
    cases h
    have hp : isNumericType (getPromotedType numeric arg.getReturnType) = true := by
      rcases hn with rfl | hn
      · rw [getPromotedType_kUnknown]
        exact harg
      · exact isNumericType_getPromotedType hn harg
    refine ⟨.inr hp, ?_, fun t ht => ?_⟩
    · rw [Gathered, if_pos harg]
      exact hp
    · unfold Gathered at ht ⊢
      split
      · exact hp
      · next hnum =>
        rw [if_neg hnum] at ht
        exact ht
  · next harg =>
    split at h
    · cases h
    · next hagree =>
      cases h
      refine ⟨hn, ?_, fun t ht => ?_⟩
      · rw [Gathered, if_neg harg]
        exact fun _ => rfl
      · unfold Gathered at ht ⊢
        split
        · next hnum => rwa [if_pos hnum] at ht
        · next hnum =>
          rw [if_neg hnum] at ht
          intro hne
          obtain rfl : complex = t := ht hne
          by_contra hne'
          exact hagree ⟨hne, Ne.symm hne'⟩

theorem switchBranches_gathered {args : List ExecNode} {numeric complex : ValueType}
    {types : ValueType × ValueType} (hn : NumberOrNone numeric)
    (h : switchBranches numeric complex args = .ok types) (hl : args.length % 2 ≠ 0) :
    NumberOrNone types.1 ∧ BranchesFit (Gathered types) args ∧
      ∀ t, Gathered (numeric, complex) t → Gathered types t := by
  induction args using List.twoStepInduction generalizing numeric complex with
  | nil => exact absurd rfl hl
  | singleton default_ => exact switchBranch_gathered hn h
  | cons_cons cond then_ args ih _ =>
    rw [switchBranches] at h
    split at h
    · cases h
    · next hc =>
      rw [Bool.not_eq_false] at hc
      split at h
      · cases h
      · next types₁ h₁ =>
        obtain ⟨hn₁, hthen, hkeep₁⟩ := switchBranch_gathered hn h₁
        have hl' : args.length % 2 ≠ 0 := by
          rw [List.length_cons, List.length_cons] at hl
          omega
        obtain ⟨hn₂, hrest, hkeep₂⟩ := ih hn₁ h hl'
        exact ⟨hn₂, ⟨hc, hkeep₂ _ hthen, hrest⟩, fun t ht => hkeep₂ t (hkeep₁ t ht)⟩

theorem switchNodeType_fits {loc : SourceLocation} {args : List ExecNode} {t : ValueType}
    (h : switchNodeType loc args = .ok t) (hl : args.length % 2 ≠ 0) :
    BranchesFit (Fits t) args := by
  unfold switchNodeType at h
  split at h
  · cases h
  · next numeric complex hb =>
    obtain ⟨hn, hfit, -⟩ := switchBranches_gathered (.inl rfl) hb hl
    split at h
    · cases h
    · next hmix =>
      cases h
      refine hfit.imp fun t ht hne => ?_
      unfold Gathered at ht
      split at ht
      · next hnum =>
        have hne' : numeric ≠ .kUnknown := by
          rintro rfl
          cases ht
        rw [if_neg hne']
        exact .inr ⟨hnum, ht⟩
      · obtain rfl : complex = t := ht hne
        have hnone : numeric = .kUnknown := by
          by_contra hne'
          exact hmix ⟨hne, hne'⟩
        rw [if_pos hnone]
        exact .inl rfl

/-- An expression with branches of known types has a known type. -/
theorem BranchesFit.ne_kUnknown {ret : ValueType} {args : List ExecNode}
    (h : BranchesFit (Fits ret) args) (hne : ∀ arg ∈ args, arg.getReturnType ≠ .kUnknown) :
    ret ≠ .kUnknown := by
  rcases args with _ | ⟨default_, _ | ⟨then_, args⟩⟩
  · exact h.elim
  · have hd := hne default_ List.mem_cons_self
    exact (h hd).ne_kUnknown hd
  · have ht := hne then_ (by simp)
    exact (h.2.1 ht).ne_kUnknown ht

/-! ## 5. Operators -/

theorem ne_kUnknown_of_isNumericType {t : ValueType} (h : isNumericType t = true) :
    t ≠ .kUnknown := by
  rintro rfl
  simp [isNumericType] at h

theorem unaryOPType_numeric {loc : SourceLocation} {op : UnaryOPType} {child t : ValueType}
    (h : unaryOPType loc op child = .ok t) :
    isNumericType child = true ∧ isNumericType t = true ∧
      (op = .kPlus ∨ op = .kBitwiseNot → t = child) ∧ (op = .kNot → t = .kU8) := by
  unfold unaryOPType at h
  split at h
  · cases h
  · split at h
    · cases h
    · next hn =>
      rw [Bool.not_eq_false] at hn
      cases op with
      | kPlus =>
        cases h
        simp [hn]
      | kMinus =>
        dsimp only at h
        refine ⟨hn, ?_, by simp, by simp⟩
        split at h
        all_goals cases h
        · rfl
        · rfl
        · rfl
        · rfl
        all_goals exact hn
      | kNot =>
        cases h
        exact ⟨hn, rfl, by simp, fun _ => rfl⟩
      | kBitwiseNot =>
        dsimp only at h
        split at h
        · cases h
        · cases h
          simp [hn]

/-- The types of the operands of a binary operator, and that of its value. -/
inductive BinaryTyped (op : BinaryOPType) : ValueType → ValueType → ValueType → Prop
  | truth {lhs rhs} (hl : isNumericType lhs = true) (hr : isNumericType rhs = true)
      (hop : isLogicalBinaryOPType op = true ∨ isRelationalBinaryOPType op = true) :
      BinaryTyped op lhs rhs .kU8
  | number {lhs rhs t} (hl : isNumericType lhs = true) (hr : isNumericType rhs = true)
      (hlog : isLogicalBinaryOPType op = false) (hrel : isRelationalBinaryOPType op = false)
      (ht : isNumericType t = true) : BinaryTyped op lhs rhs t
  | stringCmp (hrel : isRelationalBinaryOPType op = true) : BinaryTyped op .kString .kString .kU8
  | concat {t} (hop : op = .kAdd) (ht : t = .kString ∨ isListType t = true) : BinaryTyped op t t t

theorem binaryOPType_typed {loc : SourceLocation} {op : BinaryOPType} {left right : ExecNode}
    {t : ValueType} (h : binaryOPType loc op left right = .ok t) :
    BinaryTyped op left.getReturnType right.getReturnType t := by
  unfold binaryOPType at h
  dsimp only at h
  generalize left.getReturnType = lhs at h ⊢
  generalize right.getReturnType = rhs at h ⊢
  split at h
  · cases h
  · split at h
    · next hlog =>
      split at h
      · next hn =>
        cases h
        exact .truth hn.1 hn.2 (.inl hlog)
      · cases h
    · next hlog =>
      rw [Bool.not_eq_true] at hlog
      split at h
      · next hrel =>
        split at h
        · next hn =>
          cases h
          rcases hn with hn | ⟨rfl, rfl⟩
          · exact .truth hn.1 hn.2 (.inr hrel)
          · exact .stringCmp hrel
        · cases h
      · next hrel =>
        rw [Bool.not_eq_true] at hrel
        split at h
        · split at h
          · next hint =>
            have hl := isNumericType_of_isIntegerType hint.1
            have hr := isNumericType_of_isIntegerType hint.2
            split at h
            · cases h
              exact .number hl hr hlog hrel hl
            · cases h
              exact .number hl hr hlog hrel (isNumericType_getPromotedType hl hr)
          · cases h
        · split at h
          · next hadd =>
            split at h
            · next hn =>
              cases h
              exact .number hn.1 hn.2 hlog hrel (isNumericType_getPromotedType hn.1 hn.2)
            · split at h
              · next hs =>
                obtain ⟨rfl, rfl⟩ := hs
                cases h
                exact .concat hadd (.inl rfl)
              · split at h
                · next hs =>
                  obtain ⟨hlist, rfl⟩ := hs
                  cases h
                  exact .concat hadd (.inr hlist)
                · cases h
          · split at h
            · next hn =>
              split at h
              · cases h
              · cases h
                exact .number hn.1 hn.2 hlog hrel (isNumericType_getPromotedType hn.1 hn.2)
            · cases h

/-- `&&` and `||` are on numbers. -/
theorem BinaryTyped.logical {op : BinaryOPType} {lhs rhs t : ValueType}
    (h : BinaryTyped op lhs rhs t) (hlog : isLogicalBinaryOPType op = true) :
    isNumericType lhs = true ∧ isNumericType rhs = true ∧ t = .kU8 := by
  cases h with
  | truth hl hr => exact ⟨hl, hr, rfl⟩
  | number _ _ hlog' =>
    rw [hlog] at hlog'
    cases hlog'
  | stringCmp hrel =>
    cases op with
    | kAnd | kOr => exact nomatch hrel
    | _ => exact nomatch hlog
  | concat hop =>
    subst hop
    cases hlog

theorem BinaryTyped.ne_kVoid {op : BinaryOPType} {lhs rhs t : ValueType}
    (h : BinaryTyped op lhs rhs t) : t ≠ .kVoid := by
  cases h with
  | truth | stringCmp => simp
  | number _ _ _ _ ht => exact ne_kVoid_of_isNumericType ht
  | concat _ ht =>
    rintro rfl
    simp [isListType] at ht

theorem BinaryTyped.ne_kUnknown {op : BinaryOPType} {lhs rhs t : ValueType}
    (h : BinaryTyped op lhs rhs t) : t ≠ .kUnknown := by
  cases h with
  | truth | stringCmp => simp
  | number _ _ _ _ ht => exact ne_kUnknown_of_isNumericType ht
  | concat _ ht =>
    rintro rfl
    simp [isListType] at ht

/-! ## 6. Unknown types -/

theorem constantValueType_ne_kUnknown (val : ConstantValueType) :
    constantValueType val ≠ .kUnknown := by
  cases val <;> simp [constantValueType]

theorem constantListValueType_ne_kUnknown (valList : ConstantListValueType) :
    constantListValueType valList ≠ .kUnknown := by
  cases valList <;> simp [constantListValueType]

mutual

/-- **No node of a lowerable tree has an unknown type**, if no variable around it has one. -/
theorem Visits.ne_kUnknown {node node' : ExecNode} {st st' : ScopeStack VarEntry}
    {known : List String} : Visits reg st node node' st' →
      (∀ x e, st.lookup x = some e → e.type ≠ .kUnknown) → lowerable known node' = true →
        node'.getReturnType ≠ .kUnknown
  | .entryArgument, _, _ | .execContext, _, _ | .output, _, _ | .noOP _, _, _
  | .ifBlock _ _, _, _ => nofun
  | .constantValue, _, _ => constantValueType_ne_kUnknown _
  | .constantListValue, _, _ => constantListValueType_ne_kUnknown _
  | .unaryOP _ ht, _, _ => ne_kUnknown_of_isNumericType (unaryOPType_numeric ht).2.1
  | .binaryOP _ _ ht, _, _ => (binaryOPType_typed ht).ne_kUnknown
  | .function _ _, _, hl => by
    rw [lowerable, Bool.and_eq_true, decide_eq_true_eq] at hl
    exact hl.1
  | .ifNode _ ha ht, hst, hl => (ifNodeType_fits ht).1.ne_kUnknown (ha.ne_kUnknown hst hl)
  | .switchNode hn ha ht, hst, hl =>
    (switchNodeType_fits ht (ha.length_eq ▸ hn)).ne_kUnknown (ha.ne_kUnknown hst hl)
  | .ref h, hst, _ => hst _ _ h

theorem VisitsArgs.ne_kUnknown {args args' : List ExecNode} {st st' : ScopeStack VarEntry}
    {known : List String} : VisitsArgs reg st args args' st' →
      (∀ x e, st.lookup x = some e → e.type ≠ .kUnknown) → lowerableArgs known args' = true →
        ∀ arg ∈ args', arg.getReturnType ≠ .kUnknown
  | .nil, _, _ => nofun
  | .cons h hv hs, hst, hl => by
    rw [lowerableArgs, Bool.and_eq_true] at hl
    rw [List.forall_mem_cons]
    have hscopes := h.scopes_eq hv
    exact ⟨h.ne_kUnknown hst hl.1, hs.ne_kUnknown (by rwa [hscopes]) hl.2⟩

end

end Validator

end JitFusion
