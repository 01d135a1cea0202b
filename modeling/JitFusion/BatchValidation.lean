/-
# Validating a batch

`JitCore::BuildAndLink` runs one `Validator` over all its roots, so a root is checked in the
scopes the roots before it leave behind.  Code generation starts every root afresh.  This
module says exactly when the first agrees with checking every root on a validator of its own.

What can leak is the variables of a root's outermost scope.  They are harmless to a later root
that neither reads nor binds them, and to one that binds them the same way: not `const`, and
with the same type.  The proof runs the later root twice, over the empty scopes and over the
residue `S` of the earlier ones; `Over` relates the scopes of the two runs.
-/
import JitFusion.Typing

namespace JitFusion

namespace Validator

open TypeHelper ScopeStack

/-! ## 1. The two validations -/

/-- The validation loop of `BuildAndLink`. -/
def visitAll (reg : FunctionRegistry) : List ExecNode → M (List ExecNode)
  | [] => return []
  | node :: nodes => do
    let node ← visit reg node
    let nodes ← visitAll reg nodes
    return node :: nodes

/-- One validator for all the roots; the roots with their return types. -/
def validateBatch (reg : FunctionRegistry) (nodes : List ExecNode) :
    Except Status (List ExecNode) :=
  ((visitAll reg nodes).run {}).map Prod.fst

/-- A freshly constructed validator for each root. -/
def validateEach (reg : FunctionRegistry) (nodes : List ExecNode) :
    Except Status (List ExecNode) :=
  nodes.mapM fun node => (validate reg node).map Prod.fst

/-! ## 2. What a tree binds and reads -/

/-- The binding a statement makes, if it has a name. -/
def ownBinding (var : VarInfo) (arg : ExecNode) : List (String × VarEntry) :=
  if var.name = "" then [] else [(var.name, ⟨arg.getReturnType, var.isConst⟩)]

mutual

/-- The bindings a tree adds to the scope it stands in. -/
def exports : ExecNode → List (String × VarEntry)
  | .noOP _ args false => exportsStmts args
  | _ => []

def exportsStmts : List (VarInfo × ExecNode) → List (String × VarEntry)
  | [] => []
  | (var, arg) :: args => exports arg ++ ownBinding var arg ++ exportsStmts args

end

mutual

/-- All the bindings of a tree, those in the bodies of when-blocks and in isolated statements
included. -/
def bindings : ExecNode → List (String × VarEntry)
  | .unaryOP _ _ child => bindings child
  | .binaryOP _ _ left right => bindings left ++ bindings right
  | .function _ _ args | .ifNode _ args | .switchNode _ args | .ifBlock _ args =>
    bindingsArgs args
  | .noOP _ args _ => bindingsStmts args
  | _ => []

def bindingsArgs : List ExecNode → List (String × VarEntry)
  | [] => []
  | arg :: args => bindings arg ++ bindingsArgs args

def bindingsStmts : List (VarInfo × ExecNode) → List (String × VarEntry)
  | [] => []
  | (var, arg) :: args => bindings arg ++ ownBinding var arg ++ bindingsStmts args

end

mutual

/-- Every name the tree reads is in `known` or bound by the tree itself where it is read. -/
def closed (known : List String) : ExecNode → Bool
  | .ref _ name => decide (name ∈ known)
  | .unaryOP _ _ child => closed known child
  | .binaryOP _ _ left right => closed known left && closed known right
  | .function _ _ args | .ifNode _ args | .switchNode _ args | .ifBlock _ args =>
    closedArgs known args
  | .noOP _ args isolated => closedStmts isolated known args
  | _ => true

def closedArgs (known : List String) : List ExecNode → Bool
  | [] => true
  | arg :: args => closed known arg && closedArgs known args

def closedStmts (isolated : Bool) (known : List String) : List (VarInfo × ExecNode) → Bool
  | [] => true
  | (var, arg) :: args =>
    closed known arg &&
      closedStmts isolated (if isolated then known
        else (exports arg ++ ownBinding var arg).map Prod.fst ++ known) args

end

/-- Two bindings of one name that can live side by side in the scopes of one validator. -/
def Agree (before after : List (String × VarEntry)) : Prop :=
  ∀ x e e', (x, e) ∈ before → (x, e') ∈ after → e = e' ∧ e'.isConst = false

/-- No root binds a name that an earlier one exports, except with the same type and neither
of them `const`. -/
def Compatible (nodes : List ExecNode) : Prop :=
  nodes.Pairwise fun before after => Agree (exports before) (bindings after)

/-- The roots in sequence, as the statements of one program. -/
def sequenced (nodes : List ExecNode) : ExecNode :=
  .noOP {} (nodes.map fun node => ({}, node)) false

/-! ## 3. What a visit leaves in the scopes -/

variable {reg : FunctionRegistry} {st st' : ScopeStack VarEntry}

theorem mem_ownBinding {var : VarInfo} {arg : ExecNode} {x : String} {e : VarEntry} :
    (x, e) ∈ ownBinding var arg ↔
      var.name ≠ "" ∧ x = var.name ∧ e = ⟨arg.getReturnType, var.isConst⟩ := by
  unfold ownBinding
  split
  · next h => simp [h]
  · next h => simp [h]

theorem bindStmt_lookup {var : VarInfo} {node : ExecNode} (h : bindStmt var node st = .ok st')
    (x : String) (e : VarEntry) :
    st'.lookup x = some e ↔ st.lookup x = some e ∨ (x, e) ∈ ownBinding var node := by
  rw [mem_ownBinding]
  rcases bindStmt_eq_ok_iff.mp h with ⟨hn, rfl⟩ | ⟨hn, hk, rfl⟩
  · simp [hn]
  · by_cases hx : x = var.name
    · subst hx
      rw [lookup_set, Option.some.injEq]
      refine ⟨fun he => .inr ⟨hn, rfl, he.symm⟩, ?_⟩
      rintro (he | ⟨-, -, rfl⟩)
      · obtain ⟨rfl, hc⟩ := hk e he
        rw [hc]
      · rfl
    · rw [lookup_set_ne st _ hx]
      simp [hx]

mutual

/-- **A visit adds the exports of the tree and nothing else.** -/
theorem Visits.lookup_iff {node node' : ExecNode} {st st' : ScopeStack VarEntry}
    (x : String) (e : VarEntry) : Visits reg st node node' st' →
      (st'.lookup x = some e ↔ st.lookup x = some e ∨ (x, e) ∈ exports node')
  | .entryArgument | .execContext | .output | .constantValue | .constantListValue | .ref _ => by
    simp [exports]
  | .unaryOP hc ht => by
    rw [hc.scopes_eq (ne_kVoid_of_unaryOPType ht)]
    simp [exports]
  | .binaryOP hl hr ht => by
    have hv := ne_kVoid_of_binaryOPType ht
    rw [hr.scopes_eq hv.2, hl.scopes_eq hv.1]
    simp [exports]
  | .function ha _ | .ifNode _ ha _ | .switchNode _ ha _ => by
    rw [ha.scopes_eq]
    simp [exports]
  | @Visits.noOP _ _ _ _ _ _ false hs => by
    rw [exports]
    exact hs.lookup_iff x e
  | @Visits.noOP _ _ _ _ _ _ true hs => by
    rw [hs.isolated_eq]
    simp [exports]
  | .ifBlock _ hb => by
    obtain ⟨rfl, hacc⟩ := hb.keeps
    rw [setShadowed_lookup_eq fun hx => (hacc hx).resolve_left (by simp)]
    simp [exports]

theorem VisitsStmts.lookup_iff {args args' : List (VarInfo × ExecNode)}
    {st st' : ScopeStack VarEntry} (x : String) (e : VarEntry) :
    VisitsStmts reg false st args args' st' →
      (st'.lookup x = some e ↔ st.lookup x = some e ∨ (x, e) ∈ exportsStmts args')
  | .nil => by simp [exportsStmts]
  | .cons h hb hs => by
    rw [hs.lookup_iff x e, leaveStmt, if_neg Bool.false_ne_true, bindStmt_lookup hb,
      h.lookup_iff x e, enterStmt, if_neg Bool.false_ne_true, exportsStmts]
    simp only [List.mem_append, or_assoc]

end

mutual

/-- A tree exports the same names before and after it is annotated. -/
theorem Visits.exports_names {node node' : ExecNode} {st st' : ScopeStack VarEntry} :
    Visits reg st node node' st' → (exports node').map Prod.fst = (exports node).map Prod.fst
  | .entryArgument | .execContext | .output | .constantValue | .constantListValue | .ref _
  | .unaryOP _ _ | .binaryOP _ _ _ | .function _ _ | .ifNode _ _ _ | .switchNode _ _ _
  | .ifBlock _ _ => rfl
  | @Visits.noOP _ _ _ _ _ _ true _ => rfl
  | @Visits.noOP _ _ _ _ _ _ false hs => by
    rw [exports, exports]
    exact hs.exports_names

theorem VisitsStmts.exports_names {isolated : Bool} {args args' : List (VarInfo × ExecNode)}
    {st st' : ScopeStack VarEntry} : VisitsStmts reg isolated st args args' st' →
      (exportsStmts args').map Prod.fst = (exportsStmts args).map Prod.fst
  | .nil => rfl
  | .cons h _ hs => by
    simp only [exportsStmts, List.map_append, h.exports_names, hs.exports_names]
    unfold ownBinding
    split <;> rfl

end

/-! ## 4. A program in the scopes of another one -/

/-- What a known entry asks of the bindings that reach it. -/
def AgreeWith (entry : VarEntry) (x : String) (l : List (String × VarEntry)) : Prop :=
  ∀ e, (x, e) ∈ l → entry = e ∧ e.isConst = false

theorem agreeWith_append {entry : VarEntry} {x : String} {l l' : List (String × VarEntry)} :
    AgreeWith entry x (l ++ l') ↔ AgreeWith entry x l ∧ AgreeWith entry x l' := by
  refine ⟨fun h => ⟨fun e he => h e (List.mem_append_left _ he),
    fun e he => h e (List.mem_append_right _ he)⟩, fun h e he => ?_⟩
  rcases List.mem_append.mp he with he | he
  · exact h.1 e he
  · exact h.2 e he

theorem agreeWith_nil {entry : VarEntry} {x : String} : AgreeWith entry x [] := by
  simp [AgreeWith]

theorem agreeWith_ownBinding {var : VarInfo} {node : ExecNode} {x : String} {entry : VarEntry}
    (h : bindStmt var node st = .ok st') (hx : st.lookup x = some entry) :
    AgreeWith entry x (ownBinding var node) := by
  intro e he
  obtain ⟨hn, rfl, rfl⟩ := mem_ownBinding.mp he
  rcases bindStmt_eq_ok_iff.mp h with ⟨hn', -⟩ | ⟨-, hk, -⟩
  · exact absurd hn' hn
  · obtain ⟨rfl, hc⟩ := hk entry hx
    rw [hc]
    exact ⟨rfl, rfl⟩

mutual

/-- **Every binding of an accepted tree agrees with the entry its name had before.** -/
theorem Visits.agreeWith {node node' : ExecNode} {st st' : ScopeStack VarEntry} {x : String}
    {entry : VarEntry} : Visits reg st node node' st' → st.lookup x = some entry →
      AgreeWith entry x (bindings node')
  | .entryArgument, _ | .execContext, _ | .output, _ | .constantValue, _ | .constantListValue, _
  | .ref _, _ => by
    rw [bindings]
    · exact agreeWith_nil
    all_goals simp
  | .unaryOP hc _, hx => by
    rw [bindings]
    exact hc.agreeWith hx
  | .binaryOP hl hr _, hx => by
    rw [bindings]
    exact agreeWith_append.mpr ⟨hl.agreeWith hx, hr.agreeWith (hl.keeps.lookup hx)⟩
  | .function ha _, hx | .ifNode _ ha _, hx | .switchNode _ ha _, hx => by
    rw [bindings]
    exact ha.agreeWith hx
  | .noOP hs, hx => by
    rw [bindings]
    exact hs.agreeWith hx
  | .ifBlock _ hb, hx => by
    rw [bindings]
    exact hb.agreeWith hx

theorem VisitsArgs.agreeWith {args args' : List ExecNode} {st st' : ScopeStack VarEntry}
    {x : String} {entry : VarEntry} : VisitsArgs reg st args args' st' →
      st.lookup x = some entry → AgreeWith entry x (bindingsArgs args')
  | .nil, _ => agreeWith_nil
  | .cons h _ hs, hx =>
    agreeWith_append.mpr ⟨h.agreeWith hx, hs.agreeWith (h.keeps.lookup hx)⟩

theorem VisitsStmts.agreeWith {isolated : Bool} {args args' : List (VarInfo × ExecNode)}
    {st st' : ScopeStack VarEntry} {x : String} {entry : VarEntry} :
    VisitsStmts reg isolated st args args' st' → st.lookup x = some entry →
      AgreeWith entry x (bindingsStmts args')
  | .nil, _ => agreeWith_nil
  | .cons h hb hs, hx => by
    have he : (enterStmt isolated st).lookup x = some entry := by
      cases isolated
      · exact hx
      · exact (lookup_pushScope st x).trans hx
    have hk := (h.keeps.trans (.bindStmt hb)).leaveStmt
    exact agreeWith_append.mpr ⟨agreeWith_append.mpr
      ⟨h.agreeWith he, agreeWith_ownBinding hb (h.keeps.lookup he)⟩,
      hs.agreeWith (hk.lookup hx)⟩

theorem VisitsBranches.agreeWith {acc acc' : Scope ValueType} {args args' : List ExecNode}
    {st st' : ScopeStack VarEntry} {x : String} {entry : VarEntry} :
    VisitsBranches reg acc st args args' acc' st' → st.lookup x = some entry →
      AgreeWith entry x (bindingsArgs args')
  | .nil, _ => agreeWith_nil
  | .elseBody h _, hx =>
    agreeWith_append.mpr ⟨h.agreeWith ((lookup_pushScope st x).trans hx), agreeWith_nil⟩
  | .cons hc _ h _ hs, hx => by
    have hx₁ := hc.keeps.lookup hx
    have hpop := h.keeps.popScope
    exact agreeWith_append.mpr ⟨hc.agreeWith hx, agreeWith_append.mpr
      ⟨h.agreeWith ((lookup_pushScope _ x).trans hx₁), hs.agreeWith (by rw [hpop]; exact hx₁)⟩⟩

end

/-! ## 5. Scopes over a residue -/

/-- The scopes `bs` are the scopes `as` over a residue `S` of older entries: where `as` knows a
name the two hold the same, and where it does not, `bs` holds what `S` holds. -/
inductive Over (S : String → Option VarEntry) :
    List (Scope VarEntry) → List (Scope VarEntry) → Prop
  | bottom {a b} (h : ∀ x, b.lookup x = (a.lookup x).or (S x)) : Over S [a] [b]
  | inner {a b as bs} (hk : ∀ x, lookupIn x (a :: as) ≠ none → b.lookup x = a.lookup x)
      (hu : ∀ x e, lookupIn x (a :: as) = none → b.lookup x = some e → S x = some e)
      (hs : Over S as bs) : Over S (a :: as) (b :: bs)

def OverStack (S : String → Option VarEntry) (as bs : ScopeStack VarEntry) : Prop :=
  Over S (as.top :: as.outer) (bs.top :: bs.outer)

variable {S : String → Option VarEntry}

theorem orElse_eq_or {α : Type} (o : Option α) (f : Unit → Option α) :
    o.orElse f = o.or (f ()) := by
  cases o <;> rfl

theorem Over.lookupIn {as bs : List (Scope VarEntry)} (h : Over S as bs) (x : String) :
    lookupIn x bs = (lookupIn x as).or (S x) := by
  induction h with
  | bottom h =>
    simp only [ScopeStack.lookupIn, orElse_eq_or, Option.or_none]
    exact h x
  | @inner a b as bs hk hu hs ih =>
    rw [ScopeStack.lookupIn, orElse_eq_or, ih]
    cases ha : ScopeStack.lookupIn x (a :: as) with
    | some e =>
      rw [hk x (by rw [ha]; simp)]
      rw [ScopeStack.lookupIn, orElse_eq_or] at ha
      rw [← Option.or_assoc, ha]
    | none =>
      have hn := ha
      rw [ScopeStack.lookupIn, orElse_eq_or, Option.or_eq_none_iff] at hn
      rw [hn.2, Option.none_or]
      cases hb : b.lookup x with
      | none => rfl
      | some e => rw [hu x e ha hb]; rfl

/-- The innermost scopes agree on the names the first stack knows. -/
theorem Over.top {a b : Scope VarEntry} {as bs : List (Scope VarEntry)}
    (h : Over S (a :: as) (b :: bs)) {x : String}
    (hk : ScopeStack.lookupIn x (a :: as) ≠ none) : b.lookup x = a.lookup x := by
  cases h with
  | bottom h =>
    rw [h x]
    cases ha : a.lookup x with
    | some e => rfl
    | none => exact absurd (by simp [ScopeStack.lookupIn, ha]) hk
  | inner hk' _ _ => exact hk' x hk

/-- Replacing the innermost scopes, with tables that agree where the first stack then knows a
name and hold the residue elsewhere. -/
theorem Over.replaceTop {a b a' b' : Scope VarEntry} {as bs : List (Scope VarEntry)}
    (h : Over S (a :: as) (b :: bs))
    (hk : ∀ x, ScopeStack.lookupIn x (a' :: as) ≠ none →
      a'.lookup x = a.lookup x ∧ b'.lookup x = b.lookup x ∨ b'.lookup x = a'.lookup x)
    (hu : ∀ x, ScopeStack.lookupIn x (a' :: as) = none → a.lookup x = none ∧
      (b'.lookup x = b.lookup x ∨ ∃ e, b'.lookup x = some e ∧ S x = some e)) :
    Over S (a' :: as) (b' :: bs) := by
  have hmono : ∀ x, ScopeStack.lookupIn x (a' :: as) = none →
      ScopeStack.lookupIn x (a :: as) = none := by
    intro x hx
    have hn := hx
    rw [ScopeStack.lookupIn, orElse_eq_or, Option.or_eq_none_iff] at hn
    rw [ScopeStack.lookupIn, orElse_eq_or, (hu x hx).1, hn.2]
    rfl
  cases h with
  | bottom h =>
    refine .bottom fun x => ?_
    cases ha : a'.lookup x with
    | some e =>
      rcases hk x (by simp [ScopeStack.lookupIn, ha]) with ⟨h₁, h₂⟩ | h'
      · rw [h₂, h x, ← h₁, ha]
      · rw [h', ha]
        rfl
    | none =>
      obtain ⟨hn, h' | ⟨e, he, hS⟩⟩ := hu x (by simp [ScopeStack.lookupIn, ha])
      · rw [h', h x, hn]
      · rw [he, hS]
        rfl
  | inner hk' hu' hs =>
    refine .inner (fun x hx => ?_) (fun x e hx he => ?_) hs
    · rcases hk x hx with ⟨h₁, h₂⟩ | h'
      · rw [h₁, h₂]
        refine hk' x ?_
        rw [ScopeStack.lookupIn] at hx ⊢
        rwa [← h₁]
      · exact h'
    · obtain ⟨-, h' | ⟨e', he', hS⟩⟩ := hu x hx
      · exact hu' x e (hmono x hx) (h' ▸ he)
      · rw [he] at he'
        cases he'
        exact hS

namespace OverStack

variable {as as' bs bs' : ScopeStack VarEntry}

theorem lookup (h : OverStack S as bs) (x : String) :
    bs.lookup x = (as.lookup x).or (S x) := Over.lookupIn h x

theorem lookup_some (h : OverStack S as bs) {x : String} {e : VarEntry}
    (hx : as.lookup x = some e) : bs.lookup x = some e := by
  rw [h.lookup, hx]
  rfl

theorem pushScope (h : OverStack S as bs) : OverStack S as.pushScope bs.pushScope :=
  .inner (fun _ _ => rfl) (fun _ _ _ he => by cases he) h

theorem enterStmt {isolated : Bool} (h : OverStack S as bs) :
    OverStack S (enterStmt isolated as) (enterStmt isolated bs) := by
  cases isolated
  · exact h
  · exact h.pushScope

theorem set (h : OverStack S as bs) (x : String) (e : VarEntry) :
    OverStack S (as.set x e) (bs.set x e) := by
  refine Over.replaceTop h (fun y _ => ?_) (fun y hy => ?_)
  · by_cases hxy : y = x
    · subst hxy
      right
      simp
    · left
      simp [AList.lookup_insert_ne hxy]
  · by_cases hxy : y = x
    · subst hxy
      simp [ScopeStack.lookupIn] at hy
    · rw [ScopeStack.lookupIn, orElse_eq_or, set_top, AList.lookup_insert_ne hxy,
        Option.or_eq_none_iff] at hy
      exact ⟨hy.1, .inl (AList.lookup_insert_ne hxy)⟩

/-- A binding that goes through over the residue goes through without it. -/
theorem bindStmt_left {var : VarInfo} {node : ExecNode} (h : OverStack S as bs)
    (hb : bindStmt var node bs = .ok bs') :
    ∃ as', bindStmt var node as = .ok as' ∧ OverStack S as' bs' := by
  rcases bindStmt_eq_ok_iff.mp hb with ⟨hn, rfl⟩ | ⟨hn, hk, rfl⟩
  · exact ⟨as, bindStmt_eq_ok_iff.mpr (.inl ⟨hn, rfl⟩), h⟩
  · exact ⟨_, bindStmt_eq_ok_iff.mpr (.inr ⟨hn, fun e he => hk e (h.lookup_some he), rfl⟩),
      h.set _ _⟩

/-- A binding that goes through without the residue goes through over it, if it agrees with
the residue. -/
theorem bindStmt_right {var : VarInfo} {node : ExecNode} (h : OverStack S as bs)
    (hb : bindStmt var node as = .ok as')
    (hS : ∀ x s, S x = some s → AgreeWith s x (ownBinding var node)) :
    ∃ bs', bindStmt var node bs = .ok bs' ∧ OverStack S as' bs' := by
  rcases bindStmt_eq_ok_iff.mp hb with ⟨hn, rfl⟩ | ⟨hn, hk, rfl⟩
  · exact ⟨bs, bindStmt_eq_ok_iff.mpr (.inl ⟨hn, rfl⟩), h⟩
  · refine ⟨_, bindStmt_eq_ok_iff.mpr (.inr ⟨hn, fun e he => ?_, rfl⟩), h.set _ _⟩
    rw [h.lookup] at he
    cases ha : as.lookup var.name with
    | some e' =>
      rw [ha] at he
      cases he
      exact hk e ha
    | none =>
      rw [ha] at he
      obtain ⟨rfl, hc⟩ := hS _ _ he _ (mem_ownBinding.mpr ⟨hn, rfl, rfl⟩)
      exact ⟨by rw [show var.isConst = false from hc], hc⟩

end OverStack

/-- The variables a branch assigns, without and over the residue. -/
structure ShadowedOver (S : String → Option VarEntry) (as : ScopeStack VarEntry)
    (a b : Scope ValueType) : Prop where
  known : ∀ {x}, as.lookup x ≠ none → b.lookup x = a.lookup x
  unknown : ∀ {x}, as.lookup x = none →
    a.lookup x = none ∧ ∀ t, b.lookup x = some t → S x = some ⟨t, false⟩

namespace ShadowedOver

variable {as as' bs bs' : ScopeStack VarEntry} {a b : Scope ValueType}

theorem addShadowed (h : ShadowedOver S as a b) (ho : OverStack S as bs)
    (ho' : OverStack S as' bs') (ha : Keeps as.pushScope as') (hb : Keeps bs.pushScope bs') :
    ShadowedOver S as (addShadowed a as'.getShadowed) (addShadowed b bs'.getShadowed) where
  known {x} hx := by
    have hkb : bs.lookup x ≠ none := by
      rw [ho.lookup]
      cases hax : as.lookup x with
      | none => exact absurd hax hx
      | some e => simp
    have htop : bs'.top.lookup x = as'.top.lookup x := by
      refine Over.top ho' ?_
      cases hax : as.lookup x with
      | none => exact absurd hax hx
      | some e =>
        have hl : as'.lookup x = some e := ha.lookup ((lookup_pushScope as x).trans hax)
        have hl' : ScopeStack.lookupIn x (as'.top :: as'.outer) = some e := hl
        rw [hl']
        simp
    have hsa : knownIn x as'.outer = true := by
      rw [ha.outer]
      exact Option.isSome_iff_ne_none.mpr hx
    have hsb : knownIn x bs'.outer = true := by
      rw [hb.outer]
      exact Option.isSome_iff_ne_none.mpr hkb
    rw [addShadowed_lookup, addShadowed_lookup, lookup_getShadowed, lookup_getShadowed, if_pos hsa,
      if_pos hsb, htop, h.known hx]
  unknown {x} hx := by
    obtain ⟨hna, hnb⟩ := h.unknown hx
    refine ⟨?_, fun t ht => ?_⟩
    · rw [addShadowed_lookup, hna, Option.or_none, Option.map_eq_none_iff]
      cases hs : as'.getShadowed.lookup x with
      | none => rfl
      | some e =>
        have hl := (ha.getShadowed hs).1
        rw [hx] at hl
        cases hl
    · rcases hb.addShadowed ht with h' | h'
      · exact hnb t h'
      · rw [ho.lookup, hx] at h'
        exact h'

theorem setShadowed (h : ShadowedOver S as a b) (ho : OverStack S as bs) :
    OverStack S (setShadowed as a) (setShadowed bs b) := by
  unfold OverStack
  rw [setShadowed_outer, setShadowed_outer]
  have hl : ∀ x, ScopeStack.lookupIn x ((Validator.setShadowed as a).top :: as.outer) =
      ((a.lookup x).map fun t => (⟨t, false⟩ : VarEntry)).or (as.lookup x) := by
    intro x
    rw [← setShadowed_lookup, ScopeStack.lookup, setShadowed_outer]
  have hknown : ∀ x, as.lookup x ≠ none →
      (Validator.setShadowed as a).top.lookup x = as.top.lookup x ∧
        (Validator.setShadowed bs b).top.lookup x = bs.top.lookup x ∨
      (Validator.setShadowed bs b).top.lookup x = (Validator.setShadowed as a).top.lookup x := by
    intro x hx
    right
    rw [setShadowed_top_lookup, setShadowed_top_lookup, h.known hx, Over.top ho hx]
  refine Over.replaceTop ho (fun x hx => ?_) (fun x hx => ?_)
  · by_cases hn : as.lookup x = none
    · rw [hl, hn, (h.unknown hn).1] at hx
      exact absurd rfl hx
    · exact hknown x hn
  · rw [hl, Option.or_eq_none_iff] at hx
    have hn := hx.2
    rw [lookup_eq_or, orElse_eq_or, Option.or_eq_none_iff] at hn
    refine ⟨hn.1, ?_⟩
    rw [setShadowed_top_lookup]
    cases hb : b.lookup x with
    | none => exact .inl rfl
    | some t => exact .inr ⟨_, rfl, (h.unknown hx.2).2 t hb⟩

end ShadowedOver

/-! ## 6. The same program without and over the residue -/

theorem OverStack.leaveStmt {isolated : Bool} {as as₁ bs bs₁ : ScopeStack VarEntry}
    (h : OverStack S as bs) (h₁ : OverStack S as₁ bs₁)
    (ha : Keeps (Validator.enterStmt isolated as) as₁)
    (hb : Keeps (Validator.enterStmt isolated bs) bs₁) :
    OverStack S (leaveStmt isolated as₁) (leaveStmt isolated bs₁) := by
  cases isolated with
  | false => exact h₁
  | true =>
    have hpa : Validator.leaveStmt true as₁ = as := ha.popScope
    have hpb : Validator.leaveStmt true bs₁ = bs := hb.popScope
    rw [hpa, hpb]
    exact h

/-- The residue agrees with every binding of a list. -/
def ResidueAgrees (S : String → Option VarEntry) (l : List (String × VarEntry)) : Prop :=
  ∀ x s, S x = some s → AgreeWith s x l

theorem residueAgrees_append {l l' : List (String × VarEntry)} :
    ResidueAgrees S (l ++ l') ↔ ResidueAgrees S l ∧ ResidueAgrees S l' := by
  simp only [ResidueAgrees, agreeWith_append]
  exact ⟨fun h => ⟨fun x s hs => (h x s hs).1, fun x s hs => (h x s hs).2⟩,
    fun h x s hs => ⟨h.1 x s hs, h.2 x s hs⟩⟩

mutual

/-- **A tree accepted on its own is accepted over a residue its bindings agree with**, with the
same return types. -/
theorem Visits.over {node node' : ExecNode} {as as' bs : ScopeStack VarEntry} :
    Visits reg as node node' as' → OverStack S as bs → ResidueAgrees S (bindings node') →
      ∃ bs', Visits reg bs node node' bs' ∧ OverStack S as' bs'
  | .entryArgument, ho, _ => ⟨bs, .entryArgument, ho⟩
  | .execContext, ho, _ => ⟨bs, .execContext, ho⟩
  | .output, ho, _ => ⟨bs, .output, ho⟩
  | .constantValue, ho, _ => ⟨bs, .constantValue, ho⟩
  | .constantListValue, ho, _ => ⟨bs, .constantListValue, ho⟩
  | .ref h, ho, _ => ⟨bs, .ref (ho.lookup_some h), ho⟩
  | .unaryOP hc ht, ho, hS => by
    rw [bindings] at hS
    obtain ⟨bs', hc', ho'⟩ := hc.over ho hS
    exact ⟨bs', .unaryOP hc' ht, ho'⟩
  | .binaryOP hl hr ht, ho, hS => by
    rw [bindings] at hS
    obtain ⟨hSl, hSr⟩ := residueAgrees_append.mp hS
    obtain ⟨bs₁, hl', ho₁⟩ := hl.over ho hSl
    obtain ⟨bs₂, hr', ho₂⟩ := hr.over ho₁ hSr
    exact ⟨bs₂, .binaryOP hl' hr' ht, ho₂⟩
  | .function ha ht, ho, hS => by
    rw [bindings] at hS
    obtain ⟨bs', ha', ho'⟩ := ha.over ho hS
    exact ⟨bs', .function ha' ht, ho'⟩
  | .noOP hs, ho, hS => by
    rw [bindings] at hS
    obtain ⟨bs', hs', ho'⟩ := hs.over ho hS
    exact ⟨bs', .noOP hs', ho'⟩
  | .ifNode hn ha ht, ho, hS => by
    rw [bindings] at hS
    obtain ⟨bs', ha', ho'⟩ := ha.over ho hS
    exact ⟨bs', .ifNode hn ha' ht, ho'⟩
  | .switchNode hn ha ht, ho, hS => by
    rw [bindings] at hS
    obtain ⟨bs', ha', ho'⟩ := ha.over ho hS
    exact ⟨bs', .switchNode hn ha' ht, ho'⟩
  | .ifBlock hn hb, ho, hS => by
    rw [bindings] at hS
    have hacc : ShadowedOver S as ∅ ∅ := ⟨fun _ => rfl, fun _ => ⟨rfl, fun _ ht => by cases ht⟩⟩
    obtain ⟨accb', bs', hb', hacc', ho'⟩ := hb.over ho hacc hS
    exact ⟨_, .ifBlock hn hb', hacc'.setShadowed ho'⟩

theorem VisitsArgs.over {args args' : List ExecNode} {as as' bs : ScopeStack VarEntry} :
    VisitsArgs reg as args args' as' → OverStack S as bs → ResidueAgrees S (bindingsArgs args') →
      ∃ bs', VisitsArgs reg bs args args' bs' ∧ OverStack S as' bs'
  | .nil, ho, _ => ⟨bs, .nil, ho⟩
  | .cons h hv hs, ho, hS => by
    obtain ⟨hSh, hSt⟩ := residueAgrees_append.mp hS
    obtain ⟨bs₁, h', ho₁⟩ := h.over ho hSh
    obtain ⟨bs₂, hs', ho₂⟩ := hs.over ho₁ hSt
    exact ⟨bs₂, .cons h' hv hs', ho₂⟩

theorem VisitsStmts.over {isolated : Bool} {args args' : List (VarInfo × ExecNode)}
    {as as' bs : ScopeStack VarEntry} :
    VisitsStmts reg isolated as args args' as' → OverStack S as bs →
      ResidueAgrees S (bindingsStmts args') →
      ∃ bs', VisitsStmts reg isolated bs args args' bs' ∧ OverStack S as' bs'
  | .nil, ho, _ => ⟨bs, .nil, ho⟩
  | .cons h hb hs, ho, hS => by
    obtain ⟨hSh, hSt⟩ := residueAgrees_append.mp hS
    obtain ⟨hSh, hSb⟩ := residueAgrees_append.mp hSh
    obtain ⟨bs₁, h', ho₁⟩ := h.over ho.enterStmt hSh
    obtain ⟨bs₂, hb', ho₂⟩ := ho₁.bindStmt_right hb hSb
    have ho₃ := ho.leaveStmt ho₂ (h.keeps.trans (.bindStmt hb)) (h'.keeps.trans (.bindStmt hb'))
    obtain ⟨bs₃, hs', ho₄⟩ := hs.over ho₃ hSt
    exact ⟨bs₃, .cons h' hb' hs', ho₄⟩

theorem VisitsBranches.over {acc acc' accb : Scope ValueType} {args args' : List ExecNode}
    {as as' bs : ScopeStack VarEntry} :
    VisitsBranches reg acc as args args' acc' as' → OverStack S as bs →
      ShadowedOver S as acc accb → ResidueAgrees S (bindingsArgs args') →
      ∃ accb' bs', VisitsBranches reg accb bs args args' accb' bs' ∧
        ShadowedOver S as' acc' accb' ∧ OverStack S as' bs'
  | .nil, ho, hacc, _ => ⟨accb, bs, .nil, hacc, ho⟩
  | .elseBody h hv, ho, hacc, hS => by
    obtain ⟨hSh, -⟩ := residueAgrees_append.mp hS
    obtain ⟨bs₁, h', ho₁⟩ := h.over ho.pushScope hSh
    refine ⟨_, _, .elseBody h' hv, ?_, ?_⟩
    · rw [h.keeps.popScope]
      exact hacc.addShadowed ho ho₁ h.keeps h'.keeps
    · rw [h.keeps.popScope, h'.keeps.popScope]
      exact ho
  | .cons hc hn h hv hs, ho, hacc, hS => by
    obtain ⟨hSc, hS⟩ := residueAgrees_append.mp hS
    obtain ⟨hSh, hSt⟩ := residueAgrees_append.mp hS
    obtain ⟨bs₁, hc', ho₁⟩ := hc.over ho hSc
    have has := hc.scopes_eq (ne_kVoid_of_isNumericType hn)
    obtain ⟨bs₂, h', ho₂⟩ := h.over ho₁.pushScope hSh
    have hpa := h.keeps.popScope
    have hpb := h'.keeps.popScope
    have hacc₁ := ShadowedOver.addShadowed (has ▸ hacc) ho₁ ho₂ h.keeps h'.keeps
    obtain ⟨accb', bs₃, hs', hacc', ho₃⟩ := hs.over
      (by rw [hpa, hpb]; exact ho₁ : OverStack S _ bs₂.popScope) (by rw [hpa]; exact hacc₁) hSt
    exact ⟨accb', bs₃, .cons hc' hn h' hv hs', hacc', ho₃⟩

end

/-- The names `closed` takes for known after a statement are known then. -/
theorem knownAfter {isolated : Bool} {var : VarInfo} {arg arg' : ExecNode}
    {st st₁ st₂ : ScopeStack VarEntry} {known : List String}
    (h : Visits reg (enterStmt isolated st) arg arg' st₁) (hb : bindStmt var arg' st₁ = .ok st₂)
    (hk : Keeps (enterStmt isolated st) st₂) (hkn : ∀ x ∈ known, st.lookup x ≠ none) :
    ∀ x ∈ (if isolated then known
      else (exports arg ++ ownBinding var arg).map Prod.fst ++ known),
      (leaveStmt isolated st₂).lookup x ≠ none := by
  have hkept : ∀ x ∈ known, (leaveStmt isolated st₂).lookup x ≠ none := by
    intro x hx
    obtain ⟨e, he⟩ := Option.ne_none_iff_exists'.mp (hkn x hx)
    rw [hk.leaveStmt.lookup he]
    simp
  cases isolated with
  | true => exact hkept
  | false =>
    rintro x hx
    rcases List.mem_append.mp hx with hx | hx
    · have hx' : x ∈ (exports arg' ++ ownBinding var arg').map Prod.fst := by
        rw [List.map_append, List.mem_append] at hx ⊢
        rw [h.exports_names]
        refine hx.imp_right fun hx => ?_
        unfold ownBinding at hx ⊢
        split at hx <;> simp_all
      obtain ⟨⟨y, e⟩, hy, rfl⟩ := List.mem_map.mp hx'
      have hl : st₂.lookup y = some e := by
        rw [bindStmt_lookup hb, h.lookup_iff]
        rcases List.mem_append.mp hy with hy | hy
        · exact .inl (.inr hy)
        · exact .inr hy
      rw [leaveStmt, if_neg Bool.false_ne_true, hl]
      simp
    · exact hkept x hx

mutual

/-- **A closed tree accepted over a residue is accepted without it**, with the same return
types. -/
theorem Visits.without {node node' : ExecNode} {as bs bs' : ScopeStack VarEntry}
    {known : List String} : Visits reg bs node node' bs' → OverStack S as bs →
      closed known node = true → (∀ x ∈ known, as.lookup x ≠ none) →
      ∃ as', Visits reg as node node' as' ∧ OverStack S as' bs'
  | .entryArgument, ho, _, _ => ⟨as, .entryArgument, ho⟩
  | .execContext, ho, _, _ => ⟨as, .execContext, ho⟩
  | .output, ho, _, _ => ⟨as, .output, ho⟩
  | .constantValue, ho, _, _ => ⟨as, .constantValue, ho⟩
  | .constantListValue, ho, _, _ => ⟨as, .constantListValue, ho⟩
  | @Visits.ref _ _ _ name _ h, ho, hcl, hkn => by
    rw [closed, decide_eq_true_eq] at hcl
    refine ⟨as, .ref ?_, ho⟩
    rw [ho.lookup] at h
    cases ha : as.lookup name with
    | none => exact absurd ha (hkn name hcl)
    | some e => rw [ha] at h; exact h
  | .unaryOP hc ht, ho, hcl, hkn => by
    rw [closed] at hcl
    obtain ⟨as', hc', ho'⟩ := hc.without ho hcl hkn
    exact ⟨as', .unaryOP hc' ht, ho'⟩
  | .binaryOP hl hr ht, ho, hcl, hkn => by
    rw [closed, Bool.and_eq_true] at hcl
    obtain ⟨as₁, hl', ho₁⟩ := hl.without ho hcl.1 hkn
    have has := hl'.scopes_eq (ne_kVoid_of_binaryOPType ht).1
    obtain ⟨as₂, hr', ho₂⟩ := hr.without ho₁ hcl.2 (has ▸ hkn)
    exact ⟨as₂, .binaryOP hl' hr' ht, ho₂⟩
  | .function ha ht, ho, hcl, hkn => by
    rw [closed] at hcl
    obtain ⟨as', ha', ho'⟩ := ha.without ho hcl hkn
    exact ⟨as', .function ha' ht, ho'⟩
  | .noOP hs, ho, hcl, hkn => by
    rw [closed] at hcl
    obtain ⟨as', hs', ho'⟩ := hs.without ho hcl hkn
    exact ⟨as', .noOP hs', ho'⟩
  | .ifNode hn ha ht, ho, hcl, hkn => by
    rw [closed] at hcl
    obtain ⟨as', ha', ho'⟩ := ha.without ho hcl hkn
    exact ⟨as', .ifNode hn ha' ht, ho'⟩
  | .switchNode hn ha ht, ho, hcl, hkn => by
    rw [closed] at hcl
    obtain ⟨as', ha', ho'⟩ := ha.without ho hcl hkn
    exact ⟨as', .switchNode hn ha' ht, ho'⟩
  | .ifBlock hn hb, ho, hcl, hkn => by
    rw [closed] at hcl
    have hacc : ShadowedOver S as ∅ ∅ := ⟨fun _ => rfl, fun _ => ⟨rfl, fun _ ht => by cases ht⟩⟩
    obtain ⟨acca', as', hb', hacc', ho'⟩ := hb.without ho hacc hcl hkn
    exact ⟨_, .ifBlock hn hb', hacc'.setShadowed ho'⟩

theorem VisitsArgs.without {args args' : List ExecNode} {as bs bs' : ScopeStack VarEntry}
    {known : List String} : VisitsArgs reg bs args args' bs' → OverStack S as bs →
      closedArgs known args = true → (∀ x ∈ known, as.lookup x ≠ none) →
      ∃ as', VisitsArgs reg as args args' as' ∧ OverStack S as' bs'
  | .nil, ho, _, _ => ⟨as, .nil, ho⟩
  | .cons h hv hs, ho, hcl, hkn => by
    rw [closedArgs, Bool.and_eq_true] at hcl
    obtain ⟨as₁, h', ho₁⟩ := h.without ho hcl.1 hkn
    obtain ⟨as₂, hs', ho₂⟩ := hs.without ho₁ hcl.2 (h'.scopes_eq hv ▸ hkn)
    exact ⟨as₂, .cons h' hv hs', ho₂⟩

theorem VisitsStmts.without {isolated : Bool} {args args' : List (VarInfo × ExecNode)}
    {as bs bs' : ScopeStack VarEntry} {known : List String} :
    VisitsStmts reg isolated bs args args' bs' → OverStack S as bs →
      closedStmts isolated known args = true → (∀ x ∈ known, as.lookup x ≠ none) →
      ∃ as', VisitsStmts reg isolated as args args' as' ∧ OverStack S as' bs'
  | .nil, ho, _, _ => ⟨as, .nil, ho⟩
  | .cons h hb hs, ho, hcl, hkn => by
    rw [closedStmts, Bool.and_eq_true] at hcl
    have hkn₀ : ∀ x ∈ known, (enterStmt isolated as).lookup x ≠ none := by
      cases isolated
      · exact hkn
      · intro x hx
        rw [enterStmt_true, lookup_pushScope]
        exact hkn x hx
    obtain ⟨as₁, h', ho₁⟩ := h.without ho.enterStmt hcl.1 hkn₀
    obtain ⟨as₂, hb', ho₂⟩ := ho₁.bindStmt_left hb
    have hka : Keeps (enterStmt isolated as) as₂ := h'.keeps.trans (.bindStmt hb')
    have ho₃ := ho.leaveStmt ho₂ hka (h.keeps.trans (.bindStmt hb))
    obtain ⟨as₃, hs', ho₄⟩ := hs.without ho₃ hcl.2 (knownAfter h' hb' hka hkn)
    exact ⟨as₃, .cons h' hb' hs', ho₄⟩

theorem VisitsBranches.without {acc acc' acca : Scope ValueType} {args args' : List ExecNode}
    {as bs bs' : ScopeStack VarEntry} {known : List String} :
    VisitsBranches reg acc bs args args' acc' bs' → OverStack S as bs →
      ShadowedOver S as acca acc → closedArgs known args = true →
      (∀ x ∈ known, as.lookup x ≠ none) →
      ∃ acca' as', VisitsBranches reg acca as args args' acca' as' ∧
        ShadowedOver S as' acca' acc' ∧ OverStack S as' bs'
  | .nil, ho, hacc, _, _ => ⟨acca, as, .nil, hacc, ho⟩
  | .elseBody h hv, ho, hacc, hcl, hkn => by
    rw [closedArgs, Bool.and_eq_true] at hcl
    obtain ⟨as₁, h', ho₁⟩ := h.without ho.pushScope hcl.1
      (fun x hx => by rw [lookup_pushScope]; exact hkn x hx)
    refine ⟨_, _, .elseBody h' hv, ?_, ?_⟩
    · rw [h'.keeps.popScope]
      exact hacc.addShadowed ho ho₁ h'.keeps h.keeps
    · rw [h.keeps.popScope, h'.keeps.popScope]
      exact ho
  | .cons hc hn h hv hs, ho, hacc, hcl, hkn => by
    rw [closedArgs, closedArgs, Bool.and_eq_true, Bool.and_eq_true] at hcl
    obtain ⟨as₁, hc', ho₁⟩ := hc.without ho hcl.1 hkn
    have has := hc'.scopes_eq (ne_kVoid_of_isNumericType hn)
    obtain ⟨as₂, h', ho₂⟩ := h.without ho₁.pushScope hcl.2.1
      (fun x hx => by rw [lookup_pushScope, has]; exact hkn x hx)
    have hpa := h'.keeps.popScope
    have hpb := h.keeps.popScope
    have hacc₁ := ShadowedOver.addShadowed (has ▸ hacc) ho₁ ho₂ h'.keeps h.keeps
    obtain ⟨acca', as₃, hs', hacc', ho₃⟩ := hs.without
      (by rw [hpa, hpb]; exact ho₁ : OverStack S as₂.popScope _) (by rw [hpa]; exact hacc₁)
      hcl.2.2 (by rw [hpa, has]; exact hkn)
    exact ⟨acca', as₃, .cons hc' hn h' hv hs', hacc', ho₃⟩

end

/-! ## 7. An accepted tree is closed -/

mutual

theorem Visits.closed {node node' : ExecNode} {st st' : ScopeStack VarEntry}
    {known : List String} : Visits reg st node node' st' → (∀ x, st.lookup x ≠ none → x ∈ known) →
      closed known node = true
  | .entryArgument, _ | .execContext, _ | .output, _ | .constantValue, _
  | .constantListValue, _ => rfl
  | .ref h, hkn => by
    rw [Validator.closed, decide_eq_true_eq]
    exact hkn _ (by rw [h]; simp)
  | .unaryOP hc _, hkn => by
    rw [Validator.closed]
    exact hc.closed hkn
  | .binaryOP hl hr ht, hkn => by
    rw [Validator.closed, Bool.and_eq_true]
    have hst := hl.scopes_eq (ne_kVoid_of_binaryOPType ht).1
    exact ⟨hl.closed hkn, hr.closed (by rw [hst]; exact hkn)⟩
  | .function ha _, hkn | .ifNode _ ha _, hkn | .switchNode _ ha _, hkn => by
    rw [Validator.closed]
    exact ha.closed hkn
  | .noOP hs, hkn => by
    rw [Validator.closed]
    exact hs.closed hkn
  | .ifBlock _ hb, hkn => by
    rw [Validator.closed]
    exact hb.closed hkn

theorem VisitsArgs.closed {args args' : List ExecNode} {st st' : ScopeStack VarEntry}
    {known : List String} : VisitsArgs reg st args args' st' →
      (∀ x, st.lookup x ≠ none → x ∈ known) → closedArgs known args = true
  | .nil, _ => rfl
  | .cons h hv hs, hkn => by
    rw [closedArgs, Bool.and_eq_true]
    have hst := h.scopes_eq hv
    exact ⟨h.closed hkn, hs.closed (by rw [hst]; exact hkn)⟩

theorem VisitsStmts.closed {isolated : Bool} {args args' : List (VarInfo × ExecNode)}
    {st st' : ScopeStack VarEntry} {known : List String} :
    VisitsStmts reg isolated st args args' st' → (∀ x, st.lookup x ≠ none → x ∈ known) →
      closedStmts isolated known args = true
  | .nil, _ => rfl
  | .cons h hb hs, hkn => by
    rw [closedStmts, Bool.and_eq_true]
    refine ⟨h.closed fun x hx => ?_, hs.closed fun x hx => ?_⟩
    · cases isolated with
      | true => exact hkn x (lookup_pushScope st x ▸ hx)
      | false => exact hkn x hx
    · cases isolated with
      | true =>
        rw [leaveStmt, if_pos rfl, (h.keeps.trans (.bindStmt hb)).popScope] at hx
        exact hkn x hx
      | false =>
        obtain ⟨e, he⟩ := Option.ne_none_iff_exists'.mp hx
        rw [leaveStmt, if_neg Bool.false_ne_true, bindStmt_lookup hb, h.lookup_iff] at he
        rw [if_neg Bool.false_ne_true, List.mem_append, List.map_append, List.mem_append,
          ← h.exports_names]
        rcases he with (he | he) | he
        · exact .inr (hkn x (by rw [show st.lookup x = some e from he]; simp))
        · exact .inl (.inl (List.mem_map_of_mem (f := Prod.fst) he))
        · obtain ⟨hn, rfl, -⟩ := mem_ownBinding.mp he
          exact .inl (.inr
            (List.mem_map_of_mem (f := Prod.fst) (mem_ownBinding.mpr ⟨hn, rfl, rfl⟩)))

theorem VisitsBranches.closed {acc acc' : Scope ValueType} {args args' : List ExecNode}
    {st st' : ScopeStack VarEntry} {known : List String} :
    VisitsBranches reg acc st args args' acc' st' → (∀ x, st.lookup x ≠ none → x ∈ known) →
      closedArgs known args = true
  | .nil, _ => rfl
  | .elseBody h _, hkn => by
    rw [closedArgs, Bool.and_eq_true]
    exact ⟨h.closed fun x hx => hkn x (lookup_pushScope st x ▸ hx), rfl⟩
  | .cons hc hn h _ hs, hkn => by
    rw [closedArgs, closedArgs, Bool.and_eq_true, Bool.and_eq_true]
    have hst := hc.scopes_eq (ne_kVoid_of_isNumericType hn)
    have hpop := h.keeps.popScope
    exact ⟨hc.closed hkn,
      h.closed (by intro x hx; rw [lookup_pushScope, hst] at hx; exact hkn x hx),
      hs.closed (by rw [hpop, hst]; exact hkn)⟩

end

/-! ## 8. Batches -/

/-- What `validateBatch` accepts, root by root. -/
theorem visitAll_cons_eq_ok {node : ExecNode} {nodes out : List ExecNode} :
    (visitAll reg (node :: nodes)).run st = .ok (out, st') ↔
      ∃ node' st₁ nodes', Visits reg st node node' st₁ ∧
        (visitAll reg nodes).run st₁ = .ok (nodes', st') ∧ out = node' :: nodes' := by
  simp only [visitAll, Checked.run_bind_eq_ok, Checked.run_pure_eq_ok, visit_run_eq_ok]
  constructor
  · rintro ⟨node', st₁, h, nodes', _, hs, rfl, rfl⟩
    exact ⟨node', st₁, nodes', h, hs, rfl⟩
  · rintro ⟨node', st₁, nodes', h, hs, rfl⟩
    exact ⟨node', st₁, h, nodes', _, hs, rfl, rfl⟩

theorem map_fst_eq_ok {α β ε : Type} {x : Except ε (α × β)} {a : α} :
    x.map Prod.fst = .ok a ↔ ∃ b, x = .ok (a, b) := by
  rcases x with e | ⟨a', b⟩
  · simp [Except.map]
  · simp [Except.map, eq_comm]

theorem validateBatch_eq_ok {nodes out : List ExecNode} :
    validateBatch reg nodes = .ok out ↔ ∃ st', (visitAll reg nodes).run {} = .ok (out, st') :=
  map_fst_eq_ok

theorem validateEach_eq_ok {nodes out : List ExecNode} :
    validateEach reg nodes = .ok out ↔
      List.Forall₂ (fun node node' => ∃ st', Visits reg {} node node' st') nodes out := by
  induction nodes generalizing out with
  | nil => cases out <;> simp [validateEach, pure, Except.pure]
  | cons node nodes ih =>
    have hone : ∀ node', (validate reg node).map Prod.fst = .ok node' ↔
        ∃ st', Visits reg {} node node' st' := by
      intro node'
      rw [map_fst_eq_ok]
      exact exists_congr fun st' => visit_run_eq_ok node
    unfold validateEach at ih ⊢
    rw [List.mapM_cons]
    rcases hh : (validate reg node).map Prod.fst with e | node'
    · refine ⟨nofun, fun h => ?_⟩
      cases h with
      | cons hn hs =>
        rw [← hone, hh] at hn
        cases hn
    · rcases ht : nodes.mapM fun node => (validate reg node).map Prod.fst with e | nodes'
      · rw [ht] at ih
        refine ⟨nofun, fun h => ?_⟩
        cases h with
        | cons hn hs => cases ih.mpr hs
      · rw [ht] at ih
        constructor
        · intro h
          cases h
          exact .cons ((hone node').mp hh) (ih.mp rfl)
        · intro h
          cases h with
          | cons hn hs =>
            rw [← hone, hh] at hn
            cases hn
            cases ih.mpr hs
            rfl

theorem sequenced_visits_iff {nodes : List ExecNode} {st : ScopeStack VarEntry} :
    (∃ args' st', VisitsStmts reg false st (nodes.map fun node => ({}, node)) args' st') ↔
      ∃ out st', (visitAll reg nodes).run st = .ok (out, st') := by
  induction nodes generalizing st with
  | nil => exact ⟨fun _ => ⟨[], st, rfl⟩, fun _ => ⟨[], st, .nil⟩⟩
  | cons node nodes ih =>
    constructor
    · rintro ⟨args', st', h⟩
      cases h with
      | cons h hb hs =>
        cases hb
        obtain ⟨out, st'', ho⟩ := ih.mp ⟨_, _, hs⟩
        exact ⟨_, _, visitAll_cons_eq_ok.mpr ⟨_, _, _, h, ho, rfl⟩⟩
    · rintro ⟨out, st', h⟩
      obtain ⟨node', st₁, nodes', hv, hs, rfl⟩ := visitAll_cons_eq_ok.mp h
      obtain ⟨args', st'', hs'⟩ := ih.mpr ⟨_, _, hs⟩
      exact ⟨_, _, VisitsStmts.cons hv rfl hs'⟩

/-- The roots, as one program, are accepted exactly when the batch is. -/
theorem validate_sequenced_iff {nodes : List ExecNode} :
    (∃ p, validate reg (sequenced nodes) = .ok p) ↔ ∃ out, validateBatch reg nodes = .ok out := by
  simp only [validateBatch_eq_ok, ← sequenced_visits_iff]
  constructor
  · rintro ⟨⟨node', st'⟩, h⟩
    cases (visit_run_eq_ok _).mp h with
    | noOP hs => exact ⟨_, _, hs⟩
  · rintro ⟨args', st', hs⟩
    exact ⟨_, (visit_run_eq_ok _).mpr (.noOP hs)⟩

/-- The scopes between two roots of a batch: nothing but the outermost one. -/
theorem Visits.outer_nil {node node' : ExecNode} (h : Visits reg st node node' st')
    (hst : st.outer = []) : st'.outer = [] := by
  rw [h.keeps.outer, hst]

/-- Fresh scopes are any outermost scope without its entries. -/
theorem overStack_fresh (hst : st.outer = []) : OverStack st.lookup {} st := by
  obtain ⟨top, outer⟩ := st
  cases hst
  refine .bottom fun x => ?_
  simp [ScopeStack.lookup, lookupIn]

/-- The residue that a root leaves over another residue. -/
theorem OverStack.fresh {node node' : ExecNode} {as' : ScopeStack VarEntry}
    (h : Visits reg {} node node' as') (ho : OverStack S as' st') (x : String) (e : VarEntry)
    (hx : st'.lookup x = some e) : (x, e) ∈ exports node' ∨ S x = some e := by
  rw [ho.lookup] at hx
  cases ha : as'.lookup x with
  | none => rw [ha] at hx; exact .inr hx
  | some e' =>
    rw [ha] at hx
    cases hx
    exact .inl (((h.lookup_iff x e).mp ha).resolve_left (by simp))

/-- Roots accepted one by one are accepted as a batch, if their variables agree. -/
theorem visitAll_of_each {nodes out : List ExecNode} {st : ScopeStack VarEntry}
    (h : List.Forall₂ (fun node node' => ∃ st', Visits reg {} node node' st') nodes out)
    (hc : Compatible out) (hst : st.outer = [])
    (hS : ∀ node ∈ out, ResidueAgrees st.lookup (bindings node)) :
    ∃ st', (visitAll reg nodes).run st = .ok (out, st') := by
  induction h generalizing st with
  | nil => exact ⟨st, rfl⟩
  | @cons node node' nodes out hn hs ih =>
    obtain ⟨as', h⟩ := hn
    obtain ⟨hh, ht⟩ := List.pairwise_cons.mp hc
    obtain ⟨st₁, h', ho⟩ := h.over (overStack_fresh hst) (hS node' (by simp))
    obtain ⟨st', hs'⟩ := ih ht (h'.outer_nil hst) (by
      intro k hk x s hx e he
      rcases ho.fresh h x s hx with hx | hx
      · exact hh k hk x s e hx he
      · exact hS k (List.mem_cons_of_mem _ hk) x s hx e he)
    exact ⟨st', visitAll_cons_eq_ok.mpr ⟨_, _, _, h', hs', rfl⟩⟩

/-- Closed roots accepted as a batch are accepted one by one. -/
theorem each_of_visitAll {nodes out : List ExecNode} {st st' : ScopeStack VarEntry}
    (h : (visitAll reg nodes).run st = .ok (out, st')) (hst : st.outer = [])
    (hcl : ∀ node ∈ nodes, closed [] node = true) :
    List.Forall₂ (fun node node' => ∃ st', Visits reg {} node node' st') nodes out := by
  induction nodes generalizing st out with
  | nil =>
    cases h
    exact .nil
  | cons node nodes ih =>
    obtain ⟨node', st₁, nodes', hv, hs, rfl⟩ := visitAll_cons_eq_ok.mp h
    obtain ⟨as', h', -⟩ := hv.without (overStack_fresh hst) (hcl node (by simp)) (by simp)
    exact .cons ⟨as', h'⟩
      (ih hs (hv.outer_nil hst) fun k hk => hcl k (List.mem_cons_of_mem _ hk))

theorem agreeWith_of_visitAll {nodes out : List ExecNode} {st st' : ScopeStack VarEntry}
    (h : (visitAll reg nodes).run st = .ok (out, st')) :
    ∀ node ∈ out, ResidueAgrees st.lookup (bindings node) := by
  induction nodes generalizing st out with
  | nil =>
    cases h
    simp
  | cons node nodes ih =>
    obtain ⟨node', st₁, nodes', hv, hs, rfl⟩ := visitAll_cons_eq_ok.mp h
    intro k hk x s hx
    rcases List.mem_cons.mp hk with rfl | hk
    · exact hv.agreeWith hx
    · exact ih hs k hk x s (hv.keeps.lookup hx)

theorem compatible_of_visitAll {nodes out : List ExecNode} {st st' : ScopeStack VarEntry}
    (h : (visitAll reg nodes).run st = .ok (out, st')) : Compatible out := by
  induction nodes generalizing st out with
  | nil =>
    cases h
    exact .nil
  | cons node nodes ih =>
    obtain ⟨node', st₁, nodes', hv, hs, rfl⟩ := visitAll_cons_eq_ok.mp h
    refine .cons ?_ (ih hs)
    intro k hk x e e' he he'
    exact agreeWith_of_visitAll hs k hk x e ((hv.lookup_iff x e).mpr (.inr he)) e' he'

/-- **When a batch is validated root by root.**  One validator for all the roots accepts the
same batches as a fresh one for each root, with the same return types, exactly when two things
hold: roots that are accepted one by one bind a common variable with one type and never as
`const`, and roots that are accepted as one program read no variable they do not bind
themselves. -/
theorem validateBatch_eq_validateEach_iff (reg : FunctionRegistry) (nodes : List ExecNode) :
    (∀ out, validateBatch reg nodes = .ok out ↔ validateEach reg nodes = .ok out) ↔
      (∀ out, validateEach reg nodes = .ok out → Compatible out) ∧
      ((∃ p, validate reg (sequenced nodes) = .ok p) → ∀ node ∈ nodes, closed [] node = true) := by
  rw [validate_sequenced_iff]
  constructor
  · intro h
    refine ⟨fun out ho => ?_, ?_⟩
    · obtain ⟨st', hb⟩ := validateBatch_eq_ok.mp ((h out).mpr ho)
      exact compatible_of_visitAll hb
    · rintro ⟨out, ho⟩ node hn
      have he := validateEach_eq_ok.mp ((h out).mp ho)
      obtain ⟨i, hi, rfl⟩ := List.getElem_of_mem hn
      obtain ⟨st', hv⟩ := he.get hi (he.length_eq ▸ hi)
      exact hv.closed (by simp)
  · rintro ⟨hc, hcl⟩ out
    constructor
    · intro ho
      obtain ⟨st', hb⟩ := validateBatch_eq_ok.mp ho
      exact validateEach_eq_ok.mpr (each_of_visitAll hb rfl (hcl ⟨out, ho⟩))
    · intro ho
      have hfresh : ∀ k ∈ out, ResidueAgrees (ScopeStack.lookup {}) (bindings k) :=
        fun k _ x s hx => by cases hx
      obtain ⟨st', hb⟩ := visitAll_of_each (validateEach_eq_ok.mp ho) (hc out ho) rfl hfresh
      exact validateBatch_eq_ok.mpr ⟨st', hb⟩

/-- `x = 1`, and a second root that reads `x`. -/
def leakingBatch : List ExecNode :=
  [.noOP {} [({ name := "x" }, .constantValue {} (.i32 1))] false,
    .noOP {} [({ name := "y" }, .ref {} "x")] false]

/-- The batch is accepted although its second root is rejected on its own. -/
theorem leakingBatch_validateBatch_ne_validateEach :
    ¬ ∀ (reg : FunctionRegistry) (nodes : List ExecNode), nodes ≠ [] →
      ∀ out, validateBatch reg nodes = .ok out ↔ validateEach reg nodes = .ok out := by
  intro h
  have hb : (validateBatch {} leakingBatch).isOk = true := by decide
  have he : (validateEach {} leakingBatch).isOk = false := by decide
  rcases ho : validateBatch {} leakingBatch with e | out
  · rw [ho] at hb
    cases hb
  · rw [(h {} leakingBatch (by simp [leakingBatch]) out).mp ho] at he
    cases he

end Validator

end JitFusion
