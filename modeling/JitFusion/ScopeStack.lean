/-
# `ScopeStack`

The stack of name tables both visitors thread through a program (`src/scope_stack.h`): the
validator keeps types in it, the code generator keeps SSA values.

A table is an `AList`, so a name has one entry per scope by construction, and the stack keeps
its innermost scope in a field of its own, so it is never empty.
-/
import Mathlib.Data.List.AList

namespace JitFusion

/-! ## 1. Scopes and the stack -/

/-- One `std::unordered_map<std::string, V>`. -/
abbrev Scope (V : Type) := AList (fun _ : String => V)

/-- The stack, innermost scope first. -/
structure ScopeStack (V : Type) where
  top : Scope V := ∅
  outer : List (Scope V) := []

namespace ScopeStack

variable {V W : Type}

/-- The first scope of a list that knows the name, and its entry. -/
def lookupIn (name : String) : List (Scope V) → Option V
  | [] => none
  | s :: rest => (s.lookup name).orElse fun _ => lookupIn name rest

def pushScope (st : ScopeStack V) : ScopeStack V := ⟨∅, st.top :: st.outer⟩

/-- `stack_.pop_back()`.  Pushes and pops are balanced, so the last scope is never popped. -/
def popScope (st : ScopeStack V) : ScopeStack V :=
  match st.outer with
  | [] => ⟨∅, []⟩
  | s :: rest => ⟨s, rest⟩

def set (st : ScopeStack V) (name : String) (value : V) : ScopeStack V :=
  { st with top := st.top.insert name value }

def lookup (st : ScopeStack V) (name : String) : Option V :=
  lookupIn name (st.top :: st.outer)

/-- Whether some scope of the list knows the name. -/
def knownIn (name : String) (scopes : List (Scope V)) : Bool :=
  (lookupIn name scopes).isSome

/-- The entries of the innermost scope whose name an outer scope knows too. -/
def getShadowed (st : ScopeStack V) : Scope V :=
  st.top.entries.foldr
    (fun e shadowed => if knownIn e.1 st.outer then shadowed.insert e.1 e.2 else shadowed) ∅

/-! ## 2. What each operation does to lookups -/

@[simp] theorem lookup_empty (name : String) : (⟨∅, []⟩ : ScopeStack V).lookup name = none := rfl

@[simp] theorem lookup_pushScope (st : ScopeStack V) (name : String) :
    st.pushScope.lookup name = st.lookup name := by
  simp [lookup, pushScope, lookupIn]

@[simp] theorem pushScope_outer (st : ScopeStack V) : st.pushScope.outer = st.top :: st.outer := rfl

@[simp] theorem popScope_pushScope (st : ScopeStack V) : st.pushScope.popScope = st := rfl

@[simp] theorem set_top (st : ScopeStack V) (name : String) (v : V) :
    (st.set name v).top = st.top.insert name v := rfl

@[simp] theorem set_outer (st : ScopeStack V) (name : String) (v : V) :
    (st.set name v).outer = st.outer := rfl

/-- Popping a scope off a stack whose outer scopes are those of `st` gives `st` back. -/
theorem popScope_of_outer {st st' : ScopeStack V} (h : st'.outer = st.pushScope.outer) :
    st'.popScope = st := by
  simp only [pushScope_outer] at h
  simp [popScope, h]

@[simp] theorem lookup_set (st : ScopeStack V) (name : String) (v : V) :
    (st.set name v).lookup name = some v := by
  simp [lookup, set, lookupIn]

theorem lookup_set_ne (st : ScopeStack V) {name name' : String} (v : V) (h : name' ≠ name) :
    (st.set name v).lookup name' = st.lookup name' := by
  simp [lookup, set, lookupIn, AList.lookup_insert_ne h]

/-- A name outside the innermost scope is looked up in the outer ones. -/
theorem lookup_eq_or (st : ScopeStack V) (name : String) :
    st.lookup name = (st.top.lookup name).orElse fun _ => lookupIn name st.outer := rfl

/-- Filtering a table while it is rebuilt: the lookup in the rebuilt table. -/
theorem lookup_foldr_insert (p : String → Bool) (name : String)
    (l : List (Sigma fun _ : String => V)) (h : l.NodupKeys) :
    AList.lookup name (l.foldr (fun e acc => if p e.1 then acc.insert e.1 e.2 else acc)
      (∅ : Scope V)) = if p name then List.dlookup name l else none := by
  induction l with
  | nil => simp
  | cons e l ih =>
    replace ih := ih (List.nodupKeys_cons.mp h).2
    simp only [List.foldr_cons]
    by_cases hn : name = e.1
    · subst hn
      by_cases hp : p e.1 = true
      · rw [if_pos hp, if_pos hp, AList.lookup_insert, List.dlookup_cons_eq]
      · rw [if_neg hp, ih, if_neg hp, if_neg hp]
    · have hcons : List.dlookup name (e :: l) = List.dlookup name l :=
        List.dlookup_cons_ne l e hn
      rw [hcons, ← ih]
      split
      · rw [AList.lookup_insert_ne hn]
      · rfl

/-- Writing the entries of one table over another: the lookup in the result. -/
theorem lookup_foldl_insert (f : V → W) (name : String) (l : List (Sigma fun _ : String => V))
    (acc : Scope W) (h : l.NodupKeys) :
    (l.foldl (fun acc e => acc.insert e.1 (f e.2)) acc).lookup name =
      ((List.dlookup name l).map f).or (acc.lookup name) := by
  induction l generalizing acc with
  | nil => simp
  | cons e l ih =>
    have hl := List.nodupKeys_cons.mp h
    rw [List.foldl_cons, ih _ hl.2]
    by_cases hn : name = e.1
    · subst hn
      have hne : List.dlookup e.1 l = none := List.dlookup_eq_none.mpr hl.1
      rw [List.dlookup_cons_eq, hne, AList.lookup_insert]
      rfl
    · rw [List.dlookup_cons_ne l e hn, AList.lookup_insert_ne hn]

/-- **What `getShadowed` collects**: the innermost entry of a name, if an outer scope knows
the name too. -/
theorem lookup_getShadowed (st : ScopeStack V) (name : String) :
    st.getShadowed.lookup name =
      if knownIn name st.outer then st.top.lookup name else none :=
  lookup_foldr_insert (fun n => knownIn n st.outer) name st.top.entries st.top.nodupKeys

end ScopeStack

end JitFusion
