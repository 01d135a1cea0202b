/-
# Operator precedence

The grammar of `athena/parser.yy` gives a text several trees; its `%left` declarations choose one.
Bison resolves a conflict between an operator that has been read and the next token by their
levels: it reduces if the operator that has been read binds tighter, or as tightly, and shifts
otherwise.  `parseTerm` is the shift-reduce machine that does this for `term`, with a frame for each
construct that has been begun.

* `TermYields.found`: a tree in which every operand binds tightly enough for its place
  (`Term.Resolved`) is found behind every stack that may get it.
* `Config.Reads.run`: what the machine has read is made of such trees.
* `TermYields.runs`: it reads every text that has a tree at all.
* `precedence_parses`: so it finds the resolved tree of a text, if the text has a tree.
-/
import JitFusion.Grammar
import JitFusion.Lib.Precedence

namespace JitFusion

namespace Athena

open Precedence (reduce closeAll Looser base)

/-! ## 1. The levels -/

/-- The operators between two operands. -/
inductive Infix
  | op (op : BinaryOPType)
  | in_
  deriving DecidableEq, Repr

/-- The lines of `%left`, from the loosest. -/
def BinaryOPType.precedence : BinaryOPType → Nat
  | .kOr => 1
  | .kAnd => 2
  | .kBitwiseOr => 4
  | .kBitwiseXor => 5
  | .kBitwiseAnd => 6
  | .kEqual | .kNotEqual => 7
  | .kLess | .kLessEqual | .kLarge | .kLargeEqual => 8
  | .kBitwiseShiftLeft | .kBitwiseShiftRight => 9
  | .kSub | .kAdd => 10
  | .kMul | .kDiv | .kMod => 11

/-- The level of `NEG`, that of the prefix operators. -/
def kNeg : Nat := 12

/-- The level of what is not an operator. -/
def kAtom : Nat := 13

namespace Infix

def precedence : Infix → Nat
  | op o => BinaryOPType.precedence o
  | in_ => 3

def sym : Infix → Sym
  | op o => BinaryOPType.sym o
  | in_ => .in_

def term (loc : Location) (left right : Term) : Infix → Term
  | op o => .binary loc o left right
  | in_ => .in_ loc left right

end Infix

/-- The level of the operator at the root. -/
def Term.level : Term → Nat
  | .unary _ _ _ => kNeg
  | .binary _ op _ _ => BinaryOPType.precedence op
  | .in_ _ _ _ => Infix.in_.precedence
  | _ => kAtom

mutual

/-- **Every operand binds tightly enough for its place**: a right operand more tightly than the
operator, a left operand at least as tightly, the operand of a prefix operator at least as tightly
as a prefix operator. -/
def Term.Resolved : Term → Prop
  | .literal _ _ | .list _ _ | .identifier _ _ | .entryArg _ | .execCtx _ | .output _ => True
  | .paren t => t.Resolved
  | .unary _ _ t => t.Resolved ∧ kNeg ≤ t.level
  | .binary _ op left right => (left.Resolved ∧ right.Resolved) ∧
    BinaryOPType.precedence op ≤ left.level ∧ BinaryOPType.precedence op < right.level
  | .in_ _ left right => (left.Resolved ∧ right.Resolved) ∧
    Infix.in_.precedence ≤ left.level ∧ Infix.in_.precedence < right.level
  | .if_ _ args | .call _ _ args | .switch_ _ args => argsResolved args

def argsResolved : List Term → Prop
  | [] => True
  | t :: args => t.Resolved ∧ argsResolved args

end

/-! ## 2. The machine -/

/-- The constructs with an argument list. -/
inductive Head
  | if_ | switch_
  | call (name : String)
  deriving DecidableEq, Repr

def Head.token : Head → Token
  | if_ => .sym .if_
  | switch_ => .sym .switch_
  | call name => .identifier name

def Head.term (loc : Location) (args : List Term) : Head → Term
  | if_ => .if_ loc args
  | switch_ => .switch_ loc args
  | call name => .call loc name args

/-- From the beginning of one location to the end of another. -/
def join (first last : Location) : Location :=
  { first with endLine := last.endLine, endCol := last.endCol }

/-- A term that has been read, with its location. -/
structure Operand where
  term : Term
  loc : Location

/-- A construct that has been begun: an operator that waits for its last operand, or a bracket.
`done` are the arguments so far. -/
inductive Frame
  | unary (op : UnaryOPType) (loc : Location)
  | infix_ (left : Operand) (op : Infix)
  | paren (loc : Location)
  | args (head : Head) (loc : Location) (done : List Term)

def Frame.rules : Precedence.Rules Frame Operand where
  level
    | .unary _ _ => kNeg
    | .infix_ _ op => op.precedence
    | .paren _ | .args _ _ _ => 0
  close
    | .unary op loc, x => ⟨.unary (join loc x.loc) op x.term, join loc x.loc⟩
    | .infix_ left op, x => ⟨op.term (join left.loc x.loc) left.term x.term, join left.loc x.loc⟩
    | .paren _, x | .args _ _ _, x => x

/-- What the machine waits for. -/
inductive Mode
  /-- The beginning of a term. -/
  | operand
  /-- What follows the term `x`. -/
  | operator (x : Operand)
  /-- The bracket of an argument list. -/
  | opening (head : Head) (loc : Location)
  /-- A constant of a list that began at `loc`, and what follows one. -/
  | element (loc : Location) (done : Option ConstantListValueType)
  | separator (loc : Location) (done : ConstantListValueType)

structure Config where
  mode : Mode := .operand
  stack : List Frame := []

/-- How a token begins a term. -/
inductive Begin
  | leaf (t : Term)
  | unary (op : UnaryOPType)
  | paren | list | args (head : Head)
  /-- The closing bracket of an empty argument list. -/
  | close
  | none

def Begin.of : Located → Begin
  | (.constant v, loc) => leaf (.literal loc v)
  | (.identifier name, loc) => leaf (.identifier loc name)
  | (.sym s, loc) =>
    match s with
    | .true_ => leaf (.literal loc (.u8 1))
    | .false_ => leaf (.literal loc (.u8 0))
    | .entryArg => leaf (.entryArg loc)
    | .execCtx => leaf (.execCtx loc)
    | .output => leaf (.output loc)
    | .plus => unary .kPlus
    | .minus => unary .kMinus
    | .not => unary .kNot
    | .bitwiseNot => unary .kBitwiseNot
    | .lparen => paren
    | .lbracket => list
    | .if_ => args .if_
    | .switch_ => args .switch_
    | .rparen => close
    | _ => none

/-- How a token goes on behind a term. -/
inductive Follow
  | infix_ (op : Infix)
  | open_ | close | comma
  | none

def Follow.of : Token → Follow
  | .sym .plus => infix_ (.op .kAdd)
  | .sym .minus => infix_ (.op .kSub)
  | .sym .star => infix_ (.op .kMul)
  | .sym .slash => infix_ (.op .kDiv)
  | .sym .modolo => infix_ (.op .kMod)
  | .sym .greaterThan => infix_ (.op .kLarge)
  | .sym .greaterThanOrEqualTo => infix_ (.op .kLargeEqual)
  | .sym .equal => infix_ (.op .kEqual)
  | .sym .lessThan => infix_ (.op .kLess)
  | .sym .lessThanOrEqualTo => infix_ (.op .kLessEqual)
  | .sym .notEqual => infix_ (.op .kNotEqual)
  | .sym .and => infix_ (.op .kAnd)
  | .sym .or => infix_ (.op .kOr)
  | .sym .bitwiseAnd => infix_ (.op .kBitwiseAnd)
  | .sym .bitwiseOr => infix_ (.op .kBitwiseOr)
  | .sym .bitwiseXor => infix_ (.op .kBitwiseXor)
  | .sym .bitwiseLeft => infix_ (.op .kBitwiseShiftLeft)
  | .sym .bitwiseRight => infix_ (.op .kBitwiseShiftRight)
  | .sym .in_ => infix_ .in_
  | .sym .lparen => open_
  | .sym .rparen => close
  | .sym .comma => comma
  | _ => none

def stepOperand (S : List Frame) (tok : Located) : Option Config :=
  match Begin.of tok with
  | .leaf t => some ⟨.operator ⟨t, tok.2⟩, S⟩
  | .unary op => some ⟨.operand, .unary op tok.2 :: S⟩
  | .paren => some ⟨.operand, .paren tok.2 :: S⟩
  | .list => some ⟨.element tok.2 none, S⟩
  | .args head => some ⟨.opening head tok.2, S⟩
  | .close =>
    match S with
    | .args (.call name) loc [] :: S =>
      some ⟨.operator ⟨.call (join loc tok.2) name [], join loc tok.2⟩, S⟩
    | _ => none
  | .none => none

def stepOperator (x : Operand) (S : List Frame) (tok : Located) : Option Config :=
  match Follow.of tok.1 with
  | .infix_ op =>
    let (S, x) := reduce Frame.rules op.precedence S x
    some ⟨.operand, .infix_ x op :: S⟩
  | .open_ =>
    match x.term with
    | .identifier loc name => some ⟨.operand, .args (.call name) loc [] :: S⟩
    | _ => none
  | .close =>
    match reduce Frame.rules 1 S x with
    | (.paren loc :: S, x) => some ⟨.operator ⟨.paren x.term, join loc tok.2⟩, S⟩
    | (.args head loc done :: S, x) =>
      some ⟨.operator ⟨head.term (join loc tok.2) (done ++ [x.term]), join loc tok.2⟩, S⟩
    | _ => none
  | .comma =>
    match reduce Frame.rules 1 S x with
    | (.args head loc done :: S, x) => some ⟨.operand, .args head loc (done ++ [x.term]) :: S⟩
    | _ => none
  | .none => none

/-- A list goes on with a constant of its type. -/
def emplaceBack : Option ConstantListValueType → ConstantValueType →
    Option ConstantListValueType
  | none, .i8 v => some (.i8 [v])
  | none, .i16 v => some (.i16 [v])
  | none, .i32 v => some (.i32 [v])
  | none, .i64 v => some (.i64 [v])
  | none, .u8 v => some (.u8 [v])
  | none, .u16 v => some (.u16 [v])
  | none, .u32 v => some (.u32 [v])
  | none, .u64 v => some (.u64 [v])
  | none, .f32 v => some (.f32 [v])
  | none, .f64 v => some (.f64 [v])
  | none, .string v => some (.string [v])
  | some (.i8 vs), .i8 v => some (.i8 (vs ++ [v]))
  | some (.i16 vs), .i16 v => some (.i16 (vs ++ [v]))
  | some (.i32 vs), .i32 v => some (.i32 (vs ++ [v]))
  | some (.i64 vs), .i64 v => some (.i64 (vs ++ [v]))
  | some (.u8 vs), .u8 v => some (.u8 (vs ++ [v]))
  | some (.u16 vs), .u16 v => some (.u16 (vs ++ [v]))
  | some (.u32 vs), .u32 v => some (.u32 (vs ++ [v]))
  | some (.u64 vs), .u64 v => some (.u64 (vs ++ [v]))
  | some (.f32 vs), .f32 v => some (.f32 (vs ++ [v]))
  | some (.f64 vs), .f64 v => some (.f64 (vs ++ [v]))
  | some (.string vs), .string v => some (.string (vs ++ [v]))
  | _, _ => none

/-- One token is shifted, after the reductions it asks for. -/
def step (c : Config) (tok : Located) : Option Config :=
  match c.mode with
  | .operand => stepOperand c.stack tok
  | .operator x => stepOperator x c.stack tok
  | .opening head loc =>
    match tok.1 with
    | .sym .lparen => some ⟨.operand, .args head loc [] :: c.stack⟩
    | _ => none
  | .element loc done =>
    match tok.1 with
    | .constant v => (emplaceBack done v).map fun l => ⟨.separator loc l, c.stack⟩
    | _ => none
  | .separator loc l =>
    match tok.1 with
    | .sym .comma => some ⟨.element loc (some l), c.stack⟩
    | .sym .rbracket =>
      some ⟨.operator ⟨.list (join loc tok.2) l, join loc tok.2⟩, c.stack⟩
    | _ => none

/-- The term that has been read. -/
def finish (c : Config) : Option Term :=
  match c.mode with
  | .operator x =>
    match reduce Frame.rules 1 c.stack x with
    | ([], x) => some x.term
    | _ => none
  | _ => none

/-- `term`, up to the token behind it. -/
def parseTerm (ts : List Located) : Option Term := (ts.foldlM step {}).bind finish

/-! ## 3. Shapes -/

theorem BinaryOPType.precedence_pos (op : BinaryOPType) : 1 ≤ BinaryOPType.precedence op := by
  cases op <;> decide

theorem Infix.precedence_pos (op : Infix) : 1 ≤ op.precedence := by
  cases op with
  | op o => exact BinaryOPType.precedence_pos o
  | in_ => decide

theorem Infix.precedence_lt (op : Infix) : op.precedence < kNeg := by
  cases op with
  | op o => cases o <;> decide
  | in_ => decide

theorem Term.level_pos (t : Term) : 1 ≤ t.level := by
  cases t with
  | binary loc op left right => exact BinaryOPType.precedence_pos op
  | _ => simp [Term.level, kNeg, kAtom, Infix.precedence]

theorem Infix.level_term (loc : Location) (left right : Term) (op : Infix) :
    (op.term loc left right).level = op.precedence := by
  cases op <;> rfl

theorem Infix.resolved_term {loc : Location} {left right : Term} {op : Infix} :
    (op.term loc left right).Resolved ↔ (left.Resolved ∧ right.Resolved) ∧
      op.precedence ≤ left.level ∧ op.precedence < right.level := by
  cases op <;> rfl

theorem Infix.yields_term (op : Infix) {left right : Term} {us vs : List Located} {l : Location}
    (h : TermYields left us) (h' : TermYields right vs) :
    TermYields (op.term (span (us ++ (.sym op.sym, l) :: vs)) left right)
      (us ++ (.sym op.sym, l) :: vs) := by
  cases op with
  | op o => exact .binary h h' rfl
  | in_ => exact .in_ h h' rfl

theorem Head.level_term (loc : Location) (args : List Term) (head : Head) :
    (head.term loc args).level = kAtom := by
  cases head <;> rfl

theorem Head.resolved_term {loc : Location} {args : List Term} {head : Head} :
    (head.term loc args).Resolved ↔ argsResolved args := by
  cases head <;> simp only [Head.term, Term.Resolved]

theorem Head.yields_term (head : Head) {args : List Term} {us ts : List Located}
    {k l r : Location} (h : ArgsYield args us)
    (hts : ts = (head.token, k) :: (.sym .lparen, l) :: us ++ [(.sym .rparen, r)]) :
    TermYields (head.term (span ts) args) ts := by
  cases head with
  | if_ => exact .if_ h hts
  | switch_ => exact .switch_ h hts
  | call name => exact .call h hts

theorem follow_operator (op : Infix) : Follow.of (.sym op.sym) = .infix_ op := by
  cases op with
  | op o => cases o <;> rfl
  | in_ => rfl

/-! ### Locations -/

theorem span_single (tok : Located) : span [tok] = tok.2 := rfl

theorem span_eq {ts : List Located} (h : ts ≠ []) :
    span ts = join (ts.head h).2 (ts.getLast h).2 := by
  rw [span, List.head?_eq_some_head h, List.getLast?_eq_some_getLast h]
  rfl

theorem span_append {us vs : List Located} (hus : us ≠ []) (hvs : vs ≠ []) :
    span (us ++ vs) = join (span us) (span vs) := by
  rw [span_eq (List.append_ne_nil_of_left_ne_nil hus vs), span_eq hus, span_eq hvs,
    List.head_append_of_ne_nil hus, List.getLast_append_of_ne_nil _ hvs]
  rfl

theorem span_operands {us vs : List Located} (tok : Located) (hus : us ≠ []) (hvs : vs ≠ []) :
    span (us ++ tok :: vs) = join (span us) (span vs) := by
  rw [span_append hus (List.cons_ne_nil tok vs), ← List.singleton_append,
    span_append (List.cons_ne_nil tok []) hvs]
  rfl

theorem span_behind (tok : Located) {us : List Located} (hus : us ≠ []) :
    span (tok :: us) = join tok.2 (span us) := by
  rw [← List.singleton_append, span_append (List.cons_ne_nil tok []) hus, span_single]

theorem span_bracket (first last : Located) (us : List Located) :
    span (first :: us ++ [last]) = join first.2 last.2 := by
  rw [span_append (List.cons_ne_nil first us) (List.cons_ne_nil last []), span_eq
    (List.cons_ne_nil first us), span_single]
  rfl

theorem TermYields.ne_nil {t : Term} {ts : List Located} (h : TermYields t ts) : ts ≠ [] := by
  cases h <;> simp_all

/-! ### Lists of constants -/

def elementsOf : Option ConstantListValueType → List ConstantValueType
  | none => []
  | some l => ConstantListValueType.elements l

theorem elements_emplaceBack {done : Option ConstantListValueType} {v : ConstantValueType}
    {l : ConstantListValueType} (h : emplaceBack done v = some l) :
    ConstantListValueType.elements l = elementsOf done ++ [v] := by
  cases done with
  | none =>
    cases v <;>
      · cases h
        rfl
  | some vs =>
    cases vs <;> cases v <;> first | cases h; exact List.map_append | cases h

/-! ## 4. A resolved tree is found -/

/-- The frame may get a last operand of level `n`. -/
def Frame.Admits (n : Nat) : Frame → Prop
  | .unary _ _ => kNeg ≤ n
  | .infix_ _ op => op.precedence < n
  | .paren _ | .args _ _ _ => True

def Admits (n : Nat) (S : List Frame) : Prop := ∀ f ∈ S.head?, f.Admits n

theorem admits_cons {n : Nat} {f : Frame} {S : List Frame} : Admits n (f :: S) ↔ f.Admits n := by
  simp [Admits]

theorem admits_unary {n : Nat} {op : UnaryOPType} {loc : Location} {S : List Frame}
    (h : kNeg ≤ n) : Admits n (.unary op loc :: S) :=
  admits_cons.mpr h

theorem admits_operator {n : Nat} {left : Operand} {op : Infix} {S : List Frame}
    (h : op.precedence < n) : Admits n (.infix_ left op :: S) :=
  admits_cons.mpr h

theorem admits_bracket {n : Nat} {f : Frame} {S : List Frame} (hf : Frame.rules.level f = 0) :
    Admits n (f :: S) := by
  refine admits_cons.mpr ?_
  cases f with
  | unary op loc => cases hf
  | infix_ left op => exact absurd hf (Nat.ne_of_gt op.precedence_pos)
  | paren loc => trivial
  | args head loc done => trivial

theorem Admits.mono {n m : Nat} {S : List Frame} (h : Admits n S) (hnm : n ≤ m) :
    Admits m S := by
  intro f hf
  have hn := h f hf
  cases f with
  | unary op loc => exact Nat.le_trans hn hnm
  | infix_ left op => exact Nat.lt_of_lt_of_le hn hnm
  | paren loc => trivial
  | args head loc done => trivial

/-- Prefix operators, and what binds more tightly, may stand anywhere. -/
theorem admits_neg (S : List Frame) : Admits kNeg S := by
  intro f _
  cases f with
  | unary op loc => exact Nat.le_refl _
  | infix_ left op => exact op.precedence_lt
  | paren loc => trivial
  | args head loc done => trivial

theorem admits_atom (S : List Frame) : Admits kAtom S := (admits_neg S).mono (by decide)

theorem admits_precedence {op : Infix} {S : List Frame} :
    Admits op.precedence S ↔ Looser Frame.rules op.precedence S := by
  have hframe (f : Frame) : f.Admits op.precedence ↔ Frame.rules.level f < op.precedence := by
    cases f with
    | unary o loc =>
      exact ⟨fun h => absurd op.precedence_lt (Nat.not_lt.mpr h), fun h => Nat.le_of_lt h⟩
    | infix_ left o => rfl
    | paren loc => exact iff_of_true trivial op.precedence_pos
    | args head loc done => exact iff_of_true trivial op.precedence_pos
  simp only [Admits, Looser, hframe]

/-! ### Runs -/

theorem run_cons {c c' : Config} {tok : Located} (h : step c tok = some c') (ts : List Located) :
    (tok :: ts).foldlM step c = ts.foldlM step c' := by
  rw [List.foldlM_cons, h]
  rfl

theorem run_append {c c' : Config} {us : List Located} (h : us.foldlM step c = some c')
    (vs : List Located) : (us ++ vs).foldlM step c = vs.foldlM step c' := by
  rw [List.foldlM_append, h]
  rfl

theorem step_unary (op : UnaryOPType) (l : Location) (S : List Frame) :
    step ⟨.operand, S⟩ (.sym (UnaryOPType.sym op), l) = some ⟨.operand, .unary op l :: S⟩ := by
  cases op <;> rfl

theorem step_operator {op : Infix} {S S' : List Frame} {x x' : Operand}
    (h : Precedence.reduce Frame.rules op.precedence S x = (S', x')) (l : Location) :
    step ⟨.operator x, S⟩ (.sym op.sym, l) = some ⟨.operand, .infix_ x' op :: S'⟩ := by
  simp only [step, stepOperator, follow_operator, h]

theorem step_comma {head : Head} {loc : Location} {done : List Term} {S S' : List Frame}
    {x x' : Operand}
    (h : Precedence.reduce Frame.rules 1 S x = (.args head loc done :: S', x')) (l : Location) :
    step ⟨.operator x, S⟩ (.sym .comma, l) =
      some ⟨.operand, .args head loc (done ++ [x'.term]) :: S'⟩ := by
  simp only [step, stepOperator, Follow.of, h]

theorem step_paren {loc : Location} {S S' : List Frame} {x x' : Operand}
    (h : Precedence.reduce Frame.rules 1 S x = (.paren loc :: S', x')) (r : Location) :
    step ⟨.operator x, S⟩ (.sym .rparen, r) =
      some ⟨.operator ⟨.paren x'.term, join loc r⟩, S'⟩ := by
  simp only [step, stepOperator, Follow.of, h]

theorem step_args {head : Head} {loc : Location} {done : List Term} {S S' : List Frame}
    {x x' : Operand}
    (h : Precedence.reduce Frame.rules 1 S x = (.args head loc done :: S', x')) (r : Location) :
    step ⟨.operator x, S⟩ (.sym .rparen, r) =
      some ⟨.operator ⟨head.term (join loc r) (done ++ [x'.term]), join loc r⟩, S'⟩ := by
  simp only [step, stepOperator, Follow.of, h]

theorem run_open (head : Head) (k l : Location) (ts : List Located) (S : List Frame) :
    ((head.token, k) :: (.sym .lparen, l) :: ts).foldlM step ⟨.operand, S⟩ =
      ts.foldlM step ⟨.operand, .args head k [] :: S⟩ := by
  cases head <;> rfl

theorem ElementsYield.run_map {T : Type} {f : T → ConstantValueType}
    {g : List T → ConstantListValueType} {ws : List ConstantValueType} {es : List Located}
    (hnext : ∀ vs v, emplaceBack (some (g vs)) (f v) = some (g (vs ++ [v])))
    (h : ElementsYield ws es) (loc : Location) (S : List Frame) {vs : List T}
    (hws : ws = vs.map f) {d : Option ConstantListValueType} (done : List T)
    (hd : ∀ v, emplaceBack d (f v) = some (g (done ++ [v]))) :
    es.foldlM step ⟨.element loc d, S⟩ = some ⟨.separator loc (g (done ++ vs)), S⟩ := by
  have hstep {v : T} {k : Location} : step ⟨.element loc d, S⟩ (.constant (f v), k) =
      some ⟨.separator loc (g (done ++ [v])), S⟩ := by
    simp only [step, hd, Option.map_some]
  induction h generalizing vs d done with
  | one =>
    obtain ⟨v, us, rfl, rfl, hus⟩ := List.map_eq_cons_iff.mp hws.symm
    obtain rfl := List.map_eq_nil_iff.mp hus
    exact run_cons hstep []
  | cons h ih =>
    obtain ⟨v, us, rfl, rfl, rfl⟩ := List.map_eq_cons_iff.mp hws.symm
    rw [run_cons hstep, run_cons rfl, ih rfl (done ++ [v]) (hnext _)]
    · rw [List.append_assoc]
      rfl
    · simp only [step, hnext, Option.map_some, implies_true]

theorem ElementsYield.run {l : ConstantListValueType} {es : List Located}
    (h : ElementsYield (ConstantListValueType.elements l) es) (loc : Location)
    (S : List Frame) : es.foldlM step ⟨.element loc none, S⟩ = some ⟨.separator loc l, S⟩ := by
  cases l <;> exact h.run_map (fun _ _ => rfl) loc S rfl [] fun _ => rfl

/-! ### Terms -/

/-- From the stack `S` the machine reads `t`, and what it has begun behind `S` binds at least as
tightly as `t` and makes `t` of the operand. -/
def Found (S : List Frame) (t : Term) (ts : List Located) : Prop :=
  ∃ S' u, ts.foldlM step ⟨.operand, S⟩ = some ⟨.operator u, S' ++ S⟩ ∧
    (∀ f ∈ S', t.level ≤ Frame.rules.level f) ∧ Precedence.closeAll Frame.rules S' u = ⟨t, span ts⟩

/-- A looser operator, or a bracket, finds the term closed. -/
theorem Found.reduce {S : List Frame} {t : Term} {ts : List Located} {q : Nat}
    (h : Found S t ts) (hq : q ≤ t.level) (hS : Looser Frame.rules q S) :
    ∃ S' u, ts.foldlM step ⟨.operand, S⟩ = some ⟨.operator u, S'⟩ ∧
      Precedence.reduce Frame.rules q S' u = (S, ⟨t, span ts⟩) := by
  obtain ⟨S', u, hrun, htight, hclose⟩ := h
  refine ⟨S' ++ S, u, hrun, ?_⟩
  rw [Precedence.reduce_append (fun f hf => Nat.le_trans hq (htight f hf)) hS, hclose]

theorem found_leaf {S : List Frame} {t : Term} {tok : Located}
    (h : step ⟨.operand, S⟩ tok = some ⟨.operator ⟨t, tok.2⟩, S⟩) : Found S t [tok] :=
  ⟨[], ⟨t, tok.2⟩, run_cons h [], fun _ hf => absurd hf List.not_mem_nil, rfl⟩

/-- What is read in brackets leaves nothing behind the stack. -/
theorem found_closed {S : List Frame} {t : Term} {ts : List Located} {loc : Location}
    (hspan : span ts = loc) (h : ts.foldlM step ⟨.operand, S⟩ = some ⟨.operator ⟨t, loc⟩, S⟩) :
    Found S t ts :=
  ⟨[], ⟨t, loc⟩, h, fun _ hf => absurd hf List.not_mem_nil, hspan ▸ rfl⟩

theorem Found.unary {S : List Frame} {op : UnaryOPType} {t : Term} {us : List Located}
    {l : Location} (h : Found (.unary op l :: S) t us) (hlevel : kNeg ≤ t.level) (hne : us ≠ []) :
    Found S (.unary (span ((.sym (UnaryOPType.sym op), l) :: us)) op t)
      ((.sym (UnaryOPType.sym op), l) :: us) := by
  obtain ⟨S', u, hrun, htight, hclose⟩ := h
  refine ⟨S' ++ [.unary op l], u, ?_, ?_, ?_⟩
  · rw [run_cons (step_unary op l S), hrun, List.append_assoc]
    rfl
  · intro f hf
    rcases List.mem_append.mp hf with hf | hf
    · exact Nat.le_trans hlevel (htight f hf)
    · rw [List.mem_singleton.mp hf]
      exact Nat.le_refl _
  · rw [Precedence.closeAll_append, hclose, span_behind _ hne]
    rfl

theorem Found.infix_ {S : List Frame} (op : Infix) {left right : Term} {us vs : List Located}
    {l : Location} (hleft : Found S left us)
    (hright : Found (.infix_ ⟨left, span us⟩ op :: S) right vs)
    (hl : op.precedence ≤ left.level) (hr : op.precedence < right.level)
    (hS : Admits op.precedence S) (hus : us ≠ []) (hvs : vs ≠ []) :
    Found S (op.term (span (us ++ (.sym op.sym, l) :: vs)) left right)
      (us ++ (.sym op.sym, l) :: vs) := by
  obtain ⟨S₁, u₁, hrun₁, hreduce⟩ := hleft.reduce hl (admits_precedence.mp hS)
  obtain ⟨S', u, hrun, htight, hclose⟩ := hright
  refine ⟨S' ++ [.infix_ ⟨left, span us⟩ op], u, ?_, ?_, ?_⟩
  · rw [run_append hrun₁, run_cons (step_operator hreduce l), hrun, List.append_assoc]
    rfl
  · intro f hf
    rw [Infix.level_term]
    rcases List.mem_append.mp hf with hf | hf
    · exact Nat.le_trans (Nat.le_of_lt hr) (htight f hf)
    · rw [List.mem_singleton.mp hf]
      exact Nat.le_refl _
  · rw [Precedence.closeAll_append, hclose, span_operands _ hus hvs]
    rfl

/-- A term in brackets is closed by the bracket. -/
theorem Found.inside {S : List Frame} {f : Frame} {t : Term} {ts : List Located}
    (h : Found (f :: S) t ts) (hf : Frame.rules.level f = 0) :
    ∃ S' u, ts.foldlM step ⟨.operand, f :: S⟩ = some ⟨.operator u, S'⟩ ∧
      Precedence.reduce Frame.rules 1 S' u = (f :: S, ⟨t, span ts⟩) :=
  h.reduce t.level_pos (Precedence.looser_cons.mpr (hf ▸ Nat.one_pos))

theorem Found.paren {S : List Frame} {t : Term} {us : List Located} {l r : Location}
    (h : Found (.paren l :: S) t us) :
    Found S (.paren t) ((.sym .lparen, l) :: us ++ [(.sym .rparen, r)]) := by
  obtain ⟨S', u, hrun, hreduce⟩ := h.inside rfl
  refine found_closed (span_bracket _ _ us) ?_
  rw [List.cons_append, run_cons rfl, run_append hrun, run_cons (step_paren hreduce r)]
  rfl

theorem run_list {vs : ConstantListValueType} {es : List Located} {l r : Location}
    (h : ElementsYield (ConstantListValueType.elements vs) es) (S : List Frame) :
    ((Token.sym .lbracket, l) :: es ++ [(Token.sym .rbracket, r)]).foldlM step ⟨.operand, S⟩ =
      some ⟨.operator ⟨.list (join l r) vs, join l r⟩, S⟩ := by
  rw [List.cons_append, run_cons rfl, run_append (h.run l S)]
  rfl

/-- A construct with arguments, whose arguments are found. -/
theorem found_args {S : List Frame} (head : Head) {args : List Term} {us : List Located}
    {k l r : Location} (h : (us ++ [(Token.sym .rparen, r)]).foldlM step
      ⟨.operand, .args head k [] :: S⟩ =
        some ⟨.operator ⟨head.term (join k r) args, join k r⟩, S⟩) :
    Found S (head.term
        (span ((head.token, k) :: (.sym .lparen, l) :: us ++ [(.sym .rparen, r)])) args)
      ((head.token, k) :: (.sym .lparen, l) :: us ++ [(.sym .rparen, r)]) := by
  rw [span_bracket]
  refine found_closed (span_bracket _ _ _) ?_
  rw [List.cons_append, List.cons_append, run_open]
  exact h

mutual

/-- **A resolved term is found** behind every stack that may get it. -/
theorem TermYields.found {t : Term} {ts : List Located} : TermYields t ts → t.Resolved →
    ∀ {S : List Frame}, Admits t.level S → Found S t ts
  | .constant, _, _, _ => found_leaf rfl
  | .true_, _, _, _ => found_leaf rfl
  | .false_, _, _, _ => found_leaf rfl
  | .identifier, _, _, _ => found_leaf rfl
  | .entryArg, _, _, _ => found_leaf rfl
  | .execCtx, _, _, _ => found_leaf rfl
  | .output, _, _, _ => found_leaf rfl
  | .list h hts, _, S, _ => by
    subst hts
    rw [span_bracket]
    exact found_closed (span_bracket _ _ _) (run_list h S)
  | .paren h, hr, S, _ => (h.found hr (admits_bracket rfl)).paren
  | .unary h hts, hr, S, _ => by
    subst hts
    obtain ⟨ht, hlevel⟩ := hr
    exact (h.found ht (admits_unary hlevel)).unary hlevel h.ne_nil
  | .binary h h' hts, hr, S, hS => by
    subst hts
    obtain ⟨⟨hleft, hright⟩, hl, hr⟩ := hr
    exact Found.infix_ (.op _) (h.found hleft (hS.mono hl))
      (h'.found hright (admits_operator hr)) hl hr hS h.ne_nil h'.ne_nil
  | .in_ h h' hts, hr, S, hS => by
    subst hts
    obtain ⟨⟨hleft, hright⟩, hl, hr⟩ := hr
    exact Found.infix_ .in_ (h.found hleft (hS.mono hl))
      (h'.found hright (admits_operator hr)) hl hr hS h.ne_nil h'.ne_nil
  | .if_ h hts, hr, S, _ => by
    subst hts
    exact found_args .if_ (h.found hr _ _ _ [] S)
  | .switch_ h hts, hr, S, _ => by
    subst hts
    exact found_args .switch_ (h.found hr _ _ _ [] S)
  | .call h hts, hr, S, _ => by
    subst hts
    exact found_args (.call _) (h.found hr _ _ _ [] S)
  | .callNone hts, _, S, _ => by
    subst hts
    exact found_closed rfl rfl

/-- **Resolved arguments are found**, up to the bracket behind them. -/
theorem ArgsYield.found {args : List Term} {ts : List Located} : ArgsYield args ts →
    argsResolved args → ∀ (head : Head) (loc r : Location) (done : List Term) (S : List Frame),
      (ts ++ [(Token.sym .rparen, r)]).foldlM step ⟨.operand, .args head loc done :: S⟩ =
        some ⟨.operator ⟨head.term (join loc r) (done ++ args), join loc r⟩, S⟩
  | .one h, hr, head, loc, r, done, S => by
    obtain ⟨S', u, hrun, hreduce⟩ :=
      (h.found hr.1 (S := .args head loc done :: S) (admits_bracket rfl)).inside rfl
    rw [run_append hrun, run_cons (step_args hreduce r)]
    rfl
  | .cons (t := t) h h', hr, head, loc, r, done, S => by
    obtain ⟨S', u, hrun, hreduce⟩ :=
      (h.found hr.1 (S := .args head loc done :: S) (admits_bracket rfl)).inside rfl
    have hrest := h'.found hr.2 head loc r (done ++ [t]) S
    rw [List.append_assoc] at hrest
    rw [List.append_assoc, run_append hrun, List.cons_append, run_cons (step_comma hreduce _)]
    exact hrest

end

/-! ## 5. What is found is a resolved tree -/

/-- The operand is a resolved tree of the tokens. -/
structure Operand.Reads (x : Operand) (ts : List Located) : Prop where
  yields : TermYields x.term ts
  resolved : x.term.Resolved
  loc : x.loc = span ts

/-- The arguments up to the last comma. -/
inductive DoneYield : List Term → List Located → Prop
  | nil : DoneYield [] []
  | snoc {done ds t ts l} (h : DoneYield done ds) (ht : TermYields t ts) (hr : t.Resolved) :
    DoneYield (done ++ [t]) (ds ++ ts ++ [(.sym .comma, l)])

/-- The stack is what has been read of a text: an infix operator has a left operand that binds
tightly enough, and what was begun before it is looser. -/
inductive StackReads : List Frame → List Located → Prop
  | nil : StackReads [] []
  | unary {S us op l} (h : StackReads S us) :
    StackReads (.unary op l :: S) (us ++ [(.sym (UnaryOPType.sym op), l)])
  | infix_ {S us left ts op l} (h : StackReads S us) (hleft : left.Reads ts)
    (hlevel : op.precedence ≤ left.term.level) (hloose : Looser Frame.rules op.precedence S) :
    StackReads (.infix_ left op :: S) (us ++ ts ++ [(.sym op.sym, l)])
  | paren {S us l} (h : StackReads S us) :
    StackReads (.paren l :: S) (us ++ [(.sym .lparen, l)])
  | args {S us head k l done ds} (h : StackReads S us) (hdone : DoneYield done ds) :
    StackReads (.args head k done :: S)
      (us ++ (head.token, k) :: (.sym .lparen, l) :: ds)

inductive Config.Reads : Config → List Located → Prop
  | operand {S us} (h : StackReads S us) : Config.Reads ⟨.operand, S⟩ us
  | operator {S us x ts} (h : StackReads S us) (hx : x.Reads ts) (hatom : x.term.level = kAtom) :
    Config.Reads ⟨.operator x, S⟩ (us ++ ts)
  | opening {S us head loc} (h : StackReads S us) :
    Config.Reads ⟨.opening head loc, S⟩ (us ++ [(head.token, loc)])
  | first {S us loc} (h : StackReads S us) :
    Config.Reads ⟨.element loc none, S⟩ (us ++ [(.sym .lbracket, loc)])
  | element {S us loc vs es l} (h : StackReads S us)
    (hes : ElementsYield (ConstantListValueType.elements vs) es) :
    Config.Reads ⟨.element loc (some vs), S⟩
      (us ++ (.sym .lbracket, loc) :: es ++ [(.sym .comma, l)])
  | separator {S us loc vs es} (h : StackReads S us)
    (hes : ElementsYield (ConstantListValueType.elements vs) es) :
    Config.Reads ⟨.separator loc vs, S⟩ (us ++ (.sym .lbracket, loc) :: es)

theorem ElementsYield.snoc {vs : List ConstantValueType} {es : List Located}
    (h : ElementsYield vs es) (l : Location) (v : ConstantValueType) (loc : Location) :
    ElementsYield (vs ++ [v]) (es ++ [(.sym .comma, l)] ++ [(.constant v, loc)]) := by
  induction h with
  | one => exact .cons .one
  | cons h ih => exact .cons ih

theorem DoneYield.eq_nil {done : List Term} {ds : List Located} (h : DoneYield done ds)
    (hdone : done = []) : ds = [] := by
  cases h with
  | nil => rfl
  | snoc h ht hr => exact absurd hdone (List.append_ne_nil_of_right_ne_nil _ (List.cons_ne_nil _ _))

theorem DoneYield.append {done args : List Term} {ds us : List Located} (h : DoneYield done ds)
    (hargs : ArgsYield args us) : ArgsYield (done ++ args) (ds ++ us) := by
  induction h generalizing args us with
  | nil => exact hargs
  | @snoc done ds t ts l h ht hr ih =>
    have hrest := ih (.cons (l := l) ht hargs)
    simpa only [List.append_assoc, List.singleton_append] using hrest

theorem DoneYield.resolved {done args : List Term} {ds : List Located} (h : DoneYield done ds)
    (hargs : argsResolved args) : argsResolved (done ++ args) := by
  induction h generalizing args with
  | nil => exact hargs
  | snoc h ht hr ih =>
    rw [List.append_assoc]
    exact ih ⟨hr, hargs⟩

/-! ### What a token means -/

def Begin.Means (tok : Located) : Begin → Prop
  | .leaf t => TermYields t [tok] ∧ t.Resolved ∧ t.level = kAtom
  | .unary op => tok.1 = .sym (UnaryOPType.sym op)
  | .paren => tok.1 = .sym .lparen
  | .list => tok.1 = .sym .lbracket
  | .args head => tok.1 = head.token
  | .close => tok.1 = .sym .rparen
  | .none => True

theorem begin_means (tok : Located) : (Begin.of tok).Means tok := by
  obtain ⟨tok, loc⟩ := tok
  cases tok with
  | constant v => exact ⟨.constant, trivial, rfl⟩
  | identifier name => exact ⟨.identifier, trivial, rfl⟩
  | sym s =>
    cases s with
    | true_ => exact ⟨.true_, trivial, rfl⟩
    | false_ => exact ⟨.false_, trivial, rfl⟩
    | entryArg => exact ⟨.entryArg, trivial, rfl⟩
    | execCtx => exact ⟨.execCtx, trivial, rfl⟩
    | output => exact ⟨.output, trivial, rfl⟩
    | plus | minus | not | bitwiseNot | lparen | lbracket | if_ | switch_ | rparen => rfl
    | _ => trivial

def Follow.Means (tok : Token) : Follow → Prop
  | .infix_ op => tok = .sym op.sym
  | .open_ => tok = .sym .lparen
  | .close => tok = .sym .rparen
  | .comma => tok = .sym .comma
  | .none => True

theorem follow_means (tok : Token) : (Follow.of tok).Means tok := by
  cases tok with
  | constant v => trivial
  | identifier name => trivial
  | sym s => cases s <;> trivial

/-! ### Reductions and steps -/

/-- What a reduction before an operator of level `q` keeps. -/
def Reducing (q : Nat) (read : List Located) (S : List Frame) (x : Operand) : Prop :=
  ∃ us vs, read = us ++ vs ∧ StackReads S us ∧ x.Reads vs ∧ q ≤ x.term.level ∧
    Admits x.term.level S

theorem Reducing.close {q : Nat} {read : List Located} {f : Frame} {S : List Frame} {x : Operand}
    (hq : 1 ≤ q) (hf : q ≤ Frame.rules.level f) (h : Reducing q read (f :: S) x) :
    Reducing q read S (Frame.rules.close f x) := by
  obtain ⟨us, vs, rfl, hS, hx, hlevel, hadm⟩ := h
  have hvs := hx.yields.ne_nil
  rw [admits_cons] at hadm
  cases hS with
  | @unary S us op l hS =>
    refine ⟨us, (.sym (UnaryOPType.sym op), l) :: vs, List.append_assoc _ _ _, hS,
      ⟨?_, ⟨hx.resolved, hadm⟩, ?_⟩, hf, admits_neg S⟩
    · have h := @TermYields.unary op _ _ _ l hx.yields rfl
      rw [span_behind _ hvs, ← hx.loc] at h
      exact h
    · rw [span_behind _ hvs, ← hx.loc]
      rfl
  | @infix_ S us left ts op l hS hleft hop hloose =>
    have hts := hleft.yields.ne_nil
    have hlevel : ((op.term (join left.loc x.loc) left.term x.term)).level = op.precedence :=
      Infix.level_term _ _ _ op
    refine ⟨us, ts ++ (.sym op.sym, l) :: vs, ?_, hS,
      ⟨?_, Infix.resolved_term.mpr ⟨⟨hleft.resolved, hx.resolved⟩, hop, hadm⟩, ?_⟩, ?_, ?_⟩
    · simp only [List.append_assoc, List.cons_append, List.nil_append]
    · have h := Infix.yields_term op (l := l) hleft.yields hx.yields
      rw [span_operands _ hts hvs, ← hleft.loc, ← hx.loc] at h
      exact h
    · rw [span_operands _ hts hvs, ← hleft.loc, ← hx.loc]
      rfl
    · exact hlevel ▸ hf
    · exact hlevel ▸ admits_precedence.mpr hloose
  | paren hS => exact absurd (Nat.le_trans hq hf) (Nat.not_succ_le_zero 0)
  | args hS hdone => exact absurd (Nat.le_trans hq hf) (Nat.not_succ_le_zero 0)

/-- A reduction makes a resolved tree of what it closes. -/
theorem StackReads.reduce {S : List Frame} {us vs : List Located} {x : Operand} {q : Nat}
    (h : StackReads S us) (hx : x.Reads vs) (hatom : x.term.level = kAtom) (hq : 1 ≤ q)
    (hq' : q ≤ kAtom) :
    Reducing q (us ++ vs) (Precedence.reduce Frame.rules q S x).1
      (Precedence.reduce Frame.rules q S x).2 :=
  Precedence.reduce_inv (P := Reducing q (us ++ vs))
    ⟨us, vs, rfl, h, hx, hatom ▸ hq', hatom ▸ admits_atom S⟩
    fun _ _ _ hf hP => hP.close hq hf

theorem reads_operand {S : List Frame} {us : List Located} {tok : Located} {c : Config}
    (h : StackReads S us) (hstep : stepOperand S tok = some c) : c.Reads (us ++ [tok]) := by
  have hmeans := begin_means tok
  obtain ⟨tok, loc⟩ := tok
  unfold stepOperand at hstep
  cases hb : Begin.of (tok, loc) with
  | leaf t =>
    rw [hb] at hstep hmeans
    cases hstep
    exact .operator h ⟨hmeans.1, hmeans.2.1, rfl⟩ hmeans.2.2
  | unary op =>
    rw [hb] at hstep hmeans
    cases hstep
    cases hmeans
    exact .operand (.unary h)
  | paren =>
    rw [hb] at hstep hmeans
    cases hstep
    cases hmeans
    exact .operand (.paren h)
  | list =>
    rw [hb] at hstep hmeans
    cases hstep
    cases hmeans
    exact .first h
  | args head =>
    rw [hb] at hstep hmeans
    cases hstep
    cases hmeans
    exact .opening h
  | close =>
    rw [hb] at hstep hmeans
    cases hmeans
    simp only at hstep
    split at hstep
    · next name k S =>
      cases hstep
      cases h with
      | @args S us head k l done ds hS hdone =>
        obtain rfl := hdone.eq_nil rfl
        rw [List.append_assoc]
        exact .operator hS ⟨.callNone (l := l) rfl, trivial, rfl⟩ rfl
    · cases hstep
  | none =>
    rw [hb] at hstep
    cases hstep

/-- A term and its brackets. -/
theorem operand_paren {x : Operand} {ts : List Located} (hx : x.Reads ts) (l r : Location) :
    Operand.Reads ⟨.paren x.term, join l r⟩ ((.sym .lparen, l) :: ts ++ [(.sym .rparen, r)]) :=
  ⟨.paren hx.yields, hx.resolved, (span_bracket (.sym .lparen, l) (.sym .rparen, r) ts).symm⟩

theorem operand_args {head : Head} {k l r : Location} {done : List Term} {x : Operand}
    {ds ts : List Located} (hdone : DoneYield done ds) (hx : x.Reads ts) :
    Operand.Reads ⟨head.term (join k r) (done ++ [x.term]), join k r⟩
      ((head.token, k) :: (.sym .lparen, l) :: (ds ++ ts) ++ [(.sym .rparen, r)]) := by
  have hspan := span_bracket (head.token, k) (.sym .rparen, r) ((.sym .lparen, l) :: (ds ++ ts))
  refine ⟨?_, Head.resolved_term.mpr (hdone.resolved ⟨hx.resolved, trivial⟩), hspan.symm⟩
  have h := Head.yields_term head (k := k) (l := l) (r := r)
    (hdone.append (.one hx.yields)) rfl
  rw [hspan] at h
  exact h

theorem reads_operator {S : List Frame} {x : Operand} {us ts : List Located} {tok : Located}
    {c : Config} (h : StackReads S us) (hx : x.Reads ts) (hatom : x.term.level = kAtom)
    (hstep : stepOperator x S tok = some c) : c.Reads (us ++ ts ++ [tok]) := by
  have hmeans := follow_means tok.1
  obtain ⟨tok, loc⟩ := tok
  unfold stepOperator at hstep
  cases hb : Follow.of tok with
  | infix_ op =>
    rw [hb] at hstep hmeans
    cases hstep
    cases hmeans
    obtain ⟨us', vs', hread, hS, hx', hlevel, -⟩ := h.reduce hx hatom op.precedence_pos
      (Nat.le_of_lt (Nat.lt_trans op.precedence_lt (by decide)))
    rw [hread]
    exact .operand (.infix_ hS hx' hlevel (Precedence.reduce_looser _ _ _))
  | open_ =>
    rw [hb] at hstep hmeans
    cases hmeans
    simp only at hstep
    split at hstep
    · next loc' name hterm =>
      cases hstep
      have hyields := hx.yields
      rw [hterm] at hyields
      cases hyields
      rw [List.append_assoc]
      have hargs : StackReads (.args (.call name) loc' [] :: S) _ := h.args (l := loc) .nil
      exact .operand hargs
    · cases hstep
  | close =>
    rw [hb] at hstep hmeans
    cases hmeans
    obtain ⟨us', vs', hread, hS, hx', hlevel, -⟩ := h.reduce hx hatom (Nat.le_refl 1) (by decide)
    simp only at hstep
    split at hstep
    · next l S' x' heq =>
      cases hstep
      rw [heq] at hS hx'
      cases hS with
      | @paren S us l hS =>
        rw [hread, List.append_assoc, List.append_assoc]
        exact .operator hS (operand_paren hx' l loc) rfl
    · next head k done S' x' heq =>
      cases hstep
      rw [heq] at hS hx'
      cases hS with
      | @args S us head k l done ds hS hdone =>
        have h := Config.Reads.operator hS (operand_args (k := k) (l := l) (r := loc) hdone hx')
          (Head.level_term _ _ head)
        rw [hread]
        simpa only [List.append_assoc, List.cons_append] using h
    · cases hstep
  | comma =>
    rw [hb] at hstep hmeans
    cases hmeans
    obtain ⟨us', vs', hread, hS, hx', hlevel, -⟩ := h.reduce hx hatom (Nat.le_refl 1) (by decide)
    simp only at hstep
    split at hstep
    · next head k done S' x' heq =>
      cases hstep
      rw [heq] at hS hx'
      cases hS with
      | @args S us head k l done ds hS hdone =>
        have hargs : StackReads (.args head k (done ++ [x'.term]) :: S') _ :=
          hS.args (l := l) (hdone.snoc (l := loc) hx'.yields hx'.resolved)
        rw [hread]
        simpa only [List.append_assoc, List.cons_append] using Config.Reads.operand hargs
    · cases hstep
  | none =>
    rw [hb] at hstep
    cases hstep

theorem operand_list {v : ConstantListValueType} {es : List Located} {l r : Location}
    (h : ElementsYield (ConstantListValueType.elements v) es) :
    Operand.Reads ⟨.list (join l r) v, join l r⟩
      ((.sym .lbracket, l) :: es ++ [(.sym .rbracket, r)]) := by
  have hspan := span_bracket (.sym .lbracket, l) (.sym .rbracket, r) es
  refine ⟨?_, trivial, hspan.symm⟩
  have h := @TermYields.list v _ _ l r h rfl
  rw [hspan] at h
  exact h

theorem step_opening_inv {head : Head} {loc l : Location} {S : List Frame} {tok : Token}
    {c : Config} (h : step ⟨.opening head loc, S⟩ (tok, l) = some c) :
    tok = .sym .lparen ∧ c = ⟨.operand, .args head loc [] :: S⟩ := by
  cases tok with
  | constant v => cases h
  | identifier name => cases h
  | sym s =>
    cases s with
    | lparen =>
      cases h
      exact ⟨rfl, rfl⟩
    | _ => cases h

theorem step_element_inv {loc l : Location} {done : Option ConstantListValueType}
    {S : List Frame} {tok : Token} {c : Config}
    (h : step ⟨.element loc done, S⟩ (tok, l) = some c) :
    ∃ v vs, tok = .constant v ∧ emplaceBack done v = some vs ∧ c = ⟨.separator loc vs, S⟩ := by
  cases tok with
  | constant v =>
    obtain ⟨vs, hvs, rfl⟩ := Option.map_eq_some_iff.mp h
    exact ⟨v, vs, rfl, hvs, rfl⟩
  | identifier name => cases h
  | sym s => cases h

theorem step_separator_inv {loc l : Location} {vs : ConstantListValueType} {S : List Frame}
    {tok : Token} {c : Config} (h : step ⟨.separator loc vs, S⟩ (tok, l) = some c) :
    (tok = .sym .comma ∧ c = ⟨.element loc (some vs), S⟩) ∨
      (tok = .sym .rbracket ∧ c = ⟨.operator ⟨.list (join loc l) vs, join loc l⟩, S⟩) := by
  cases tok with
  | constant v => cases h
  | identifier name => cases h
  | sym s =>
    cases s with
    | comma =>
      cases h
      exact .inl ⟨rfl, rfl⟩
    | rbracket =>
      cases h
      exact .inr ⟨rfl, rfl⟩
    | _ => cases h

/-- **Every step reads its token.** -/
theorem Config.Reads.step {c c' : Config} {read : List Located} {tok : Located}
    (h : c.Reads read) (hstep : Athena.step c tok = some c') : c'.Reads (read ++ [tok]) := by
  obtain ⟨tok, l⟩ := tok
  cases h with
  | operand h => exact reads_operand h hstep
  | operator h hx hatom => exact reads_operator h hx hatom hstep
  | @opening S us head loc h =>
    obtain ⟨rfl, rfl⟩ := step_opening_inv hstep
    rw [List.append_assoc]
    exact .operand (h.args .nil)
  | first h =>
    obtain ⟨v, vs, rfl, hvs, rfl⟩ := step_element_inv hstep
    rw [List.append_assoc]
    refine .separator h ?_
    rw [elements_emplaceBack hvs]
    exact .one
  | @element S us loc vs es k h hes =>
    obtain ⟨v, vs', rfl, hvs, rfl⟩ := step_element_inv hstep
    have hes := hes.snoc k v l
    have helements : ConstantListValueType.elements vs' =
        ConstantListValueType.elements vs ++ [v] := elements_emplaceBack hvs
    rw [← helements] at hes
    have h := @Config.Reads.separator S us loc vs' _ h hes
    simpa only [List.append_assoc, List.cons_append] using h
  | separator h hes =>
    rcases step_separator_inv hstep with ⟨rfl, rfl⟩ | ⟨rfl, rfl⟩
    · exact .element h hes
    · rw [List.append_assoc]
      exact .operator h (operand_list hes) rfl

/-- **And so does every run.** -/
theorem Config.Reads.run {c c' : Config} {read ts : List Located} (h : c.Reads read)
    (hrun : ts.foldlM Athena.step c = some c') : c'.Reads (read ++ ts) := by
  induction ts generalizing c read with
  | nil =>
    cases hrun
    rwa [List.append_nil]
  | cons tok ts ih =>
    rw [List.foldlM_cons, Option.bind_eq_bind, Option.bind_eq_some_iff] at hrun
    obtain ⟨c₁, hstep, hrun⟩ := hrun
    have h := ih (h.step hstep) hrun
    rwa [List.append_assoc] at h

/-! ## 6. A tree is found for what has one -/

/-- The machine reads the term, and stays inside the brackets. -/
def Runs (S : List Frame) (ts : List Located) : Prop :=
  ∃ x S', ts.foldlM step ⟨.operand, S⟩ = some ⟨.operator x, S'⟩ ∧
    base Frame.rules S' = base Frame.rules S

theorem runs_leaf {S : List Frame} {tok : Located} {x : Operand}
    (h : step ⟨.operand, S⟩ tok = some ⟨.operator x, S⟩) : Runs S [tok] :=
  ⟨x, S, run_cons h [], rfl⟩

theorem Runs.infix_ {S : List Frame} {us vs : List Located} (op : Infix) (l : Location)
    (hleft : Runs S us) (hright : ∀ S, Runs S vs) : Runs S (us ++ (.sym op.sym, l) :: vs) := by
  obtain ⟨x, S₁, hrun₁, hbase₁⟩ := hleft
  have hreduce : Precedence.reduce Frame.rules op.precedence S₁ x =
    ((Precedence.reduce Frame.rules op.precedence S₁ x).1,
      (Precedence.reduce Frame.rules op.precedence S₁ x).2) := rfl
  obtain ⟨y, S₂, hrun₂, hbase₂⟩ := hright (.infix_
    (Precedence.reduce Frame.rules op.precedence S₁ x).2 op ::
      (Precedence.reduce Frame.rules op.precedence S₁ x).1)
  refine ⟨y, S₂, ?_, ?_⟩
  · rw [run_append hrun₁, run_cons (step_operator hreduce l), hrun₂]
  · have hpos : 1 ≤ Frame.rules.level
        (.infix_ (Precedence.reduce Frame.rules op.precedence S₁ x).2 op) := op.precedence_pos
    rw [hbase₂, base, if_pos hpos, Precedence.base_reduce op.precedence_pos, hbase₁]

/-- The bracket behind a term finds the bracket before it. -/
theorem Runs.inside {S : List Frame} {f : Frame} {ts : List Located} (h : Runs (f :: S) ts)
    (hf : Frame.rules.level f = 0) :
    ∃ x S' x', ts.foldlM step ⟨.operand, f :: S⟩ = some ⟨.operator x, S'⟩ ∧
      Precedence.reduce Frame.rules 1 S' x = (f :: S, x') := by
  obtain ⟨x, S', hrun, hbase⟩ := h
  refine ⟨x, S', _, hrun, Prod.ext ?_ rfl⟩
  have hlevel : ¬ 1 ≤ Frame.rules.level f := by
    rw [hf]
    exact Nat.not_succ_le_zero 0
  rw [Precedence.reduce_one, hbase, base, if_neg hlevel]

theorem Runs.paren {S : List Frame} {us : List Located} {l r : Location}
    (h : Runs (.paren l :: S) us) : Runs S ((.sym .lparen, l) :: us ++ [(.sym .rparen, r)]) := by
  obtain ⟨x, S', x', hrun, hreduce⟩ := h.inside rfl
  refine ⟨⟨.paren x'.term, join l r⟩, S, ?_, rfl⟩
  rw [List.cons_append, run_cons rfl, run_append hrun, run_cons (step_paren hreduce r)]
  rfl

theorem runs_args {S : List Frame} (head : Head) {us : List Located} {k l r : Location}
    {x : Operand} (h : (us ++ [(Token.sym .rparen, r)]).foldlM step
      ⟨.operand, .args head k [] :: S⟩ = some ⟨.operator x, S⟩) :
    Runs S ((head.token, k) :: (.sym .lparen, l) :: us ++ [(.sym .rparen, r)]) := by
  refine ⟨x, S, ?_, rfl⟩
  rw [List.cons_append, List.cons_append, run_open]
  exact h

mutual

/-- The machine reads every text that has a tree, and stays inside the brackets. -/
theorem TermYields.runs {t : Term} {ts : List Located} : TermYields t ts → ∀ S, Runs S ts
  | .constant, _ => runs_leaf rfl
  | .true_, _ => runs_leaf rfl
  | .false_, _ => runs_leaf rfl
  | .identifier, _ => runs_leaf rfl
  | .entryArg, _ => runs_leaf rfl
  | .execCtx, _ => runs_leaf rfl
  | .output, _ => runs_leaf rfl
  | .list h hts, S => by
    subst hts
    exact ⟨_, S, run_list h S, rfl⟩
  | .paren h, S => (h.runs _).paren
  | @TermYields.unary o _ _ _ l h hts, S => by
    subst hts
    obtain ⟨x, S', hrun, hbase⟩ := h.runs (.unary o l :: S)
    exact ⟨x, S', (run_cons (step_unary o l S) _).trans hrun, hbase⟩
  | .binary h h' hts, S => by
    subst hts
    exact (h.runs S).infix_ (.op _) _ h'.runs
  | .in_ h h' hts, S => by
    subst hts
    exact (h.runs S).infix_ .in_ _ h'.runs
  | .if_ h hts, S => by
    subst hts
    obtain ⟨x, hrun⟩ := h.runs .if_ _ _ [] S
    exact runs_args .if_ hrun
  | .switch_ h hts, S => by
    subst hts
    obtain ⟨x, hrun⟩ := h.runs .switch_ _ _ [] S
    exact runs_args .switch_ hrun
  | .call h hts, S => by
    subst hts
    obtain ⟨x, hrun⟩ := h.runs (.call _) _ _ [] S
    exact runs_args (.call _) hrun
  | .callNone hts, S => by
    subst hts
    exact ⟨_, _, rfl, rfl⟩

theorem ArgsYield.runs {args : List Term} {ts : List Located} : ArgsYield args ts →
    ∀ (head : Head) (loc r : Location) (done : List Term) (S : List Frame),
      ∃ x, (ts ++ [(Token.sym .rparen, r)]).foldlM step ⟨.operand, .args head loc done :: S⟩ =
        some ⟨.operator x, S⟩
  | .one h, head, loc, r, done, S => by
    obtain ⟨x, S', x', hrun, hreduce⟩ := (h.runs (.args head loc done :: S)).inside rfl
    exact ⟨_, by rw [run_append hrun, run_cons (step_args hreduce r)]; rfl⟩
  | .cons h h', head, loc, r, done, S => by
    obtain ⟨x, S', x', hrun, hreduce⟩ := (h.runs (.args head loc done :: S)).inside rfl
    obtain ⟨y, hrest⟩ := h'.runs head loc r (done ++ [x'.term]) S
    refine ⟨y, ?_⟩
    rw [List.append_assoc, run_append hrun, List.cons_append, run_cons (step_comma hreduce _)]
    exact hrest

end

/-! ## 7. The tree of a text -/

theorem finish_eq_some {c : Config} {t : Term} :
    finish c = some t ↔ ∃ x S y, c = ⟨.operator x, S⟩ ∧
      Precedence.reduce Frame.rules 1 S x = ([], y) ∧ y.term = t := by
  obtain ⟨mode, S⟩ := c
  constructor
  · intro h
    cases mode with
    | operator x =>
      simp only [finish] at h
      split at h
      · next y heq =>
        cases h
        exact ⟨x, S, y, rfl, heq, rfl⟩
      · cases h
    | _ => cases h
  · rintro ⟨x, S', y, ⟨⟩, hreduce, rfl⟩
    simp only [finish, hreduce]

theorem Config.Reads.finish {c : Config} {read : List Located} {t : Term} (h : c.Reads read)
    (hfin : Athena.finish c = some t) : TermYields t read ∧ t.Resolved := by
  obtain ⟨x, S, y, rfl, hreduce, rfl⟩ := finish_eq_some.mp hfin
  cases h with
  | operator hS hx hatom =>
    obtain ⟨us, vs, hread, hS', hy, -⟩ := hS.reduce hx hatom (Nat.le_refl 1) (by decide)
    rw [hreduce] at hS' hy
    cases hS'
    rw [hread]
    exact ⟨hy.yields, hy.resolved⟩

/-- **The machine finds the resolved tree of a text**, and nothing else. -/
theorem parseTerm_eq_some {ts : List Located} {t : Term} :
    parseTerm ts = some t ↔ TermYields t ts ∧ t.Resolved := by
  constructor
  · intro h
    obtain ⟨c, hrun, hfin⟩ := Option.bind_eq_some_iff.mp h
    have hreads := (Config.Reads.operand .nil).run hrun
    rw [List.nil_append] at hreads
    exact hreads.finish hfin
  · rintro ⟨h, hr⟩
    obtain ⟨S', u, hrun, hreduce⟩ :=
      (h.found hr (S := []) fun f hf => by cases hf).reduce t.level_pos Precedence.looser_nil
    exact Option.bind_eq_some_iff.mpr ⟨_, hrun, finish_eq_some.mpr ⟨u, S', _, rfl, hreduce, rfl⟩⟩

/-- **It finds one for every text that has a tree.** -/
theorem parseTerm_total {ts : List Located} {t : Term} (h : TermYields t ts) :
    ∃ t', parseTerm ts = some t' := by
  obtain ⟨x, S, hrun, hbase⟩ := h.runs []
  have hreduce : Precedence.reduce Frame.rules 1 S x =
      ([], (Precedence.reduce Frame.rules 1 S x).2) :=
    Prod.ext ((Precedence.reduce_one S x).trans hbase) rfl
  exact ⟨_, Option.bind_eq_some_iff.mpr ⟨_, hrun, finish_eq_some.mpr ⟨x, S, _, rfl, hreduce, rfl⟩⟩⟩

/-- **The levels choose one tree of every text of `term`**, and the machine finds it. -/
theorem precedence_parses (ts : List Located) :
    (∀ t, parseTerm ts = some t ↔ TermYields t ts ∧ t.Resolved) ∧
      ((parseTerm ts).isSome ↔ ∃ t, TermYields t ts) := by
  refine ⟨fun t => parseTerm_eq_some, ?_⟩
  rw [Option.isSome_iff_exists]
  constructor
  · rintro ⟨t, ht⟩
    exact ⟨t, (parseTerm_eq_some.mp ht).1⟩
  · rintro ⟨t, ht⟩
    exact parseTerm_total ht

end Athena

end JitFusion
