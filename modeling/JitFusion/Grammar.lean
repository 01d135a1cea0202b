/-
# The grammar

`athena/parser.yy` as a relation: the sequences of tokens a syntax tree of `AstBuilder` is read
from, with the location that its actions see as `@$`.  The precedences of the operators choose one
of the trees of a text; here every tree is one.

`Parses` says which parses the parser may have of what the lexer hands to it.  The parser is an
LALR automaton with full lookahead correction: it stops at the first token that no text of the
grammar has at its place, and what it has read is the beginning of a text of the grammar.
-/
import JitFusion.Lexer

namespace JitFusion

namespace Athena

/-- A token with its location. -/
abbrev Located := Token × Location

/-- `YYLLOC_DEFAULT`: from the beginning of the first symbol to the end of the last. -/
def span (ts : List Located) : Location :=
  match ts.head?, ts.getLast? with
  | some first, some last =>
    { first.2 with endLine := last.2.endLine, endCol := last.2.endCol }
  | _, _ => {}

/-! ## 1. Terms -/

def UnaryOPType.sym : UnaryOPType → Sym
  | .kPlus => .plus
  | .kMinus => .minus
  | .kNot => .not
  | .kBitwiseNot => .bitwiseNot

def BinaryOPType.sym : BinaryOPType → Sym
  | .kAdd => .plus
  | .kSub => .minus
  | .kMul => .star
  | .kDiv => .slash
  | .kMod => .modolo
  | .kLarge => .greaterThan
  | .kLargeEqual => .greaterThanOrEqualTo
  | .kEqual => .equal
  | .kLess => .lessThan
  | .kLessEqual => .lessThanOrEqualTo
  | .kNotEqual => .notEqual
  | .kAnd => .and
  | .kOr => .or
  | .kBitwiseAnd => .bitwiseAnd
  | .kBitwiseOr => .bitwiseOr
  | .kBitwiseXor => .bitwiseXor
  | .kBitwiseShiftLeft => .bitwiseLeft
  | .kBitwiseShiftRight => .bitwiseRight

def ConstantListValueType.elements : ConstantListValueType → List ConstantValueType
  | .i8 vs => vs.map .i8
  | .i16 vs => vs.map .i16
  | .i32 vs => vs.map .i32
  | .i64 vs => vs.map .i64
  | .u8 vs => vs.map .u8
  | .u16 vs => vs.map .u16
  | .u32 vs => vs.map .u32
  | .u64 vs => vs.map .u64
  | .f32 vs => vs.map .f32
  | .f64 vs => vs.map .f64
  | .string vs => vs.map .string

/-- `i8_list` and its siblings: constants with commas between them. -/
inductive ElementsYield : List ConstantValueType → List Located → Prop
  | one {v loc} : ElementsYield [v] [(.constant v, loc)]
  | cons {v loc comma vs ts} (h : ElementsYield vs ts) :
    ElementsYield (v :: vs) ((.constant v, loc) :: (.sym .comma, comma) :: ts)

mutual

/-- `term`. -/
inductive TermYields : Term → List Located → Prop
  | constant {v loc} : TermYields (.literal loc v) [(.constant v, loc)]
  | true_ {loc} : TermYields (.literal loc (.u8 1)) [(.sym .true_, loc)]
  | false_ {loc} : TermYields (.literal loc (.u8 0)) [(.sym .false_, loc)]
  | list {vs es ts l r} (h : ElementsYield (ConstantListValueType.elements vs) es)
    (hts : ts = (.sym .lbracket, l) :: es ++ [(.sym .rbracket, r)]) :
    TermYields (.list (span ts) vs) ts
  | identifier {name loc} : TermYields (.identifier loc name) [(.identifier name, loc)]
  | entryArg {loc} : TermYields (.entryArg loc) [(.sym .entryArg, loc)]
  | execCtx {loc} : TermYields (.execCtx loc) [(.sym .execCtx, loc)]
  | output {loc} : TermYields (.output loc) [(.sym .output, loc)]
  | paren {t ts l r} (h : TermYields t ts) :
    TermYields (.paren t) ((.sym .lparen, l) :: ts ++ [(.sym .rparen, r)])
  | unary {op t us ts l} (h : TermYields t us) (hts : ts = (.sym (UnaryOPType.sym op), l) :: us) :
    TermYields (.unary (span ts) op t) ts
  | binary {op left right us vs ts l} (h : TermYields left us) (h' : TermYields right vs)
    (hts : ts = us ++ (.sym (BinaryOPType.sym op), l) :: vs) :
    TermYields (.binary (span ts) op left right) ts
  | in_ {left right us vs ts l} (h : TermYields left us) (h' : TermYields right vs)
    (hts : ts = us ++ (.sym .in_, l) :: vs) : TermYields (.in_ (span ts) left right) ts
  | if_ {args us ts k l r} (h : ArgsYield args us)
    (hts : ts = (.sym .if_, k) :: (.sym .lparen, l) :: us ++ [(.sym .rparen, r)]) :
    TermYields (.if_ (span ts) args) ts
  | call {name args us ts k l r} (h : ArgsYield args us)
    (hts : ts = (.identifier name, k) :: (.sym .lparen, l) :: us ++ [(.sym .rparen, r)]) :
    TermYields (.call (span ts) name args) ts
  | callNone {name ts k l r}
    (hts : ts = [(.identifier name, k), (.sym .lparen, l), (.sym .rparen, r)]) :
    TermYields (.call (span ts) name []) ts
  | switch_ {args us ts k l r} (h : ArgsYield args us)
    (hts : ts = (.sym .switch_, k) :: (.sym .lparen, l) :: us ++ [(.sym .rparen, r)]) :
    TermYields (.switch_ (span ts) args) ts

/-- `args`. -/
inductive ArgsYield : List Term → List Located → Prop
  | one {t ts} (h : TermYields t ts) : ArgsYield [t] ts
  | cons {t args us vs l} (h : TermYields t us) (h' : ArgsYield args vs) :
    ArgsYield (t :: args) (us ++ (.sym .comma, l) :: vs)

end

/-! ## 2. Statements -/

mutual

/-- `statement`. -/
inductive StmtYields : Stmt → List Located → Prop
  | assign {name e us k l r} (h : TermYields e us) :
    StmtYields (.assign name e)
      ((.identifier name, k) :: (.sym .assignment, l) :: us ++ [(.sym .semi, r)])
  | let_ {name e us k k' l r} (h : TermYields e us) :
    StmtYields (.let_ name e) ((.sym .let_, k) :: (.identifier name, k') ::
      (.sym .assignment, l) :: us ++ [(.sym .semi, r)])
  | expr {e us r} (h : TermYields e us) : StmtYields (.expr e) (us ++ [(.sym .semi, r)])
  | when_ {cond block chain us vs ws ts k l r} (h : TermYields cond us)
    (hblock : BlockYields block vs) (hchain : ChainYields chain ws)
    (hts : ts = (.sym .when_, k) :: us ++ (.sym .lbrace, l) :: vs ++ (.sym .rbrace, r) :: ws) :
    StmtYields (.when_ k (span ts) cond block chain) ts

/-- `program`, also in a block: at least one statement. -/
inductive BlockYields : List Stmt → List Located → Prop
  | one {stmt ts} (h : StmtYields stmt ts) : BlockYields [stmt] ts
  | cons {stmt stmts us vs} (h : StmtYields stmt us) (h' : BlockYields stmts vs) :
    BlockYields (stmt :: stmts) (us ++ vs)

inductive ClauseYields : Clause → List Located → Prop
  | elif {cond block us vs k l r} (h : TermYields cond us) (h' : BlockYields block vs) :
    ClauseYields (.elif cond block)
      ((.sym .elif, k) :: us ++ (.sym .lbrace, l) :: vs ++ [(.sym .rbrace, r)])
  | else_ {block vs k l r} (h : BlockYields block vs) :
    ClauseYields (.else_ block)
      ((.sym .else_, k) :: (.sym .lbrace, l) :: vs ++ [(.sym .rbrace, r)])

/-- `elif_chain`. -/
inductive ChainYields : List Clause → List Located → Prop
  | nil : ChainYields [] []
  | cons {clause clauses us vs} (h : ClauseYields clause us) (h' : ChainYields clauses vs) :
    ChainYields (clause :: clauses) (us ++ vs)

end

/-- The program is read from the tokens. -/
def Program.Yields (p : Program) (ts : List Located) : Prop := BlockYields p.statements ts

/-! ## 3. Parses -/

/-- What the parser does with what the lexer hands to it: it reads all tokens, or it stops at the
exception after the last, or at a token, or at the end of the text, that no text of the grammar
has there. -/
def Parses (s : Lexer.Stream) (parse : Parse) : Prop :=
  match parse.stop with
  | none => s.throws = false ∧ parse.program.Yields s.tokens
  | some (_, .exception) =>
    s.throws = true ∧ ∃ ts, parse.program.Yields ts ∧ s.tokens <+: ts
  | some (_, .syntaxError _) =>
    ∃ read, read <+: s.tokens ∧ (∃ ts, parse.program.Yields ts ∧ read <+: ts) ∧
      ((read = s.tokens ∧ s.throws = false ∧ ∀ p : Program, ¬ p.Yields s.tokens) ∨
        ∃ t, read ++ [t] <+: s.tokens ∧ ∀ (p : Program) (ts : List Located),
          p.Yields ts → ¬ read ++ [t] <+: ts)

/-! ## 4. Constants -/

/-- The constant that a token says. -/
def Token.value : Token → Option ConstantValueType
  | .constant v => some v
  | .sym .true_ => some (.u8 1)
  | .sym .false_ => some (.u8 0)
  | _ => none

mutual

/-- The constants of a tree, scalars and list elements, as they are read. -/
def Term.constants : Term → List ConstantValueType
  | .literal _ v => [v]
  | .list _ vs => ConstantListValueType.elements vs
  | .identifier _ _ | .entryArg _ | .execCtx _ | .output _ => []
  | .paren t | .unary _ _ t => t.constants
  | .binary _ _ left right | .in_ _ left right => left.constants ++ right.constants
  | .if_ _ args | .call _ _ args | .switch_ _ args => argsConstants args

def argsConstants : List Term → List ConstantValueType
  | [] => []
  | t :: args => t.constants ++ argsConstants args

end

mutual

def Stmt.constants : Stmt → List ConstantValueType
  | .assign _ e | .let_ _ e | .expr e => e.constants
  | .when_ _ _ cond block chain => cond.constants ++ stmtsConstants block ++ chainConstants chain

def stmtsConstants : List Stmt → List ConstantValueType
  | [] => []
  | stmt :: stmts => stmt.constants ++ stmtsConstants stmts

def Clause.constants : Clause → List ConstantValueType
  | .elif cond block => cond.constants ++ stmtsConstants block
  | .else_ block => stmtsConstants block

def chainConstants : List Clause → List ConstantValueType
  | [] => []
  | clause :: clauses => clause.constants ++ chainConstants clauses

end

def Program.constants (p : Program) : List ConstantValueType := stmtsConstants p.statements

/-- The constants that tokens say. -/
def values (ts : List Located) : List ConstantValueType := ts.filterMap fun t => t.1.value

@[simp] theorem values_nil : values [] = [] := rfl

@[simp] theorem values_append (ts us : List Located) : values (ts ++ us) = values ts ++ values us :=
  List.filterMap_append

@[simp] theorem values_constant (v : ConstantValueType) (loc : Location) (ts : List Located) :
    values ((.constant v, loc) :: ts) = v :: values ts := rfl

@[simp] theorem values_identifier (name : String) (loc : Location) (ts : List Located) :
    values ((.identifier name, loc) :: ts) = values ts := rfl

/-- Only `true` and `false` are symbols with a value. -/
theorem values_sym {s : Sym} (hs : Token.value (.sym s) = none) (loc : Location)
    (ts : List Located) : values ((.sym s, loc) :: ts) = values ts :=
  List.filterMap_cons_none hs

theorem ElementsYield.values {vs : List ConstantValueType} {ts : List Located}
    (h : ElementsYield vs ts) : values ts = vs := by
  induction h with
  | one => rfl
  | cons _ ih => rw [values_constant, values_sym rfl, ih]

theorem UnaryOPType.sym_value (op : UnaryOPType) :
    Token.value (.sym (UnaryOPType.sym op)) = none := by
  cases op <;> rfl

theorem BinaryOPType.sym_value (op : BinaryOPType) :
    Token.value (.sym (BinaryOPType.sym op)) = none := by
  cases op <;> rfl

mutual

/-- The constants of a tree are those its tokens say. -/
theorem TermYields.values {t : Term} {ts : List Located} : TermYields t ts →
    values ts = t.constants
  | .constant => rfl
  | .true_ => rfl
  | .false_ => rfl
  | .list h hts => by
    rw [hts, List.cons_append, values_sym rfl, values_append, h.values, values_sym rfl]
    simp [Term.constants]
  | .identifier => rfl
  | .entryArg => rfl
  | .execCtx => rfl
  | .output => rfl
  | .paren h => by
    rw [List.cons_append, values_sym rfl, values_append, h.values, values_sym rfl]
    simp [Term.constants]
  | .unary h hts => by
    rw [hts, values_sym (UnaryOPType.sym_value _), h.values, Term.constants]
  | .binary h h' hts => by
    rw [hts, values_append, h.values, values_sym (BinaryOPType.sym_value _), h'.values,
      Term.constants]
  | .in_ h h' hts => by
    rw [hts, values_append, h.values, values_sym rfl, h'.values, Term.constants]
  | .if_ h hts => by
    rw [hts, List.cons_append, List.cons_append, values_sym rfl, values_sym rfl, values_append,
      h.values, values_sym rfl]
    simp [Term.constants]
  | .call h hts => by
    rw [hts, List.cons_append, List.cons_append, values_identifier, values_sym rfl, values_append,
      h.values, values_sym rfl]
    simp [Term.constants]
  | .callNone hts => by
    rw [hts]
    rfl
  | .switch_ h hts => by
    rw [hts, List.cons_append, List.cons_append, values_sym rfl, values_sym rfl, values_append,
      h.values, values_sym rfl]
    simp [Term.constants]

theorem ArgsYield.values {args : List Term} {ts : List Located} : ArgsYield args ts →
    values ts = argsConstants args
  | .one h => by
    rw [h.values]
    simp [argsConstants]
  | .cons h h' => by
    rw [values_append, h.values, values_sym rfl, h'.values, argsConstants]

end

mutual

theorem StmtYields.values {stmt : Stmt} {ts : List Located} : StmtYields stmt ts →
    values ts = stmt.constants
  | .assign h => by
    rw [List.cons_append, List.cons_append, values_identifier, values_sym rfl, values_append,
      h.values, values_sym rfl]
    simp [Stmt.constants]
  | .let_ h => by
    rw [List.cons_append, List.cons_append, List.cons_append, values_sym rfl, values_identifier,
      values_sym rfl, values_append, h.values, values_sym rfl]
    simp [Stmt.constants]
  | .expr h => by
    rw [values_append, h.values, values_sym rfl]
    simp [Stmt.constants]
  | .when_ h hblock hchain hts => by
    rw [hts, values_append, values_append, List.cons_append, values_sym rfl, h.values,
      values_sym rfl, hblock.values, values_sym rfl, hchain.values, Stmt.constants]

theorem BlockYields.values {stmts : List Stmt} {ts : List Located} : BlockYields stmts ts →
    values ts = stmtsConstants stmts
  | .one h => by
    rw [h.values]
    simp [stmtsConstants]
  | .cons h h' => by
    rw [values_append, h.values, h'.values, stmtsConstants]

theorem ClauseYields.values {clause : Clause} {ts : List Located} : ClauseYields clause ts →
    values ts = clause.constants
  | .elif h h' => by
    rw [values_append, values_append, values_sym rfl, h.values, values_sym rfl, h'.values,
      values_sym rfl]
    simp [Clause.constants]
  | .else_ h => by
    rw [List.cons_append, List.cons_append, values_sym rfl, values_sym rfl, values_append,
      h.values, values_sym rfl]
    simp [Clause.constants]

theorem ChainYields.values {clauses : List Clause} {ts : List Located} : ChainYields clauses ts →
    values ts = chainConstants clauses
  | .nil => rfl
  | .cons h h' => by
    rw [values_append, h.values, h'.values, chainConstants]

end

/-- **The constants of a program are those its tokens say.** -/
theorem Program.Yields.values {p : Program} {ts : List Located} (h : p.Yields ts) :
    values ts = p.constants :=
  BlockYields.values h

end Athena

end JitFusion
