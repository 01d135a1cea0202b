/-
# The generated parser

`athena/parser.cc`: the tables that Bison makes of `parser.yy`, and the semantic actions of the
rules.  The actions build the syntax tree of the text; what the builder does with it is
`AstBuilder`.  The driver is that of `Lib.Lalr`, with `parse.lac full`.

The parser is that of a builder in pipeline mode.  In expression mode the action of rule 91, a whole
when-block, ends the parse with `YYERROR`.
-/
import JitFusion.Lib.Lalr
import JitFusion.ProgramReader

namespace JitFusion

namespace Athena

namespace Bison

/-! ## 1. Tables -/

def yytables : Lalr.Tables where
  yypact := [
    106, -35, 208, 1, 93, 208, -83, -83, 208, 208, 208, 208, 49, -83, -83, -83, 13, -83, -83,
    -83, -83, -83, -83, -83, -83, -83, -83, -83, 8, -83, 28, 281, -83, -83, -83, -83, -83, -83,
    -83, 88, 104, 79, 208, 208, -83, -83, -83, 255, -83, -83, -83, -83, -83, -83, -83, -83, -83,
    -83, -83, -83, -18, -9, 6, 34, 70, 71, 78, 98, 99, 102, 103, 157, 208, -83, -83, -83, 208,
    208, 208, 208, 208, 208, 208, 208, 208, 208, 208, 208, 208, 208, 208, 208, 208, 208, 208,
    208, -83, 281, -10, -83, -6, -83, 85, -83, 97, -83, 77, -83, 96, -83, 114, -83, 95, -83,
    113, -83, 117, -83, 121, -83, 112, -83, 120, -83, -83, -5, 145, 347, 327, 307, 47, 47, -83,
    -83, -83, 367, 387, 407, 111, 111, 163, 163, 19, 19, 19, 19, 147, 146, 106, -83, 208, -83,
    -83, -83, -83, -83, -83, -83, -83, -83, -83, -83, -83, -83, -83, -83, -83, 106, -83, 41,
    208, 148, 149, -83, -83, 151, 152, -83, -83]
  yydefact := [
    0, 0, 0, 0, 0, 0, 29, 30, 0, 0, 0, 0, 0, 14, 15, 16, 13, 17, 18, 19, 20, 21, 22, 23, 24, 25,
    26, 27, 0, 2, 0, 8, 9, 28, 10, 64, 65, 7, 11, 0, 13, 0, 0, 0, 67, 66, 68, 0, 69, 42, 44, 46,
    48, 50, 52, 54, 56, 58, 60, 62, 0, 0, 0, 0, 0, 0, 0, 0, 0, 0, 0, 0, 0, 1, 3, 6, 0, 0, 0, 0,
    0, 0, 0, 0, 0, 0, 0, 0, 0, 0, 0, 0, 0, 0, 0, 0, 95, 99, 0, 97, 0, 12, 0, 31, 0, 32, 0, 33,
    0, 34, 0, 35, 0, 36, 0, 37, 0, 38, 0, 39, 0, 40, 0, 41, 88, 0, 0, 89, 100, 101, 71, 70, 72,
    73, 74, 76, 77, 75, 84, 85, 78, 79, 82, 83, 80, 81, 0, 0, 0, 86, 0, 90, 43, 45, 47, 49, 51,
    53, 55, 57, 59, 61, 63, 87, 4, 5, 92, 96, 98, 91, 0, 0, 0, 95, 95, 0, 0, 94, 93]
  yypgoto := [
    -83, 66, -26, -2, -4, -83, -83, -83, -83, -83, -83, -83, -83, -83, -83, -83, -83, -83, -83,
    -83, -83, -83, -83, -82, -83, -40, 65, -83]
  yydefgoto := [
    0, 28, 29, 30, 31, 32, 33, 60, 61, 62, 63, 64, 65, 66, 67, 68, 69, 70, 34, 35, 36, 37, 169,
    147, 148, 98, 99, 38]
  yytable := [
    41, 44, 74, 100, 45, 46, 47, 48, 73, 39, 149, 1, 2, 3, 151, 163, 4, 102, 5, 103, 42, 6, 7,
    8, 9, 150, 104, 10, 105, 150, 150, 125, 71, 11, 79, 80, 81, 82, 97, 97, 83, 106, 72, 107,
    12, 87, 88, 170, 171, 13, 14, 15, 16, 17, 18, 19, 20, 21, 22, 23, 24, 25, 26, 27, 81, 82,
    75, 97, 83, 108, 126, 109, 127, 128, 129, 130, 131, 132, 133, 134, 135, 136, 137, 138, 139,
    140, 141, 142, 143, 144, 145, 175, 176, 146, 49, 50, 51, 52, 53, 54, 55, 56, 57, 58, 59,
    110, 112, 111, 113, 1, 2, 3, 43, 114, 4, 115, 5, 95, 96, 6, 7, 8, 9, 71, 154, 10, 79, 80,
    81, 82, 152, 11, 83, 116, 118, 117, 119, 120, 122, 121, 123, 74, 12, 153, 155, 157, 97, 13,
    14, 15, 16, 17, 18, 19, 20, 21, 22, 23, 24, 25, 26, 27, 3, 156, 158, 4, 161, 5, 172, 159, 6,
    7, 8, 9, 160, 162, 10, 124, 79, 80, 81, 82, 11, 164, 83, 165, 166, 173, 174, 87, 88, 177,
    178, 12, 91, 92, 93, 94, 13, 14, 15, 40, 17, 18, 19, 20, 21, 22, 23, 24, 25, 26, 27, 3, 167,
    168, 4, 0, 5, 0, 0, 6, 7, 8, 9, 0, 0, 10, 0, 0, 0, 0, 0, 11, 0, 0, 0, 0, 0, 0, 0, 0, 0, 0,
    12, 0, 0, 0, 0, 13, 14, 15, 40, 17, 18, 19, 20, 21, 22, 23, 24, 25, 26, 27, 76, 0, 77, 78,
    0, 0, 79, 80, 81, 82, 0, 101, 83, 84, 85, 86, 0, 87, 88, 89, 0, 90, 91, 92, 93, 94, 76, 0,
    77, 78, 0, 0, 79, 80, 81, 82, 0, 0, 83, 84, 85, 86, 0, 87, 88, 89, 0, 90, 91, 92, 93, 94,
    76, 0, 77, 0, 0, 0, 79, 80, 81, 82, 0, 0, 83, 84, 85, 86, 0, 87, 88, 89, 76, 90, 91, 92, 93,
    94, 79, 80, 81, 82, 0, 0, 83, 84, 85, 86, 0, 87, 88, 89, 0, 90, 91, 92, 93, 94, 79, 80, 81,
    82, 0, 0, 83, 84, 85, 86, 0, 87, 88, 89, 0, 90, 91, 92, 93, 94, 79, 80, 81, 82, 0, 0, 83, 0,
    85, 86, 0, 87, 88, 89, 0, 90, 91, 92, 93, 94, 79, 80, 81, 82, 0, 0, 83, 0, 0, 86, 0, 87, 88,
    89, 0, 90, 91, 92, 93, 94, 79, 80, 81, 82, 0, 0, 83, 0, 0, 0, 0, 87, 88, 89, 0, 90, 91, 92,
    93, 94]
  yycheck := [
    2, 5, 28, 43, 8, 9, 10, 11, 0, 44, 20, 3, 4, 5, 20, 20, 8, 35, 10, 37, 19, 13, 14, 15, 16,
    35, 35, 19, 37, 35, 35, 71, 19, 25, 15, 16, 17, 18, 42, 43, 21, 35, 29, 37, 36, 26, 27, 6,
    7, 41, 42, 43, 44, 45, 46, 47, 48, 49, 50, 51, 52, 53, 54, 55, 17, 18, 38, 71, 21, 35, 72,
    37, 76, 77, 78, 79, 80, 81, 82, 83, 84, 85, 86, 87, 88, 89, 90, 91, 92, 93, 94, 173, 174,
    95, 45, 46, 47, 48, 49, 50, 51, 52, 53, 54, 55, 35, 35, 37, 37, 3, 4, 5, 19, 35, 8, 37, 10,
    29, 39, 13, 14, 15, 16, 19, 47, 19, 15, 16, 17, 18, 45, 25, 21, 35, 35, 37, 37, 35, 35, 37,
    37, 167, 36, 46, 48, 50, 150, 41, 42, 43, 44, 45, 46, 47, 48, 49, 50, 51, 52, 53, 54, 55, 5,
    49, 51, 8, 54, 10, 170, 52, 13, 14, 15, 16, 53, 55, 19, 20, 15, 16, 17, 18, 25, 38, 21, 38,
    40, 39, 39, 26, 27, 40, 40, 36, 31, 32, 33, 34, 41, 42, 43, 44, 45, 46, 47, 48, 49, 50, 51,
    52, 53, 54, 55, 5, 148, 150, 8, -1, 10, -1, -1, 13, 14, 15, 16, -1, -1, 19, -1, -1, -1, -1,
    -1, 25, -1, -1, -1, -1, -1, -1, -1, -1, -1, -1, 36, -1, -1, -1, -1, 41, 42, 43, 44, 45, 46,
    47, 48, 49, 50, 51, 52, 53, 54, 55, 9, -1, 11, 12, -1, -1, 15, 16, 17, 18, -1, 20, 21, 22,
    23, 24, -1, 26, 27, 28, -1, 30, 31, 32, 33, 34, 9, -1, 11, 12, -1, -1, 15, 16, 17, 18, -1,
    -1, 21, 22, 23, 24, -1, 26, 27, 28, -1, 30, 31, 32, 33, 34, 9, -1, 11, -1, -1, -1, 15, 16,
    17, 18, -1, -1, 21, 22, 23, 24, -1, 26, 27, 28, 9, 30, 31, 32, 33, 34, 15, 16, 17, 18, -1,
    -1, 21, 22, 23, 24, -1, 26, 27, 28, -1, 30, 31, 32, 33, 34, 15, 16, 17, 18, -1, -1, 21, 22,
    23, 24, -1, 26, 27, 28, -1, 30, 31, 32, 33, 34, 15, 16, 17, 18, -1, -1, 21, -1, 23, 24, -1,
    26, 27, 28, -1, 30, 31, 32, 33, 34, 15, 16, 17, 18, -1, -1, 21, -1, -1, 24, -1, 26, 27, 28,
    -1, 30, 31, 32, 33, 34, 15, 16, 17, 18, -1, -1, 21, -1, -1, -1, -1, 26, 27, 28, -1, 30, 31,
    32, 33, 34]
  yyr1 := [
    0, 57, 58, 58, 59, 59, 59, 59, 60, 61, 61, 61, 61, 61, 61, 61, 61, 62, 62, 62, 62, 62, 62,
    62, 62, 62, 62, 62, 62, 62, 62, 63, 63, 63, 63, 63, 63, 63, 63, 63, 63, 63, 64, 64, 65, 65,
    66, 66, 67, 67, 68, 68, 69, 69, 70, 70, 71, 71, 72, 72, 73, 73, 74, 74, 75, 75, 76, 76, 76,
    76, 76, 76, 76, 76, 76, 76, 76, 76, 76, 76, 76, 76, 76, 76, 76, 76, 77, 77, 77, 77, 77, 78,
    79, 79, 79, 81, 80, 82, 82, 83, 84, 84]
  yyr2 := [
    0, 2, 1, 2, 4, 5, 2, 1, 1, 1, 1, 1, 3, 1, 1, 1, 1, 1, 1, 1, 1, 1, 1, 1, 1, 1, 1, 1, 1, 1, 1,
    3, 3, 3, 3, 3, 3, 3, 3, 3, 3, 3, 1, 3, 1, 3, 1, 3, 1, 3, 1, 3, 1, 3, 1, 3, 1, 3, 1, 3, 1, 3,
    1, 3, 1, 1, 2, 2, 2, 2, 3, 3, 3, 3, 3, 3, 3, 3, 3, 3, 3, 3, 3, 3, 3, 3, 4, 4, 3, 3, 4, 6, 0,
    6, 5, 0, 2, 1, 3, 1, 3, 3]
  yypactNinf := -83
  yytableNinf := -1
  yylast := 441
  yyntokens := 57
  yyfinal := 73

/-! ## 2. Tokens -/

/-- `symbol_kind`. -/
def symKind : Sym → Nat
  | .let_ => 3
  | .when_ => 4
  | .if_ => 5
  | .elif => 6
  | .else_ => 7
  | .switch_ => 8
  | .in_ => 9
  | .not => 10
  | .and => 11
  | .or => 12
  | .true_ => 13
  | .false_ => 14
  | .minus => 15
  | .plus => 16
  | .star => 17
  | .slash => 18
  | .lparen => 19
  | .rparen => 20
  | .modolo => 21
  | .bitwiseOr => 22
  | .bitwiseXor => 23
  | .bitwiseAnd => 24
  | .bitwiseNot => 25
  | .bitwiseLeft => 26
  | .bitwiseRight => 27
  | .equal => 28
  | .assignment => 29
  | .notEqual => 30
  | .lessThan => 31
  | .lessThanOrEqualTo => 32
  | .greaterThan => 33
  | .greaterThanOrEqualTo => 34
  | .comma => 35
  | .lbracket => 36
  | .rbracket => 37
  | .semi => 38
  | .lbrace => 39
  | .rbrace => 40
  | .entryArg => 41
  | .execCtx => 42
  | .output => 43

def constantKind : ConstantValueType → Nat
  | .i8 _ => 45
  | .i16 _ => 46
  | .i32 _ => 47
  | .i64 _ => 48
  | .u8 _ => 49
  | .u16 _ => 50
  | .u32 _ => 51
  | .u64 _ => 52
  | .f32 _ => 53
  | .f64 _ => 54
  | .string _ => 55

/-- The kind of a token, or of the end of the text. -/
def kind : Option Located → Nat
  | none => 0
  | some (.sym s, _) => symKind s
  | some (.identifier _, _) => 44
  | some (.constant v, _) => constantKind v

/-- The value of a symbol: a part of the syntax tree. -/
inductive Value
  | nothing
  | name (name : String)
  | constant (v : ConstantValueType)
  | list (l : ConstantListValueType)
  | term (t : Term)
  | args (ts : List Term)
  | stmt (s : Stmt)
  | stmts (ss : List Stmt)
  | clauses (cs : List Clause)

structure Symbol where
  value : Value := .nothing
  loc : Location := {}

def shift : Option Located → Symbol
  | some (.identifier name, loc) => ⟨.name name, loc⟩
  | some (.constant v, loc) => ⟨.constant v, loc⟩
  | some (.sym _, loc) => ⟨.nothing, loc⟩
  | none => {}

/-! ## 3. Actions -/

/-- `YYLLOC_DEFAULT`. -/
def yyllocDefault (rhs : List Symbol) (below : Option Symbol) : Location :=
  match rhs.head?, rhs.getLast? with
  | some first, some last => join first.loc last.loc
  | _, _ =>
    let loc := (below.map Symbol.loc).getD {}
    ⟨loc.endLine, loc.endCol, loc.endLine, loc.endCol⟩

/-- An action: of `@$` and the symbols of the right side. -/
abbrev Rule := Location → List Symbol → Value

namespace Rule

def copy : Rule
  | _, [x] => x.value
  | _, _ => .nothing

def firstStatement : Rule
  | _, [⟨.stmt s, _⟩] => .stmts [s]
  | _, _ => .nothing

def nextStatement : Rule
  | _, [⟨.stmts ss, _⟩, ⟨.stmt s, _⟩] => .stmts (ss ++ [s])
  | _, _ => .nothing

def assign : Rule
  | _, [⟨.name name, _⟩, _, ⟨.term e, _⟩, _] => .stmt (.assign name e)
  | _, _ => .nothing

def let_ : Rule
  | _, [_, ⟨.name name, _⟩, _, ⟨.term e, _⟩, _] => .stmt (.let_ name e)
  | _, _ => .nothing

def expression : Rule
  | _, [⟨.term e, _⟩, _] => .stmt (.expr e)
  | _, _ => .nothing

def paren : Rule
  | _, [_, ⟨.term t, _⟩, _] => .term (.paren t)
  | _, _ => .nothing

def identifier : Rule
  | loc, [⟨.name name, _⟩] => .term (.identifier loc name)
  | _, _ => .nothing

def entryArg : Rule := fun loc _ => .term (.entryArg loc)

def execCtx : Rule := fun loc _ => .term (.execCtx loc)

def output : Rule := fun loc _ => .term (.output loc)

def constant : Rule
  | loc, [⟨.constant v, _⟩] => .term (.literal loc v)
  | _, _ => .nothing

def boolean (v : BitVec 8) : Rule := fun loc _ => .term (.literal loc (.u8 v))

def list : Rule
  | loc, [_, ⟨.list l, _⟩, _] => .term (.list loc l)
  | _, _ => .nothing

def firstElement : Rule
  | _, [⟨.constant v, _⟩] => ((emplaceBack none v).map .list).getD .nothing
  | _, _ => .nothing

def nextElement : Rule
  | _, [⟨.list l, _⟩, _, ⟨.constant v, _⟩] => ((emplaceBack (some l) v).map .list).getD .nothing
  | _, _ => .nothing

def unary (op : UnaryOPType) : Rule
  | loc, [_, ⟨.term t, _⟩] => .term (.unary loc op t)
  | _, _ => .nothing

def binary (op : BinaryOPType) : Rule
  | loc, [⟨.term left, _⟩, _, ⟨.term right, _⟩] => .term (.binary loc op left right)
  | _, _ => .nothing

def in_ : Rule
  | loc, [⟨.term left, _⟩, _, ⟨.term right, _⟩] => .term (.in_ loc left right)
  | _, _ => .nothing

def if_ : Rule
  | loc, [_, _, ⟨.args ts, _⟩, _] => .term (.if_ loc ts)
  | _, _ => .nothing

def call : Rule
  | loc, [⟨.name name, _⟩, _, ⟨.args ts, _⟩, _] => .term (.call loc name ts)
  | _, _ => .nothing

def callNone : Rule
  | loc, [⟨.name name, _⟩, _, _] => .term (.call loc name [])
  | _, _ => .nothing

def switch_ : Rule
  | loc, [_, _, ⟨.args ts, _⟩, _] => .term (.switch_ loc ts)
  | _, _ => .nothing

def whenBlock : Rule
  | loc, [keyword, ⟨.term cond, _⟩, _, ⟨.stmts block, _⟩, _, ⟨.clauses chain, _⟩] =>
    .stmt (.when_ keyword.loc loc cond block chain)
  | _, _ => .nothing

def noClause : Rule := fun _ _ => .clauses []

def elif : Rule
  | _, [⟨.clauses chain, _⟩, _, ⟨.term cond, _⟩, _, ⟨.stmts block, _⟩, _] =>
    .clauses (chain ++ [.elif cond block])
  | _, _ => .nothing

def else_ : Rule
  | _, [⟨.clauses chain, _⟩, _, _, ⟨.stmts block, _⟩, _] => .clauses (chain ++ [.else_ block])
  | _, _ => .nothing

def enterBlock : Rule := fun _ _ => .nothing

def block : Rule
  | _, [_, ⟨.stmts ss, _⟩] => .stmts ss
  | _, _ => .nothing

def firstArg : Rule
  | _, [⟨.term t, _⟩] => .args [t]
  | _, _ => .nothing

def nextArg : Rule
  | _, [⟨.args ts, _⟩, _, ⟨.term t, _⟩] => .args (ts ++ [t])
  | _, _ => .nothing

end Rule

/-- The actions by the numbers of the rules; the rule of `$accept` has none. -/
def rules : List Rule := [
    .enterBlock, .enterBlock, .firstStatement, .nextStatement, .assign, .let_, .expression,
    .copy, .copy, .copy, .copy, .copy, .paren, .identifier, .entryArg, .execCtx, .output,
    .constant, .constant, .constant, .constant, .constant, .constant, .constant, .constant,
    .constant, .constant, .constant, .copy, .boolean 1, .boolean 0, .list, .list, .list, .list,
    .list, .list, .list, .list, .list, .list, .list, .firstElement, .nextElement, .firstElement,
    .nextElement, .firstElement, .nextElement, .firstElement, .nextElement, .firstElement,
    .nextElement, .firstElement, .nextElement, .firstElement, .nextElement, .firstElement,
    .nextElement, .firstElement, .nextElement, .firstElement, .nextElement, .firstElement,
    .nextElement, .copy, .copy, .unary .kMinus, .unary .kNot, .unary .kPlus, .unary
    .kBitwiseNot, .binary .kAdd, .binary .kSub, .binary .kMul, .binary .kDiv, .binary .kMod,
    .binary .kBitwiseAnd, .binary .kBitwiseOr, .binary .kBitwiseXor, .binary .kEqual, .binary
    .kNotEqual, .binary .kLarge, .binary .kLargeEqual, .binary .kLess, .binary .kLessEqual,
    .binary .kBitwiseShiftLeft, .binary .kBitwiseShiftRight, .if_, .call, .callNone, .in_,
    .switch_, .whenBlock, .noClause, .elif, .else_, .enterBlock, .block, .firstArg, .nextArg,
    .copy, .binary .kAnd, .binary .kOr]

/-- What the driver knows of the tokens and the rules. -/
def actions : Lalr.Actions (Option Located) Symbol where
  kind := kind
  shift := shift
  reduce rule rhs below :=
    ⟨rules.getD rule Rule.enterBlock (yyllocDefault rhs below) rhs, yyllocDefault rhs below⟩

/-! ## 4. The parser -/

abbrev Stack := Lalr.Stack Symbol

/-- What the lexer hands to the parser: the tokens and the end of the text, unless it throws. -/
def input (s : Lexer.Stream) : List (Option Located) :=
  s.tokens.map some ++ if s.throws then [] else [none]

/-- `parse`. -/
def parse (fuel : Nat) (s : Lexer.Stream) : Option (Lalr.Outcome (Option Located) Symbol) :=
  Lalr.run yytables actions fuel { stack := [(0, {})], rest := input s }

end Bison

end Athena

end JitFusion
