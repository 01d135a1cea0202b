/-
# The lexer

`athena/token.ll`: the rules, in the order of the file, what each does with the text it matches,
and the tokens and locations it hands to the parser.

* `Flex` gives the rules their meaning: the longest match, the first rule on ties, and the default
  rule, which drops one byte.
* `Lexer.results` is what the calls of `yylex` do one after the other: skip, a token, or an
  exception of the conversion of a literal.
* `Lexer.locations` carries the location of the builder along.

`Scan` hands the text over as a C string: the lexer sees what stands before the first zero byte.
-/
import Mathlib.Data.List.TakeWhile
import JitFusion.AstBuilder
import JitFusion.NodeText
import JitFusion.Lib.Flex

namespace JitFusion

namespace Athena

open Flex (Regex Rules Lexeme)

/-! ## 1. Tokens -/

/-- The token kinds without a value. -/
inductive Sym
  | let_ | when_ | if_ | elif | else_ | switch_ | in_ | not | and | or | true_ | false_
  | minus | plus | star | slash | lparen | rparen | modolo | bitwiseOr | bitwiseXor | bitwiseAnd
  | bitwiseNot | bitwiseLeft | bitwiseRight | equal | assignment | notEqual | lessThan
  | lessThanOrEqualTo | greaterThan | greaterThanOrEqualTo | comma | lbracket | rbracket | semi
  | lbrace | rbrace | entryArg | execCtx | output
  deriving DecidableEq, Repr

/-- A token.  The kinds `I8` to `F64` and `STRING` have a value of the type they are named after. -/
inductive Token
  | sym (s : Sym)
  | identifier (name : String)
  | constant (val : ConstantValueType)
  deriving DecidableEq, Repr

/-- The types of the integer literals. -/
inductive IntType
  | i8 | i16 | i32 | i64 | u8 | u16 | u32 | u64
  deriving DecidableEq, Repr

namespace IntType

def bits : IntType → Nat
  | i8 | u8 => 8
  | i16 | u16 => 16
  | i32 | u32 => 32
  | i64 | u64 => 64

def signed : IntType → Bool
  | i8 | i16 | i32 | i64 => true
  | u8 | u16 | u32 | u64 => false

/-- The implicit conversion of an `unsigned long long` to the type of the token. -/
def narrow (n : Nat) : IntType → ConstantValueType
  | i8 => .i8 (BitVec.ofNat 8 n)
  | i16 => .i16 (BitVec.ofNat 16 n)
  | i32 => .i32 (BitVec.ofNat 32 n)
  | i64 => .i64 (BitVec.ofNat 64 n)
  | u8 => .u8 (BitVec.ofNat 8 n)
  | u16 => .u16 (BitVec.ofNat 16 n)
  | u32 => .u32 (BitVec.ofNat 32 n)
  | u64 => .u64 (BitVec.ofNat 64 n)

end IntType

/-! ## 2. Rules -/

namespace Lexer

/-- The action of a rule. -/
inductive Action
  | blank
  | newlines
  | lineComment
  | blockComment
  | sym (s : Sym)
  | identifier
  | int (t : IntType)
  | f32
  | f64
  | string
  deriving DecidableEq, Repr

def isBlank (c : UInt8) : Bool :=
  c == ' '.toUInt8 || c == '\t'.toUInt8 || c == '\r'.toUInt8

def isDigit (c : UInt8) : Bool := '0'.toUInt8 ≤ c && c ≤ '9'.toUInt8

def isLetter (c : UInt8) : Bool :=
  ('a'.toUInt8 ≤ c && c ≤ 'z'.toUInt8) || ('A'.toUInt8 ≤ c && c ≤ 'Z'.toUInt8)

def isNewline (c : UInt8) : Bool := c == '\n'.toUInt8

section Patterns

open Flex.Regex

def word (s : String) : Regex UInt8 := lit (text s)

/-- `[^...]`. -/
def noneOf (cs : List Char) : Regex UInt8 := cls fun c => !(cs.map Char.toUInt8).contains c

def identifier : Regex UInt8 :=
  seq (cls isLetter) (star (cls fun c => isLetter c || c == '_'.toUInt8 || isDigit c))

def int : Regex UInt8 := plus (cls isDigit)

def float : Regex UInt8 :=
  alt (seq int (seq (word ".") (star (cls isDigit))))
    (seq (star (cls isDigit)) (seq (word ".") int))

def blank : Regex UInt8 := cls isBlank

def lineComment : Regex UInt8 := seq (word "//") (star (noneOf ['\n']))

/-- `([^*]|\*+[^*/])*\*+"/"`: what follows the opener of a block comment. -/
def blockRest : Regex UInt8 :=
  seq (star (alt (noneOf ['*']) (seq (plus (word "*")) (noneOf ['*', '/']))))
    (seq (plus (word "*")) (word "/"))

def blockComment : Regex UInt8 := seq (word "/*") blockRest

/-- What stands between the quotes `q`; `.` is any byte but a newline. -/
def stringBody (q : Char) : Regex UInt8 :=
  star (alt (noneOf ['\\', q]) (seq (word "\\") (noneOf ['\n'])))

def string (q : Char) : Regex UInt8 :=
  seq (cls (· == q.toUInt8)) (seq (stringBody q) (cls (· == q.toUInt8)))

/-- The rules of the lexer. -/
def rules : Rules UInt8 Action := [
  (plus blank, .blank),
  (plus (cls isNewline), .newlines),
  (lineComment, .lineComment),
  (blockComment, .blockComment),
  (word "let", .sym .let_),
  (word "when", .sym .when_),
  (word "if", .sym .if_),
  (word "elif", .sym .elif),
  (word "else", .sym .else_),
  (word "switch", .sym .switch_),
  (word "\x7b", .sym .lbrace),
  (word "\x7d", .sym .rbrace),
  (word ";", .sym .semi),
  (word "in", .sym .in_),
  (alt (word "not") (word "!"), .sym .not),
  (alt (word "and") (word "&&"), .sym .and),
  (alt (word "or") (word "||"), .sym .or),
  (word "true", .sym .true_),
  (word "false", .sym .false_),
  (word "-", .sym .minus),
  (word "+", .sym .plus),
  (word "*", .sym .star),
  (word "/", .sym .slash),
  (word "(", .sym .lparen),
  (word ")", .sym .rparen),
  (word "%", .sym .modolo),
  (word "|", .sym .bitwiseOr),
  (word "^", .sym .bitwiseXor),
  (word "&", .sym .bitwiseAnd),
  (word "~", .sym .bitwiseNot),
  (word "==", .sym .equal),
  (word "=", .sym .assignment),
  (alt (word "!=") (word "<>"), .sym .notEqual),
  (word "<", .sym .lessThan),
  (word "<=", .sym .lessThanOrEqualTo),
  (word ">", .sym .greaterThan),
  (word ">=", .sym .greaterThanOrEqualTo),
  (word ",", .sym .comma),
  (word "[", .sym .lbracket),
  (word "]", .sym .rbracket),
  (word "<<", .sym .bitwiseLeft),
  (word ">>", .sym .bitwiseRight),
  (word "entry_arg", .sym .entryArg),
  (word "exec_ctx", .sym .execCtx),
  (word "output", .sym .output),
  (identifier, .identifier),
  (int, .int .i32),
  (seq int (word "u8"), .int .u8),
  (seq int (word "u16"), .int .u16),
  (seq int (word "u32"), .int .u32),
  (seq int (word "u64"), .int .u64),
  (seq int (word "i8"), .int .i8),
  (seq int (word "i16"), .int .i16),
  (seq int (word "i32"), .int .i32),
  (seq int (word "i64"), .int .i64),
  (float, .f64),
  (seq float (word "f32"), .f32),
  (seq float (word "f64"), .f64),
  (seq int (word "f32"), .f32),
  (seq int (word "f64"), .f64),
  (string '"', .string),
  (string '\'', .string)]

end Patterns

/-! ## 3. Values -/

/-- `std::stof` and `std::stod`, from the text to the bits of the value; `none` is an exception. -/
structure Conversions where
  stof : Bytes → Option (BitVec 32)
  stod : Bytes → Option (BitVec 64)

/-- Conversions for a text without floating-point numbers. -/
def noConversions : Conversions := ⟨fun _ => none, fun _ => none⟩

/-- The digits a number begins with. -/
def digits (text : Bytes) : Bytes := text.takeWhile isDigit

/-- The number that decimal digits say. -/
def digitsValue (digits : Bytes) : Nat :=
  digits.foldl (fun n c => 10 * n + (c.toNat - '0'.toNat)) 0

/-- `std::stoull`: the value of the digits the text begins with, or `std::out_of_range`. -/
def stoull (text : Bytes) : Option Nat :=
  let n := digitsValue (digits text)
  if n < 2 ^ 64 then some n else none

/-- A text as a name: a character for each byte. -/
def nameOf (bytes : Bytes) : String := String.ofList (bytes.map fun c => Char.ofNat c.toNat)

/-- What a call of `yylex` does with a lexeme. -/
inductive Result
  | skip
  | token (t : Token)
  | throws
  deriving DecidableEq, Repr

def Result.ofConstant : Option ConstantValueType → Result
  | some val => .token (.constant val)
  | none => .throws

/-- The action of a rule on the text it has matched. -/
def Action.result (lib : Conversions) (text : Bytes) : Action → Result
  | .blank | .newlines | .lineComment | .blockComment => .skip
  | .sym s => .token (.sym s)
  | .identifier => .token (.identifier (nameOf text))
  | .int t => .ofConstant ((stoull text).map fun n => t.narrow n)
  | .f32 => .ofConstant ((lib.stof text).map .f32)
  | .f64 => .ofConstant ((lib.stod text).map .f64)
  | .string => .token (.constant (.string text.tail.dropLast))

/-- The default rule copies its byte to the standard output. -/
def result (lib : Conversions) (l : Lexeme UInt8 Action) : Result :=
  match l.action with
  | some action => action.result lib l.text
  | none => .skip

/-! ## 4. Locations -/

end Lexer

namespace Location

def columns (n : Nat) (loc : Location) : Location := { loc with endCol := loc.endCol + n }

def lines (n : Nat) (loc : Location) : Location :=
  { loc with endLine := loc.endLine + n, endCol := 1 }

def step (loc : Location) : Location :=
  { loc with beginLine := loc.endLine, beginCol := loc.endCol }

end Location

namespace Lexer

/-- The loop of the block comments. -/
def commentLines (text : Bytes) (loc : Location) : Location :=
  text.foldl (fun loc c => if isNewline c then loc.lines 1 else loc) loc

/-- The location after a lexeme.  `YY_USER_ACTION` counts the bytes of each; then the action of
the rule may count lines and step. -/
def advance (loc : Location) (l : Lexeme UInt8 Action) : Location :=
  let loc := loc.columns l.text.length
  match l.action with
  | some .blank | some .lineComment => loc.step
  | some .newlines => (loc.lines l.text.length).step
  | some .blockComment => (commentLines l.text loc).step
  | _ => loc

/-- The location when `yylex` returns at a lexeme or goes on after it; the next call steps. -/
def afterLexeme (lib : Conversions) (loc : Location) (l : Lexeme UInt8 Action) : Location :=
  match result lib l with
  | .skip => advance loc l
  | _ => (advance loc l).step

/-! ## 5. Scanning a text -/

/-- `code.c_str()`, as a C string. -/
def cString (code : Bytes) : Bytes := code.takeWhile (· != 0)

/-- The lexemes of a text. -/
def lexemes (code : Bytes) : List (Lexeme UInt8 Action) := Flex.lex rules (cString code)

/-- What `yylex` hands to the parser: located tokens, and how they end. -/
structure Stream where
  tokens : List (Token × Location)
  throws : Bool
  /-- The location of the end of the text. -/
  eof : Location

/-- The calls of `yylex` on the lexemes of a text. -/
def deliver (lib : Conversions) (loc : Location) : List (Lexeme UInt8 Action) → Stream
  | [] => ⟨[], false, loc⟩
  | l :: ls =>
    let rest := deliver lib (afterLexeme lib loc l) ls
    match result lib l with
    | .skip => rest
    | .token t => { rest with tokens := (t, advance loc l) :: rest.tokens }
    | .throws => ⟨[], true, advance loc l⟩

/-- `location_.initialize`. -/
def stream (lib : Conversions) (code : Bytes) : Stream := deliver lib {} (lexemes code)

/-- The kinds and values of the tokens, and whether they end with an exception. -/
def Stream.said (s : Stream) : List Token × Bool := (s.tokens.map Prod.fst, s.throws)

/-- Every byte of the text is covered by a rule: there is no zero byte, and no byte is left to the
default rule. -/
def Covered (code : Bytes) : Prop := 0 ∉ code ∧ ∀ l ∈ lexemes code, l.action ≠ none

instance (code : Bytes) : Decidable (Covered code) :=
  inferInstanceAs (Decidable (0 ∉ code ∧ ∀ l ∈ lexemes code, l.action ≠ none))

theorem cString_eq {code : Bytes} (h : 0 ∉ code) : cString code = code := by
  rw [cString, List.takeWhile_eq_self_iff]
  intro c hc
  have hne : c ≠ 0 := fun heq => h (heq ▸ hc)
  simpa using hne

end Lexer

end Athena

end JitFusion
