/-
# The states of the generated parser

What the tables of `athena/parser.cc` say, by the places of the grammar that the states stand for:
where a term or a statement begins, behind an operand, in a list of constants, in an argument list,
in a when-block.  Each fact is about a state and all tokens, or about a reduction; the table is
looked at here and nowhere else.
-/
import JitFusion.ParserTables

namespace JitFusion

namespace Athena

namespace Bison

open Lalr (Action)

/-! ## 1. Tokens and operators -/

/-- The operators, in the order of the states behind them. -/
def operators : List Infix :=
  [.in_, .op .kAnd, .op .kOr, .op .kSub, .op .kAdd, .op .kMul, .op .kDiv, .op .kMod,
    .op .kBitwiseOr, .op .kBitwiseXor, .op .kBitwiseAnd, .op .kBitwiseShiftLeft,
    .op .kBitwiseShiftRight, .op .kEqual, .op .kNotEqual, .op .kLess, .op .kLessEqual,
    .op .kLarge, .op .kLargeEqual]

theorem mem_operators (op : Infix) : op ∈ operators := by
  cases op with
  | op o => cases o <;> decide
  | in_ => decide

/-- The operator of a kind. -/
def infixOf (kind : Nat) : Option Infix := operators.find? fun op => symKind op.sym == kind

theorem infixOf_sym (s : Sym) : infixOf (symKind s) = match Follow.of (.sym s) with
    | .infix_ op => some op
    | _ => none := by
  cases s <;> decide

theorem constantKind_mem (v : ConstantValueType) : constantKind v ∈ List.range' 45 11 := by
  cases v <;> simp [constantKind]

theorem infixOf_constant : ∀ kind ∈ List.range' 45 11, infixOf kind = none := by decide

theorem infixOf_kind (tok : Located) : infixOf (kind (some tok)) = match Follow.of tok.1 with
    | .infix_ op => some op
    | _ => none := by
  obtain ⟨tok, loc⟩ := tok
  cases tok with
  | constant v => exact infixOf_constant _ (constantKind_mem v)
  | identifier name => rfl
  | sym s => exact infixOf_sym s

/-- The symbols, in the order of their kinds. -/
def symbols : List Sym :=
  [.let_, .when_, .if_, .elif, .else_, .switch_, .in_, .not, .and, .or, .true_, .false_, .minus,
    .plus, .star, .slash, .lparen, .rparen, .modolo, .bitwiseOr, .bitwiseXor, .bitwiseAnd,
    .bitwiseNot, .bitwiseLeft, .bitwiseRight, .equal, .assignment, .notEqual, .lessThan,
    .lessThanOrEqualTo, .greaterThan, .greaterThanOrEqualTo, .comma, .lbracket, .rbracket, .semi,
    .lbrace, .rbrace, .entryArg, .execCtx, .output]

theorem symbols_symKind (s : Sym) : symbols[symKind s - 3]? = some s := by
  cases s <;> rfl

theorem symKind_bounds (s : Sym) : 3 ≤ symKind s ∧ symKind s ≤ 43 := by
  cases s <;> decide

theorem kind_eq_sym {t : Option Located} {s : Sym} (h : kind t = symKind s) :
    ∃ l, t = some (.sym s, l) := by
  have hs := symKind_bounds s
  rcases t with _ | ⟨tok, loc⟩
  · have h : 0 = symKind s := h
    omega
  · cases tok with
    | constant v =>
      have h : constantKind v = symKind s := h
      have hv := List.mem_range'_1.mp (constantKind_mem v)
      omega
    | identifier name =>
      have h : 44 = symKind s := h
      omega
    | sym s' =>
      have h : symKind s' = symKind s := h
      have hsymbols := symbols_symKind s'
      rw [h, symbols_symKind s] at hsymbols
      cases hsymbols
      exact ⟨loc, rfl⟩

theorem kind_eq_identifier {t : Option Located} (h : kind t = 44) :
    ∃ name l, t = some (.identifier name, l) := by
  rcases t with _ | ⟨tok, loc⟩
  · cases h
  · cases tok with
    | constant v =>
      have h : constantKind v = 44 := h
      have hv := List.mem_range'_1.mp (constantKind_mem v)
      omega
    | identifier name => exact ⟨name, loc, rfl⟩
    | sym s =>
      have h : symKind s = 44 := h
      have hs := symKind_bounds s
      omega

theorem kind_eq_constant {t : Option Located} (h : 45 ≤ kind t) :
    ∃ v l, t = some (.constant v, l) := by
  rcases t with _ | ⟨tok, loc⟩
  · have h : 45 ≤ 0 := h
    omega
  · cases tok with
    | constant v => exact ⟨v, loc, rfl⟩
    | identifier name =>
      have h : 45 ≤ 44 := h
      omega
    | sym s =>
      have h : 45 ≤ symKind s := h
      have hs := symKind_bounds s
      omega

/-- The last kind is that of `NEG`, which no token has. -/
theorem kind_lt (t : Option Located) : kind t < 56 := by
  rcases t with _ | ⟨tok, loc⟩
  · decide
  · cases tok with
    | constant v =>
      have h := List.mem_range'_1.mp (constantKind_mem v)
      exact h.2
    | identifier name => exact Nat.lt_of_sub_eq_succ rfl
    | sym s =>
      have h : symKind s < 56 := by cases s <;> decide
      exact h

/-! ## 2. Actions -/

/-- Here a statement begins. -/
def startStates : List Nat := [0, 28, 148, 167]

/-- Here a term begins, and no statement: behind a keyword, a bracket, a comma or an operator. -/
def termStates : List Nat :=
  [2, 5, 8, 9, 10, 11, 42, 43, 71, 72, 76, 77, 78, 79, 80, 81, 82, 83, 84, 85, 86, 87, 88, 89, 90,
    91, 92, 93, 94, 95, 150, 170]

def operandStates : List Nat := startStates ++ termStates

/-- Here an expression begins. -/
def exprStates : List Nat := [0, 2, 28, 72, 95, 148, 167, 170]

/-- The state behind a leaf of the kind. -/
def leafState (kind : Nat) : Nat := if kind = 13 ∨ kind = 14 then kind - 7 else kind - 28

/-- Where a term may begin. -/
def operandAction (state kind : Nat) : Action :=
  match kind with
  | 5 => .shift 3
  | 8 => .shift 4
  | 10 => .shift 5
  | 15 => .shift 8
  | 16 => .shift 9
  | 19 => .shift 10
  | 25 => .shift 11
  | 36 => .shift 12
  | 44 => .shift (if state ∈ startStates then 16 else 40)
  | kind =>
    if kind = 13 ∨ kind = 14 ∨ 41 ≤ kind ∧ kind ≤ 55 then .shift (leafState kind)
    else if kind = 20 ∧ state = 71 then .shift 124
    else if kind = 3 ∧ state ∈ startStates then .shift 1
    else if kind = 4 ∧ state ∈ startStates then .shift 2
    else if kind = 0 ∧ state = 28 then .shift 73
    else if state = 167 then .reduce 96
    else .error

def unaryState : UnaryOPType → Nat
  | .kNot => 5
  | .kMinus => 8
  | .kPlus => 9
  | .kBitwiseNot => 11

def unaryRule : UnaryOPType → Nat
  | .kMinus => 66
  | .kNot => 67
  | .kPlus => 68
  | .kBitwiseNot => 69

/-- The state behind an operator. -/
def infixState (op : Infix) : Nat := 76 + operators.idxOf op

def infixRule : Infix → Nat
  | .in_ => 89
  | .op .kAnd => 100
  | .op .kOr => 101
  | .op .kAdd => 70
  | .op .kSub => 71
  | .op .kMul => 72
  | .op .kDiv => 73
  | .op .kMod => 74
  | .op .kBitwiseAnd => 75
  | .op .kBitwiseOr => 76
  | .op .kBitwiseXor => 77
  | .op .kEqual => 78
  | .op .kNotEqual => 79
  | .op .kLarge => 80
  | .op .kLargeEqual => 81
  | .op .kLess => 82
  | .op .kLessEqual => 83
  | .op .kBitwiseShiftLeft => 84
  | .op .kBitwiseShiftRight => 85

/-- The state behind a term that began in the state. -/
def behind (state : Nat) : Nat :=
  match state with
  | 5 => 44
  | 8 => 45
  | 9 => 46
  | 10 => 47
  | 11 => 48
  | 42 | 43 | 71 | 150 => 97
  | state => if 76 ≤ state ∧ state ≤ 94 then state + 51 else 31

/-- Behind a term: an operator that binds more tightly than `level` goes on with it. -/
def behindAction (level : Nat) (closed : Nat → Action) (kind : Nat) : Action :=
  match infixOf kind with
  | some op => if op.precedence ≤ level then closed kind else .shift (infixState op)
  | none => closed kind

/-- The state behind the bracket of the arguments, and that behind an argument. -/
def parenState : Head → Nat
  | .if_ => 42
  | .switch_ => 43
  | .call _ => 71

def argsState : Head → Nat
  | .if_ => 98
  | .switch_ => 100
  | .call _ => 125

def closeState : Head → Nat
  | .if_ => 149
  | .switch_ => 151
  | .call _ => 163

/-- Only a token of the kind can be read. -/
def expect (expected next kind : Nat) : Action := if kind = expected then .shift next else .error

def argsAction (close kind : Nat) : Action :=
  if kind = 20 then .shift close else if kind = 35 then .shift 150 else .error

/-- What the grammar says to a token, behind what is no operator and begins no term. -/
def stateAction (state kind : Nat) : Action :=
  match state with
  | 1 => expect 44 39 kind
  | 3 => expect 19 42 kind
  | 4 => expect 19 43 kind
  | 12 => if 45 ≤ kind ∧ kind ≤ 55 then .shift (kind + 4) else .error
  | 16 => if kind = 19 then .shift 71 else if kind = 29 then .shift 72 else .reduce 13
  | 30 => expect 38 75 kind
  | 31 => behindAction 0 (fun _ => .reduce 8) kind
  | 39 => expect 29 95 kind
  | 40 => if kind = 19 then .shift 71 else .reduce 13
  | 41 => expect 39 96 kind
  | 44 => .reduce 67
  | 45 => .reduce 66
  | 46 => .reduce 68
  | 47 => behindAction 0 (expect 20 101) kind
  | 48 => .reduce 69
  | 97 => behindAction 0 (fun _ => .reduce 99) kind
  | 98 => argsAction 149 kind
  | 100 => argsAction 151 kind
  | 125 => argsAction 163 kind
  | 126 => expect 38 164 kind
  | 146 => expect 38 165 kind
  | 147 => expect 40 166 kind
  | 169 => if kind = 6 then .shift 170 else if kind = 7 then .shift 171 else .reduce 91
  | 171 => expect 39 173 kind
  | 172 => expect 39 174 kind
  | 175 => expect 40 177 kind
  | 176 => expect 40 178 kind
  | _ => .error

/-- The states behind an element of a list of constants, and behind a comma. -/
def listAction (i kind : Nat) : Action :=
  if kind = 35 then .shift (102 + 2 * i) else expect 37 (103 + 2 * i) kind

/-- The states of `stateAction`; in the first ones a token may be an error. -/
def errorStates : List Nat :=
  [1, 3, 4, 12, 30, 39, 41, 47, 98, 100, 125, 126, 146, 147, 171, 172, 175, 176]

def otherStates : List Nat := errorStates ++ [16, 31, 40, 44, 45, 46, 48, 97, 169]

theorem wellFormed : yytables.WellFormed := ⟨by decide +kernel, by decide +kernel⟩

/-- **The table says what the grammar says.** -/
theorem table_rows :
    (∀ state ∈ operandStates, yytables.row 57 state = (List.range 57).map (operandAction state)) ∧
    (∀ op ∈ operators, yytables.row 57 (behind (infixState op)) =
      (List.range 57).map (behindAction op.precedence fun _ => .reduce (infixRule op))) ∧
    (∀ i ∈ List.range 11,
      yytables.row 57 (60 + i) = (List.range 57).map (listAction i) ∧
      yytables.row 57 (102 + 2 * i) = (List.range 57).map (expect (45 + i) (152 + i))) ∧
    ∀ state ∈ otherStates, yytables.row 57 state = (List.range 57).map (stateAction state) := by
  decide +kernel

theorem behind_expr : ∀ state ∈ exprStates, behind state = 31 := by decide

section Rows

variable {state kind : Nat} (hkind : kind < 57)

include hkind

theorem operand_action (hstate : state ∈ operandStates) :
    yytables.action state kind = operandAction state kind :=
  Lalr.Tables.action_of_row wellFormed (table_rows.1 state hstate) hkind

theorem infix_action (op : Infix) : yytables.action (behind (infixState op)) kind =
    behindAction op.precedence (fun _ => .reduce (infixRule op)) kind :=
  Lalr.Tables.action_of_row wellFormed (table_rows.2.1 op (mem_operators op)) hkind

theorem list_action {i : Nat} (hi : i ∈ List.range 11) :
    yytables.action (60 + i) kind = listAction i kind ∧
      yytables.action (102 + 2 * i) kind = expect (45 + i) (152 + i) kind :=
  ⟨Lalr.Tables.action_of_row wellFormed (table_rows.2.2.1 i hi).1 hkind,
    Lalr.Tables.action_of_row wellFormed (table_rows.2.2.1 i hi).2 hkind⟩

theorem state_action (hstate : state ∈ otherStates) :
    yytables.action state kind = stateAction state kind :=
  Lalr.Tables.action_of_row wellFormed (table_rows.2.2.2 state hstate) hkind

theorem unary_action (op : UnaryOPType) :
    yytables.action (behind (unaryState op)) kind = .reduce (unaryRule op) := by
  cases op <;> exact state_action hkind (by decide)

theorem paren_action :
    yytables.action (behind 10) kind = behindAction 0 (expect 20 101) kind :=
  state_action hkind (by decide)

theorem arg_action (head : Head) : yytables.action (behind (parenState head)) kind =
    behindAction 0 (fun _ => .reduce 99) kind := by
  cases head <;> exact state_action hkind (show 97 ∈ otherStates by decide)

theorem comma_action :
    yytables.action (behind 150) kind = behindAction 0 (fun _ => .reduce 99) kind :=
  state_action hkind (by decide)

theorem args_action (head : Head) :
    yytables.action (argsState head) kind = argsAction (closeState head) kind := by
  cases head with
  | if_ => exact state_action hkind (show 98 ∈ otherStates by decide)
  | switch_ => exact state_action hkind (show 100 ∈ otherStates by decide)
  | call name => exact state_action hkind (show 125 ∈ otherStates by decide)

theorem expr_action (hstate : state ∈ exprStates) :
    yytables.action (behind state) kind = behindAction 0 (fun _ => .reduce 8) kind := by
  rw [behind_expr state hstate]
  exact state_action hkind (by decide)

end Rows

/-- In these states the driver reads a token. -/
def readStates : List Nat :=
  operandStates ++ errorStates ++ List.range' 60 11 ++ (List.range 11).map (102 + 2 * ·)

theorem not_consistent : ∀ state ∈ readStates, yytables.consistent state = false := by
  decide +kernel

/-! ## 3. Reductions -/

/-- The driver reduces in the state at once. -/
def Closed (state rule n symbol : Nat) : Prop :=
  yytables.consistent state = true ∧ yytables.default state = .reduce rule ∧
    yytables.len rule = n ∧ yytables.lhs rule = symbol

instance (state rule n symbol : Nat) : Decidable (Closed state rule n symbol) :=
  inferInstanceAs (Decidable (_ ∧ _))

/-- The symbols that a term is made of: `term`, `literal`, `list`, `function`, `infix_function`,
`named_function` and `boolean`. -/
def termSymbols : List Nat := [61, 62, 63, 75, 76, 77, 84]

theorem term_copies : Closed 32 9 1 61 ∧ Closed 33 28 1 62 ∧ Closed 34 10 1 61 ∧
    Closed 35 64 1 75 ∧ Closed 36 65 1 75 ∧ Closed 38 11 1 61 := by
  decide

theorem closed_constants : ∀ kind ∈ List.range' 45 11,
    Closed (leafState kind) (kind - 28) 1 62 := by
  decide

theorem closed_leaves : Closed 6 29 1 62 ∧ Closed 7 30 1 62 ∧ Closed 13 14 1 61 ∧
    Closed 14 15 1 61 ∧ Closed 15 16 1 61 := by
  decide

theorem infix_rules (op : Infix) : yytables.len (infixRule op) = 3 ∧
    yytables.lhs (infixRule op) ∈ termSymbols := by
  cases op with
  | op o => cases o <;> decide
  | in_ => decide

theorem unary_rules (op : UnaryOPType) : yytables.len (unaryRule op) = 2 ∧
    yytables.lhs (unaryRule op) ∈ termSymbols := by
  cases op <;> decide

theorem name_rule : yytables.len 13 = 1 ∧ yytables.lhs 13 = 61 := by decide

theorem expr_rule : yytables.len 8 = 1 ∧ yytables.lhs 8 = 60 := by decide

theorem arg_rule : yytables.len 99 = 1 ∧ yytables.lhs 99 = 83 := by decide

theorem block_rule : yytables.len 96 = 2 ∧ yytables.lhs 96 = 80 := by decide

theorem when_rule : yytables.len 91 = 6 ∧ yytables.lhs 91 = 78 := by decide

theorem closed_bracket : Closed 101 12 3 61 ∧ Closed 124 88 3 77 := by decide

theorem closed_args : Closed 99 97 1 82 ∧ Closed 168 98 3 82 := by decide

theorem closed_lists : ∀ i ∈ List.range 11, Closed (49 + i) (42 + 2 * i) 1 (64 + i) ∧
    Closed (152 + i) (43 + 2 * i) 3 (64 + i) ∧ Closed (103 + 2 * i) (31 + i) 3 63 := by
  decide

theorem closed_statements : Closed 75 6 2 59 ∧ Closed 164 4 4 59 ∧ Closed 165 5 5 59 ∧
    Closed 37 7 1 59 ∧ Closed 29 2 1 58 ∧ Closed 74 3 2 58 := by
  decide

theorem closed_blocks : Closed 96 95 0 81 ∧ Closed 173 95 0 81 ∧ Closed 174 95 0 81 ∧
    Closed 166 92 0 79 ∧ Closed 177 94 5 79 ∧ Closed 178 93 6 79 := by
  decide

/-! ### Arguments and lists -/

def callRule : Head → Nat
  | .if_ => 86
  | .switch_ => 90
  | .call _ => 87

theorem closed_calls : Closed 149 86 4 77 ∧ Closed 151 90 4 77 ∧ Closed 163 87 4 77 := by decide

theorem closed_call (head : Head) : Closed (closeState head) (callRule head) 4 77 := by
  obtain ⟨hif, hswitch, hcall⟩ := closed_calls
  cases head with
  | if_ => exact hif
  | switch_ => exact hswitch
  | call name => exact hcall

/-- The place of a type among the lists of constants. -/
def listPlace : ConstantListValueType → Nat
  | .i8 _ => 0
  | .i16 _ => 1
  | .i32 _ => 2
  | .i64 _ => 3
  | .u8 _ => 4
  | .u16 _ => 5
  | .u32 _ => 6
  | .u64 _ => 7
  | .f32 _ => 8
  | .f64 _ => 9
  | .string _ => 10

theorem listPlace_lt (vs : ConstantListValueType) : listPlace vs ∈ List.range 11 := by
  cases vs <;> simp [listPlace]

/-! ## 4. Gotos -/

theorem term_gotos : ∀ state ∈ operandStates, yytables.goto state 61 = behind state ∧
    yytables.goto state 62 = 32 ∧ yytables.goto state 63 = 33 ∧ yytables.goto state 75 = 34 ∧
    yytables.goto state 76 = 35 ∧ yytables.goto state 77 = 36 ∧ yytables.goto state 84 = 38 := by
  decide +kernel

theorem list_gotos : ∀ i ∈ List.range 11, yytables.goto 12 (64 + i) = 60 + i := by decide

theorem args_gotos : yytables.goto 42 83 = 99 ∧ yytables.goto 43 83 = 99 ∧
    yytables.goto 71 83 = 99 ∧ yytables.goto 150 83 = 168 ∧ yytables.goto 42 82 = 98 ∧
    yytables.goto 43 82 = 100 ∧ yytables.goto 71 82 = 125 := by
  decide

theorem args_goto (head : Head) : yytables.goto (parenState head) 83 = 99 ∧
    yytables.goto (parenState head) 82 = argsState head := by
  obtain ⟨hif, hswitch, hcall, -, hif', hswitch', hcall'⟩ := args_gotos
  cases head with
  | if_ => exact ⟨hif, hif'⟩
  | switch_ => exact ⟨hswitch, hswitch'⟩
  | call name => exact ⟨hcall, hcall'⟩

theorem expr_gotos : (∀ state ∈ startStates, yytables.goto state 60 = 30) ∧
    yytables.goto 72 60 = 126 ∧ yytables.goto 95 60 = 146 ∧ yytables.goto 2 60 = 41 ∧
    yytables.goto 170 60 = 172 := by
  decide +kernel

theorem statement_gotos : yytables.goto 0 58 = 28 ∧ yytables.goto 148 58 = 167 ∧
    yytables.goto 0 59 = 29 ∧ yytables.goto 148 59 = 29 ∧ yytables.goto 28 59 = 74 ∧
    yytables.goto 167 59 = 74 ∧ ∀ state ∈ startStates, yytables.goto state 78 = 37 := by
  decide

theorem block_gotos : yytables.goto 96 81 = 148 ∧ yytables.goto 173 81 = 148 ∧
    yytables.goto 174 81 = 148 ∧ yytables.goto 166 79 = 169 ∧ yytables.goto 96 80 = 147 ∧
    yytables.goto 173 80 = 175 ∧ yytables.goto 174 80 = 176 := by
  decide

/-! ## 5. The final state -/

theorem final_entries : ∀ p ∈ yytables.yytable.zip yytables.yycheck,
    p.1.toNat = yytables.yyfinal → p.2 = 0 := by
  decide +kernel

theorem entry_final {i : Int} {owner : Nat} {yyn : Int} (h : yytables.entry i owner = some yyn)
    (hyyn : yyn.toNat = yytables.yyfinal) : owner = 0 := by
  have hzero := final_entries _ (Lalr.Tables.entry_mem wellFormed h) hyyn
  exact Int.natCast_eq_zero.mp hzero

/-- **Only the end of the text is shifted to the final state.** -/
theorem shift_final {state k : Nat} (h : yytables.action state k = .shift yytables.yyfinal) :
    k = 0 := by
  rw [Lalr.Tables.action] at h
  split at h
  · exact absurd h Lalr.default_ne_shift
  · split at h
    · exact absurd h Lalr.default_ne_shift
    · next yyn hentry =>
      split at h
      · split at h <;> cases h
      · exact entry_final hentry (Action.shift.inj h)

theorem goto_entries : ∀ i ∈ 0 :: yytables.yypgoto,
    (yytables.entry i 0).map Int.toNat ≠ some yytables.yyfinal := by
  decide +kernel

theorem goto_defaults : ∀ state ∈ 0 :: yytables.yydefgoto, state ≠ yytables.yyfinal := by decide

theorem getD_mem {α : Type} (l : List α) (n : Nat) (d : α) : l.getD n d ∈ d :: l := by
  rw [List.getD_eq_getElem?_getD]
  cases h : l[n]? with
  | none => exact List.mem_cons_self
  | some x => exact List.mem_cons_of_mem d (List.mem_of_getElem? h)

theorem goto_final (state symbol : Nat) : yytables.goto state symbol ≠ yytables.yyfinal := by
  rw [Lalr.Tables.goto]
  split
  · next yyn hentry =>
    intro hyyn
    obtain rfl := entry_final hentry hyyn
    rw [Nat.cast_zero, Int.add_zero] at hentry
    exact goto_entries _ (getD_mem _ _ _) (by rw [hentry, Option.map_some, hyyn])
  · exact goto_defaults _ (getD_mem _ _ _)

end Bison

end Athena

end JitFusion
