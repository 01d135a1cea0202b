/-
# The generated parser reads terms

The machine of `OperatorPrecedence` has a stack of frames; the generated parser has a stack of
states.  `Models` says how the frames lie on the stack of states, `ConfigModels` how a
configuration of the machine does.  Behind an operand the parser reduces what binds at least as
tightly as the next token asks for, which is what `Precedence.reduce` does to the frames
(`Models.reduce`).

* `ConfigModels.step`: a token that the machine reads is shifted, and the machine is modelled again.
* `ConfigModels.stuck`: at a token that it does not read, the parser has reduced to the term, if it
  has one, and is at an error otherwise.
-/
import JitFusion.ParserStates

namespace JitFusion

namespace Athena

namespace Bison

open Lalr (Action)

/-! ## 1. Reductions -/

abbrev Leads := Lalr.Leads yytables actions

abbrev Settles := Lalr.Settles yytables actions

abbrev Takes := Lalr.Takes yytables actions

abbrev Errs := Lalr.Errs yytables actions

theorem Closed.settles {state rule n symbol : Nat} (h : Closed state rule n symbol) {x : Symbol}
    (rhs : Stack) (hn : n = rhs.length + 1) (st : Stack) :
    Settles ((state, x) :: rhs ++ st) ((yytables.goto st.top symbol, actions.reduce rule
      (((state, x) :: rhs).reverse.map Prod.snd) (st.head?.map Prod.snd)) :: st) := by
  obtain ⟨hc, hdefault, hlen, hlhs⟩ := h
  have hone : Settles ((state, x) :: rhs ++ st)
      (Lalr.reduceBy yytables actions rule ((state, x) :: rhs ++ st)) := .one hc hdefault
  have hrhs : yytables.len rule = ((state, x) :: rhs).length := hlen.trans hn
  rwa [Lalr.reduceBy_append hrhs, hlhs] at hone

/-- A reduction that the next token asks for. -/
theorem leads_reduce {k state rule : Nat} {x : Symbol}
    (h : yytables.action state k = .reduce rule) (rhs : Stack)
    (hn : yytables.len rule = rhs.length + 1) (st : Stack) :
    Leads k ((state, x) :: rhs ++ st) ((yytables.goto st.top (yytables.lhs rule),
      actions.reduce rule (((state, x) :: rhs).reverse.map Prod.snd)
        (st.head?.map Prod.snd)) :: st) := by
  have hone : Leads k ((state, x) :: rhs ++ st)
      (Lalr.reduceBy yytables actions rule ((state, x) :: rhs ++ st)) := .one h
  have hrhs : yytables.len rule = ((state, x) :: rhs).length := hn
  rwa [Lalr.reduceBy_append hrhs] at hone

theorem Closed.copies {state rule symbol : Nat} (h : Closed state rule 1 symbol)
    (hcopy : rules.getD rule Rule.enterBlock = Rule.copy) (x : Symbol) (st : Stack) :
    Settles ((state, x) :: st) ((yytables.goto st.top symbol, x) :: st) := by
  have hsettles := h.settles (x := x) [] rfl st
  simp only [actions, hcopy] at hsettles
  exact hsettles

/-- **What a term is made of becomes the term.** -/
theorem settles_term {st : Stack} (hst : st.top ∈ operandStates) {symbol : Nat}
    (hsymbol : symbol ∈ termSymbols) (x : Symbol) :
    Settles ((yytables.goto st.top symbol, x) :: st) ((behind st.top, x) :: st) := by
  obtain ⟨h61, h62, h63, h75, h76, h77, h84⟩ := term_gotos st.top hst
  obtain ⟨hliteral, hlist, hfunction, hinfix, hnamed, hboolean⟩ := term_copies
  have hliteral := hliteral.copies rfl x st
  have hlist := hlist.copies rfl x st
  have hfunction := hfunction.copies rfl x st
  have hinfix := hinfix.copies rfl x st
  have hnamed := hnamed.copies rfl x st
  have hboolean := hboolean.copies rfl x st
  rw [h61] at hliteral hfunction hboolean
  rw [h62] at hlist
  rw [h75] at hinfix hnamed
  simp only [termSymbols, List.mem_cons, List.not_mem_nil, or_false] at hsymbol
  rcases hsymbol with rfl | rfl | rfl | rfl | rfl | rfl | rfl
  · rw [h61]
    exact .refl
  · rwa [h62]
  · rw [h63]
    exact hlist.trans hliteral
  · rwa [h75]
  · rw [h76]
    exact hinfix.trans hfunction
  · rw [h77]
    exact hnamed.trans hfunction
  · rwa [h84]

/-! ## 2. Frames on the stack of states -/

def operandSymbol (x : Operand) : Symbol := ⟨.term x.term, x.loc⟩

/-- What the parser knows of the token that begins a construct with arguments. -/
def headValue : Head → Value
  | .call name => .name name
  | .if_ | .switch_ => .nothing

/-- The frames lie on the stack, behind `b`. -/
inductive Models (b : Stack) : List Frame → Stack → Prop
  | nil : Models b [] b
  | unary {S st op loc} (h : Models b S st) :
    Models b (.unary op loc :: S) ((unaryState op, ⟨.nothing, loc⟩) :: st)
  | infix_ {S st left op x} (h : Models b S st) :
    Models b (.infix_ left op :: S)
      ((infixState op, x) :: (behind st.top, operandSymbol left) :: st)
  | paren {S st loc} (h : Models b S st) :
    Models b (.paren loc :: S) ((10, ⟨.nothing, loc⟩) :: st)
  | args {S st head loc s x} (h : Models b S st) :
    Models b (.args head loc [] :: S)
      ((parenState head, x) :: (s, ⟨headValue head, loc⟩) :: st)
  | next {S st head loc done s x y l} (h : Models b S st) (hdone : done ≠ []) :
    Models b (.args head loc done :: S) ((150, y) :: (argsState head, ⟨.args done, l⟩) ::
      (parenState head, x) :: (s, ⟨headValue head, loc⟩) :: st)

theorem termStates_subset {state : Nat} (h : state ∈ termStates) : state ∈ operandStates :=
  List.mem_append_right _ h

theorem exprStates_subset : ∀ state ∈ exprStates, state ∈ operandStates := by decide

theorem infixState_mem : ∀ op ∈ operators, infixState op ∈ termStates := by decide

theorem unaryState_mem (op : UnaryOPType) : unaryState op ∈ termStates := by
  cases op <;> decide

theorem parenState_mem (head : Head) : parenState head ∈ termStates := by
  cases head <;> simp [parenState, termStates]

variable {b st : Stack} {S : List Frame} {k : Nat}

/-- Behind a frame, a term begins. -/
theorem Models.top_mem {f : Frame} (h : Models b (f :: S) st) : st.top ∈ termStates := by
  cases h with
  | unary h => exact unaryState_mem _
  | infix_ h => exact infixState_mem _ (mem_operators _)
  | paren h => exact List.mem_of_elem_eq_true rfl
  | args h => exact parenState_mem _
  | next h hdone => exact List.mem_of_elem_eq_true rfl

theorem Models.top_operand (h : Models b S st) (hb : b.top ∈ exprStates) :
    st.top ∈ operandStates := by
  cases S with
  | nil =>
    cases h
    exact exprStates_subset _ hb
  | cons f S => exact termStates_subset h.top_mem

/-! ### Reductions behind an operand -/

/-- How tightly a frame binds that a token of the kind closes. -/
def demand (k : Nat) : Nat :=
  match infixOf k with
  | some op => op.precedence
  | none => 1

theorem demand_pos (k : Nat) : 1 ≤ demand k := by
  rw [demand]
  cases infixOf k with
  | some op => exact op.precedence_pos
  | none => exact Nat.le_refl 1

theorem behindAction_closed {level : Nat} {closed : Nat → Action} (h : demand k ≤ level) :
    behindAction level closed k = closed k := by
  rw [behindAction]
  rw [demand] at h
  cases hop : infixOf k with
  | some op =>
    rw [hop] at h
    exact if_pos h
  | none => rfl

theorem behindAction_none {level : Nat} {closed : Nat → Action} (h : infixOf k = none) :
    behindAction level closed k = closed k := by
  rw [behindAction, h]

theorem behindAction_shift {level : Nat} {closed : Nat → Action} {op : Infix}
    (h : infixOf k = some op) (hlevel : level < op.precedence) :
    behindAction level closed k = .shift (infixState op) := by
  rw [behindAction, h]
  exact if_neg (Nat.not_le.mpr hlevel)

theorem reduce_unary (op : UnaryOPType) (x : Operand) (loc : Location) (below : Option Symbol) :
    actions.reduce (unaryRule op) [⟨.nothing, loc⟩, operandSymbol x] below =
      operandSymbol (Frame.rules.close (.unary op loc) x) := by
  cases op <;> rfl

theorem reduce_infix (op : Infix) (left x : Operand) (y : Symbol) (below : Option Symbol) :
    actions.reduce (infixRule op) [operandSymbol left, y, operandSymbol x] below =
      operandSymbol (Frame.rules.close (.infix_ left op) x) := by
  cases op with
  | op o => cases o <;> rfl
  | in_ => rfl

/-- **A frame that binds tightly enough is closed.** -/
theorem Models.close {f : Frame} (h : Models b (f :: S) st) (hb : b.top ∈ exprStates)
    (hkind : k < 57) (hf : demand k ≤ Frame.rules.level f) (x : Operand) :
    ∃ st' : Stack, Leads k ((behind st.top, operandSymbol x) :: st)
      ((behind st'.top, operandSymbol (Frame.rules.close f x)) :: st') ∧ Models b S st' := by
  cases h with
  | @unary S st op loc h =>
    have haction := unary_action hkind op
    have hleads := leads_reduce (x := operandSymbol x) haction [(unaryState op, ⟨.nothing, loc⟩)]
      (unary_rules op).1 st
    have hvalue := reduce_unary op x loc (st.head?.map Prod.snd)
    have hterm := settles_term (h.top_operand hb) (unary_rules op).2
      (operandSymbol (Frame.rules.close (.unary op loc) x))
    rw [← hvalue] at hterm
    refine ⟨st, ?_, h⟩
    rw [← hvalue]
    exact hleads.trans (hterm.leads k)
  | @infix_ S st left op y h =>
    have hlevel : demand k ≤ op.precedence := hf
    have haction := infix_action hkind op
    rw [behindAction_closed hlevel] at haction
    have hleads := leads_reduce (x := operandSymbol x) haction
      [(infixState op, y), (behind st.top, operandSymbol left)] (infix_rules op).1 st
    have hvalue := reduce_infix op left x y (st.head?.map Prod.snd)
    have hterm := settles_term (h.top_operand hb) (infix_rules op).2
      (operandSymbol (Frame.rules.close (.infix_ left op) x))
    rw [← hvalue] at hterm
    refine ⟨st, ?_, h⟩
    rw [← hvalue]
    exact hleads.trans (hterm.leads k)
  | paren h => exact absurd hf (Nat.not_le.mpr (demand_pos k))
  | args h => exact absurd hf (Nat.not_le.mpr (demand_pos k))
  | next h hdone => exact absurd hf (Nat.not_le.mpr (demand_pos k))

/-- **Behind an operand the parser reduces** what the next token asks for. -/
theorem Models.reduce (h : Models b S st) (hb : b.top ∈ exprStates) (hkind : k < 57)
    (x : Operand) : ∃ st' : Stack, Leads k ((behind st.top, operandSymbol x) :: st)
      ((behind st'.top,
        operandSymbol (Precedence.reduce Frame.rules (demand k) S x).2) :: st') ∧
      Models b (Precedence.reduce Frame.rules (demand k) S x).1 st' := by
  induction S generalizing st x with
  | nil =>
    cases h
    exact ⟨b, .refl, .nil⟩
  | cons f S ih =>
    rw [Precedence.reduce]
    split
    · next hf =>
      obtain ⟨st₁, hleads, hmodels⟩ := h.close hb hkind hf x
      obtain ⟨st', hleads', hmodels'⟩ := ih hmodels (Frame.rules.close f x)
      exact ⟨st', hleads.trans hleads', hmodels'⟩
    · exact ⟨st, .refl, h⟩

/-! ### Behind a term -/

/-- What is read up to a bracket or to the end of the expression. -/
inductive Ended (b : Stack) : List Frame → Operand → Stack → Prop
  | expr {x} : Ended b [] x ((yytables.goto b.top 60, operandSymbol x) :: b)
  | paren {S st loc x} (h : Models b S st) : Ended b (.paren loc :: S) x
    ((behind 10, operandSymbol x) :: (10, ⟨.nothing, loc⟩) :: st)
  | args {S st head loc done x s y l} (h : Models b S st) : Ended b (.args head loc done :: S) x
    ((argsState head, ⟨.args (done ++ [x.term]), l⟩) :: (parenState head, y) ::
      (s, ⟨headValue head, loc⟩) :: st)

/-- What becomes of an argument, behind the bracket or behind a comma. -/
theorem leads_args {done : List Term} {head : Head} {loc : Location} (hkind : k < 57)
    (hop : infixOf k = none) (h : Models b (.args head loc done :: S) st) (x : Operand) :
    ∃ st' : Stack, Leads k ((behind st.top, operandSymbol x) :: st) st' ∧
      Ended b (.args head loc done :: S) x st' := by
  obtain ⟨hfirst, hnext⟩ := closed_args
  obtain ⟨hlen, hlhs⟩ := arg_rule
  obtain ⟨-, -, -, hgoto, -⟩ := args_gotos
  obtain ⟨hgoto₁, hgoto₂⟩ := args_goto head
  cases h with
  | @args S st head loc s y h =>
    have haction := arg_action hkind head
    rw [behindAction_none hop] at haction
    have hleads := leads_reduce (x := operandSymbol x) haction [] hlen
      ((parenState head, y) :: (s, ⟨headValue head, loc⟩) :: st)
    have hsettles := hfirst.settles (x := operandSymbol x) [] rfl
      ((parenState head, y) :: (s, ⟨headValue head, loc⟩) :: st)
    rw [hlhs, Lalr.Stack.top_cons, hgoto₁] at hleads
    rw [Lalr.Stack.top_cons, hgoto₂] at hsettles
    exact ⟨_, hleads.trans (hsettles.leads k), .args h⟩
  | @next S st head loc done s y z l h hdone =>
    have haction := comma_action hkind
    rw [behindAction_none hop] at haction
    have hleads := leads_reduce (x := operandSymbol x) haction [] hlen
      ((150, z) :: (argsState head, ⟨.args done, l⟩) :: (parenState head, y) ::
        (s, ⟨headValue head, loc⟩) :: st)
    have hsettles := hnext.settles (x := operandSymbol x)
      [(150, z), (argsState head, ⟨.args done, l⟩)] rfl
      ((parenState head, y) :: (s, ⟨headValue head, loc⟩) :: st)
    rw [hlhs, Lalr.Stack.top_cons, hgoto] at hleads
    rw [Lalr.Stack.top_cons, hgoto₂] at hsettles
    exact ⟨_, hleads.trans (hsettles.leads k), .args h⟩

/-- **A token that is no operator ends the term** up to the innermost bracket. -/
theorem Models.ends (h : Models b S st) (hb : b.top ∈ exprStates) (hkind : k < 57)
    (hop : infixOf k = none) (x : Operand) :
    ∃ st' : Stack, Leads k ((behind st.top, operandSymbol x) :: st) st' ∧
      Ended b (Precedence.reduce Frame.rules 1 S x).1 (Precedence.reduce Frame.rules 1 S x).2
        st' := by
  obtain ⟨st₁, hleads, hmodels⟩ := h.reduce hb hkind x
  have hloose := Precedence.reduce_looser (R := Frame.rules) (demand k) S x
  have hdemand : demand k = 1 := by rw [demand, hop]
  rw [hdemand] at hleads hmodels hloose
  generalize Precedence.reduce Frame.rules 1 S x = r at hleads hmodels hloose ⊢
  obtain ⟨S', y⟩ := r
  cases S' with
  | nil =>
    cases hmodels
    have haction := expr_action hkind hb
    rw [behindAction_none hop] at haction
    have hreduce := leads_reduce (x := operandSymbol y) haction [] expr_rule.1 b
    rw [expr_rule.2] at hreduce
    exact ⟨_, hleads.trans hreduce, .expr⟩
  | cons f S' =>
    have hlevel := Precedence.looser_cons.mp hloose
    cases f with
    | unary op loc => exact absurd hlevel (by simp [Frame.rules, kNeg])
    | infix_ left op => exact absurd hlevel (Nat.not_lt.mpr op.precedence_pos)
    | paren loc =>
      cases hmodels with
      | paren h => exact ⟨_, hleads, .paren h⟩
    | args head loc done =>
      obtain ⟨st', hleads', hended⟩ := leads_args hkind hop hmodels y
      exact ⟨st', hleads.trans hleads', hended⟩

/-- **A looser operator is shifted.** -/
theorem Models.shifts (h : Models b S st) (hb : b.top ∈ exprStates) (hkind : k < 57)
    {op : Infix} (hop : infixOf k = some op)
    (hloose : Precedence.Looser Frame.rules op.precedence S) :
    yytables.action (behind st.top) k = .shift (infixState op) := by
  have hbracket : 0 < op.precedence := op.precedence_pos
  cases h with
  | nil => exact (expr_action hkind hb).trans (behindAction_shift hop hbracket)
  | unary h =>
    exact absurd (Precedence.looser_cons.mp hloose) (Nat.not_lt.mpr (Nat.le_of_lt op.precedence_lt))
  | @infix_ S st left op' x h =>
    exact (infix_action hkind op').trans
      (behindAction_shift hop (Precedence.looser_cons.mp hloose))
  | paren h => exact (paren_action hkind).trans (behindAction_shift hop hbracket)
  | args h =>
    exact (arg_action hkind _).trans
      (behindAction_shift hop hbracket)
  | next h hdone =>
    exact (comma_action hkind).trans (behindAction_shift hop hbracket)

/-! ## 3. Configurations -/

/-- The states for the separators of a list, and for its elements. -/
def listState (vs : ConstantListValueType) : Nat := 60 + listPlace vs

def commaState (vs : ConstantListValueType) : Nat := 102 + 2 * listPlace vs

/-- The configuration of the machine is that of the parser, which still has to do the reductions
that need no token. -/
inductive ConfigModels (b : Stack) : Config → Stack → Prop
  | operand {S : List Frame} {st : Stack} (h : Models b S st) (hst : st.top ∈ termStates) :
    ConfigModels b ⟨.operand, S⟩ st
  /-- A name may be that of a function. -/
  | name {S st name loc} (h : Models b S st) :
    ConfigModels b ⟨.operator ⟨.identifier loc name, loc⟩, S⟩ ((40, ⟨.name name, loc⟩) :: st)
  | operator {S st x} (h : Models b S st) (hx : ∀ loc name, x.term ≠ .identifier loc name) :
    ConfigModels b ⟨.operator x, S⟩ ((behind st.top, operandSymbol x) :: st)
  | if_ {S st loc} (h : Models b S st) :
    ConfigModels b ⟨.opening .if_ loc, S⟩ ((3, ⟨.nothing, loc⟩) :: st)
  | switch_ {S st loc} (h : Models b S st) :
    ConfigModels b ⟨.opening .switch_ loc, S⟩ ((4, ⟨.nothing, loc⟩) :: st)
  | first {S st loc} (h : Models b S st) :
    ConfigModels b ⟨.element loc none, S⟩ ((12, ⟨.nothing, loc⟩) :: st)
  | element {S st loc vs x l} (h : Models b S st) : ConfigModels b ⟨.element loc (some vs), S⟩
    ((commaState vs, x) :: (listState vs, ⟨.list vs, l⟩) :: (12, ⟨.nothing, loc⟩) :: st)
  | separator {S st loc vs l} (h : Models b S st) : ConfigModels b ⟨.separator loc vs, S⟩
    ((listState vs, ⟨.list vs, l⟩) :: (12, ⟨.nothing, loc⟩) :: st)

/-- The parser shifts the token and comes to the configuration. -/
def Reaches (b : Stack) (tok : Located) (st : Stack) (c : Config) : Prop :=
  ∃ st₁ st₂ : Stack, Takes (some tok) st st₁ ∧ Settles st₁ st₂ ∧ ConfigModels b c st₂

variable {tok : Located} {c : Config}

theorem kind_lt' (t : Option Located) : kind t < 57 := Nat.lt_succ_of_lt (kind_lt t)

theorem Reaches.shift {s : Nat} {st₂ : Stack}
    (h : yytables.action st.top (kind (some tok)) = .shift s)
    (hsettles : Settles ((s, Bison.shift (some tok)) :: st) st₂) (hc : ConfigModels b c st₂) :
    Reaches b tok st c :=
  ⟨_, st₂, Lalr.Takes.shift (A := actions) (t := some tok) h, hsettles, hc⟩

theorem Reaches.of_leads {st' : Stack} (hleads : Leads (kind (some tok)) st st')
    (h : Reaches b tok st' c) : Reaches b tok st c := by
  obtain ⟨st₁, st₂, htakes, hsettles, hc⟩ := h
  exact ⟨st₁, st₂, hleads.takes htakes, hsettles, hc⟩

/-! ### The beginning of a term -/

/-- A leaf is a term at once. -/
theorem Models.leaf (h : Models b S st) (hb : b.top ∈ exprStates) {t : Term} {loc : Location}
    {state rule symbol : Nat} {x : Symbol} (hclosed : Closed state rule 1 symbol)
    (hsymbol : symbol ∈ termSymbols)
    (hvalue : actions.reduce rule [x] (st.head?.map Prod.snd) = operandSymbol ⟨t, loc⟩)
    (ht : ∀ loc name, t ≠ .identifier loc name) :
    ∃ st₂ : Stack, Settles ((state, x) :: st) st₂ ∧
      ConfigModels b ⟨.operator ⟨t, loc⟩, S⟩ st₂ := by
  have hsettles := hclosed.settles (x := x) [] rfl st
  have hterm := settles_term (h.top_operand hb) hsymbol (operandSymbol ⟨t, loc⟩)
  rw [← hvalue] at hterm
  refine ⟨_, hsettles.trans hterm, ?_⟩
  rw [hvalue]
  exact .operator h ht

theorem operandAction_constant (state : Nat) : ∀ k ∈ List.range' 45 11,
    operandAction state k = .shift (leafState k) := by
  intro k hk
  simp only [List.range', List.mem_cons, List.not_mem_nil, or_false] at hk
  rcases hk with rfl | rfl | rfl | rfl | rfl | rfl | rfl | rfl | rfl | rfl | rfl <;> rfl

theorem rule_constant (v : ConstantValueType) :
    rules.getD (constantKind v - 28) Rule.enterBlock = Rule.constant := by
  cases v <;> rfl

theorem Models.constant (h : Models b S st) (hb : b.top ∈ exprStates) (v : ConstantValueType)
    (loc : Location) :
    Reaches b (.constant v, loc) st ⟨.operator ⟨.literal loc v, loc⟩, S⟩ := by
  have hrow := operand_action (kind_lt' (some (.constant v, loc))) (h.top_operand hb)
  have hvalue : actions.reduce (constantKind v - 28) [⟨.constant v, loc⟩]
      (st.head?.map Prod.snd) = operandSymbol ⟨.literal loc v, loc⟩ := by
    simp only [actions, rule_constant]
    rfl
  obtain ⟨st₂, hsettles, hc⟩ := h.leaf hb (closed_constants _ (constantKind_mem v))
    (by decide) hvalue (fun _ _ => by simp)
  exact .shift (hrow.trans (operandAction_constant _ _ (constantKind_mem v))) hsettles hc

/-- **The beginning of a term.** -/
theorem Models.operand (h : Models b S st) (hb : b.top ∈ exprStates)
    (hname : st.top ∈ startStates → ∀ name, tok.1 ≠ .identifier name)
    (hstep : stepOperand S tok = some c) : Reaches b tok st c := by
  have hrow := operand_action (kind_lt' (some tok)) (h.top_operand hb)
  obtain ⟨tok, loc⟩ := tok
  have hleaf {t : Term} {s rule symbol : Nat} (hs : yytables.action st.top
      (kind (some (tok, loc))) = .shift s) (hclosed : Closed s rule 1 symbol)
      (hsymbol : symbol ∈ termSymbols)
      (hvalue : actions.reduce rule [Bison.shift (some (tok, loc))] (st.head?.map Prod.snd) =
        operandSymbol ⟨t, loc⟩) (ht : ∀ loc name, t ≠ .identifier loc name) :
      Reaches b (tok, loc) st ⟨.operator ⟨t, loc⟩, S⟩ := by
    obtain ⟨st₂, hsettles, hc⟩ := h.leaf hb hclosed hsymbol hvalue ht
    exact .shift hs hsettles hc
  have hunary {op : UnaryOPType} (htok : tok = .sym (UnaryOPType.sym op))
      (hs : yytables.action st.top (kind (some (tok, loc))) = .shift (unaryState op)) :
      Reaches b (tok, loc) st ⟨.operand, .unary op loc :: S⟩ := by
    subst htok
    exact .shift hs .refl (.operand h.unary (unaryState_mem op))
  obtain ⟨htrue, hfalse, hentry, hctx, houtput⟩ := closed_leaves
  cases tok with
  | constant v =>
    cases hstep
    exact h.constant hb v loc
  | identifier name =>
    cases hstep
    have hs : operandAction st.top 44 = .shift 40 :=
      congrArg Action.shift (if_neg fun hst => hname hst name rfl)
    exact .shift (hrow.trans hs) .refl (.name h)
  | sym s =>
    cases s with
    | true_ =>
      cases hstep
      exact hleaf hrow htrue (by decide) rfl (by simp)
    | false_ =>
      cases hstep
      exact hleaf hrow hfalse (by decide) rfl (by simp)
    | entryArg =>
      cases hstep
      exact hleaf hrow hentry (by decide) rfl (by simp)
    | execCtx =>
      cases hstep
      exact hleaf hrow hctx (by decide) rfl (by simp)
    | output =>
      cases hstep
      exact hleaf hrow houtput (by decide) rfl (by simp)
    | plus =>
      cases hstep
      exact hunary rfl hrow
    | minus =>
      cases hstep
      exact hunary rfl hrow
    | not =>
      cases hstep
      exact hunary rfl hrow
    | bitwiseNot =>
      cases hstep
      exact hunary rfl hrow
    | lparen =>
      cases hstep
      exact .shift hrow .refl (.operand h.paren (show 10 ∈ termStates by decide))
    | lbracket =>
      cases hstep
      exact .shift hrow .refl (.first h)
    | if_ =>
      cases hstep
      exact .shift hrow .refl (.if_ h)
    | switch_ =>
      cases hstep
      exact .shift hrow .refl (.switch_ h)
    | rparen =>
      simp only [stepOperand, Begin.of] at hstep
      split at hstep
      · next name loc' S' =>
        cases hstep
        cases h with
        | @args S st head loc' s x h =>
          have hvalue := closed_bracket.2.settles (x := ⟨.nothing, loc⟩)
            [(71, x), (s, ⟨.name name, loc'⟩)] rfl st
          exact .shift hrow (hvalue.trans (settles_term (h.top_operand hb) (by decide) _))
            (.operator h (by simp))
        | next h hdone => exact absurd rfl hdone
      · cases hstep
    | _ => cases hstep

/-! ### Behind a term -/

theorem infixOf_bracket : infixOf 19 = none ∧ infixOf 20 = none ∧ infixOf 35 = none := by decide

theorem reduce_call (head : Head) (ts : List Term) (k l r : Location) (y : Symbol)
    (below : Option Symbol) : actions.reduce (callRule head)
      [⟨headValue head, k⟩, y, ⟨.args ts, l⟩, ⟨.nothing, r⟩] below =
        operandSymbol ⟨head.term (join k r) ts, join k r⟩ := by
  cases head <;> rfl

/-- The closing bracket of a term. -/
theorem Ended.close_paren {x : Operand} {loc : Location} (h : Ended b (.paren loc :: S) x st)
    (hb : b.top ∈ exprStates) (r : Location) :
    Reaches b (.sym .rparen, r) st ⟨.operator ⟨.paren x.term, join loc r⟩, S⟩ := by
  cases h with
  | @paren S st loc x h =>
    have haction := (paren_action (kind_lt' (some (.sym .rparen, r)))).trans
      (behindAction_none infixOf_bracket.2.1)
    have hsettles := closed_bracket.1.settles (x := ⟨.nothing, r⟩)
      [(behind 10, operandSymbol x), (10, ⟨.nothing, loc⟩)] rfl st
    rw [(term_gotos st.top (h.top_operand hb)).1] at hsettles
    exact .shift haction hsettles (.operator h (by simp))

/-- The closing bracket of the arguments. -/
theorem Ended.close_args {x : Operand} {head : Head} {loc : Location} {done : List Term}
    (h : Ended b (.args head loc done :: S) x st) (hb : b.top ∈ exprStates) (r : Location) :
    Reaches b (.sym .rparen, r) st
      ⟨.operator ⟨head.term (join loc r) (done ++ [x.term]), join loc r⟩, S⟩ := by
  cases h with
  | @args S st head loc done x s y l h =>
    have haction := args_action (kind_lt' (some (.sym .rparen, r))) head
    have hsettles := (closed_call head).settles (x := ⟨.nothing, r⟩)
      [(argsState head, ⟨.args (done ++ [x.term]), l⟩), (parenState head, y),
        (s, ⟨headValue head, loc⟩)] rfl st
    have hterm := settles_term (h.top_operand hb) (by decide : 77 ∈ termSymbols)
      (operandSymbol ⟨head.term (join loc r) (done ++ [x.term]), join loc r⟩)
    rw [← reduce_call head (done ++ [x.term]) loc l r y (st.head?.map Prod.snd)] at hterm
    refine .shift haction (hsettles.trans hterm) ?_
    rw [reduce_call]
    exact .operator h fun _ _ => by cases head <;> simp [Head.term]

/-- A comma. -/
theorem Ended.comma {x : Operand} {head : Head} {loc : Location} {done : List Term}
    (h : Ended b (.args head loc done :: S) x st) (l : Location) :
    Reaches b (.sym .comma, l) st ⟨.operand, .args head loc (done ++ [x.term]) :: S⟩ := by
  cases h with
  | args h =>
    have haction := args_action (kind_lt' (some (.sym .comma, l))) head
    exact .shift haction .refl (.operand (.next h (by simp)) (show 150 ∈ termStates by decide))

/-- **What follows a term.** -/
theorem Models.operator (h : Models b S st) (hb : b.top ∈ exprStates) {x : Operand}
    (hopen : Follow.of tok.1 ≠ .open_) (hstep : stepOperator x S tok = some c) :
    Reaches b tok ((behind st.top, operandSymbol x) :: st) c := by
  have hkind := kind_lt' (some tok)
  have hinfix := infixOf_kind tok
  have hmeans := follow_means tok.1
  obtain ⟨tok, loc⟩ := tok
  unfold stepOperator at hstep
  cases hfollow : Follow.of tok with
  | infix_ op =>
    simp only [hfollow] at hstep hinfix
    cases hstep
    obtain ⟨st', hleads, hmodels⟩ := h.reduce hb hkind x
    have hdemand : demand (kind (some (tok, loc))) = op.precedence := by rw [demand, hinfix]
    rw [hdemand] at hleads hmodels
    have haction := hmodels.shifts hb hkind hinfix (Precedence.reduce_looser _ _ _)
    exact .of_leads hleads
      (.shift haction .refl (.operand (.infix_ hmodels) (infixState_mem _ (mem_operators op))))
  | open_ => exact absurd hfollow hopen
  | close =>
    simp only [hfollow] at hstep hinfix hmeans
    cases hmeans
    obtain ⟨st', hleads, hended⟩ := h.ends hb hkind hinfix x
    refine .of_leads hleads ?_
    split at hstep
    · next heq =>
      cases hstep
      rw [heq] at hended
      exact hended.close_paren hb loc
    · next heq =>
      cases hstep
      rw [heq] at hended
      exact hended.close_args hb loc
    · cases hstep
  | comma =>
    simp only [hfollow] at hstep hinfix hmeans
    cases hmeans
    obtain ⟨st', hleads, hended⟩ := h.ends hb hkind hinfix x
    refine .of_leads hleads ?_
    split at hstep
    · next heq =>
      cases hstep
      rw [heq] at hended
      exact hended.comma loc
    · cases hstep
  | none =>
    simp only [hfollow] at hstep
    cases hstep

/-- A name that is not that of a function is a term. -/
theorem name_leads {s k : Nat} (h : yytables.action s k = .reduce 13) (name : String)
    (loc : Location) (hst : st.top ∈ operandStates) :
    Leads k ((s, ⟨.name name, loc⟩) :: st)
      ((behind st.top, operandSymbol ⟨.identifier loc name, loc⟩) :: st) := by
  have hleads := leads_reduce (x := ⟨.name name, loc⟩) h [] name_rule.1 st
  rw [name_rule.2, (term_gotos st.top hst).1] at hleads
  exact hleads

theorem kind_lparen : kind (some tok) = 19 ↔ Follow.of tok.1 = .open_ := by
  obtain ⟨tok, loc⟩ := tok
  cases tok with
  | constant v => cases v <;> simp [kind, constantKind, Follow.of]
  | identifier name => simp [kind, Follow.of]
  | sym s => cases s <;> simp [kind, symKind, Follow.of]

theorem Models.name_operator (h : Models b S st) (hb : b.top ∈ exprStates) {s : Nat}
    {name : String} {loc : Location} (hs : yytables.action s (kind (some tok)) = .reduce 13)
    (hopen : Follow.of tok.1 ≠ .open_)
    (hstep : stepOperator ⟨.identifier loc name, loc⟩ S tok = some c) :
    Reaches b tok ((s, ⟨.name name, loc⟩) :: st) c :=
  .of_leads (name_leads hs name loc (h.top_operand hb)) (h.operator hb hopen hstep)

/-- The bracket behind the name of a function. -/
theorem Models.name_open (h : Models b S st) {s : Nat} {name : String} {loc : Location}
    (hs : yytables.action s (kind (some tok)) = .shift 71) (hopen : Follow.of tok.1 = .open_)
    (hstep : stepOperator ⟨.identifier loc name, loc⟩ S tok = some c) :
    Reaches b tok ((s, ⟨.name name, loc⟩) :: st) c := by
  simp only [stepOperator, hopen] at hstep
  cases hstep
  exact .shift hs .refl
    (.operand (@Models.args _ _ _ (.call name) _ _ _ h) (show 71 ∈ termStates by decide))

/-! ### Lists -/

theorem emplaceBack_place {done : Option ConstantListValueType} {v : ConstantValueType}
    {vs : ConstantListValueType} (h : emplaceBack done v = some vs) :
    constantKind v = 45 + listPlace vs ∧ ∀ us, done = some us → listPlace us = listPlace vs := by
  cases done with
  | none =>
    cases v <;>
      · cases h
        exact ⟨rfl, fun us hus => by cases hus⟩
  | some us =>
    cases us <;> cases v <;> first
      | cases h
        exact ⟨rfl, fun us hus => by
          cases hus
          rfl⟩
      | cases h

theorem rule_first (vs : ConstantListValueType) :
    rules.getD (42 + 2 * listPlace vs) Rule.enterBlock = Rule.firstElement := by
  cases vs <;> rfl

theorem rule_next (vs : ConstantListValueType) :
    rules.getD (43 + 2 * listPlace vs) Rule.enterBlock = Rule.nextElement := by
  cases vs <;> rfl

theorem rule_list (vs : ConstantListValueType) :
    rules.getD (31 + listPlace vs) Rule.enterBlock = Rule.list := by
  cases vs <;> rfl

/-- The first element of a list. -/
theorem Models.first (h : Models b S st) {v : ConstantValueType} {vs : ConstantListValueType}
    (hvs : emplaceBack none v = some vs) (loc l : Location) :
    Reaches b (.constant v, l) ((12, ⟨.nothing, loc⟩) :: st) ⟨.separator loc vs, S⟩ := by
  obtain ⟨hkind, -⟩ := emplaceBack_place hvs
  have hplace := List.mem_range.mp (listPlace_lt vs)
  obtain ⟨hclosed, -⟩ := closed_lists _ (listPlace_lt vs)
  have hgoto := list_gotos _ (listPlace_lt vs)
  have haction : yytables.action 12 (constantKind v) = .shift (49 + listPlace vs) := by
    rw [hkind, state_action (by omega) (by decide)]
    exact (if_pos ⟨by omega, by omega⟩).trans (congrArg Action.shift (by omega))
  have hsettles := hclosed.settles (x := ⟨.constant v, l⟩) [] rfl ((12, ⟨.nothing, loc⟩) :: st)
  rw [Lalr.Stack.top_cons, hgoto] at hsettles
  simp only [actions, rule_first, List.nil_append, List.reverse_cons, List.reverse_nil,
    List.map_cons, List.map_nil, Rule.firstElement, hvs, Option.map_some, Option.getD_some]
    at hsettles
  exact .shift haction hsettles (.separator h)

/-- Another element of a list. -/
theorem Models.element (h : Models b S st) {v : ConstantValueType}
    {us vs : ConstantListValueType} (hvs : emplaceBack (some us) v = some vs)
    (loc l m : Location) (x : Symbol) : Reaches b (.constant v, l)
      ((commaState us, x) :: (listState us, ⟨.list us, m⟩) :: (12, ⟨.nothing, loc⟩) :: st)
      ⟨.separator loc vs, S⟩ := by
  obtain ⟨hkind, hplace⟩ := emplaceBack_place hvs
  obtain ⟨-, hclosed, -⟩ := closed_lists _ (listPlace_lt vs)
  have hgoto := list_gotos _ (listPlace_lt vs)
  have haction : yytables.action (commaState us) (kind (some (.constant v, l))) =
      .shift (152 + listPlace vs) := by
    rw [commaState, hplace us rfl]
    exact (list_action (kind_lt' _) (listPlace_lt vs)).2.trans (if_pos hkind)
  have hsettles := hclosed.settles (x := ⟨.constant v, l⟩)
    [(commaState us, x), (listState us, ⟨.list us, m⟩)] rfl ((12, ⟨.nothing, loc⟩) :: st)
  rw [Lalr.Stack.top_cons, hgoto] at hsettles
  simp only [actions, rule_next, List.reverse_cons, List.reverse_nil, List.nil_append,
    List.cons_append, List.map_cons, List.map_nil, Rule.nextElement, hvs, Option.map_some,
    Option.getD_some] at hsettles
  exact .shift haction hsettles (.separator h)

/-- The separators of a list. -/
theorem Models.comma (h : Models b S st) (vs : ConstantListValueType) (loc l m : Location) :
    Reaches b (.sym .comma, l) ((listState vs, ⟨.list vs, m⟩) :: (12, ⟨.nothing, loc⟩) :: st)
      ⟨.element loc (some vs), S⟩ := by
  have haction := (list_action (kind_lt' (some (.sym .comma, l))) (listPlace_lt vs)).1
  exact .shift haction .refl (.element h)

theorem Models.rbracket (h : Models b S st) (hb : b.top ∈ exprStates)
    (vs : ConstantListValueType) (loc l m : Location) :
    Reaches b (.sym .rbracket, l) ((listState vs, ⟨.list vs, m⟩) :: (12, ⟨.nothing, loc⟩) :: st)
      ⟨.operator ⟨.list (join loc l) vs, join loc l⟩, S⟩ := by
  obtain ⟨-, -, hclosed⟩ := closed_lists _ (listPlace_lt vs)
  have haction := (list_action (kind_lt' (some (.sym .rbracket, l))) (listPlace_lt vs)).1
  have hsettles := hclosed.settles (x := ⟨.nothing, l⟩)
    [(listState vs, ⟨.list vs, m⟩), (12, ⟨.nothing, loc⟩)] rfl st
  simp only [actions, rule_list] at hsettles
  exact .shift haction (hsettles.trans (settles_term (h.top_operand hb) (by decide) _))
    (.operator h (by simp))

/-! ### Steps -/

theorem termStates_not_start : ∀ state ∈ termStates, state ∉ startStates := by decide

/-- **A token that the machine reads is shifted**, and the parser comes to the configuration that
the machine comes to. -/
theorem ConfigModels.step {c' : Config} (h : ConfigModels b c st) (hb : b.top ∈ exprStates)
    (hstep : Athena.step c tok = some c') : Reaches b tok st c' := by
  cases h with
  | operand h hst =>
    exact h.operand hb (fun hstart => absurd hstart (termStates_not_start _ hst)) hstep
  | name h =>
    have haction := state_action (kind_lt' (some tok)) (by decide : 40 ∈ otherStates)
    by_cases hopen : Follow.of tok.1 = .open_
    · exact h.name_open (haction.trans (if_pos (kind_lparen.mpr hopen))) hopen hstep
    · exact h.name_operator hb (haction.trans (if_neg fun hk => hopen (kind_lparen.mp hk))) hopen
        hstep
  | @operator S st x h hx =>
    by_cases hopen : Follow.of tok.1 = .open_
    · have hstep : stepOperator x S tok = some c' := hstep
      simp only [stepOperator, hopen] at hstep
      cases hstep
    · exact h.operator hb hopen hstep
  | if_ h =>
    obtain ⟨tok, l⟩ := tok
    obtain ⟨rfl, rfl⟩ := step_opening_inv hstep
    have haction := state_action (kind_lt' (some (.sym .lparen, l))) (by decide : 3 ∈ otherStates)
    exact .shift haction .refl
      (.operand (@Models.args _ _ _ .if_ _ _ _ h) (show 42 ∈ termStates by decide))
  | switch_ h =>
    obtain ⟨tok, l⟩ := tok
    obtain ⟨rfl, rfl⟩ := step_opening_inv hstep
    have haction := state_action (kind_lt' (some (.sym .lparen, l))) (by decide : 4 ∈ otherStates)
    exact .shift haction .refl
      (.operand (@Models.args _ _ _ .switch_ _ _ _ h) (show 43 ∈ termStates by decide))
  | first h =>
    obtain ⟨tok, l⟩ := tok
    obtain ⟨v, vs, rfl, hvs, rfl⟩ := step_element_inv hstep
    exact h.first hvs _ l
  | element h =>
    obtain ⟨tok, l⟩ := tok
    obtain ⟨v, vs, rfl, hvs, rfl⟩ := step_element_inv hstep
    exact h.element hvs _ l _ _
  | separator h =>
    obtain ⟨tok, l⟩ := tok
    rcases step_separator_inv hstep with ⟨rfl, rfl⟩ | ⟨rfl, rfl⟩
    · exact h.comma _ _ l _
    · exact h.rbracket hb _ _ l _

/-! ## 4. Errors -/

/-- The machine reads no token here, or there is none. -/
def Stuck (c : Config) (t : Option Located) : Prop := ∀ tok, t = some tok → Athena.step c tok = none

/-- The parser is behind the expression that `b` waits for, if there is one, and at an error
otherwise. -/
def EndsTerm (b : Stack) (k : Nat) (st : Stack) : Option Term → Prop
  | some e => ∃ l, Leads k st ((yytables.goto b.top 60, ⟨.term e, l⟩) :: b)
  | none => Errs k st

theorem EndsTerm.of_leads {k : Nat} {st' : Stack} {e : Option Term} (hleads : Leads k st st')
    (h : EndsTerm b k st' e) : EndsTerm b k st e := by
  cases e with
  | some e =>
    obtain ⟨l, h⟩ := h
    exact ⟨l, hleads.trans h⟩
  | none => exact hleads.errs h

theorem errs_at {state k : Nat} (hstate : state ∈ readStates)
    (h : yytables.action state k = .error) (x : Symbol) (st : Stack) :
    Errs k ((state, x) :: st) :=
  .error (not_consistent _ hstate) h

theorem termStates_ne : ∀ state ∈ termStates, state ≠ 28 ∧ state ≠ 167 := by decide

theorem exprStates_ne : ∀ state ∈ exprStates, state ≠ 71 := by decide

theorem infixState_ne : ∀ op ∈ operators, infixState op ≠ 71 := by decide

theorem readStates_term : ∀ state ∈ termStates, state ∈ readStates := by decide

variable {t : Option Located}

/-- A token that begins no term is an error where only a term may begin. -/
theorem operandAction_error {state : Nat} (hstate : state ∈ termStates)
    (h : ∀ tok, t = some tok →
      Begin.of tok = .none ∨ Begin.of tok = .close ∧ state ≠ 71) :
    operandAction state (kind t) = .error := by
  obtain ⟨h28, h167⟩ := termStates_ne _ hstate
  have hstart := termStates_not_start _ hstate
  rcases t with _ | ⟨tok, loc⟩
  · simp [operandAction, kind, h28, h167]
  · have h := h _ rfl
    cases tok with
    | constant v => simp [Begin.of] at h
    | identifier name => simp [Begin.of] at h
    | sym s =>
      cases s <;> simp [Begin.of] at h <;>
        simp [operandAction, kind, symKind, h167, hstart, h]

theorem Models.top_ne (h : Models b S st) (hb : b.top ∈ exprStates)
    (hS : ∀ name loc S', S ≠ .args (.call name) loc [] :: S') : st.top ≠ 71 := by
  cases h with
  | nil => exact exprStates_ne _ hb
  | @unary S st op loc h => cases op <;> exact Nat.ne_of_beq_eq_false rfl
  | infix_ h => exact infixState_ne _ (mem_operators _)
  | paren h => exact Nat.ne_of_beq_eq_false rfl
  | @args S st head loc s x h =>
    cases head with
    | if_ => exact Nat.ne_of_beq_eq_false rfl
    | switch_ => exact Nat.ne_of_beq_eq_false rfl
    | call name => exact absurd rfl (hS name loc S)
  | next h hdone => exact Nat.ne_of_beq_eq_false rfl

theorem Models.operand_errs (h : Models b S st) (hb : b.top ∈ exprStates)
    (hst : st.top ∈ termStates) (hstuck : Stuck ⟨.operand, S⟩ t) : Errs (kind t) st := by
  refine .error (not_consistent _ (readStates_term _ hst))
    ((operand_action (kind_lt' t) (termStates_subset hst)).trans
      (operandAction_error hst fun tok htok => ?_))
  have hnone : stepOperand S tok = none := hstuck tok htok
  unfold stepOperand at hnone
  split at hnone
  · cases hnone
  · cases hnone
  · cases hnone
  · cases hnone
  · cases hnone
  · next hbegin =>
    refine .inr ⟨hbegin, h.top_ne hb fun name loc S' hS => ?_⟩
    subst hS
    cases hnone
  · next hbegin => exact .inl hbegin

theorem Stuck.kind_ne {s : Sym} {t : Option Located} (hstuck : Stuck c t)
    (h : ∀ l, Athena.step c (.sym s, l) ≠ none) : kind t ≠ symKind s := by
  intro hkind
  obtain ⟨l, rfl⟩ := kind_eq_sym hkind
  exact h l (hstuck _ rfl)

theorem Stuck.infixOf {x : Operand} (hstuck : Stuck ⟨.operator x, S⟩ t) :
    infixOf (kind t) = none := by
  rcases t with _ | tok
  · rfl
  · have hnone : stepOperator x S tok = none := hstuck tok rfl
    rw [infixOf_kind]
    split
    · next op hfollow =>
      simp only [stepOperator, hfollow] at hnone
      cases hnone
    · rfl

theorem argsState_read (head : Head) : argsState head ∈ readStates := by
  cases head with
  | if_ => exact (by decide : 98 ∈ readStates)
  | switch_ => exact (by decide : 100 ∈ readStates)
  | call name => exact (by decide : 125 ∈ readStates)

/-- **Behind a term**, the parser reduces up to the end of the term. -/
theorem Models.operator_stuck (h : Models b S st) (hb : b.top ∈ exprStates) {x : Operand}
    (hstuck : Stuck ⟨.operator x, S⟩ t) :
    EndsTerm b (kind t) ((behind st.top, operandSymbol x) :: st) (finish ⟨.operator x, S⟩) := by
  have hkind := kind_lt' t
  have hinfix := hstuck.infixOf
  obtain ⟨st', hleads, hended⟩ := h.ends hb hkind hinfix x
  refine .of_leads hleads ?_
  cases hreduce : Precedence.reduce Frame.rules 1 S x with
  | mk S' y =>
    rw [hreduce] at hended
    cases hended with
    | expr =>
      have hfinish : finish ⟨.operator x, S⟩ = some y.term := by simp only [finish, hreduce]
      rw [hfinish]
      exact ⟨y.loc, .refl⟩
    | @paren S' st' loc y h =>
      have hfinish : finish ⟨.operator x, S⟩ = none := by simp only [finish, hreduce]
      have hne : kind t ≠ 20 := hstuck.kind_ne (s := .rparen) fun l => by
        rw [step_paren hreduce l]
        exact Option.some_ne_none _
      rw [hfinish]
      exact errs_at (by decide) ((paren_action hkind).trans
        ((behindAction_none hinfix).trans (if_neg hne))) _ _
    | @args S' st' head loc done y s z l h =>
      have hfinish : finish ⟨.operator x, S⟩ = none := by simp only [finish, hreduce]
      have hne : kind t ≠ 20 := hstuck.kind_ne (s := .rparen) fun l => by
        rw [step_args hreduce l]
        exact Option.some_ne_none _
      have hne' : kind t ≠ 35 := hstuck.kind_ne (s := .comma) fun l => by
        rw [step_comma hreduce l]
        exact Option.some_ne_none _
      have haction := (args_action hkind head).trans
        ((if_neg hne).trans (if_neg hne'))
      rw [hfinish]
      exact errs_at (argsState_read head) haction _ _

theorem emplaceBack_of_place {vs : ConstantListValueType} {v : ConstantValueType}
    (h : constantKind v = 45 + listPlace vs) : emplaceBack (some vs) v ≠ none := by
  cases vs <;> cases v <;> first | exact Option.some_ne_none _ | simp [constantKind, listPlace] at h

theorem emplaceBack_first (v : ConstantValueType) : emplaceBack none v ≠ none := by
  cases v <;> exact Option.some_ne_none _

theorem readStates_list : ∀ i ∈ List.range 11, 60 + i ∈ readStates ∧ 102 + 2 * i ∈ readStates := by
  decide

/-- **A token that the machine does not read** ends the term, or is an error. -/
theorem ConfigModels.stuck (h : ConfigModels b c st) (hb : b.top ∈ exprStates)
    (hstuck : Stuck c t) : EndsTerm b (kind t) st (finish c) := by
  have hkind := kind_lt' t
  cases h with
  | operand h hst => exact h.operand_errs hb hst hstuck
  | @name S st name loc h =>
    have hne : kind t ≠ 19 := hstuck.kind_ne (s := .lparen) fun l => Option.some_ne_none _
    have haction := (state_action hkind (by decide : 40 ∈ otherStates)).trans (if_neg hne)
    exact .of_leads (name_leads haction name loc (h.top_operand hb)) (h.operator_stuck hb hstuck)
  | operator h hx => exact h.operator_stuck hb hstuck
  | if_ h =>
    have hne : kind t ≠ 19 := hstuck.kind_ne (s := .lparen) fun l => Option.some_ne_none _
    exact errs_at (by decide)
      ((state_action hkind (by decide : 3 ∈ otherStates)).trans (if_neg hne)) _ _
  | switch_ h =>
    have hne : kind t ≠ 19 := hstuck.kind_ne (s := .lparen) fun l => Option.some_ne_none _
    exact errs_at (by decide)
      ((state_action hkind (by decide : 4 ∈ otherStates)).trans (if_neg hne)) _ _
  | first h =>
    refine errs_at (by decide)
      ((state_action hkind (by decide : 12 ∈ otherStates)).trans (if_neg fun hconst => ?_)) _ _
    obtain ⟨v, l, rfl⟩ := kind_eq_constant hconst.1
    exact emplaceBack_first v (Option.map_eq_none_iff.mp (hstuck _ rfl))
  | @element S st loc vs x l h =>
    refine errs_at (readStates_list _ (listPlace_lt vs)).2
      ((list_action hkind (listPlace_lt vs)).2.trans (if_neg fun hconst => ?_)) _ _
    obtain ⟨v, l, rfl⟩ := kind_eq_constant (t := t) (by omega)
    exact emplaceBack_of_place hconst (Option.map_eq_none_iff.mp (hstuck _ rfl))
  | @separator S st loc vs l h =>
    have hne : kind t ≠ 35 := hstuck.kind_ne (s := .comma) fun l => Option.some_ne_none _
    have hne' : kind t ≠ 37 := hstuck.kind_ne (s := .rbracket) fun l => Option.some_ne_none _
    exact errs_at (readStates_list _ (listPlace_lt vs)).1
      ((list_action hkind (listPlace_lt vs)).1.trans ((if_neg hne).trans (if_neg hne'))) _ _

end Bison

end Athena

end JitFusion
