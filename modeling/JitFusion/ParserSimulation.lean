/-
# The generated parser reads programs

`ReaderModels` says how the machine of `ProgramReader` lies on the stack of states of the generated
parser: the blocks around the statement, the statements of the block, and what the machine waits
for.

* `ReaderModels.step`: a token that the machine reads is shifted, and the machine is modelled again.
* `ReaderModels.errs`: a token that it does not read is an error.
* `ReaderModels.finish`: the end of the text is shifted where the machine has a program.
* `parser_parses`: so the parser has the parses of `Grammar.Parses`, and no other.
-/
import JitFusion.TermSimulation

namespace JitFusion

namespace Athena

namespace Bison

open Lalr (Action)

/-! ## 1. Statements on the stack of states -/

/-- The statements of a block lie on the stack, behind `st₀`. -/
inductive DoneModels (st₀ : Stack) : List Stmt → Stack → Prop
  | nil : DoneModels st₀ [] st₀
  | some {stmts l} (hne : stmts ≠ []) :
    DoneModels st₀ stmts ((yytables.goto st₀.top 58, ⟨.stmts stmts, l⟩) :: st₀)

/-- The first block of a when-block. -/
inductive HeadModels (st : Stack) (w : OpenWhen) : Stack → Prop
  | mk {l x y z} : HeadModels st w ((166, x) :: (147, ⟨.stmts w.block, y⟩) :: (96, z) ::
    (41, ⟨.term w.cond, l⟩) :: (2, ⟨.nothing, w.keyword⟩) :: st)

/-- A when-block up to the bracket of its last block.  Only the end of the chain's location counts:
an empty chain lies behind the bracket. -/
inductive WhenModels (st : Stack) (w : OpenWhen) : Stack → Prop
  | mk {l us} (hl : ∀ k, join k l = join k w.last) (h : HeadModels st w us) :
    WhenModels st w ((169, ⟨.clauses w.chain, l⟩) :: us)

inductive OpenerModels (st : Stack) : Opener → Stack → Prop
  | when_ {keyword cond l x y} : OpenerModels st (.when_ keyword cond) ((148, x) :: (96, y) ::
    (41, ⟨.term cond, l⟩) :: (2, ⟨.nothing, keyword⟩) :: st)
  | elif {w cond ws l x y z} (hw : WhenModels st w ws) : OpenerModels st (.elif w cond)
    ((148, x) :: (174, y) :: (172, ⟨.term cond, l⟩) :: (170, z) :: ws)
  | else_ {w ws x y z} (hw : WhenModels st w ws) : OpenerModels st (.else_ w)
    ((148, x) :: (173, y) :: (171, z) :: ws)

/-- The blocks around a statement. -/
inductive OuterModels : List (Opener × List Stmt) → Stack → Prop
  | nil : OuterModels [] [(0, {})]
  | cons {outer before opener st₀ st st'} (h : OuterModels outer st₀)
    (hbefore : DoneModels st₀ before st) (hopener : OpenerModels st opener st') :
    OuterModels ((opener, before) :: outer) st'

/-- What a term is read for. -/
inductive PurposeModels (st : Stack) : Purpose → Stack → Prop
  | expr : PurposeModels st .expr st
  | assign {name l x} : PurposeModels st (.assign name) ((72, x) :: (16, ⟨.name name, l⟩) :: st)
  | let_ {name l x y} :
    PurposeModels st (.let_ name) ((95, x) :: (39, ⟨.name name, l⟩) :: (1, y) :: st)
  | when_ {keyword} : PurposeModels st (.when_ keyword) ((2, ⟨.nothing, keyword⟩) :: st)
  | elif {w ws x} (hw : WhenModels st w ws) : PurposeModels st (.elif w) ((170, x) :: ws)

inductive ModeModels (st : Stack) : ReaderMode → Stack → Prop
  | start : ModeModels st .start st
  | name {name loc} : ModeModels st (.name name loc) ((16, ⟨.name name, loc⟩) :: st)
  | let_ {x} : ModeModels st .let_ ((1, x) :: st)
  | letName {name l x} : ModeModels st (.letName name) ((39, ⟨.name name, l⟩) :: (1, x) :: st)
  | term {purpose b c st'} (hpurpose : PurposeModels st purpose b) (hc : ConfigModels b c st') :
    ModeModels st (.term purpose c) st'
  | brace {w ws x} (hw : WhenModels st w ws) : ModeModels st (.brace w) ((171, x) :: ws)
  | chain {w ws} (hw : WhenModels st w ws) : ModeModels st (.chain w) ws

/-- The parser is where the machine is. -/
inductive ReaderModels : Reader → Stack → Prop
  | mk {mode done outer st₀ st st'} (houter : OuterModels outer st₀)
    (hdone : DoneModels st₀ done st) (hmode : ModeModels st mode st') :
    ReaderModels ⟨mode, done, outer⟩ st'

/-- The parser shifts the token and comes to where the machine is. -/
def ReachesReader (tok : Located) (st : Stack) (r : Reader) : Prop :=
  ∃ st₁ st₂ : Stack, Takes (some tok) st st₁ ∧ Settles st₁ st₂ ∧ ReaderModels r st₂

variable {tok : Located} {st₀ st : Stack} {r : Reader} {done : List Stmt}
  {outer : List (Opener × List Stmt)}

theorem ReachesReader.shift {s : Nat} {st₂ : Stack}
    (h : yytables.action st.top (kind (some tok)) = .shift s)
    (hsettles : Settles ((s, Bison.shift (some tok)) :: st) st₂) (hr : ReaderModels r st₂) :
    ReachesReader tok st r :=
  ⟨_, st₂, Lalr.Takes.shift (A := actions) (t := some tok) h, hsettles, hr⟩

theorem ReachesReader.of_leads {st' : Stack} (hleads : Leads (kind (some tok)) st st')
    (h : ReachesReader tok st' r) : ReachesReader tok st r := by
  obtain ⟨st₁, st₂, htakes, hsettles, hr⟩ := h
  exact ⟨st₁, st₂, hleads.takes htakes, hsettles, hr⟩

/-! ### Tops -/

theorem OuterModels.top (h : OuterModels outer st₀) :
    outer = [] ∧ st₀.top = 0 ∨ outer ≠ [] ∧ st₀.top = 148 := by
  cases h with
  | nil => exact .inl ⟨rfl, rfl⟩
  | cons h hbefore hopener =>
    refine .inr ⟨List.cons_ne_nil _ _, ?_⟩
    cases hopener <;> rfl

theorem DoneModels.top_start (houter : OuterModels outer st₀) (h : DoneModels st₀ done st) :
    st.top ∈ startStates := by
  obtain ⟨h28, h167, -⟩ := statement_gotos
  rcases houter.top with ⟨-, htop⟩ | ⟨-, htop⟩ <;> cases h with
  | nil =>
    rw [htop]
    decide
  | some hne =>
    rw [Lalr.Stack.top_cons, htop]
    first
      | rw [h28]
        decide
      | rw [h167]
        decide

theorem startStates_expr : ∀ state ∈ startStates, state ∈ exprStates := by decide

/-- **A statement more.** -/
theorem DoneModels.settles (houter : OuterModels outer st₀) (h : DoneModels st₀ done st)
    (s : Stmt) (l : Location) : ∃ st', Settles ((yytables.goto st.top 59, ⟨.stmt s, l⟩) :: st) st' ∧
      DoneModels st₀ (done ++ [s]) st' := by
  obtain ⟨h28, h167, h29, h29', h74, h74', -⟩ := statement_gotos
  obtain ⟨-, -, -, -, hfirst, hnext⟩ := closed_statements
  cases h with
  | nil =>
    have hgoto : yytables.goto st₀.top 59 = 29 := by
      rcases houter.top with ⟨-, htop⟩ | ⟨-, htop⟩
      · rw [htop, h29]
      · rw [htop, h29']
    rw [hgoto]
    exact ⟨_, hfirst.settles (x := ⟨.stmt s, l⟩) [] rfl st₀, .some (List.cons_ne_nil _ _)⟩
  | @some _ k hne =>
    have hgoto : yytables.goto (yytables.goto st₀.top 58) 59 = 74 := by
      rcases houter.top with ⟨-, htop⟩ | ⟨-, htop⟩
      · rw [htop, h28, h74]
      · rw [htop, h167, h74']
    rw [Lalr.Stack.top_cons, hgoto]
    exact ⟨_, hnext.settles (x := ⟨.stmt s, l⟩)
      [(yytables.goto st₀.top 58, ⟨.stmts done, k⟩)] rfl st₀,
      .some (List.append_ne_nil_of_right_ne_nil _ (List.cons_ne_nil _ _))⟩

/-! ## 2. Blocks -/

theorem Closed.settles_empty {state rule symbol : Nat} (h : Closed state rule 0 symbol)
    (x : Symbol) (st : Stack) : Settles ((state, x) :: st)
      ((yytables.goto state symbol, actions.reduce rule [] (some x)) :: (state, x) :: st) := by
  obtain ⟨hc, hdefault, hlen, hlhs⟩ := h
  have hone : Settles ((state, x) :: st)
      (Lalr.reduceBy yytables actions rule ([] ++ (state, x) :: st)) := .one hc hdefault
  rwa [Lalr.reduceBy_append hlen, hlhs] at hone

/-- A token that goes on with no statement ends the block. -/
theorem block_leads {k o : Nat} (hk : k < 57) (h : operandAction 167 k = .reduce 96)
    (block : List Stmt) (l : Location) (x y : Symbol) (st : Stack) :
    ∃ m, Leads k ((167, ⟨.stmts block, l⟩) :: (148, x) :: (o, y) :: st)
      ((yytables.goto o 80, ⟨.stmts block, m⟩) :: (o, y) :: st) := by
  have haction := (operand_action hk (by decide : 167 ∈ operandStates)).trans h
  have hleads := leads_reduce (x := ⟨.stmts block, l⟩) haction [(148, x)] block_rule.1
    ((o, y) :: st)
  rw [block_rule.2] at hleads
  exact ⟨_, hleads⟩

theorem HeadModels.top {w : OpenWhen} {us : Stack} (h : HeadModels st w us) : us.top = 166 := by
  cases h
  rfl

theorem HeadModels.clause {w w' : OpenWhen} {us : Stack} (h : HeadModels st w us)
    (hkeyword : w'.keyword = w.keyword) (hcond : w'.cond = w.cond) (hblock : w'.block = w.block) :
    HeadModels st w' us := by
  cases h
  rw [← hkeyword, ← hcond, ← hblock]
  exact .mk

theorem takes_shift {t : Option Located} {state s : Nat}
    (h : yytables.action state (kind t) = .shift s) (x : Symbol) (st : Stack) :
    Takes t ((state, x) :: st) ((s, Bison.shift t) :: (state, x) :: st) :=
  Lalr.Takes.shift (A := actions) (t := t) h

/-- **The closing bracket of a block.** -/
theorem OpenerModels.close {opener : Opener} (h : OpenerModels st opener st₀) (block : List Stmt)
    (l r : Location) : ∃ st₁ st₂ : Stack,
      Takes (some (.sym .rbrace, r)) ((167, ⟨.stmts block, l⟩) :: st₀) st₁ ∧ Settles st₁ st₂ ∧
        WhenModels st (opener.close block r) st₂ := by
  have hk := kind_lt' (some (.sym .rbrace, r))
  have htok : operandAction 167 (kind (some (.sym .rbrace, r))) = .reduce 96 := rfl
  have htakes {o b s : Nat} {y z : Symbol} {us : Stack}
      (hgoto : yytables.goto o 80 = b) (hb : b ∈ otherStates)
      (hs : stateAction b 40 = .shift s) : ∃ n,
        Takes (some (.sym .rbrace, r)) ((167, ⟨.stmts block, l⟩) :: (148, z) :: (o, y) :: us)
          ((s, ⟨.nothing, r⟩) :: (b, ⟨.stmts block, n⟩) :: (o, y) :: us) := by
    obtain ⟨n, hleads⟩ := block_leads (o := o) hk htok block l z y us
    rw [hgoto] at hleads
    exact ⟨n, hleads.takes (takes_shift ((state_action hk hb).trans hs) _ _)⟩
  obtain ⟨-, -, -, hchain, helse, helif⟩ := closed_blocks
  obtain ⟨-, -, -, hgoto, hgoto₁, hgoto₂, hgoto₃⟩ := block_gotos
  cases h with
  | @when_ keyword cond m x y =>
    obtain ⟨n, htakes⟩ := htakes hgoto₁ (by decide) rfl
    have hsettles := hchain.settles_empty ⟨.nothing, r⟩ ((147, ⟨.stmts block, n⟩) :: (96, y) ::
      (41, ⟨.term cond, m⟩) :: (2, ⟨.nothing, keyword⟩) :: st)
    rw [hgoto] at hsettles
    exact ⟨_, _, htakes, hsettles, .mk (fun _ => rfl) .mk⟩
  | @elif w cond ws m x y z hw =>
    cases hw with
    | @mk l us hl hus =>
      obtain ⟨n, htakes⟩ := htakes hgoto₃ (by decide) rfl
      have hsettles := helif.settles (x := ⟨.nothing, r⟩) [(176, ⟨.stmts block, n⟩), (174, y),
        (172, ⟨.term cond, m⟩), (170, z), (169, ⟨.clauses w.chain, l⟩)] rfl us
      rw [hus.top, hgoto] at hsettles
      exact ⟨_, _, htakes, hsettles, .mk (fun _ => rfl) (hus.clause rfl rfl rfl)⟩
  | @else_ w ws x y z hw =>
    cases hw with
    | @mk l us hl hus =>
      obtain ⟨n, htakes⟩ := htakes hgoto₂ (by decide) rfl
      have hsettles := helse.settles (x := ⟨.nothing, r⟩) [(175, ⟨.stmts block, n⟩), (173, y),
        (171, z), (169, ⟨.clauses w.chain, l⟩)] rfl us
      rw [hus.top, hgoto] at hsettles
      exact ⟨_, _, htakes, hsettles, .mk (fun _ => rfl) (hus.clause rfl rfl rfl)⟩

/-- A token that neither goes on with the block nor closes it. -/
theorem OpenerModels.errs {opener : Opener} (h : OpenerModels st opener st₀) {k : Nat}
    (hk : k < 57) (haction : operandAction 167 k = .reduce 96) (hne : k ≠ 40)
    (block : List Stmt) (l : Location) : Errs k ((167, ⟨.stmts block, l⟩) :: st₀) := by
  obtain ⟨-, -, -, -, hgoto₁, hgoto₂, hgoto₃⟩ := block_gotos
  cases h with
  | when_ =>
    obtain ⟨n, hleads⟩ := block_leads (o := 96) hk haction block l _ _ _
    rw [hgoto₁] at hleads
    exact hleads.errs (errs_at (by decide)
      ((state_action hk (by decide : 147 ∈ otherStates)).trans (if_neg hne)) _ _)
  | elif hw =>
    obtain ⟨n, hleads⟩ := block_leads (o := 174) hk haction block l _ _ _
    rw [hgoto₃] at hleads
    exact hleads.errs (errs_at (by decide)
      ((state_action hk (by decide : 176 ∈ otherStates)).trans (if_neg hne)) _ _)
  | else_ hw =>
    obtain ⟨n, hleads⟩ := block_leads (o := 173) hk haction block l _ _ _
    rw [hgoto₂] at hleads
    exact hleads.errs (errs_at (by decide)
      ((state_action hk (by decide : 175 ∈ otherStates)).trans (if_neg hne)) _ _)

/-! ## 3. The beginning of a statement -/

theorem startStates_subset {state : Nat} (h : state ∈ startStates) : state ∈ operandStates :=
  List.mem_append_left _ h

/-- Where the statements of the block lie, the parser is in state 167 inside a block. -/
theorem DoneModels.top_eq (houter : OuterModels outer st₀) (h : DoneModels st₀ done st) :
    (st.top = 28 ↔ outer = [] ∧ done ≠ []) ∧ (st.top = 167 ↔ outer ≠ [] ∧ done ≠ []) := by
  obtain ⟨h28, h167, -⟩ := statement_gotos
  rcases houter.top with ⟨rfl, htop⟩ | ⟨hne, htop⟩ <;> cases h with
  | nil => simp [htop]
  | some hdone => simp_all

theorem start_step (houter : OuterModels outer st₀) (hdone : DoneModels st₀ done st)
    (h : stepStart done outer tok = some r) : ReachesReader tok st r := by
  have htop := hdone.top_start houter
  have haction := operand_action (kind_lt' (some tok)) (startStates_subset htop)
  unfold stepStart at h
  split at h
  · next name heq =>
    cases h
    rw [eq_of_fst heq] at haction ⊢
    have hs : operandAction st.top 44 = .shift 16 := congrArg Action.shift (if_pos htop)
    exact .shift (haction.trans hs) .refl (.mk houter hdone .name)
  · next heq =>
    cases h
    rw [eq_of_fst heq] at haction ⊢
    have hs : operandAction st.top 3 = .shift 1 := by simp [operandAction, htop]
    exact .shift (haction.trans hs) .refl (.mk houter hdone .let_)
  · next heq =>
    cases h
    rw [eq_of_fst heq] at haction ⊢
    have hs : operandAction st.top 4 = .shift 2 := by simp [operandAction, htop]
    exact .shift (haction.trans hs) .refl (.mk houter hdone
      (.term .when_ (.operand .nil (show 2 ∈ termStates by decide))))
  · next heq =>
    split at h
    · next stmt stmts opener before outer =>
      cases h
      rw [eq_of_fst heq]
      have h167 := ((hdone.top_eq houter).2).mpr ⟨List.cons_ne_nil _ _, List.cons_ne_nil _ _⟩
      cases hdone with
      | @some _ l hne =>
        rw [Lalr.Stack.top_cons] at h167
        rw [h167]
        cases houter with
        | cons houter hbefore hopener =>
          obtain ⟨st₁, st₂, htakes, hsettles, hw⟩ := hopener.close (stmt :: stmts) l tok.2
          exact ⟨st₁, st₂, htakes, hsettles, .mk houter hbefore (.chain hw)⟩
    · cases h
  · next hname _ _ _ =>
    obtain ⟨c, hstep, rfl⟩ := Option.map_eq_some_iff.mp h
    have hb := startStates_expr _ htop
    obtain ⟨st₁, st₂, htakes, hsettles, hc⟩ := (Models.nil (b := st)).operand hb
      (fun _ name heq => hname name heq) hstep
    exact ⟨st₁, st₂, htakes, hsettles, .mk houter hdone (.term .expr hc)⟩

variable {t : Option Located}

/-- What begins no statement. -/
theorem startAction_stuck {state : Nat} (hstate : state ∈ startStates)
    (hend : t = none → state ≠ 28) (h : ∀ tok, t = some tok →
      (Begin.of tok = .none ∨ Begin.of tok = .close) ∧ tok.1 ≠ .sym .let_ ∧ tok.1 ≠ .sym .when_) :
    operandAction state (kind t) = if state = 167 then .reduce 96 else .error := by
  have h71 : state ≠ 71 := exprStates_ne _ (startStates_expr _ hstate)
  rcases t with _ | ⟨tok, loc⟩
  · simp [operandAction, kind, hend rfl, h71]
  · have h := h _ rfl
    cases tok with
    | constant v => simp [Begin.of] at h
    | identifier name => simp [Begin.of] at h
    | sym s =>
      cases s <;> simp [Begin.of] at h <;> simp [operandAction, kind, symKind, h71]

theorem readStates_start : ∀ state ∈ startStates, state ∈ readStates := by decide

/-- **What neither begins a statement nor closes the block is an error.** -/
theorem start_errs (houter : OuterModels outer st₀) (hdone : DoneModels st₀ done st)
    (hstuck : ∀ tok, t = some tok → stepStart done outer tok = none)
    (hend : t = none → ¬ (outer = [] ∧ done ≠ [])) : Errs (kind t) st := by
  have hk := kind_lt' t
  have htop := hdone.top_start houter
  obtain ⟨h28, h167⟩ := hdone.top_eq houter
  have haction : operandAction st.top (kind t) = if st.top = 167 then .reduce 96 else .error := by
    refine startAction_stuck htop (fun ht h => hend ht (h28.mp h)) fun tok htok => ?_
    have hnone := hstuck tok htok
    refine ⟨?_, ?_, ?_⟩
    · obtain ⟨tok, loc⟩ := tok
      cases tok with
      | constant v => simp [stepStart, step, stepOperand, Begin.of] at hnone
      | identifier name => simp [stepStart] at hnone
      | sym s =>
        cases s <;> simp [Begin.of] <;> simp [stepStart, step, stepOperand, Begin.of] at hnone
    · intro heq
      simp [stepStart, heq] at hnone
    · intro heq
      simp [stepStart, heq] at hnone
  by_cases hblock : st.top = 167
  · rw [hblock, if_pos rfl] at haction
    obtain ⟨hout, hne⟩ := h167.mp hblock
    have hne40 : kind t ≠ 40 := by
      intro h40
      obtain ⟨l, rfl⟩ := kind_eq_sym (s := .rbrace) h40
      have hnone := hstuck _ rfl
      cases done with
      | nil => exact hne rfl
      | cons stmt stmts =>
        cases outer with
        | nil => exact hout rfl
        | cons o outer => simp [stepStart] at hnone
    cases hdone with
    | nil => exact absurd rfl hne
    | @some _ l hne =>
      rw [Lalr.Stack.top_cons] at hblock
      rw [hblock]
      cases houter with
      | nil => exact absurd rfl hout
      | cons houter hbefore hopener => exact hopener.errs hk haction hne40 done l
  · rw [if_neg hblock] at haction
    exact .error (not_consistent _ (readStates_start _ htop))
      ((operand_action hk (startStates_subset htop)).trans haction)

/-! ## 4. The end of an expression -/

/-- The parser does with a token what the machine does with it in the configuration. -/
structure Answers (b : Stack) (t : Option Located) (c : Config) (st : Stack) : Prop where
  reads : ∀ tok c', t = some tok → step c tok = some c' → Reaches b tok st c'
  stuck : Stuck c t → EndsTerm b (kind t) st (finish c)

variable {b : Stack} {c : Config} {purpose : Purpose}

theorem ConfigModels.answers (h : ConfigModels b c st) (hb : b.top ∈ exprStates)
    (t : Option Located) : Answers b t c st where
  reads _ _ ht hstep := by
    subst ht
    exact h.step hb hstep
  stuck hstuck := h.stuck hb hstuck

/-- A name at the beginning of a statement, which is not that of a variable. -/
theorem name_answers {name : String} {loc : Location} (hst : st.top ∈ startStates)
    (ht : kind t ≠ 29) : Answers st t ⟨.operator ⟨.identifier loc name, loc⟩, []⟩
      ((16, ⟨.name name, loc⟩) :: st) := by
  have hb := startStates_expr _ hst
  have haction := state_action (kind_lt' t) (by decide : 16 ∈ otherStates)
  have hreduce (hk : kind t ≠ 19) : yytables.action 16 (kind t) = .reduce 13 :=
    haction.trans ((if_neg hk).trans (if_neg ht))
  constructor
  · rintro tok c' rfl hstep
    by_cases hopen : Follow.of tok.1 = .open_
    · exact (Models.nil (b := st)).name_open
        (haction.trans (if_pos (kind_lparen.mpr hopen))) hopen hstep
    · exact (Models.nil (b := st)).name_operator hb
        (hreduce fun hk => hopen (kind_lparen.mp hk)) hopen hstep
  · intro hstuck
    have hne : kind t ≠ 19 := hstuck.kind_ne (s := .lparen) fun l => Option.some_ne_none _
    exact .of_leads (name_leads (hreduce hne) name loc (startStates_subset hst))
      ((Models.nil (b := st)).operator_stuck hb hstuck)

theorem step_semi (c : Config) (l : Location) : step c (.sym .semi, l) = none := by
  obtain ⟨mode, S⟩ := c
  cases mode <;> rfl

theorem step_lbrace (c : Config) (l : Location) : step c (.sym .lbrace, l) = none := by
  obtain ⟨mode, S⟩ := c
  cases mode <;> rfl

theorem PurposeModels.base (h : PurposeModels st purpose b) (hst : st.top ∈ startStates) :
    b.top ∈ exprStates := by
  cases h with
  | expr => exact startStates_expr _ hst
  | assign => exact (by decide : 72 ∈ exprStates)
  | let_ => exact (by decide : 95 ∈ exprStates)
  | when_ => exact (by decide : 2 ∈ exprStates)
  | elif hw => exact (by decide : 170 ∈ exprStates)

/-- The end of a statement. -/
theorem PurposeModels.semi (h : PurposeModels st purpose b) (hst : st.top ∈ startStates)
    {e : Term} {stmt : Stmt} (hstmt : purpose.stmt e = some stmt) (m r : Location) :
    ∃ l st₁, Takes (some (.sym .semi, r)) ((yytables.goto b.top 60, ⟨.term e, m⟩) :: b) st₁ ∧
      Settles st₁ ((yytables.goto st.top 59, ⟨.stmt stmt, l⟩) :: st) := by
  have hk := kind_lt' (some (.sym .semi, r))
  obtain ⟨hexpr, hassign, hlet, -⟩ := expr_gotos
  obtain ⟨hclosed, hclosed₁, hclosed₂, -⟩ := closed_statements
  cases h with
  | expr =>
    cases hstmt
    rw [hexpr _ hst]
    exact ⟨_, _, takes_shift (state_action hk (by decide : 30 ∈ otherStates)) _ _,
      hclosed.settles [(30, ⟨.term e, m⟩)] rfl st⟩
  | @assign name l x =>
    cases hstmt
    rw [Lalr.Stack.top_cons, hassign]
    exact ⟨_, _, takes_shift (state_action hk (by decide : 126 ∈ otherStates)) _ _,
      hclosed₁.settles [(126, ⟨.term e, m⟩), (72, x), (16, ⟨.name name, l⟩)] rfl st⟩
  | @let_ name l x y =>
    cases hstmt
    rw [Lalr.Stack.top_cons, hlet]
    exact ⟨_, _, takes_shift (state_action hk (by decide : 146 ∈ otherStates)) _ _,
      hclosed₂.settles [(146, ⟨.term e, m⟩), (95, x), (39, ⟨.name name, l⟩), (1, y)] rfl st⟩
  | when_ => cases hstmt
  | elif hw => cases hstmt

/-- The bracket behind a condition. -/
theorem PurposeModels.lbrace (h : PurposeModels st purpose b) {e : Term} {opener : Opener}
    (hopener : purpose.opener e = some opener) (m r : Location) : ∃ st₁ st₂ : Stack,
      Takes (some (.sym .lbrace, r)) ((yytables.goto b.top 60, ⟨.term e, m⟩) :: b) st₁ ∧
        Settles st₁ st₂ ∧ OpenerModels st opener st₂ := by
  have hk := kind_lt' (some (.sym .lbrace, r))
  obtain ⟨-, -, -, hwhen, helif⟩ := expr_gotos
  obtain ⟨hclosed, -, hclosed', -⟩ := closed_blocks
  obtain ⟨hgoto, -, hgoto', -⟩ := block_gotos
  cases h with
  | expr => cases hopener
  | assign => cases hopener
  | let_ => cases hopener
  | @when_ keyword =>
    cases hopener
    have hsettles := hclosed.settles_empty ⟨.nothing, r⟩
      ((41, ⟨.term e, m⟩) :: (2, ⟨.nothing, keyword⟩) :: st)
    rw [hgoto] at hsettles
    rw [Lalr.Stack.top_cons, hwhen]
    exact ⟨_, _, takes_shift (state_action hk (by decide : 41 ∈ otherStates)) _ _, hsettles, .when_⟩
  | @elif w ws x hw =>
    cases hopener
    have hsettles := hclosed'.settles_empty ⟨.nothing, r⟩ ((172, ⟨.term e, m⟩) :: (170, x) :: ws)
    rw [hgoto'] at hsettles
    rw [Lalr.Stack.top_cons, helif]
    exact ⟨_, _, takes_shift (state_action hk (by decide : 172 ∈ otherStates)) _ _, hsettles,
      .elif hw⟩

/-- What does not end the expression. -/
theorem PurposeModels.errs (h : PurposeModels st purpose b) (hst : st.top ∈ startStates)
    {k : Nat} (hk : k < 57) {e : Term} (hsemi : purpose.stmt e ≠ none → k ≠ 38)
    (hlbrace : purpose.opener e ≠ none → k ≠ 39) (m : Location) :
    Errs k ((yytables.goto b.top 60, ⟨.term e, m⟩) :: b) := by
  obtain ⟨hexpr, hassign, hlet, hwhen, helif⟩ := expr_gotos
  cases h with
  | expr =>
    rw [hexpr _ hst]
    exact errs_at (by decide) ((state_action hk (by decide : 30 ∈ otherStates)).trans
      (if_neg (hsemi (Option.some_ne_none _)))) _ _
  | assign =>
    rw [Lalr.Stack.top_cons, hassign]
    exact errs_at (by decide) ((state_action hk (by decide : 126 ∈ otherStates)).trans
      (if_neg (hsemi (Option.some_ne_none _)))) _ _
  | let_ =>
    rw [Lalr.Stack.top_cons, hlet]
    exact errs_at (by decide) ((state_action hk (by decide : 146 ∈ otherStates)).trans
      (if_neg (hsemi (Option.some_ne_none _)))) _ _
  | when_ =>
    rw [Lalr.Stack.top_cons, hwhen]
    exact errs_at (by decide) ((state_action hk (by decide : 41 ∈ otherStates)).trans
      (if_neg (hlbrace (Option.some_ne_none _)))) _ _
  | elif hw =>
    rw [Lalr.Stack.top_cons, helif]
    exact errs_at (by decide) ((state_action hk (by decide : 172 ∈ otherStates)).trans
      (if_neg (hlbrace (Option.some_ne_none _)))) _ _

theorem term_step {st' : Stack} (houter : OuterModels outer st₀) (hdone : DoneModels st₀ done st)
    (hpurpose : PurposeModels st purpose b) (hc : Answers b (some tok) c st')
    (h : stepTerm purpose c done outer tok = some r) : ReachesReader tok st' r := by
  have hst := hdone.top_start houter
  unfold stepTerm at h
  split at h
  · next heq =>
    obtain ⟨e, hfin, h⟩ := Option.bind_eq_some_iff.mp h
    obtain ⟨stmt, hstmt, rfl⟩ := Option.map_eq_some_iff.mp h
    rw [eq_of_fst heq] at hc ⊢
    have hends := hc.stuck fun tok htok => by
      cases htok
      exact step_semi c _
    rw [hfin] at hends
    obtain ⟨m, hleads⟩ := hends
    obtain ⟨l, st₁, htakes, hsettles⟩ := hpurpose.semi hst hstmt m tok.2
    obtain ⟨st₂, hsettles', hdone⟩ := hdone.settles houter stmt l
    exact ⟨st₁, st₂, hleads.takes htakes, hsettles.trans hsettles', .mk houter hdone .start⟩
  · next heq =>
    obtain ⟨e, hfin, h⟩ := Option.bind_eq_some_iff.mp h
    obtain ⟨opener, hopener, rfl⟩ := Option.map_eq_some_iff.mp h
    rw [eq_of_fst heq] at hc ⊢
    have hends := hc.stuck fun tok htok => by
      cases htok
      exact step_lbrace c _
    rw [hfin] at hends
    obtain ⟨m, hleads⟩ := hends
    obtain ⟨st₁, st₂, htakes, hsettles, hmodels⟩ := hpurpose.lbrace hopener m tok.2
    exact ⟨st₁, st₂, hleads.takes htakes, hsettles, .mk (houter.cons hdone hmodels) .nil .start⟩
  · obtain ⟨c', hstep, rfl⟩ := Option.map_eq_some_iff.mp h
    obtain ⟨st₁, st₂, htakes, hsettles, hmodels⟩ := hc.reads tok c' rfl hstep
    exact ⟨st₁, st₂, htakes, hsettles, .mk houter hdone (.term hpurpose hmodels)⟩

theorem term_errs {st' : Stack} (houter : OuterModels outer st₀) (hdone : DoneModels st₀ done st)
    (hpurpose : PurposeModels st purpose b) (hc : Answers b t c st')
    (hstuck : ∀ tok, t = some tok → stepTerm purpose c done outer tok = none) :
    Errs (kind t) st' := by
  have hstep : Stuck c t := by
    rintro ⟨tok, l⟩ rfl
    have hnone := hstuck _ rfl
    unfold stepTerm at hnone
    split at hnone
    · next heq =>
      cases heq
      exact step_semi c l
    · next heq =>
      cases heq
      exact step_lbrace c l
    · exact Option.map_eq_none_iff.mp hnone
  have hends := hc.stuck hstep
  cases hfin : finish c with
  | none =>
    rw [hfin] at hends
    exact hends
  | some e =>
    rw [hfin] at hends
    obtain ⟨m, hleads⟩ := hends
    refine hleads.errs
      (hpurpose.errs (hdone.top_start houter) (kind_lt' t) (fun hne hk => ?_) (fun hne hk => ?_) m)
    · obtain ⟨l, rfl⟩ := kind_eq_sym (s := .semi) hk
      have hnone := hstuck _ rfl
      simp only [stepTerm, hfin, Option.bind_some] at hnone
      exact hne (Option.map_eq_none_iff.mp hnone)
    · obtain ⟨l, rfl⟩ := kind_eq_sym (s := .lbrace) hk
      have hnone := hstuck _ rfl
      simp only [stepTerm, hfin, Option.bind_some] at hnone
      exact hne (Option.map_eq_none_iff.mp hnone)

/-! ## 5. Steps -/

/-- **A when-block that does not go on is a statement.** -/
theorem WhenModels.leads {w : OpenWhen} {ws : Stack} {k : Nat} (h : WhenModels st w ws)
    (houter : OuterModels outer st₀) (hdone : DoneModels st₀ done st) (hk : k < 57)
    (helif : k ≠ 6) (helse : k ≠ 7) :
    ∃ st', Leads k ws st' ∧ DoneModels st₀ (done ++ [w.stmt]) st' := by
  have hst := hdone.top_start houter
  have haction := (state_action hk (by decide : 169 ∈ otherStates)).trans
    ((if_neg helif).trans (if_neg helse))
  obtain ⟨-, -, -, hwhen, -⟩ := closed_statements
  obtain ⟨-, -, -, -, -, -, hgoto⟩ := statement_gotos
  cases h with
  | @mk l us hl hus =>
    cases hus with
    | @mk m x y z =>
      have hleads := leads_reduce (x := ⟨.clauses w.chain, l⟩) haction [(166, x),
        (147, ⟨.stmts w.block, y⟩), (96, z), (41, ⟨.term w.cond, m⟩), (2, ⟨.nothing, w.keyword⟩)]
        when_rule.1 st
      rw [when_rule.2, hgoto _ hst] at hleads
      have hvalue : actions.reduce 91 [⟨.nothing, w.keyword⟩, ⟨.term w.cond, m⟩, z,
          ⟨.stmts w.block, y⟩, x, ⟨.clauses w.chain, l⟩] (st.head?.map Prod.snd) =
          ⟨.stmt w.stmt, join w.keyword w.last⟩ := by
        rw [OpenWhen.stmt, ← hl]
        rfl
      have hcopy := hwhen.copies rfl ⟨.stmt w.stmt, join w.keyword w.last⟩ st
      obtain ⟨st', hsettles, hmodels⟩ :=
        hdone.settles houter w.stmt (join w.keyword w.last)
      rw [← hvalue] at hcopy hsettles
      exact ⟨st', hleads.trans ((hcopy.trans hsettles).leads k), hmodels⟩

/-- **A token that the machine reads is shifted**, and the parser comes to where the machine
comes to. -/
theorem ReaderModels.step {r' : Reader} (h : ReaderModels r st)
    (hstep : stepReader r tok = some r') : ReachesReader tok st r' := by
  obtain @⟨mode, done, outer, st₀, st, st', houter, hdone, hmode⟩ := h
  have hst := hdone.top_start houter
  have hk := kind_lt' (some tok)
  cases hmode with
  | start => exact start_step houter hdone hstep
  | @name name loc =>
    simp only [stepReader] at hstep
    split at hstep
    · next heq =>
      cases hstep
      have haction := state_action hk (by decide : 16 ∈ otherStates)
      rw [eq_of_fst heq] at haction ⊢
      exact .shift haction .refl (.mk houter hdone
        (.term .assign (.operand .nil (show 72 ∈ termStates by decide))))
    · next hne =>
      refine term_step houter hdone .expr (name_answers hst fun hk => ?_) hstep
      obtain ⟨l, htok⟩ := kind_eq_sym (s := .assignment) hk
      cases htok
      exact hne rfl
  | let_ =>
    simp only [stepReader] at hstep
    split at hstep
    · next name heq =>
      cases hstep
      have haction := state_action hk (by decide : 1 ∈ otherStates)
      rw [eq_of_fst heq] at haction ⊢
      exact .shift haction .refl (.mk houter hdone .letName)
    · cases hstep
  | letName =>
    simp only [stepReader] at hstep
    split at hstep
    · next heq =>
      cases hstep
      have haction := state_action hk (by decide : 39 ∈ otherStates)
      rw [eq_of_fst heq] at haction ⊢
      exact .shift haction .refl (.mk houter hdone
        (.term .let_ (.operand .nil (show 95 ∈ termStates by decide))))
    · cases hstep
  | term hpurpose hc =>
    exact term_step houter hdone hpurpose (hc.answers (hpurpose.base hst) _) hstep
  | brace hw =>
    simp only [stepReader] at hstep
    split at hstep
    · next heq =>
      cases hstep
      have haction := state_action hk (by decide : 171 ∈ otherStates)
      rw [eq_of_fst heq] at haction ⊢
      have hsettles := closed_blocks.2.1.settles_empty ⟨.nothing, tok.2⟩
      rw [block_gotos.2.1] at hsettles
      exact .shift haction (hsettles _) (.mk (houter.cons hdone (.else_ hw)) .nil .start)
    · cases hstep
  | @chain w ws hw =>
    simp only [stepReader] at hstep
    split at hstep
    · next heq =>
      cases hstep
      obtain @⟨l, us, hl, hus⟩ := hw
      have haction := state_action hk (by decide : 169 ∈ otherStates)
      rw [eq_of_fst heq] at haction ⊢
      exact .shift haction .refl (.mk houter hdone
        (.term (.elif (.mk hl hus)) (.operand .nil (show 170 ∈ termStates by decide))))
    · next heq =>
      cases hstep
      obtain @⟨l, us, hl, hus⟩ := hw
      have haction := state_action hk (by decide : 169 ∈ otherStates)
      rw [eq_of_fst heq] at haction ⊢
      exact .shift haction .refl (.mk houter hdone (.brace (.mk hl hus)))
    · next helif helse =>
      have hne : kind (some tok) ≠ 6 := fun hk => by
        obtain ⟨l, htok⟩ := kind_eq_sym (s := .elif) hk
        cases htok
        exact helif rfl
      have hne' : kind (some tok) ≠ 7 := fun hk => by
        obtain ⟨l, htok⟩ := kind_eq_sym (s := .else_) hk
        cases htok
        exact helse rfl
      obtain ⟨st₁, hleads, hdone⟩ := hw.leads houter hdone hk hne hne'
      exact .of_leads hleads (start_step houter hdone hstep)

/-- **What the machine does not read is an error.** -/
theorem ReaderModels.errs (h : ReaderModels r st)
    (hstuck : ∀ tok, t = some tok → stepReader r tok = none)
    (hend : t = none → finishReader r = none) : Errs (kind t) st := by
  obtain @⟨mode, done, outer, st₀, st, st', houter, hdone, hmode⟩ := h
  have hst := hdone.top_start houter
  have hk := kind_lt' t
  cases hmode with
  | start =>
    refine start_errs houter hdone hstuck fun ht hprogram => ?_
    obtain ⟨hout, hne⟩ := hprogram
    have hnone := hend ht
    simp [finishReader, hout, hne] at hnone
  | @name name loc =>
    have hne : kind t ≠ 29 := fun hk => by
      obtain ⟨l, rfl⟩ := kind_eq_sym (s := .assignment) hk
      cases hstuck _ rfl
    refine term_errs houter hdone .expr (name_answers hst hne) fun tok htok => ?_
    have hnone := hstuck tok htok
    simp only [stepReader] at hnone
    split at hnone
    · cases hnone
    · exact hnone
  | let_ =>
    have hne : kind t ≠ 44 := fun hk => by
      obtain ⟨name, l, rfl⟩ := kind_eq_identifier hk
      cases hstuck _ rfl
    exact errs_at (by decide)
      ((state_action hk (by decide : 1 ∈ otherStates)).trans (if_neg hne)) _ _
  | letName =>
    have hne : kind t ≠ 29 := fun hk => by
      obtain ⟨l, rfl⟩ := kind_eq_sym (s := .assignment) hk
      cases hstuck _ rfl
    exact errs_at (by decide)
      ((state_action hk (by decide : 39 ∈ otherStates)).trans (if_neg hne)) _ _
  | term hpurpose hc =>
    exact term_errs houter hdone hpurpose (hc.answers (hpurpose.base hst) t) hstuck
  | brace hw =>
    have hne : kind t ≠ 39 := fun hk => by
      obtain ⟨l, rfl⟩ := kind_eq_sym (s := .lbrace) hk
      cases hstuck _ rfl
    exact errs_at (by decide)
      ((state_action hk (by decide : 171 ∈ otherStates)).trans (if_neg hne)) _ _
  | @chain w ws hw =>
    have hne : kind t ≠ 6 := fun hk => by
      obtain ⟨l, rfl⟩ := kind_eq_sym (s := .elif) hk
      cases hstuck _ rfl
    have hne' : kind t ≠ 7 := fun hk => by
      obtain ⟨l, rfl⟩ := kind_eq_sym (s := .else_) hk
      cases hstuck _ rfl
    obtain ⟨st₁, hleads, hdone⟩ := hw.leads houter hdone hk hne hne'
    refine hleads.errs (start_errs houter hdone (fun tok htok => ?_) fun ht hprogram => ?_)
    · have hnone := hstuck tok htok
      subst htok
      simp only [stepReader] at hnone
      split at hnone
      · cases hnone
      · cases hnone
      · exact hnone
    · have hnone := hend ht
      simp [finishReader, hprogram.1] at hnone

/-- **Where the machine has a program, the parser has it too**, before the end of the text. -/
theorem ReaderModels.finish {p : Program} (h : ReaderModels r st)
    (hfin : finishReader r = some p) :
    ∃ l, Leads (kind none) st [(28, ⟨.stmts p.statements, l⟩), (0, {})] := by
  have hdone {stmts : List Stmt} {st : Stack} (h : DoneModels [(0, {})] stmts st)
      (hne : stmts ≠ []) : ∃ l, st = [(28, ⟨.stmts stmts, l⟩), (0, {})] := by
    cases h with
    | nil => exact absurd rfl hne
    | @some _ l hne =>
      rw [Lalr.Stack.top_cons, statement_gotos.1]
      exact ⟨l, rfl⟩
  obtain @⟨mode, done, outer, st₀, st, st', houter, hmodels, hmode⟩ := h
  simp only [finishReader] at hfin
  split at hfin
  · split at hfin
    · cases hfin
    · next hne =>
      cases hfin
      cases houter
      cases hmode
      obtain ⟨l, rfl⟩ := hdone hmodels hne
      exact ⟨l, .refl⟩
  · next w _ _ =>
    cases hfin
    cases houter
    cases hmode with
    | chain hw =>
      obtain ⟨st₁, hleads, hmodels⟩ := hw.leads .nil hmodels (kind_lt' none) (by decide) (by decide)
      obtain ⟨l, rfl⟩ := hdone hmodels (by simp)
      exact ⟨l, hleads⟩
  · cases hfin

/-! ## 6. Runs -/

theorem kind_ne_zero (tok : Located) : kind (some tok) ≠ 0 := by
  obtain ⟨tok, loc⟩ := tok
  cases tok with
  | constant v =>
    have hv := List.mem_range'_1.mp (constantKind_mem v)
    have h : constantKind v ≠ 0 := by omega
    exact h
  | identifier name => exact Nat.succ_ne_zero 43
  | sym s =>
    have hs := symKind_bounds s
    have h : symKind s ≠ 0 := by omega
    exact h

/-- A token does not end the parse. -/
theorem takes_top_ne {st₁ : Stack} (h : Takes (some tok) st st₁) :
    st₁.top ≠ yytables.yyfinal := by
  obtain ⟨st', s, -, hshift, rfl⟩ := h
  rintro rfl
  exact kind_ne_zero tok (shift_final hshift)

/-- The end of the text is shifted behind a program. -/
theorem finish_takes {stmts : List Stmt} {l : Location}
    (h : Leads (kind none) st [(28, ⟨.stmts stmts, l⟩), (0, {})]) :
    Takes none st [(73, {}), (28, ⟨.stmts stmts, l⟩), (0, {})] :=
  h.takes (takes_shift (t := none)
    (operand_action (kind_lt' none) (by decide : 28 ∈ operandStates)) _ _)

/-- In every configuration the parser comes to a state in which it reads a token. -/
theorem ReaderModels.settles (h : ReaderModels r st) :
    ∃ st₁, Settles st st₁ ∧ yytables.consistent st₁.top = false := by
  cases hfin : finishReader r with
  | some p =>
    obtain ⟨l, hleads⟩ := h.finish hfin
    exact hleads.settles (not_consistent 28 (by decide))
  | none =>
    obtain ⟨st₁, hleads, hc, -⟩ := h.errs (t := none) (fun tok htok => by cases htok) fun _ => hfin
    exact hleads.settles hc

/-- The statements that the parser has accepted. -/
def accepted : Stack → List Stmt
  | _ :: (_, ⟨.stmts stmts, _⟩) :: _ => stmts
  | _ => []

/-- The parser comes to the stack when it has read `read`, whatever is behind it. -/
def ComesTo (read : List Located) (st : Stack) : Prop :=
  ∀ rest, Lalr.Steps yytables actions ⟨[(0, {})], read.map some ++ rest, false⟩ ⟨st, rest, false⟩

/-- Where the parser ends, in terms of the machine. -/
inductive Stops (s : Lexer.Stream) : Lalr.Outcome (Option Located) Symbol → Prop
  | accept {r : Reader} {p : Program} {st : Stack} (hrun : s.tokens.foldlM stepReader {} = some r)
    (hfin : finishReader r = some p) (hthrows : s.throws = false)
    (hst : accepted st = p.statements) : Stops s (.accept st)
  | error {read : List Located} {t : Option Located} {rest : List (Option Located)} {r : Reader}
    {st₁ st : Stack} (hinput : input s = read.map some ++ t :: rest)
    (hrun : read.foldlM stepReader {} = some r)
    (hstuck : ∀ tok, t = some tok → stepReader r tok = none)
    (hend : t = none → finishReader r = none) (hmodels : ReaderModels r st₁)
    (hsettles : Settles st₁ st) (hc : yytables.consistent st.top = false)
    (hreaches : ComesTo read st) : Stops s (.syntaxError st (t :: rest))
  | exception {r : Reader} (hrun : s.tokens.foldlM stepReader {} = some r)
    (hthrows : s.throws = true) : Stops s .exception

theorem ComesTo.settles {read : List Located} {st' : Stack} (h : ComesTo read st)
    (hfinal : st.top ≠ yytables.yyfinal) (hsettles : Settles st st') : ComesTo read st' :=
  fun rest => (h rest).trans (hsettles.steps goto_final hfinal)

theorem ComesTo.takes {read : List Located} {st' : Stack} (h : ComesTo read st)
    (hfinal : st.top ≠ yytables.yyfinal) (htakes : Takes (some tok) st st') :
    ComesTo (read ++ [tok]) st' := by
  intro rest
  rw [List.map_append, List.append_assoc]
  exact (h _).trans (htakes.steps goto_final hfinal)

/-- **The parser runs as the machine does**, from where the machine has read `read`. -/
theorem ReaderModels.run {s : Lexer.Stream} {read ts : List Located}
    (htokens : s.tokens = read ++ ts) (hrun : read.foldlM stepReader {} = some r)
    (h : ReaderModels r st) (hfinal : st.top ≠ yytables.yyfinal) (hreaches : ComesTo read st) :
    ∃ outcome, Lalr.Returns yytables actions
      ⟨st, ts.map some ++ if s.throws then [] else [none], false⟩ outcome ∧ Stops s outcome := by
  induction ts generalizing read r st with
  | nil =>
    rw [List.append_nil] at htokens
    cases hthrows : s.throws with
    | true =>
      obtain ⟨st₁, hsettles, hc⟩ := h.settles
      exact ⟨_, hsettles.exception goto_final hfinal hc, .exception (htokens ▸ hrun) hthrows⟩
    | false =>
      cases hfin : finishReader r with
      | some p =>
        obtain ⟨l, hleads⟩ := h.finish hfin
        exact ⟨_, ((finish_takes hleads).steps goto_final hfinal).returns (Lalr.returns_accept rfl),
          .accept (htokens ▸ hrun) hfin hthrows rfl⟩
      | none =>
        have hstuck : ∀ tok, (none : Option Located) = some tok → stepReader r tok = none :=
          fun tok htok => by cases htok
        have herrs : Errs (actions.kind none) st := h.errs hstuck fun _ => hfin
        obtain ⟨st₂, hsettles, hc, hreturns⟩ := herrs.returns goto_final hfinal
        have hinput : input s = read.map some ++ [none] := by simp [input, htokens, hthrows]
        exact ⟨_, hreturns, .error hinput hrun hstuck (fun _ => hfin) h hsettles hc
          (hreaches.settles hfinal hsettles)⟩
  | cons tok ts ih =>
    cases hstep : stepReader r tok with
    | some r' =>
      obtain ⟨st₁, st₂, htakes, hsettles, hmodels⟩ := h.step hstep
      have hfinal₁ := takes_top_ne htakes
      have hfinal₂ := hsettles.top_ne goto_final hfinal₁
      have hrun' : (read ++ [tok]).foldlM stepReader {} = some r' := by
        rw [reader_append hrun, reader_cons hstep]
        rfl
      have hreaches' := (hreaches.takes hfinal htakes).settles hfinal₁ hsettles
      obtain ⟨outcome, hreturns, hstops⟩ := ih (by rw [htokens, List.append_assoc]; rfl) hrun'
        hmodels hfinal₂ hreaches'
      refine ⟨outcome, ?_, hstops⟩
      exact ((htakes.steps goto_final hfinal).trans
        (hsettles.steps goto_final hfinal₁)).returns hreturns
    | none =>
      have hstuck : ∀ tok', some tok = some tok' → stepReader r tok' = none := by
        rintro tok' ⟨⟩
        exact hstep
      have herrs : Errs (actions.kind (some tok)) st := h.errs hstuck fun ht => by cases ht
      obtain ⟨st₂, hsettles, hc, hreturns⟩ := herrs.returns goto_final hfinal
      have hinput : input s = read.map some ++ some tok :: (ts.map some ++
          if s.throws then [] else [none]) := by simp [input, htokens]
      exact ⟨_, hreturns,
        .error hinput hrun hstuck (fun ht => by cases ht) h hsettles hc
          (hreaches.settles hfinal hsettles)⟩

/-! ## 7. Parses -/

/-- What has been read can be completed to a text of the grammar. -/
def Viable (read : List Located) : Prop :=
  ∃ (p : Program) (ts : List Located), p.Yields ts ∧ read <+: ts

/-- No text of the grammar has the token, or the end of the text, behind what has been read. -/
def Unexpected (read : List Located) : Option Located → Prop
  | none => ∀ p : Program, ¬ p.Yields read
  | some tok => ¬ Viable (read ++ [tok])

/-- What the outcome says of the text, in terms of the grammar. -/
def Agrees (s : Lexer.Stream) : Lalr.Outcome (Option Located) Symbol → Prop
  | .accept st => ∃ p : Program, p.statements = accepted st ∧ p.Resolved ∧ Parses s ⟨p, none⟩
  | .syntaxError st rest =>
    (∃ read t more, input s = read.map some ++ rest ∧ rest = t :: more ∧ Viable read ∧
      Unexpected read t ∧ ComesTo read st ∧ yytables.consistent st.top = false) ∧
    ∃ p, ∀ n message, Parses s ⟨p, some (n, .syntaxError message)⟩
  | .exception => ∃ p, ∀ n, Parses s ⟨p, some (n, .exception)⟩

/-- Where the machine is stuck, the grammar is. -/
theorem unexpected_of_stuck {read : List Located} (hrun : read.foldlM stepReader {} = some r)
    (hstuck : ∀ tok, t = some tok → stepReader r tok = none)
    (hend : t = none → finishReader r = none) : Unexpected read t := by
  cases t with
  | none =>
    intro p hp
    obtain ⟨q, hq⟩ := Program.exists_resolved hp
    have hparse : parseProgram read = some q := parseProgram_eq_some.mpr hq
    rw [parseProgram, hrun, Option.bind_some, hend rfl] at hparse
    cases hparse
  | some tok =>
    intro hviable
    obtain ⟨r', hrun'⟩ := reads_iff_viable.mpr hviable
    rw [reader_append hrun, List.foldlM_cons, hstuck tok rfl] at hrun'
    cases hrun'

/-- The tokens before the one that the parser stops at. -/
theorem read_of_input {s : Lexer.Stream} {read : List Located} {rest : List (Option Located)}
    (h : input s = read.map some ++ t :: rest) :
    (t = none ∧ read = s.tokens ∧ s.throws = false) ∨
      ∃ tok, t = some tok ∧ read ++ [tok] <+: s.tokens := by
  obtain ⟨tokens, throws⟩ := s
  simp only [input] at h
  induction tokens generalizing read with
  | nil =>
    cases read with
    | nil => cases throws <;> simp_all
    | cons tok read => cases throws <;> simp at h
  | cons tok tokens ih =>
    cases read with
    | nil =>
      obtain ⟨rfl, -⟩ := List.cons.inj h
      exact .inr ⟨tok, rfl, tokens, rfl⟩
    | cons tok' read =>
      simp only [List.map_cons, List.cons_append, List.cons.injEq, Option.some.injEq] at h
      obtain ⟨rfl, h⟩ := h
      obtain ⟨ht, rfl, hthrows⟩ | ⟨tok', ht, hread⟩ := ih h
      · exact .inl ⟨ht, rfl, hthrows⟩
      · exact .inr ⟨tok', ht, List.prefix_cons_inj tok |>.mpr hread⟩

theorem Stops.agrees {s : Lexer.Stream} {outcome : Lalr.Outcome (Option Located) Symbol}
    (h : Stops s outcome) : Agrees s outcome := by
  cases h with
  | @accept r p st hrun hfin hthrows hst =>
    have hp : parseProgram s.tokens = some p := Option.bind_eq_some_iff.mpr ⟨r, hrun, hfin⟩
    obtain ⟨hyields, hr⟩ := parseProgram_eq_some.mp hp
    exact ⟨p, hst.symm, hr, hthrows, hyields⟩
  | @error read t rest r st₁ st hinput hrun hstuck hend hmodels hsettles hc hreaches =>
    have hviable : Viable read := reads_iff_viable.mp ⟨r, hrun⟩
    have hunexpected := unexpected_of_stuck hrun hstuck hend
    refine ⟨⟨read, t, rest, hinput, rfl, hviable, hunexpected, hreaches, hc⟩, ?_⟩
    obtain ⟨p, ts, hp, hread⟩ := hviable
    refine ⟨p, fun n message => ?_⟩
    obtain ⟨rfl, rfl, hthrows⟩ | ⟨tok, rfl, htok⟩ := read_of_input hinput
    · exact ⟨s.tokens, List.prefix_rfl, ⟨ts, hp, hread⟩, .inl ⟨rfl, hthrows, hunexpected⟩⟩
    · exact ⟨read, (List.prefix_append read [tok]).trans htok, ⟨ts, hp, hread⟩,
        .inr ⟨tok, htok, fun q us hq hus => hunexpected ⟨q, us, hq, hus⟩⟩⟩
  | @exception r hrun hthrows =>
    obtain ⟨p, ts, hp, hread⟩ := reads_iff_viable.mp ⟨r, hrun⟩
    exact ⟨p, fun n => ⟨hthrows, ts, hp, hread⟩⟩

/-- A text that the lexer does not throw on and that is of the grammar is accepted. -/
theorem Stops.accepts {s : Lexer.Stream} {outcome : Lalr.Outcome (Option Located) Symbol}
    (h : Stops s outcome) (hthrows : s.throws = false) {p : Program} (hp : p.Yields s.tokens) :
    ∃ st, outcome = .accept st := by
  cases h with
  | @accept r q st hrun hfin hthrows hst => exact ⟨st, rfl⟩
  | @error read t rest r st₁ st hinput hrun hstuck hend hmodels hsettles hc hreaches =>
    have hunexpected := unexpected_of_stuck hrun hstuck hend
    obtain ⟨rfl, rfl, -⟩ | ⟨tok, rfl, htok⟩ := read_of_input hinput
    · exact absurd hp (hunexpected p)
    · exact absurd ⟨p, s.tokens, hp, htok⟩ hunexpected
  | @exception r hrun hthrows' =>
    rw [hthrows'] at hthrows
    cases hthrows

theorem parse_stops (s : Lexer.Stream) :
    ∃ outcome, (∃ n, ∀ fuel, n ≤ fuel → parse fuel s = some outcome) ∧ Stops s outcome := by
  have h : ReaderModels {} [(0, {})] := .mk .nil .nil .start
  have hfinal : Lalr.Stack.top [(0, ({} : Symbol))] ≠ yytables.yyfinal := by decide
  exact h.run (List.nil_append s.tokens).symm rfl hfinal fun rest => .refl

/-- **The generated parser is correct and complete for the grammar.**  On every stream of tokens it
ends, with the outcome that the grammar has: it accepts the texts of the grammar and no other, with
the tree that precedence and associativity give, and it gives up at the first token, or at the end,
that no text of the grammar has there. -/
theorem parser_parses (s : Lexer.Stream) :
    ∃ outcome, (∃ n, ∀ fuel, n ≤ fuel → parse fuel s = some outcome) ∧ Agrees s outcome ∧
      ((∃ st, outcome = .accept st) ↔
        s.throws = false ∧ ∃ p : Program, p.Yields s.tokens) := by
  obtain ⟨outcome, hreturns, hstops⟩ := parse_stops s
  refine ⟨outcome, hreturns, hstops.agrees, ?_, fun ⟨hthrows, p, hp⟩ => hstops.accepts hthrows hp⟩
  rintro ⟨st, rfl⟩
  obtain ⟨p, -, -, hthrows, hyields⟩ := hstops.agrees
  exact ⟨hthrows, p, hyields⟩

end Bison

end Athena

end JitFusion
