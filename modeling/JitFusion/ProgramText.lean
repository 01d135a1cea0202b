/-
# One program for every text

The terms of a text are found by the levels of their operators (`OperatorPrecedence`).  The
statements need no levels: a term has no `;`, no `{` and no keyword of a statement in it, so the
first such token ends it, and a chain of clauses goes on as long as a clause follows.

* `Program.exists_resolved`: every text of the grammar has a resolved program.
* `StmtYields.unique` and its siblings: a statement is determined by the text from its place on.
* `programs_unambiguous`: so a text of the grammar has exactly one resolved program.
-/
import Mathlib.Logic.ExistsUnique
import JitFusion.OperatorPrecedence

namespace JitFusion

namespace Athena

/-! ## 1. Resolved programs -/

mutual

def Stmt.Resolved : Stmt → Prop
  | .assign _ e | .let_ _ e | .expr e => e.Resolved
  | .when_ _ _ cond block chain => cond.Resolved ∧ stmtsResolved block ∧ chainResolved chain

def stmtsResolved : List Stmt → Prop
  | [] => True
  | stmt :: stmts => stmt.Resolved ∧ stmtsResolved stmts

def Clause.Resolved : Clause → Prop
  | .elif cond block => cond.Resolved ∧ stmtsResolved block
  | .else_ block => stmtsResolved block

def chainResolved : List Clause → Prop
  | [] => True
  | clause :: clauses => clause.Resolved ∧ chainResolved clauses

end

def Program.Resolved (p : Program) : Prop := stmtsResolved p.statements

theorem TermYields.exists_resolved {t : Term} {ts : List Located} (h : TermYields t ts) :
    ∃ t', TermYields t' ts ∧ t'.Resolved := by
  obtain ⟨t', ht'⟩ := parseTerm_total h
  exact ⟨t', parseTerm_eq_some.mp ht'⟩

mutual

theorem StmtYields.exists_resolved {stmt : Stmt} {ts : List Located} : StmtYields stmt ts →
    ∃ stmt', StmtYields stmt' ts ∧ stmt'.Resolved
  | .assign h => by
    obtain ⟨e, he, hr⟩ := h.exists_resolved
    exact ⟨_, .assign he, hr⟩
  | .let_ h => by
    obtain ⟨e, he, hr⟩ := h.exists_resolved
    exact ⟨_, .let_ he, hr⟩
  | .expr h => by
    obtain ⟨e, he, hr⟩ := h.exists_resolved
    exact ⟨_, .expr he, hr⟩
  | .when_ h hblock hchain hts => by
    obtain ⟨cond, hcond, hr⟩ := h.exists_resolved
    obtain ⟨block, hblock, hr'⟩ := hblock.exists_resolved
    obtain ⟨chain, hchain, hr''⟩ := hchain.exists_resolved
    exact ⟨_, .when_ hcond hblock hchain hts, hr, hr', hr''⟩

theorem BlockYields.exists_resolved {stmts : List Stmt} {ts : List Located} :
    BlockYields stmts ts → ∃ stmts', BlockYields stmts' ts ∧ stmtsResolved stmts'
  | .one h => by
    obtain ⟨stmt, hstmt, hr⟩ := h.exists_resolved
    exact ⟨_, .one hstmt, hr, trivial⟩
  | .cons h h' => by
    obtain ⟨stmt, hstmt, hr⟩ := h.exists_resolved
    obtain ⟨stmts, hstmts, hr'⟩ := h'.exists_resolved
    exact ⟨_, .cons hstmt hstmts, hr, hr'⟩

theorem ClauseYields.exists_resolved {clause : Clause} {ts : List Located} :
    ClauseYields clause ts → ∃ clause', ClauseYields clause' ts ∧ clause'.Resolved
  | .elif h h' => by
    obtain ⟨cond, hcond, hr⟩ := h.exists_resolved
    obtain ⟨block, hblock, hr'⟩ := h'.exists_resolved
    exact ⟨_, .elif hcond hblock, hr, hr'⟩
  | .else_ h => by
    obtain ⟨block, hblock, hr⟩ := h.exists_resolved
    exact ⟨_, .else_ hblock, hr⟩

theorem ChainYields.exists_resolved {clauses : List Clause} {ts : List Located} :
    ChainYields clauses ts → ∃ clauses', ChainYields clauses' ts ∧ chainResolved clauses'
  | .nil => ⟨[], .nil, trivial⟩
  | .cons h h' => by
    obtain ⟨clause, hclause, hr⟩ := h.exists_resolved
    obtain ⟨clauses, hclauses, hr'⟩ := h'.exists_resolved
    exact ⟨_, .cons hclause hclauses, hr, hr'⟩

end

/-! ## 2. Where a term ends -/

/-- The token may stand in a term. -/
def Token.InTerm : Token → Prop
  | .sym s => s ∉ [Sym.assignment, .semi, .lbrace, .rbrace, .let_, .when_, .elif, .else_]
  | _ => True

def InTerms (ts : List Located) : Prop := ∀ tok ∈ ts, tok.1.InTerm

@[simp] theorem inTerms_nil : InTerms [] := fun _ h => absurd h List.not_mem_nil

@[simp] theorem inTerms_cons {tok : Located} {ts : List Located} :
    InTerms (tok :: ts) ↔ tok.1.InTerm ∧ InTerms ts := List.forall_mem_cons

@[simp] theorem inTerms_append {us vs : List Located} :
    InTerms (us ++ vs) ↔ InTerms us ∧ InTerms vs := List.forall_mem_append

@[simp] theorem inTerm_constant (v : ConstantValueType) : (Token.constant v).InTerm := trivial

@[simp] theorem inTerm_identifier (name : String) : (Token.identifier name).InTerm := trivial

@[simp] theorem inTerm_binary (op : BinaryOPType) :
    (Token.sym (BinaryOPType.sym op)).InTerm := by
  cases op <;> simp [Token.InTerm, BinaryOPType.sym]

@[simp] theorem inTerm_unary (op : UnaryOPType) :
    (Token.sym (UnaryOPType.sym op)).InTerm := by
  cases op <;> simp [Token.InTerm, UnaryOPType.sym]

theorem ElementsYield.inTerms {vs : List ConstantValueType} {ts : List Located}
    (h : ElementsYield vs ts) : InTerms ts := by
  induction h with
  | one => simp
  | cons h ih => simp [ih, Token.InTerm]

mutual

theorem TermYields.inTerms {t : Term} {ts : List Located} : TermYields t ts → InTerms ts
  | .constant => by simp
  | .true_ => by simp [Token.InTerm]
  | .false_ => by simp [Token.InTerm]
  | .identifier => by simp
  | .entryArg => by simp [Token.InTerm]
  | .execCtx => by simp [Token.InTerm]
  | .output => by simp [Token.InTerm]
  | .list h hts => by simp [hts, h.inTerms, Token.InTerm]
  | .paren h => by simp [h.inTerms, Token.InTerm]
  | .unary h hts => by simp [hts, h.inTerms]
  | .binary h h' hts => by simp [hts, h.inTerms, h'.inTerms]
  | .in_ h h' hts => by simp [hts, h.inTerms, h'.inTerms, Token.InTerm]
  | .if_ h hts => by simp [hts, h.inTerms, Token.InTerm]
  | .call h hts => by simp [hts, h.inTerms, Token.InTerm]
  | .callNone hts => by simp [hts, Token.InTerm]
  | .switch_ h hts => by simp [hts, h.inTerms, Token.InTerm]

theorem ArgsYield.inTerms {args : List Term} {ts : List Located} : ArgsYield args ts →
    InTerms ts
  | .one h => h.inTerms
  | .cons h h' => by simp [h.inTerms, h'.inTerms, Token.InTerm]

end

/-- **The first token that may not stand in a term cuts a text.** -/
theorem cut_unique {us us' r r' : List Located} {x x' : Located}
    (hus : InTerms us) (hus' : InTerms us') (hx : ¬ x.1.InTerm) (hx' : ¬ x'.1.InTerm)
    (h : us ++ x :: r = us' ++ x' :: r') :
    us = us' ∧ x = x' ∧ r = r' := by
  induction us generalizing us' with
  | nil =>
    cases us' with
    | nil =>
      cases h
      exact ⟨rfl, rfl, rfl⟩
    | cons y us' =>
      cases h
      exact absurd (inTerms_cons.mp hus').1 hx
  | cons y us ih =>
    cases us' with
    | nil =>
      cases h
      exact absurd (inTerms_cons.mp hus).1 hx'
    | cons y' us' =>
      obtain ⟨rfl, hrest⟩ := List.cons.inj h
      obtain ⟨rfl, rfl, rfl⟩ := ih (inTerms_cons.mp hus).2 (inTerms_cons.mp hus').2 hrest
      exact ⟨rfl, rfl, rfl⟩

/-! ## 3. Where a statement ends -/

/-- A statement may end here: no clause follows. -/
def StmtEnds (r : List Located) : Prop :=
  ∀ tok ∈ r.head?, tok.1 ≠ .sym .elif ∧ tok.1 ≠ .sym .else_

/-- A block may end here. -/
def BlockEnds (r : List Located) : Prop := ∀ tok ∈ r.head?, tok.1 = .sym .rbrace

theorem BlockEnds.ends {r : List Located} (h : BlockEnds r) : StmtEnds r := by
  intro tok htok
  rw [h tok htok]
  exact ⟨by simp, by simp⟩

theorem blockEnds_nil : BlockEnds [] := fun _ h => absurd h (Option.not_mem_none _)

theorem blockEnds_rbrace (l : Location) (r : List Located) :
    BlockEnds ((.sym .rbrace, l) :: r) := by
  simp [BlockEnds]

/-- The first token of a statement that may not stand in a term. -/
def Stmt.mark : Stmt → Sym
  | .assign _ _ => .assignment
  | .let_ _ _ => .let_
  | .expr _ => .semi
  | .when_ _ _ _ _ _ => .when_

theorem Stmt.not_inTerm_mark (stmt : Stmt) : ¬ (Token.sym stmt.mark).InTerm := by
  cases stmt <;> simp [Token.InTerm, mark]

theorem inTerms_identifier (name : String) (k : Location) :
    InTerms [(.identifier name, k)] := by
  simp

theorem StmtYields.marked {stmt : Stmt} {ts : List Located} (h : StmtYields stmt ts)
    (r : List Located) :
    ∃ us l vs, ts ++ r = us ++ (.sym stmt.mark, l) :: vs ∧ InTerms us := by
  cases h with
  | assign h => exact ⟨[_], _, _, rfl, inTerms_identifier _ _⟩
  | let_ h => exact ⟨[], _, _, rfl, inTerms_nil⟩
  | expr h => exact ⟨_, _, _, List.append_assoc _ _ _, h.inTerms⟩
  | when_ h hblock hchain hts =>
    subst hts
    exact ⟨[], _, _, rfl, inTerms_nil⟩

theorem StmtYields.mark_eq {stmt stmt' : Stmt} {ts ts' r r' : List Located}
    (h : StmtYields stmt ts) (h' : StmtYields stmt' ts') (heq : ts ++ r = ts' ++ r') :
    stmt.mark = stmt'.mark := by
  obtain ⟨us, l, vs, hts, hus⟩ := h.marked r
  obtain ⟨us', l', vs', hts', hus'⟩ := h'.marked r'
  obtain ⟨-, hx, -⟩ := cut_unique hus hus' stmt.not_inTerm_mark stmt'.not_inTerm_mark
    (hts ▸ heq ▸ hts')
  exact Token.sym.inj (Prod.mk.inj hx).1

/-- What begins a statement ends none, and no block. -/
theorem StmtYields.goes_on {stmt : Stmt} {ts : List Located} (h : StmtYields stmt ts)
    (r : List Located) : StmtEnds (ts ++ r) ∧ ¬ BlockEnds (ts ++ r) := by
  obtain ⟨us, l, vs, hts, hus⟩ := h.marked r
  rw [hts]
  cases us with
  | nil => cases stmt <;> simp [StmtEnds, BlockEnds, Stmt.mark]
  | cons tok us =>
    have htok := (inTerms_cons.mp hus).1
    refine ⟨fun x hx => ?_, fun hclose => ?_⟩
    · cases hx
      exact ⟨fun he => by simp [he, Token.InTerm] at htok,
        fun he => by simp [he, Token.InTerm] at htok⟩
    · have he := hclose tok rfl
      simp [he, Token.InTerm] at htok

theorem BlockYields.goes_on {stmts : List Stmt} {ts : List Located} (h : BlockYields stmts ts)
    (r : List Located) : StmtEnds (ts ++ r) ∧ ¬ BlockEnds (ts ++ r) := by
  cases h with
  | one h => exact h.goes_on r
  | cons h h' =>
    rw [List.append_assoc]
    exact h.goes_on _

theorem ClauseYields.not_stmtEnds {clause : Clause} {ts : List Located} (h : ClauseYields clause ts)
    (r : List Located) : ¬ StmtEnds (ts ++ r) := by
  cases h <;> simp [StmtEnds]

/-! ## 4. One tree -/

theorem TermYields.unique {t t' : Term} {ts : List Located} (h : TermYields t ts)
    (hr : t.Resolved) (h' : TermYields t' ts) (hr' : t'.Resolved) : t = t' :=
  Option.some.inj ((parseTerm_eq_some.mpr ⟨h, hr⟩).symm.trans (parseTerm_eq_some.mpr ⟨h', hr'⟩))

/-- **A term and what ends it** are determined by the text. -/
theorem TermYields.cut {t t' : Term} {us us' r r' : List Located} {s : Sym} {l l' : Location}
    (h : TermYields t us) (hr : t.Resolved) (h' : TermYields t' us') (hr' : t'.Resolved)
    (hs : ¬ (Token.sym s).InTerm) (heq : us ++ (.sym s, l) :: r = us' ++ (.sym s, l') :: r') :
    t = t' ∧ us = us' ∧ l = l' ∧ r = r' := by
  obtain ⟨rfl, hx, rfl⟩ := cut_unique h.inTerms h'.inTerms hs hs heq
  cases hx
  exact ⟨h.unique hr h' hr', rfl, rfl, rfl⟩

theorem not_inTerm_semi : ¬ (Token.sym .semi).InTerm := by simp [Token.InTerm]

theorem not_inTerm_lbrace : ¬ (Token.sym .lbrace).InTerm := by simp [Token.InTerm]

mutual

theorem StmtYields.unique {stmt : Stmt} {ts : List Located} : StmtYields stmt ts →
    stmt.Resolved → ∀ {stmt' : Stmt} {ts' r r' : List Located}, StmtYields stmt' ts' →
      stmt'.Resolved → ts ++ r = ts' ++ r' → StmtEnds r → StmtEnds r' →
        stmt = stmt' ∧ ts = ts' ∧ r = r'
  | .assign h, hr, stmt', ts', r, r', hs', hr', heq, _, _ => by
    have hmark := StmtYields.mark_eq (.assign h) hs' heq
    cases hs' with
    | assign h' =>
      simp only [List.cons_append, List.append_assoc, List.nil_append, List.cons.injEq,
        Prod.mk.injEq, Token.identifier.injEq, true_and] at heq
      obtain ⟨⟨rfl, rfl⟩, rfl, heq⟩ := heq
      obtain ⟨rfl, rfl, rfl, rfl⟩ := h.cut hr h' hr' not_inTerm_semi heq
      exact ⟨rfl, rfl, rfl⟩
    | _ => cases hmark
  | .let_ h, hr, stmt', ts', r, r', hs', hr', heq, _, _ => by
    have hmark := StmtYields.mark_eq (.let_ h) hs' heq
    cases hs' with
    | let_ h' =>
      simp only [List.cons_append, List.append_assoc, List.nil_append, List.cons.injEq,
        Prod.mk.injEq, Token.identifier.injEq, true_and] at heq
      obtain ⟨rfl, ⟨rfl, rfl⟩, rfl, heq⟩ := heq
      obtain ⟨rfl, rfl, rfl, rfl⟩ := h.cut hr h' hr' not_inTerm_semi heq
      exact ⟨rfl, rfl, rfl⟩
    | _ => cases hmark
  | .expr h, hr, stmt', ts', r, r', hs', hr', heq, _, _ => by
    have hmark := StmtYields.mark_eq (.expr h) hs' heq
    cases hs' with
    | expr h' =>
      rw [List.append_assoc, List.append_assoc] at heq
      obtain ⟨rfl, rfl, rfl, rfl⟩ := h.cut hr h' hr' not_inTerm_semi heq
      exact ⟨rfl, rfl, rfl⟩
    | _ => cases hmark
  | .when_ h hblock hchain hts, hr, stmt', ts', r, r', hs', hr', heq, hend, hend' => by
    have hmark := StmtYields.mark_eq (.when_ h hblock hchain hts) hs' heq
    obtain ⟨hr₁, hr₂, hr₃⟩ := hr
    cases hs' with
    | when_ h' hblock' hchain' hts' =>
      obtain ⟨hr₁', hr₂', hr₃'⟩ := hr'
      rw [hts, hts'] at heq
      simp only [List.cons_append, List.append_assoc, List.cons.injEq, Prod.mk.injEq,
        true_and] at heq
      obtain ⟨rfl, heq⟩ := heq
      obtain ⟨rfl, rfl, rfl, hblocks⟩ := h.cut hr₁ h' hr₁' not_inTerm_lbrace heq
      obtain ⟨rfl, rfl, hends⟩ := hblock.unique hr₂ hblock' hr₂' hblocks (blockEnds_rbrace _ _)
        (blockEnds_rbrace _ _)
      obtain ⟨hrbrace, hchains⟩ := List.cons.inj hends
      cases hrbrace
      obtain ⟨rfl, rfl, rfl⟩ := hchain.unique hr₃ hchain' hr₃' hchains hend hend'
      subst hts hts'
      exact ⟨rfl, rfl, rfl⟩
    | _ => cases hmark

theorem BlockYields.unique {stmts : List Stmt} {ts : List Located} : BlockYields stmts ts →
    stmtsResolved stmts → ∀ {stmts' : List Stmt} {ts' r r' : List Located},
      BlockYields stmts' ts' → stmtsResolved stmts' → ts ++ r = ts' ++ r' → BlockEnds r →
        BlockEnds r' → stmts = stmts' ∧ ts = ts' ∧ r = r'
  | .one h, hr, stmts', ts', r, r', hs', hr', heq, hend, hend' => by
    cases hs' with
    | one h' =>
      obtain ⟨rfl, rfl, rfl⟩ := h.unique hr.1 h' hr'.1 heq hend.ends hend'.ends
      exact ⟨rfl, rfl, rfl⟩
    | cons h' hrest' =>
      rw [List.append_assoc] at heq
      obtain ⟨-, -, rfl⟩ := h.unique hr.1 h' hr'.1 heq hend.ends (hrest'.goes_on _).1
      exact absurd hend (hrest'.goes_on _).2
  | .cons h hrest, hr, stmts', ts', r, r', hs', hr', heq, hend, hend' => by
    rw [List.append_assoc] at heq
    cases hs' with
    | one h' =>
      obtain ⟨-, -, rfl⟩ := h.unique hr.1 h' hr'.1 heq (hrest.goes_on _).1 hend'.ends
      exact absurd hend' (hrest.goes_on _).2
    | cons h' hrest' =>
      rw [List.append_assoc] at heq
      obtain ⟨rfl, rfl, hrests⟩ := h.unique hr.1 h' hr'.1 heq (hrest.goes_on _).1
        (hrest'.goes_on _).1
      obtain ⟨rfl, rfl, rfl⟩ := hrest.unique hr.2 hrest' hr'.2 hrests hend hend'
      exact ⟨rfl, rfl, rfl⟩

theorem ClauseYields.unique {clause : Clause} {ts : List Located} : ClauseYields clause ts →
    clause.Resolved → ∀ {clause' : Clause} {ts' r r' : List Located}, ClauseYields clause' ts' →
      clause'.Resolved → ts ++ r = ts' ++ r' → clause = clause' ∧ ts = ts' ∧ r = r'
  | .elif h hblock, hr, clause', ts', r, r', hs', hr', heq => by
    cases hs' with
    | elif h' hblock' =>
      simp only [List.cons_append, List.append_assoc, List.nil_append, List.cons.injEq,
        Prod.mk.injEq, true_and] at heq
      obtain ⟨rfl, heq⟩ := heq
      obtain ⟨rfl, rfl, rfl, hblocks⟩ := h.cut hr.1 h' hr'.1 not_inTerm_lbrace heq
      obtain ⟨rfl, rfl, hrest⟩ := hblock.unique hr.2 hblock' hr'.2 hblocks (blockEnds_rbrace _ _)
        (blockEnds_rbrace _ _)
      cases hrest
      exact ⟨rfl, rfl, rfl⟩
    | else_ hblock' => cases heq
  | .else_ hblock, hr, clause', ts', r, r', hs', hr', heq => by
    cases hs' with
    | elif h' hblock' => cases heq
    | else_ hblock' =>
      simp only [List.cons_append, List.append_assoc, List.nil_append, List.cons.injEq,
        Prod.mk.injEq, true_and] at heq
      obtain ⟨rfl, rfl, heq⟩ := heq
      obtain ⟨rfl, rfl, hrest⟩ := hblock.unique hr hblock' hr' heq (blockEnds_rbrace _ _)
        (blockEnds_rbrace _ _)
      cases hrest
      exact ⟨rfl, rfl, rfl⟩

theorem ChainYields.unique {clauses : List Clause} {ts : List Located} : ChainYields clauses ts →
    chainResolved clauses → ∀ {clauses' : List Clause} {ts' r r' : List Located},
      ChainYields clauses' ts' → chainResolved clauses' → ts ++ r = ts' ++ r' → StmtEnds r →
        StmtEnds r' → clauses = clauses' ∧ ts = ts' ∧ r = r'
  | .nil, _, clauses', ts', r, r', hs', _, heq, hend, _ => by
    cases hs' with
    | nil => exact ⟨rfl, rfl, heq⟩
    | cons h' hrest' =>
      rw [List.nil_append, List.append_assoc] at heq
      rw [heq] at hend
      exact absurd hend (h'.not_stmtEnds _)
  | .cons h hrest, hr, clauses', ts', r, r', hs', hr', heq, hend, hend' => by
    rw [List.append_assoc] at heq
    cases hs' with
    | nil =>
      rw [List.nil_append] at heq
      rw [← heq] at hend'
      exact absurd hend' (h.not_stmtEnds _)
    | cons h' hrest' =>
      rw [List.append_assoc] at heq
      obtain ⟨rfl, rfl, hrests⟩ := h.unique hr.1 h' hr'.1 heq
      obtain ⟨rfl, rfl, rfl⟩ := hrest.unique hr.2 hrest' hr'.2 hrests hend hend'
      exact ⟨rfl, rfl, rfl⟩

end

theorem Program.exists_resolved {p : Program} {ts : List Located} (h : p.Yields ts) :
    ∃ q : Program, q.Yields ts ∧ q.Resolved := by
  obtain ⟨stmts, hyields, hr⟩ := BlockYields.exists_resolved h
  refine ⟨⟨stmts, ?_⟩, hyields, hr⟩
  cases hyields <;> exact List.cons_ne_nil _ _

/-- **A text of the grammar has exactly one resolved program.** -/
theorem programs_unambiguous {p : Program} {ts : List Located} (h : p.Yields ts) :
    ∃! q : Program, q.Yields ts ∧ q.Resolved := by
  obtain ⟨q, hq, hr⟩ := Program.exists_resolved h
  refine ⟨q, ⟨hq, hr⟩, ?_⟩
  rintro q' ⟨hq', hr'⟩
  obtain ⟨stmts, hne⟩ := q
  obtain ⟨stmts', hne'⟩ := q'
  obtain ⟨rfl, -, -⟩ := BlockYields.unique hq' hr' hq hr rfl blockEnds_nil blockEnds_nil
  rfl

/-- `a - b - c;`, with the places of its tokens. -/
def minusText : List Located :=
  [(.identifier "a", ⟨1, 1, 1, 2⟩), (.sym .minus, ⟨1, 3, 1, 4⟩), (.identifier "b", ⟨1, 5, 1, 6⟩),
    (.sym .minus, ⟨1, 7, 1, 8⟩), (.identifier "c", ⟨1, 9, 1, 10⟩), (.sym .semi, ⟨1, 10, 1, 11⟩)]

/-- A program of `minusText` that groups to the right, against the levels. -/
def minusProgram : Program where
  statements := [.expr (.binary ⟨1, 1, 1, 10⟩ .kSub (.identifier ⟨1, 1, 1, 2⟩ "a")
    (.binary ⟨1, 5, 1, 10⟩ .kSub (.identifier ⟨1, 5, 1, 6⟩ "b") (.identifier ⟨1, 9, 1, 10⟩ "c")))]
  nonempty := List.cons_ne_nil _ _

theorem minusProgram_yields : minusProgram.Yields minusText := by
  have hright : TermYields (.binary ⟨1, 5, 1, 10⟩ .kSub (.identifier ⟨1, 5, 1, 6⟩ "b")
      (.identifier ⟨1, 9, 1, 10⟩ "c")) ((minusText.drop 2).take 3) :=
    @TermYields.binary .kSub (.identifier ⟨1, 5, 1, 6⟩ "b") (.identifier ⟨1, 9, 1, 10⟩ "c")
      [(.identifier "b", ⟨1, 5, 1, 6⟩)] [(.identifier "c", ⟨1, 9, 1, 10⟩)] _ ⟨1, 7, 1, 8⟩
      .identifier .identifier rfl
  have h : TermYields (.binary ⟨1, 1, 1, 10⟩ .kSub (.identifier ⟨1, 1, 1, 2⟩ "a")
      (.binary ⟨1, 5, 1, 10⟩ .kSub (.identifier ⟨1, 5, 1, 6⟩ "b")
        (.identifier ⟨1, 9, 1, 10⟩ "c"))) (minusText.take 5) :=
    @TermYields.binary .kSub (.identifier ⟨1, 1, 1, 2⟩ "a") _
      [(.identifier "a", ⟨1, 1, 1, 2⟩)] _ _ ⟨1, 3, 1, 4⟩ .identifier hright rfl
  exact .one (.expr h)

theorem programs_unambiguous_minus : ¬ minusProgram.Resolved ∧
    ∃! q : Program, q.Yields minusText ∧ q.Resolved := by
  refine ⟨fun h => ?_, programs_unambiguous minusProgram_yields⟩
  obtain ⟨⟨_, _, hlevel⟩, _⟩ := h
  exact absurd hlevel (by decide)

end Athena

end JitFusion
