/-
# Reading a program

The machine of `OperatorPrecedence` reads a term.  `stepReader` is the machine around it, which
reads statements: it knows what the term is read for, the statements of the block so far, and the
blocks around it.  It looks at one token at a time and never goes back; an identifier at the
beginning of a statement is the name of an assignment or the beginning of a term, and only the next
token tells.

* `parseProgram_eq_some`: the machine finds the resolved program of a text, and nothing else.
* `Reader.completable`: whatever the machine has read is the beginning of a text.
* `reads_iff_viable`: so it stops at the first token that no text of the grammar has at its place.
-/
import JitFusion.ProgramText

namespace JitFusion

namespace Athena

/-! ## 1. The machine -/

/-- A when-block up to the bracket `last`; another clause may follow. -/
structure OpenWhen where
  keyword : Location
  cond : Term
  block : List Stmt
  chain : List Clause
  last : Location

def OpenWhen.stmt (w : OpenWhen) : Stmt :=
  .when_ w.keyword (join w.keyword w.last) w.cond w.block w.chain

/-- What a block is opened by. -/
inductive Opener
  | when_ (keyword : Location) (cond : Term)
  | elif (w : OpenWhen) (cond : Term)
  | else_ (w : OpenWhen)

/-- The when-block, when the block is closed at `r`. -/
def Opener.close (block : List Stmt) (r : Location) : Opener → OpenWhen
  | .when_ keyword cond => ⟨keyword, cond, block, [], r⟩
  | .elif w cond => { w with chain := w.chain ++ [.elif cond block], last := r }
  | .else_ w => { w with chain := w.chain ++ [.else_ block], last := r }

/-- What a term is read for. -/
inductive Purpose
  | expr
  | assign (name : String)
  | let_ (name : String)
  | when_ (keyword : Location)
  | elif (w : OpenWhen)

/-- The statement that ends with the term and `;`. -/
def Purpose.stmt (e : Term) : Purpose → Option Stmt
  | .expr => some (.expr e)
  | .assign name => some (.assign name e)
  | .let_ name => some (.let_ name e)
  | .when_ _ | .elif _ => none

/-- The block that the term and `{` open. -/
def Purpose.opener (e : Term) : Purpose → Option Opener
  | .when_ keyword => some (.when_ keyword e)
  | .elif w => some (.elif w e)
  | .expr | .assign _ | .let_ _ => none

/-- What the machine waits for. -/
inductive ReaderMode
  | start
  /-- What follows an identifier at the beginning of a statement. -/
  | name (name : String) (loc : Location)
  | let_
  | letName (name : String)
  | term (purpose : Purpose) (c : Config)
  /-- The bracket behind `else`. -/
  | brace (w : OpenWhen)
  /-- Another clause of `w`, or what follows the statement. -/
  | chain (w : OpenWhen)

/-- `done` are the statements of the block so far; `outer` what the blocks around the current
statement were opened by, with the statements before them, the innermost first. -/
structure Reader where
  mode : ReaderMode := .start
  done : List Stmt := []
  outer : List (Opener × List Stmt) := []

def stepStart (done : List Stmt) (outer : List (Opener × List Stmt)) (tok : Located) :
    Option Reader :=
  match tok.1 with
  | .identifier name => some ⟨.name name tok.2, done, outer⟩
  | .sym .let_ => some ⟨.let_, done, outer⟩
  | .sym .when_ => some ⟨.term (.when_ tok.2) {}, done, outer⟩
  | .sym .rbrace =>
    match done, outer with
    | stmt :: stmts, (opener, before) :: outer =>
      some ⟨.chain (opener.close (stmt :: stmts) tok.2), before, outer⟩
    | _, _ => none
  | _ => (step {} tok).map fun c => ⟨.term .expr c, done, outer⟩

def stepTerm (purpose : Purpose) (c : Config) (done : List Stmt)
    (outer : List (Opener × List Stmt)) (tok : Located) : Option Reader :=
  match tok.1 with
  | .sym .semi => (finish c).bind fun e => (purpose.stmt e).map fun stmt =>
    ⟨.start, done ++ [stmt], outer⟩
  | .sym .lbrace => (finish c).bind fun e => (purpose.opener e).map fun opener =>
    ⟨.start, [], (opener, done) :: outer⟩
  | _ => (step c tok).map fun c => ⟨.term purpose c, done, outer⟩

/-- One token is read. -/
def stepReader (r : Reader) (tok : Located) : Option Reader :=
  match r.mode with
  | .start => stepStart r.done r.outer tok
  | .name name loc =>
    match tok.1 with
    | .sym .assignment => some { r with mode := .term (.assign name) {} }
    | _ => stepTerm .expr ⟨.operator ⟨.identifier loc name, loc⟩, []⟩ r.done r.outer tok
  | .let_ =>
    match tok.1 with
    | .identifier name => some { r with mode := .letName name }
    | _ => none
  | .letName name =>
    match tok.1 with
    | .sym .assignment => some { r with mode := .term (.let_ name) {} }
    | _ => none
  | .term purpose c => stepTerm purpose c r.done r.outer tok
  | .brace w =>
    match tok.1 with
    | .sym .lbrace => some ⟨.start, [], (.else_ w, r.done) :: r.outer⟩
    | _ => none
  | .chain w =>
    match tok.1 with
    | .sym .elif => some { r with mode := .term (.elif w) {} }
    | .sym .else_ => some { r with mode := .brace w }
    | _ => stepStart (r.done ++ [w.stmt]) r.outer tok

/-- The program, if a statement and no block has been begun. -/
def finishReader (r : Reader) : Option Program :=
  match r.mode, r.outer with
  | .start, [] => if h : r.done = [] then none else some ⟨r.done, h⟩
  | .chain w, [] =>
    some ⟨r.done ++ [w.stmt], List.append_ne_nil_of_right_ne_nil _ (List.cons_ne_nil _ _)⟩
  | _, _ => none

def parseProgram (ts : List Located) : Option Program :=
  (ts.foldlM stepReader {}).bind finishReader

/-! ## 2. What is found is a resolved program -/

/-- Statements one after the other, maybe none. -/
inductive StmtsYield : List Stmt → List Located → Prop
  | nil : StmtsYield [] []
  | snoc {stmts us stmt ts} (h : StmtsYield stmts us) (hstmt : StmtYields stmt ts)
    (hr : stmt.Resolved) : StmtsYield (stmts ++ [stmt]) (us ++ ts)

inductive ChainReads : List Clause → List Located → Prop
  | nil : ChainReads [] []
  | snoc {clauses us clause ts} (h : ChainReads clauses us) (hclause : ClauseYields clause ts)
    (hr : clause.Resolved) : ChainReads (clauses ++ [clause]) (us ++ ts)

/-- The when-block has been read from the tokens. -/
inductive OpenWhen.Reads : OpenWhen → List Located → Prop
  | mk {w us vs ws ts} (l r : Location) (hcond : TermYields w.cond us) (hr : w.cond.Resolved)
    (hblock : StmtsYield w.block vs) (hne : w.block ≠ []) (hchain : ChainReads w.chain ws)
    (hts : ts = (.sym .when_, w.keyword) :: us ++ (.sym .lbrace, l) :: vs ++
      (.sym .rbrace, r) :: ws)
    (hspan : span ts = join w.keyword w.last) : OpenWhen.Reads w ts

inductive Opener.Reads : Opener → List Located → Prop
  | when_ {k cond us l} (h : TermYields cond us) (hr : cond.Resolved) :
    Opener.Reads (.when_ k cond) ((.sym .when_, k) :: us ++ [(.sym .lbrace, l)])
  | elif {w cond us vs k l} (hw : w.Reads us) (h : TermYields cond vs) (hr : cond.Resolved) :
    Opener.Reads (.elif w cond) (us ++ (.sym .elif, k) :: vs ++ [(.sym .lbrace, l)])
  | else_ {w us k l} (hw : w.Reads us) :
    Opener.Reads (.else_ w) (us ++ [(.sym .else_, k), (.sym .lbrace, l)])

inductive OuterReads : List (Opener × List Stmt) → List Located → Prop
  | nil : OuterReads [] []
  | cons {outer us before vs opener ws} (h : OuterReads outer us) (hbefore : StmtsYield before vs)
    (hopener : opener.Reads ws) : OuterReads ((opener, before) :: outer) (us ++ vs ++ ws)

inductive Purpose.Reads : Purpose → List Located → Prop
  | expr : Purpose.Reads .expr []
  | assign (name k l) :
    Purpose.Reads (.assign name) [(.identifier name, k), (.sym .assignment, l)]
  | let_ (name k k' l) : Purpose.Reads (.let_ name)
    [(.sym .let_, k), (.identifier name, k'), (.sym .assignment, l)]
  | when_ {k} : Purpose.Reads (.when_ k) [(.sym .when_, k)]
  | elif {w us k} (hw : w.Reads us) : Purpose.Reads (.elif w) (us ++ [(.sym .elif, k)])

inductive ReaderMode.Reads : ReaderMode → List Located → Prop
  | start : ReaderMode.Reads .start []
  | name {name loc} : ReaderMode.Reads (.name name loc) [(.identifier name, loc)]
  | let_ {k} : ReaderMode.Reads .let_ [(.sym .let_, k)]
  | letName (name k k') :
    ReaderMode.Reads (.letName name) [(.sym .let_, k), (.identifier name, k')]
  | term {purpose us c vs} (hpurpose : purpose.Reads us) (hc : c.Reads vs) :
    ReaderMode.Reads (.term purpose c) (us ++ vs)
  | brace {w us k} (hw : w.Reads us) : ReaderMode.Reads (.brace w) (us ++ [(.sym .else_, k)])
  | chain {w us} (hw : w.Reads us) : ReaderMode.Reads (.chain w) us

/-- The machine is where the tokens lead to. -/
inductive Reader.Reads : Reader → List Located → Prop
  | mk {mode done outer us vs ws} (houter : OuterReads outer us) (hdone : StmtsYield done vs)
    (hmode : ReaderMode.Reads mode ws) : Reader.Reads ⟨mode, done, outer⟩ (us ++ vs ++ ws)

/-! ### What has been read -/

theorem stmtsResolved_append {stmts stmts' : List Stmt} :
    stmtsResolved (stmts ++ stmts') ↔ stmtsResolved stmts ∧ stmtsResolved stmts' := by
  induction stmts with
  | nil => simp [stmtsResolved]
  | cons stmt stmts ih => simp [stmtsResolved, ih, and_assoc]

theorem chainResolved_append {clauses clauses' : List Clause} :
    chainResolved (clauses ++ clauses') ↔ chainResolved clauses ∧ chainResolved clauses' := by
  induction clauses with
  | nil => simp [chainResolved]
  | cons clause clauses ih => simp [chainResolved, ih, and_assoc]

theorem StmtsYield.append {stmts stmts' : List Stmt} {us vs : List Located}
    (h : StmtsYield stmts us) (h' : BlockYields stmts' vs) :
    BlockYields (stmts ++ stmts') (us ++ vs) := by
  induction h generalizing stmts' vs with
  | nil => exact h'
  | snoc h hstmt hr ih =>
    rw [List.append_assoc, List.append_assoc]
    exact ih (.cons hstmt h')

theorem StmtsYield.block {stmts : List Stmt} {us : List Located} (h : StmtsYield stmts us)
    (hne : stmts ≠ []) : BlockYields stmts us := by
  cases h with
  | nil => exact absurd rfl hne
  | snoc h hstmt hr => exact h.append (.one hstmt)

theorem StmtsYield.resolved {stmts : List Stmt} {us : List Located} (h : StmtsYield stmts us) :
    stmtsResolved stmts := by
  induction h with
  | nil => trivial
  | snoc h hstmt hr ih => exact stmtsResolved_append.mpr ⟨ih, hr, trivial⟩

theorem ChainReads.append {clauses clauses' : List Clause} {us vs : List Located}
    (h : ChainReads clauses us) (h' : ChainYields clauses' vs) :
    ChainYields (clauses ++ clauses') (us ++ vs) := by
  induction h generalizing clauses' vs with
  | nil => exact h'
  | snoc h hclause hr ih =>
    rw [List.append_assoc, List.append_assoc]
    exact ih (.cons hclause h')

theorem ChainReads.yields {clauses : List Clause} {us : List Located}
    (h : ChainReads clauses us) : ChainYields clauses us := by
  have h' := h.append .nil
  rwa [List.append_nil, List.append_nil] at h'

theorem ChainReads.resolved {clauses : List Clause} {us : List Located}
    (h : ChainReads clauses us) : chainResolved clauses := by
  induction h with
  | nil => trivial
  | snoc h hclause hr ih => exact chainResolved_append.mpr ⟨ih, hr, trivial⟩

theorem OpenWhen.Reads.yields {w : OpenWhen} {ts : List Located} (h : w.Reads ts) :
    StmtYields w.stmt ts ∧ w.stmt.Resolved := by
  obtain ⟨l, r, hcond, hr, hblock, hne, hchain, hts, hspan⟩ := h
  refine ⟨?_, hr, hblock.resolved, hchain.resolved⟩
  have h := StmtYields.when_ hcond (hblock.block hne) hchain.yields hts
  rwa [hspan] at h

theorem OpenWhen.Reads.last {w : OpenWhen} {ts : List Located} (h : w.Reads ts)
    (us : List Located) (r : Location) :
    span (ts ++ us ++ [(.sym .rbrace, r)]) = join w.keyword r := by
  obtain ⟨l, r', hcond, hr, hblock, hne, hchain, rfl, hspan⟩ := h
  exact span_bracket (.sym .when_, w.keyword) (.sym .rbrace, r) _

/-- A clause more. -/
theorem OpenWhen.Reads.clause {w : OpenWhen} {ts us : List Located} {clause : Clause}
    {r : Location} (h : w.Reads ts) (hclause : ClauseYields clause (us ++ [(.sym .rbrace, r)]))
    (hr : clause.Resolved) :
    OpenWhen.Reads { w with chain := w.chain ++ [clause], last := r }
      (ts ++ us ++ [(.sym .rbrace, r)]) := by
  have hlast := h.last us r
  obtain ⟨l, r', hcond, hr', hblock, hne, hchain, rfl, hspan⟩ := h
  refine ⟨l, r', hcond, hr', hblock, hne, .snoc hchain hclause hr, ?_, hlast⟩
  simp only [List.append_assoc, List.cons_append]

/-- **The closing bracket of a block.** -/
theorem Opener.Reads.close {opener : Opener} {us vs : List Located} {block : List Stmt}
    (h : opener.Reads us) (hblock : StmtsYield block vs) (hne : block ≠ []) (r : Location) :
    (opener.close block r).Reads (us ++ vs ++ [(.sym .rbrace, r)]) := by
  cases h with
  | @when_ k cond us l h hr =>
    refine ⟨l, r, h, hr, hblock, hne, .nil, ?_, ?_⟩
    · simp only [List.append_assoc, List.cons_append, List.nil_append]
      rfl
    · exact span_bracket (.sym .when_, k) (.sym .rbrace, r) _
  | @elif w cond ts ts' k l hw h hr =>
    have hclause := ClauseYields.elif (k := k) (l := l) (r := r) h (hblock.block hne)
    have h := hw.clause hclause ⟨hr, hblock.resolved⟩
    simp only [List.append_assoc, List.cons_append, List.nil_append] at h ⊢
    exact h
  | @else_ w us k l hw =>
    have hclause := ClauseYields.else_ (k := k) (l := l) (r := r) (hblock.block hne)
    have h := hw.clause hclause hblock.resolved
    simp only [List.append_assoc, List.cons_append, List.nil_append] at h ⊢
    exact h

/-! ### Steps -/

theorem eq_of_fst {tok : Located} {t : Token} (h : tok.1 = t) : tok = (t, tok.2) := Prod.ext h rfl

theorem reads_start {done : List Stmt} {outer : List (Opener × List Stmt)} {us vs : List Located}
    {tok : Located} {r : Reader} (houter : OuterReads outer us) (hdone : StmtsYield done vs)
    (h : stepStart done outer tok = some r) : r.Reads (us ++ vs ++ [tok]) := by
  unfold stepStart at h
  split at h
  · next name heq =>
    cases h
    rw [eq_of_fst heq]
    exact .mk houter hdone .name
  · next heq =>
    cases h
    rw [eq_of_fst heq]
    exact .mk houter hdone .let_
  · next heq =>
    cases h
    rw [eq_of_fst heq]
    exact .mk houter hdone (.term .when_ (.operand .nil))
  · next heq =>
    split at h
    · next stmt stmts opener before outer =>
      cases h
      cases houter with
      | @cons outer us before ws opener xs houter hbefore hopener =>
        have hclose := hopener.close hdone (List.cons_ne_nil _ _) tok.2
        rw [eq_of_fst heq]
        have hreads := Reader.Reads.mk houter hbefore (.chain hclose)
        simp only [List.append_assoc] at hreads ⊢
        exact hreads
    · cases h
  · obtain ⟨c, hstep, rfl⟩ := Option.map_eq_some_iff.mp h
    exact .mk houter hdone (.term .expr ((Config.Reads.operand .nil).step hstep))

theorem Purpose.Reads.stmt {purpose : Purpose} {us vs : List Located} {e : Term} {stmt : Stmt}
    (h : purpose.Reads us) (hyields : TermYields e vs) (hr : e.Resolved)
    (hstmt : purpose.stmt e = some stmt) (l : Location) :
    StmtYields stmt (us ++ vs ++ [(.sym .semi, l)]) ∧ stmt.Resolved := by
  cases h with
  | expr =>
    cases hstmt
    exact ⟨.expr hyields, hr⟩
  | assign =>
    cases hstmt
    exact ⟨.assign hyields, hr⟩
  | let_ =>
    cases hstmt
    exact ⟨.let_ hyields, hr⟩
  | when_ => cases hstmt
  | elif hw => cases hstmt

theorem Purpose.Reads.opener {purpose : Purpose} {us vs : List Located} {e : Term}
    {opener : Opener} (h : purpose.Reads us) (hyields : TermYields e vs) (hr : e.Resolved)
    (hopener : purpose.opener e = some opener) (l : Location) :
    opener.Reads (us ++ vs ++ [(.sym .lbrace, l)]) := by
  cases h with
  | expr => cases hopener
  | assign => cases hopener
  | let_ => cases hopener
  | when_ =>
    cases hopener
    exact .when_ hyields hr
  | @elif w us k hw =>
    cases hopener
    have h := Opener.Reads.elif (k := k) (l := l) hw hyields hr
    simpa only [List.append_assoc, List.cons_append, List.nil_append] using h

theorem reads_term {purpose : Purpose} {c : Config} {done : List Stmt}
    {outer : List (Opener × List Stmt)} {us vs ws xs : List Located} {tok : Located} {r : Reader}
    (houter : OuterReads outer us) (hdone : StmtsYield done vs) (hpurpose : purpose.Reads ws)
    (hc : c.Reads xs) (h : stepTerm purpose c done outer tok = some r) :
    r.Reads (us ++ vs ++ (ws ++ xs) ++ [tok]) := by
  unfold stepTerm at h
  split at h
  · next heq =>
    obtain ⟨e, hfin, h⟩ := Option.bind_eq_some_iff.mp h
    obtain ⟨stmt, hstmt, rfl⟩ := Option.map_eq_some_iff.mp h
    obtain ⟨hyields, hr⟩ := hc.finish hfin
    obtain ⟨hstmt, hr⟩ := hpurpose.stmt hyields hr hstmt tok.2
    rw [eq_of_fst heq]
    have hreads := Reader.Reads.mk houter (hdone.snoc hstmt hr) .start
    simpa only [List.append_assoc, List.append_nil] using hreads
  · next heq =>
    obtain ⟨e, hfin, h⟩ := Option.bind_eq_some_iff.mp h
    obtain ⟨opener, hopener, rfl⟩ := Option.map_eq_some_iff.mp h
    obtain ⟨hyields, hr⟩ := hc.finish hfin
    have hopener := hpurpose.opener hyields hr hopener tok.2
    rw [eq_of_fst heq]
    have hreads := Reader.Reads.mk (houter.cons hdone hopener) .nil .start
    simpa only [List.append_assoc, List.append_nil] using hreads
  · obtain ⟨c', hstep, rfl⟩ := Option.map_eq_some_iff.mp h
    have hreads := Reader.Reads.mk houter hdone (.term hpurpose (hc.step hstep))
    simpa only [List.append_assoc] using hreads

/-- **Every step reads its token.** -/
theorem Reader.Reads.step {r r' : Reader} {read : List Located} {tok : Located}
    (h : r.Reads read) (hstep : stepReader r tok = some r') : r'.Reads (read ++ [tok]) := by
  obtain @⟨mode, done, outer, us, vs, ws, houter, hdone, hmode⟩ := h
  cases hmode with
  | start =>
    rw [List.append_nil]
    exact reads_start houter hdone hstep
  | @name name loc =>
    simp only [stepReader] at hstep
    split at hstep
    · next heq =>
      cases hstep
      rw [eq_of_fst heq]
      have hreads := Reader.Reads.mk houter hdone
        (.term (.assign name loc tok.2) (.operand .nil))
      simpa only [List.append_assoc, List.append_nil, List.cons_append, List.nil_append]
        using hreads
    · exact reads_term houter hdone .expr
        (.operator (x := ⟨.identifier loc name, loc⟩) .nil ⟨.identifier, trivial, rfl⟩ rfl) hstep
  | @let_ k =>
    simp only [stepReader] at hstep
    split at hstep
    · next name heq =>
      cases hstep
      rw [eq_of_fst heq]
      have hreads := Reader.Reads.mk houter hdone (.letName name k tok.2)
      simpa only [List.append_assoc, List.append_nil, List.cons_append, List.nil_append]
        using hreads
    · cases hstep
  | @letName name k k' =>
    simp only [stepReader] at hstep
    split at hstep
    · next heq =>
      cases hstep
      rw [eq_of_fst heq]
      have hreads := Reader.Reads.mk houter hdone
        (.term (.let_ name k k' tok.2) (.operand .nil))
      simpa only [List.append_assoc, List.append_nil, List.cons_append, List.nil_append]
        using hreads
    · cases hstep
  | term hpurpose hc => exact reads_term houter hdone hpurpose hc hstep
  | @brace w us k hw =>
    simp only [stepReader] at hstep
    split at hstep
    · next heq =>
      cases hstep
      rw [eq_of_fst heq]
      have hreads := Reader.Reads.mk
        (houter.cons hdone (.else_ (k := k) (l := tok.2) hw)) .nil .start
      simpa only [List.append_assoc, List.append_nil, List.cons_append, List.nil_append]
        using hreads
    · cases hstep
  | @chain w us hw =>
    simp only [stepReader] at hstep
    split at hstep
    · next heq =>
      cases hstep
      rw [eq_of_fst heq]
      have hreads := Reader.Reads.mk houter hdone
        (.term (.elif (k := tok.2) hw) (.operand .nil))
      simpa only [List.append_assoc, List.append_nil] using hreads
    · next heq =>
      cases hstep
      rw [eq_of_fst heq]
      have hreads := Reader.Reads.mk houter hdone (.brace (k := tok.2) hw)
      simpa only [List.append_assoc] using hreads
    · have hreads := reads_start houter (hdone.snoc hw.yields.1 hw.yields.2) hstep
      simpa only [List.append_assoc] using hreads

/-- **And so does every run.** -/
theorem Reader.Reads.run {r r' : Reader} {read ts : List Located} (h : r.Reads read)
    (hrun : ts.foldlM stepReader r = some r') : r'.Reads (read ++ ts) := by
  induction ts generalizing r read with
  | nil =>
    cases hrun
    rwa [List.append_nil]
  | cons tok ts ih =>
    rw [List.foldlM_cons, Option.bind_eq_bind, Option.bind_eq_some_iff] at hrun
    obtain ⟨r₁, hstep, hrun⟩ := hrun
    have h := ih (h.step hstep) hrun
    rwa [List.append_assoc] at h

theorem Reader.Reads.finish {r : Reader} {read : List Located} {p : Program} (h : r.Reads read)
    (hfin : finishReader r = some p) : p.Yields read ∧ p.Resolved := by
  obtain @⟨mode, done, outer, us, vs, ws, houter, hdone, hmode⟩ := h
  simp only [finishReader] at hfin
  split at hfin
  · split at hfin
    · cases hfin
    · next hne =>
      cases hfin
      cases houter
      cases hmode
      rw [List.nil_append, List.append_nil]
      exact ⟨hdone.block hne, hdone.resolved⟩
  · cases hfin
    cases houter
    cases hmode with
    | chain hw =>
      rw [List.nil_append]
      have hdone := hdone.snoc hw.yields.1 hw.yields.2
      exact ⟨hdone.block (List.append_ne_nil_of_right_ne_nil _ (List.cons_ne_nil _ _)),
        hdone.resolved⟩
  · cases hfin

/-! ## 3. A resolved program is found -/

/-- Between two statements of a block: the last one may still be a when-block that could go on. -/
def Ready (r : Reader) (done : List Stmt) (outer : List (Opener × List Stmt)) : Prop :=
  r = ⟨.start, done, outer⟩ ∨
    ∃ w before, r = ⟨.chain w, before, outer⟩ ∧ done = before ++ [w.stmt]

theorem ready_start (done : List Stmt) (outer : List (Opener × List Stmt)) :
    Ready ⟨.start, done, outer⟩ done outer :=
  .inl rfl

theorem Ready.step {r : Reader} {done : List Stmt} {outer : List (Opener × List Stmt)}
    {tok : Located} (h : Ready r done outer) (helif : tok.1 ≠ .sym .elif)
    (helse : tok.1 ≠ .sym .else_) : stepReader r tok = stepStart done outer tok := by
  rcases h with rfl | ⟨w, before, rfl, rfl⟩
  · rfl
  · simp only [stepReader]

theorem reader_cons {r r' : Reader} {tok : Located} (h : stepReader r tok = some r')
    (ts : List Located) : (tok :: ts).foldlM stepReader r = ts.foldlM stepReader r' := by
  rw [List.foldlM_cons, h]
  rfl

theorem reader_append {r r' : Reader} {us : List Located} (h : us.foldlM stepReader r = some r')
    (vs : List Located) : (us ++ vs).foldlM stepReader r = vs.foldlM stepReader r' := by
  rw [List.foldlM_append, h]
  rfl

/-! ### Terms -/

theorem stepTerm_inTerm {purpose : Purpose} {c c' : Config} {done : List Stmt}
    {outer : List (Opener × List Stmt)} {tok : Located} (htok : tok.1.InTerm)
    (h : step c tok = some c') :
    stepTerm purpose c done outer tok = some ⟨.term purpose c', done, outer⟩ := by
  unfold stepTerm
  split
  · next heq => simp [heq, Token.InTerm] at htok
  · next heq => simp [heq, Token.InTerm] at htok
  · rw [h]
    rfl

theorem term_run {purpose : Purpose} {c c' : Config} {done : List Stmt}
    {outer : List (Opener × List Stmt)} {us : List Located} (hus : InTerms us)
    (h : us.foldlM step c = some c') :
    us.foldlM stepReader ⟨.term purpose c, done, outer⟩ = some ⟨.term purpose c', done, outer⟩ := by
  induction us generalizing c with
  | nil =>
    cases h
    rfl
  | cons tok us ih =>
    rw [List.foldlM_cons, Option.bind_eq_bind, Option.bind_eq_some_iff] at h
    obtain ⟨c₁, hstep, h⟩ := h
    obtain ⟨htok, hus⟩ := inTerms_cons.mp hus
    have hreader : stepReader ⟨.term purpose c, done, outer⟩ tok =
        some ⟨.term purpose c₁, done, outer⟩ := stepTerm_inTerm htok hstep
    rw [reader_cons hreader, ih hus h]

theorem term_semi {purpose : Purpose} {c c' : Config} {done : List Stmt}
    {outer : List (Opener × List Stmt)} {us : List Located} {e : Term} {stmt : Stmt}
    (hus : InTerms us) (h : us.foldlM step c = some c') (hfin : finish c' = some e)
    (hstmt : purpose.stmt e = some stmt) (l : Location) :
    (us ++ [(Token.sym .semi, l)]).foldlM stepReader ⟨.term purpose c, done, outer⟩ =
      some ⟨.start, done ++ [stmt], outer⟩ := by
  have hstep : stepReader ⟨.term purpose c', done, outer⟩ (.sym .semi, l) =
      some ⟨.start, done ++ [stmt], outer⟩ := by
    simp only [stepReader, stepTerm, hfin, hstmt, Option.bind_some, Option.map_some]
  rw [reader_append (term_run hus h), reader_cons hstep]
  rfl

theorem term_lbrace {purpose : Purpose} {c c' : Config} {done : List Stmt}
    {outer : List (Opener × List Stmt)} {us : List Located} {e : Term} {opener : Opener}
    (hus : InTerms us) (h : us.foldlM step c = some c') (hfin : finish c' = some e)
    (hopener : purpose.opener e = some opener) (l : Location) :
    (us ++ [(Token.sym .lbrace, l)]).foldlM stepReader ⟨.term purpose c, done, outer⟩ =
      some ⟨.start, [], (opener, done) :: outer⟩ := by
  have hstep : stepReader ⟨.term purpose c', done, outer⟩ (.sym .lbrace, l) =
      some ⟨.start, [], (opener, done) :: outer⟩ := by
    simp only [stepReader, stepTerm, hfin, hopener, Option.bind_some, Option.map_some]
  rw [reader_append (term_run hus h), reader_cons hstep]
  rfl

theorem TermYields.run_finish {e : Term} {us : List Located} (h : TermYields e us)
    (hr : e.Resolved) : ∃ c, us.foldlM step {} = some c ∧ finish c = some e :=
  Option.bind_eq_some_iff.mp (parseTerm_eq_some.mpr ⟨h, hr⟩)

/-- An identifier at the beginning of a statement, if no `=` follows. -/
theorem name_run {name : String} {loc : Location} {done : List Stmt}
    {outer : List (Opener × List Stmt)} {ts : List Located} (hne : ts ≠ [])
    (h : ∀ tok ∈ ts.head?, tok.1 ≠ .sym .assignment) :
    ts.foldlM stepReader ⟨.name name loc, done, outer⟩ = ts.foldlM stepReader
      ⟨.term .expr ⟨.operator ⟨.identifier loc name, loc⟩, []⟩, done, outer⟩ := by
  cases ts with
  | nil => exact absurd rfl hne
  | cons tok ts =>
    have hstep : stepReader ⟨.name name loc, done, outer⟩ tok = stepReader
        ⟨.term .expr ⟨.operator ⟨.identifier loc name, loc⟩, []⟩, done, outer⟩ tok := by
      simp only [stepReader]
      split
      · next heq => exact absurd heq (h tok rfl)
      · rfl
    rw [List.foldlM_cons, hstep, List.foldlM_cons]

theorem stepStart_inTerm {done : List Stmt} {outer : List (Opener × List Stmt)} {tok : Located}
    {c : Config} (htok : tok.1.InTerm) (hname : ∀ name, tok.1 ≠ .identifier name)
    (h : step {} tok = some c) :
    stepStart done outer tok = some ⟨.term .expr c, done, outer⟩ := by
  unfold stepStart
  split
  · next heq => exact absurd heq (hname _)
  · next heq => simp [heq, Token.InTerm] at htok
  · next heq => simp [heq, Token.InTerm] at htok
  · next heq => simp [heq, Token.InTerm] at htok
  · rw [h]
    rfl

theorem Token.InTerm.ne {tok : Token} {s : Sym} (h : tok.InTerm) (hs : ¬ (Token.sym s).InTerm) :
    tok ≠ .sym s := by
  rintro rfl
  exact hs h

/-- An expression statement. -/
theorem Ready.expr {r : Reader} {done : List Stmt} {outer : List (Opener × List Stmt)} {e : Term}
    {us : List Located} (hready : Ready r done outer) (h : TermYields e us) (hr : e.Resolved)
    (l : Location) : (us ++ [(Token.sym .semi, l)]).foldlM stepReader r =
      some ⟨.start, done ++ [.expr e], outer⟩ := by
  obtain ⟨c, hrun, hfin⟩ := h.run_finish hr
  have hus := h.inTerms
  cases us with
  | nil => exact absurd rfl h.ne_nil
  | cons tok us =>
    rw [List.foldlM_cons, Option.bind_eq_bind, Option.bind_eq_some_iff] at hrun
    obtain ⟨c₁, hstep, hrun⟩ := hrun
    obtain ⟨htok, hus⟩ := inTerms_cons.mp hus
    have hstart := hready.step (htok.ne (by simp [Token.InTerm])) (htok.ne (by simp [Token.InTerm]))
    have hsemi : (us ++ [(Token.sym .semi, l)]).foldlM stepReader ⟨.term .expr c₁, done, outer⟩ =
        some ⟨.start, done ++ [.expr e], outer⟩ := term_semi hus hrun hfin rfl l
    by_cases hname : ∃ name, tok.1 = .identifier name
    · obtain ⟨name, hname⟩ := hname
      rw [eq_of_fst hname] at hstart hstep ⊢
      cases hstep
      have hnext : ∀ x ∈ (us ++ [((Token.sym .semi, l) : Located)]).head?,
          x.1 ≠ .sym .assignment := by
        cases us with
        | nil => simp
        | cons x us => simpa using (inTerms_cons.mp hus).1.ne (by simp [Token.InTerm])
      rw [List.cons_append, reader_cons (hstart.trans rfl),
        name_run (List.append_ne_nil_of_right_ne_nil _ (List.cons_ne_nil _ _)) hnext]
      exact hsemi
    · rw [List.cons_append, reader_cons (hstart.trans (stepStart_inTerm htok
        (fun name h => hname ⟨name, h⟩) hstep))]
      exact hsemi

/-! ### Statements -/

/-- The location of the last token, or `l`. -/
def lastLoc (l : Location) (ts : List Located) : Location :=
  match ts.getLast? with
  | none => l
  | some tok => tok.2

theorem lastLoc_append (l : Location) (us vs : List Located) :
    lastLoc l (us ++ vs) = lastLoc (lastLoc l us) vs := by
  simp only [lastLoc, List.getLast?_append]
  cases vs.getLast? <;> rfl

theorem lastLoc_single (l : Location) (us : List Located) (tok : Located) :
    lastLoc l (us ++ [tok]) = tok.2 := by
  rw [lastLoc_append]
  rfl

theorem span_lastLoc (tok tok' : Located) (us vs : List Located) :
    span (tok :: us ++ tok' :: vs) = join tok.2 (lastLoc tok'.2 vs) := by
  rw [span_append (List.cons_ne_nil tok us) (List.cons_ne_nil tok' vs),
    span_eq (List.cons_ne_nil tok us), span_eq (List.cons_ne_nil tok' vs)]
  cases vs with
  | nil => rfl
  | cons x vs =>
    rw [List.getLast_cons (List.cons_ne_nil x vs), lastLoc,
      List.getLast?_eq_some_getLast (List.cons_ne_nil x vs)]
    rfl

/-- The block of a clause has been read: the bracket behind it. -/
theorem Ready.rbrace {r : Reader} {block before : List Stmt} {opener : Opener}
    {outer : List (Opener × List Stmt)} (h : Ready r block ((opener, before) :: outer))
    (hne : block ≠ []) (l : Location) : stepReader r (.sym .rbrace, l) =
      some ⟨.chain (opener.close block l), before, outer⟩ := by
  rw [h.step (by simp) (by simp)]
  cases block with
  | nil => exact absurd rfl hne
  | cons stmt stmts => rfl

theorem BlockYields.ne_nil {stmts : List Stmt} {ts : List Located} (h : BlockYields stmts ts) :
    stmts ≠ [] := by
  cases h <;> exact List.cons_ne_nil _ _

mutual

/-- **A resolved statement is found.** -/
theorem StmtYields.run {stmt : Stmt} {ts : List Located} : StmtYields stmt ts → stmt.Resolved →
    ∀ {r : Reader} {done : List Stmt} {outer : List (Opener × List Stmt)}, Ready r done outer →
      ∃ r', ts.foldlM stepReader r = some r' ∧ Ready r' (done ++ [stmt]) outer
  | .assign h, hr, r, done, outer, hready => by
    obtain ⟨c, hrun, hfin⟩ := h.run_finish hr
    refine ⟨_, ?_, ready_start _ outer⟩
    rw [List.cons_append, List.cons_append,
      reader_cons ((hready.step (by simp) (by simp)).trans rfl), reader_cons rfl]
    exact term_semi h.inTerms hrun hfin rfl _
  | .let_ h, hr, r, done, outer, hready => by
    obtain ⟨c, hrun, hfin⟩ := h.run_finish hr
    refine ⟨_, ?_, ready_start _ outer⟩
    rw [List.cons_append, List.cons_append, List.cons_append,
      reader_cons ((hready.step (by simp) (by simp)).trans rfl), reader_cons rfl, reader_cons rfl]
    exact term_semi h.inTerms hrun hfin rfl _
  | .expr h, hr, r, done, outer, hready => ⟨_, hready.expr h hr _, ready_start _ outer⟩
  | @StmtYields.when_ cond block chain us vs ws _ k l m h hblock hchain hts, hr, r, done, outer,
    hready => by
    obtain ⟨hr₁, hr₂, hr₃⟩ := hr
    obtain ⟨c, hcond, hfin⟩ := h.run_finish hr₁
    obtain ⟨r₁, hrun, hready₁⟩ := hblock.run hr₂ (ready_start [] ((.when_ k cond, done) :: outer))
    have hlbrace : (us ++ [(Token.sym .lbrace, l)]).foldlM stepReader
        ⟨.term (.when_ k) {}, done, outer⟩ = some ⟨.start, [], (.when_ k cond, done) :: outer⟩ :=
      term_lbrace h.inTerms hcond hfin rfl l
    refine ⟨⟨.chain ⟨k, cond, block, chain, lastLoc m ws⟩, done, outer⟩, ?_,
      .inr ⟨_, done, rfl, ?_⟩⟩
    · have hlist : ts = (.sym .when_, k) :: ((us ++ [(.sym .lbrace, l)]) ++
          (vs ++ (.sym .rbrace, m) :: ws)) := by
        simp only [hts, List.append_assoc, List.cons_append, List.nil_append]
      rw [hlist, reader_cons ((hready.step (by simp) (by simp)).trans rfl),
        reader_append hlbrace, reader_append hrun,
        reader_cons (hready₁.rbrace hblock.ne_nil m), hchain.run hr₃]
      rfl
    · have hspan : span ts = join k (lastLoc m ws) :=
        hts ▸ span_lastLoc (.sym .when_, k) (.sym .rbrace, m) (us ++ (.sym .lbrace, l) :: vs) ws
      rw [hspan]
      rfl

/-- **A resolved block is found.** -/
theorem BlockYields.run {stmts : List Stmt} {ts : List Located} : BlockYields stmts ts →
    stmtsResolved stmts → ∀ {r : Reader} {done : List Stmt} {outer : List (Opener × List Stmt)},
      Ready r done outer →
        ∃ r', ts.foldlM stepReader r = some r' ∧ Ready r' (done ++ stmts) outer
  | .one h, hr, r, done, outer, hready => h.run hr.1 hready
  | .cons h h', hr, r, done, outer, hready => by
    obtain ⟨r₁, hrun, hready⟩ := h.run hr.1 hready
    obtain ⟨r₂, hrun', hready⟩ := h'.run hr.2 hready
    refine ⟨r₂, (reader_append hrun _).trans hrun', ?_⟩
    rwa [List.append_assoc] at hready

theorem ClauseYields.run {clause : Clause} {ts : List Located} : ClauseYields clause ts →
    clause.Resolved → ∀ (w : OpenWhen) (done : List Stmt) (outer : List (Opener × List Stmt)),
      ts.foldlM stepReader ⟨.chain w, done, outer⟩ = some ⟨.chain { w with
        chain := w.chain ++ [clause], last := lastLoc w.last ts }, done, outer⟩
  | @ClauseYields.elif cond block us vs k l m h hblock, hr, w, done, outer => by
    obtain ⟨c, hcond, hfin⟩ := h.run_finish hr.1
    obtain ⟨r₁, hrun, hready⟩ := hblock.run hr.2 (ready_start [] ((.elif w cond, done) :: outer))
    have hlbrace : (us ++ [(Token.sym .lbrace, l)]).foldlM stepReader
        ⟨.term (.elif w) {}, done, outer⟩ = some ⟨.start, [], (.elif w cond, done) :: outer⟩ :=
      term_lbrace h.inTerms hcond hfin rfl l
    have hlist : (Token.sym .elif, k) :: us ++ (.sym .lbrace, l) :: vs ++ [(.sym .rbrace, m)] =
        (.sym .elif, k) :: ((us ++ [(.sym .lbrace, l)]) ++ (vs ++ [(.sym .rbrace, m)])) := by
      simp only [List.append_assoc, List.cons_append, List.nil_append]
    rw [lastLoc_single, hlist, reader_cons rfl, reader_append hlbrace, reader_append hrun,
      reader_cons (hready.rbrace hblock.ne_nil m)]
    rfl
  | @ClauseYields.else_ block vs k l m hblock, hr, w, done, outer => by
    obtain ⟨r₁, hrun, hready⟩ := hblock.run hr (ready_start [] ((.else_ w, done) :: outer))
    rw [lastLoc_single, List.cons_append, List.cons_append, reader_cons rfl, reader_cons rfl,
      reader_append hrun, reader_cons (hready.rbrace hblock.ne_nil m)]
    rfl

theorem ChainYields.run {clauses : List Clause} {ts : List Located} : ChainYields clauses ts →
    chainResolved clauses → ∀ (w : OpenWhen) (done : List Stmt)
      (outer : List (Opener × List Stmt)),
      ts.foldlM stepReader ⟨.chain w, done, outer⟩ = some ⟨.chain { w with
        chain := w.chain ++ clauses, last := lastLoc w.last ts }, done, outer⟩
  | .nil, _, w, done, outer => by
    rw [List.append_nil]
    rfl
  | .cons h h', hr, w, done, outer => by
    rw [reader_append (h.run hr.1 w done outer), h'.run hr.2, List.append_assoc, lastLoc_append]
    rfl

end

theorem finishReader_ready {r : Reader} {done : List Stmt} (h : Ready r done [])
    (hne : done ≠ []) : finishReader r = some ⟨done, hne⟩ := by
  rcases h with rfl | ⟨w, before, rfl, rfl⟩
  · simp only [finishReader, dif_neg hne]
  · rfl

/-- **The machine finds the resolved program of a text**, and nothing else. -/
theorem parseProgram_eq_some {ts : List Located} {p : Program} :
    parseProgram ts = some p ↔ p.Yields ts ∧ p.Resolved := by
  constructor
  · intro h
    obtain ⟨r, hrun, hfin⟩ := Option.bind_eq_some_iff.mp h
    have hreads := (Reader.Reads.mk .nil .nil .start).run hrun
    exact hreads.finish hfin
  · rintro ⟨h, hr⟩
    obtain ⟨r, hrun, hready⟩ := BlockYields.run h hr (ready_start [] [])
    exact Option.bind_eq_some_iff.mpr ⟨r, hrun, finishReader_ready hready p.nonempty⟩

/-! ## 4. What has been read can be completed -/

theorem step_bracket {f : Frame} {S S' : List Frame} {x x' : Operand}
    (h : Precedence.reduce Frame.rules 1 S x = (f :: S', x')) (hf : Frame.rules.level f = 0)
    (l : Location) : ∃ y, step ⟨.operator x, S⟩ (.sym .rparen, l) = some ⟨.operator y, S'⟩ := by
  cases f with
  | unary op loc => cases hf
  | infix_ left op => exact absurd hf (Nat.ne_of_gt op.precedence_pos)
  | paren loc => exact ⟨_, step_paren h l⟩
  | args head loc done => exact ⟨_, step_args h l⟩

/-- A term that can be completed. -/
def Completable (c : Config) : Prop :=
  ∃ (more : List Located) (c' : Config) (t : Term),
    InTerms more ∧ more.foldlM step c = some c' ∧ finish c' = some t

theorem Completable.cons {c c' : Config} (h : Completable c') (tok : Located)
    (hstep : step c tok = some c') (htok : tok.1.InTerm) : Completable c := by
  obtain ⟨more, c'', t, hmore, hrun, hfin⟩ := h
  exact ⟨tok :: more, c'', t, inTerms_cons.mpr ⟨htok, hmore⟩, (run_cons hstep more).trans hrun,
    hfin⟩

/-- Behind a term, the brackets that are open. -/
theorem operator_completable (n : Nat) {S : List Frame} (hn : S.length ≤ n) (x : Operand) :
    Completable ⟨.operator x, S⟩ := by
  induction n generalizing S x with
  | zero =>
    obtain rfl := List.length_eq_zero_iff.mp (Nat.le_zero.mp hn)
    exact ⟨[], _, _, inTerms_nil, rfl, rfl⟩
  | succ n ih =>
    have hreduce : Precedence.reduce Frame.rules 1 S x =
        (Precedence.base Frame.rules S, (Precedence.reduce Frame.rules 1 S x).2) :=
      Prod.ext (Precedence.reduce_one S x) rfl
    cases hbase : Precedence.base Frame.rules S with
    | nil =>
      rw [hbase] at hreduce
      exact ⟨[], _, _, inTerms_nil, rfl, finish_eq_some.mpr ⟨x, S, _, rfl, hreduce, rfl⟩⟩
    | cons f S' =>
      rw [hbase] at hreduce
      obtain ⟨y, hstep⟩ := step_bracket hreduce (Precedence.level_base hbase) {}
      have hlen : S'.length < S.length := by
        have hle := Precedence.base_length (R := Frame.rules) S
        rw [hbase] at hle
        exact hle
      exact (ih (Nat.le_of_lt_succ (Nat.lt_of_lt_of_le hlen hn)) y).cons _ hstep
        (by simp [Token.InTerm])

theorem operand_completable (S : List Frame) : Completable ⟨.operand, S⟩ :=
  (operator_completable S.length (Nat.le_refl _)
    ⟨.identifier {} "x", {}⟩).cons (.identifier "x", {}) rfl trivial

theorem emplaceBack_exists (done : Option ConstantListValueType) :
    ∃ v l, emplaceBack done v = some l := by
  cases done with
  | none => exact ⟨.i8 0, _, rfl⟩
  | some l =>
    cases l with
    | i8 vs => exact ⟨.i8 0, _, rfl⟩
    | i16 vs => exact ⟨.i16 0, _, rfl⟩
    | i32 vs => exact ⟨.i32 0, _, rfl⟩
    | i64 vs => exact ⟨.i64 0, _, rfl⟩
    | u8 vs => exact ⟨.u8 0, _, rfl⟩
    | u16 vs => exact ⟨.u16 0, _, rfl⟩
    | u32 vs => exact ⟨.u32 0, _, rfl⟩
    | u64 vs => exact ⟨.u64 0, _, rfl⟩
    | f32 vs => exact ⟨.f32 0, _, rfl⟩
    | f64 vs => exact ⟨.f64 0, _, rfl⟩
    | string vs => exact ⟨.string [], _, rfl⟩

/-- **Every term that has been begun can be completed.** -/
theorem Config.completable (c : Config) : Completable c := by
  obtain ⟨mode, S⟩ := c
  have hseparator (loc : Location) (l : ConstantListValueType) :
      Completable ⟨.separator loc l, S⟩ :=
    (operator_completable S.length (Nat.le_refl _) _).cons (.sym .rbracket, {}) rfl
      (by simp [Token.InTerm])
  cases mode with
  | operand => exact operand_completable S
  | operator x => exact operator_completable S.length (Nat.le_refl _) x
  | opening head loc =>
    exact (operand_completable _).cons (.sym .lparen, {}) rfl (by simp [Token.InTerm])
  | element loc done =>
    obtain ⟨v, l, hl⟩ := emplaceBack_exists done
    refine (hseparator loc l).cons (.constant v, {}) ?_ trivial
    simp only [step, hl, Option.map_some]
  | separator loc l => exact hseparator loc l

/-- A program that can be completed. -/
def Reader.Completable (r : Reader) : Prop :=
  ∃ (more : List Located) (r' : Reader) (p : Program),
    more.foldlM stepReader r = some r' ∧ finishReader r' = some p

theorem Reader.Completable.append {r r' : Reader} (h : r'.Completable) (us : List Located)
    (hrun : us.foldlM stepReader r = some r') : r.Completable := by
  obtain ⟨more, r'', p, hmore, hfin⟩ := h
  exact ⟨us ++ more, r'', p, (reader_append hrun more).trans hmore, hfin⟩

theorem Ready.completable {r : Reader} {done : List Stmt} {outer : List (Opener × List Stmt)}
    (h : Ready r done outer) (hne : done ≠ []) : r.Completable := by
  induction outer generalizing r done with
  | nil => exact ⟨[], r, _, rfl, finishReader_ready h hne⟩
  | cons o outer ih =>
    obtain ⟨opener, before⟩ := o
    have hready : Ready ⟨.chain (opener.close done {}), before, outer⟩
        (before ++ [(opener.close done {}).stmt]) outer := .inr ⟨_, _, rfl, rfl⟩
    exact (ih hready (List.append_ne_nil_of_right_ne_nil _ (List.cons_ne_nil _ _))).append
      [_] (reader_cons (h.rbrace hne {}) [])

theorem start_completable (done : List Stmt) (outer : List (Opener × List Stmt)) :
    Reader.Completable ⟨.start, done, outer⟩ := by
  have h : TermYields (.identifier {} "x") [(.identifier "x", {})] := .identifier
  exact ((ready_start (done ++ [.expr (.identifier {} "x")]) outer).completable
    (List.append_ne_nil_of_right_ne_nil _ (List.cons_ne_nil _ _))).append
      _ ((ready_start done outer).expr h trivial {})

theorem term_completable (purpose : Purpose) (c : Config) (done : List Stmt)
    (outer : List (Opener × List Stmt)) : Reader.Completable ⟨.term purpose c, done, outer⟩ := by
  obtain ⟨more, c', e, hmore, hrun, hfin⟩ := c.completable
  have hstmt (stmt : Stmt) (h : purpose.stmt e = some stmt) :
      Reader.Completable ⟨.term purpose c, done, outer⟩ :=
    (start_completable (done ++ [stmt]) outer).append _ (term_semi hmore hrun hfin h {})
  have hopener (opener : Opener) (h : purpose.opener e = some opener) :
      Reader.Completable ⟨.term purpose c, done, outer⟩ :=
    (start_completable [] ((opener, done) :: outer)).append _ (term_lbrace hmore hrun hfin h {})
  cases purpose with
  | expr => exact hstmt _ rfl
  | assign name => exact hstmt _ rfl
  | let_ name => exact hstmt _ rfl
  | when_ keyword => exact hopener _ rfl
  | elif w => exact hopener _ rfl

/-- **Whatever the machine has read can be completed.** -/
theorem Reader.completable (r : Reader) : r.Completable := by
  obtain ⟨mode, done, outer⟩ := r
  have hletName (name : String) : Reader.Completable ⟨.letName name, done, outer⟩ :=
    (term_completable (.let_ name) {} done outer).append [(.sym .assignment, {})] rfl
  cases mode with
  | start => exact start_completable done outer
  | name name loc =>
    exact (term_completable (.assign name) {} done outer).append
      [(.sym .assignment, {})] rfl
  | let_ => exact (hletName "x").append [(.identifier "x", {})] rfl
  | letName name => exact hletName name
  | term purpose c => exact term_completable purpose c done outer
  | brace w =>
    exact (start_completable [] ((.else_ w, done) :: outer)).append
      [(.sym .lbrace, {})] rfl
  | chain w =>
    have hready : Ready ⟨.chain w, done, outer⟩ (done ++ [w.stmt]) outer := .inr ⟨w, done, rfl, rfl⟩
    exact hready.completable (List.append_ne_nil_of_right_ne_nil _ (List.cons_ne_nil _ _))

/-- **The machine reads the beginnings of texts**, and nothing else. -/
theorem reads_iff_viable {read : List Located} :
    (∃ r, read.foldlM stepReader {} = some r) ↔
      ∃ (p : Program) (ts : List Located), p.Yields ts ∧ read <+: ts := by
  constructor
  · rintro ⟨r, hrun⟩
    obtain ⟨more, r', p, hmore, hfin⟩ := r.completable
    have hparse : parseProgram (read ++ more) = some p :=
      Option.bind_eq_some_iff.mpr ⟨r', (reader_append hrun more).trans hmore, hfin⟩
    exact ⟨p, read ++ more, (parseProgram_eq_some.mp hparse).1, List.prefix_append read more⟩
  · rintro ⟨p, ts, h, more, rfl⟩
    obtain ⟨q, hq⟩ := Program.exists_resolved h
    obtain ⟨r', hrun, -⟩ := Option.bind_eq_some_iff.mp (parseProgram_eq_some.mpr hq)
    rw [List.foldlM_append, Option.bind_eq_bind, Option.bind_eq_some_iff] at hrun
    obtain ⟨r, hr, -⟩ := hrun
    exact ⟨r, hr⟩

end Athena

end JitFusion
