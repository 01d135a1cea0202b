/-
# Builds

`BuildExpression` and `BuildPipeline` on a text.  A builder whose stack of blocks knows no name
ends with the tree of the program (`build_ok`), with the error that reports the last undefined
identifier (`build_undefined`), or as its verdict says (`build_verdict`).

The last section says when a build is sound about undefined identifiers.  The code is not sound on
every text: `MakeRefNode` copies the expression of a definition, also one that has a null pointer
where an undefined identifier stood.
-/
import JitFusion.AstScan

namespace JitFusion

namespace Athena

/-! ## 1. Texts -/

/-- The text is grammatical: the parser reads it to its end, and there is no when-block in an
expression. -/
def Grammatical (mode : BuildMode) (parse : Parse) : Prop :=
  parse.stop = none ∧
    (mode = .kExpression → ∀ stmt ∈ parse.program.statements, stmt.isWhen = false)

/-- A build in either mode. -/
def build (mode : BuildMode) (code : String) (parse : Parse) : M NodePtr :=
  match mode with
  | .kExpression => buildExpression code parse
  | .kPipeline => buildPipeline code parse

/-- The tree of a program: the statements of a pipeline, the last statement of an expression. -/
def Program.tree (mode : BuildMode) (code : String) (p : Program) : Option ExecNode :=
  match mode with
  | .kExpression => (stmtsTree mode code [] p.statements).bind fun args =>
      args.getLast?.map Prod.snd
  | .kPipeline => (stmtsTree mode code [] p.statements).map (.noOP {} · false)

/-- The error a build reports for an undefined identifier. -/
def undefinedStatus (code : String) (ref : Ref) : Status :=
  .parseError (Diagnostic.render {
    level := .kError
    message := "variable '" ++ ref.2 ++ "' is not defined"
    loc := ref.1.inSource code })

section Verdicts

variable {mode : BuildMode} {parse : Parse}

/-- A grammatical text runs to its end or copies a null pointer. -/
theorem verdict_grammatical (h : Grammatical mode parse) :
    verdict mode parse = none ∨ verdict mode parse = some .derefs := by
  have hwhen : mode = .kExpression → ∀ stmt ∈ parse.program.statements, stmt.isWhen = true →
      False := by
    intro hm stmt hs hw
    rw [h.2 hm stmt hs] at hw
    cases hw
  have hends : Ends True False (scanStmts mode [] parse.program.statements) :=
    scanStmts_ends _ (fun _ _ _ => trivial) hwhen fun _ => trivial
  replace hends := hends parse.stop
  unfold verdict
  cases hrun : (scanStmts mode [] parse.program.statements).run parse.stop with
  | error v =>
    rw [hrun] at hends
    cases v with
    | derefs => exact .inr rfl
    | stopped why =>
      rw [h.1] at hends
      cases hends
    | whenBlock => exact hends.elim
  | ok p =>
    obtain ⟨tainted, stop'⟩ := p
    rw [hrun] at hends
    have hstop : stop'.map Prod.snd = none := by rw [hends.2, h.1]; rfl
    rw [Option.map_eq_none_iff] at hstop
    subst hstop
    exact .inl rfl

/-- A text that runs to its end is one the parser does not give up on. -/
theorem verdict_none (h : verdict mode parse = none) : parse.stop = none ∧
    ∃ tainted, (scanStmts mode [] parse.program.statements).run none = .ok (tainted, none) ∧
      (tainted = true → parse.program.undefinedRefs ≠ []) := by
  have hends : Ends (parse.program.undefinedRefs ≠ []) True
      (scanStmts mode [] parse.program.statements) :=
    scanStmts_ends _ (fun _ hd => nomatch hd) (fun _ _ _ _ => trivial) fun h => h
  replace hends := hends parse.stop
  unfold verdict at h
  cases hrun : (scanStmts mode [] parse.program.statements).run parse.stop with
  | error v =>
    rw [hrun] at h
    exact nomatch h
  | ok p =>
    obtain ⟨tainted, stop'⟩ := p
    rw [hrun] at h hends
    cases stop' with
    | some s => exact nomatch h
    | none =>
      have hstop : parse.stop.map Prod.snd = none := hends.2.symm
      rw [Option.map_eq_none_iff] at hstop
      rw [hstop] at hrun
      exact ⟨hstop, tainted, hrun, hends.1⟩

/-- A null pointer that is copied stands for an undefined identifier. -/
theorem undefinedRefs_ne_nil_of_derefs (h : verdict mode parse = some .derefs) :
    parse.program.undefinedRefs ≠ [] := by
  have hends : Ends (parse.program.undefinedRefs ≠ []) True
      (scanStmts mode [] parse.program.statements) :=
    scanStmts_ends _ (fun _ hd => nomatch hd) (fun _ _ _ _ => trivial) fun h => h
  replace hends := hends parse.stop
  unfold verdict at h
  cases hrun : (scanStmts mode [] parse.program.statements).run parse.stop with
  | error v =>
    rw [hrun] at h hends
    rw [Option.some.inj h] at hends
    exact hends
  | ok p =>
    rw [hrun] at h
    rcases p with ⟨tainted, - | ⟨n, why⟩⟩
    · exact nomatch h
    · exact nomatch Option.some.inj h

theorem verdict_eq_none (h : Grammatical mode parse) (hrefs : parse.program.undefinedRefs = []) :
    verdict mode parse = none :=
  (verdict_grammatical h).resolve_right fun hv => undefinedRefs_ne_nil_of_derefs hv hrefs

end Verdicts

/-! ## 2. Runs -/

section Runs

variable {mode : BuildMode} {parse : Parse} {b : Builder}

/-- No block on the stack knows a name. -/
def Builder.Clear (b : Builder) : Prop := ∀ name, findVar name b.blockStack = none

theorem Builder.Clear.of_nil (h : b.blockStack = []) : b.Clear := by
  intro name
  rw [h]
  rfl

/-- Between two builds the current block is empty. -/
theorem findVar_reset (code : String) (mode : BuildMode) (name : String) :
    Builder.findVar name (b.reset code mode).blocks = Builder.findVar name b.blockStack := by
  rw [Builder.blocks, Builder.reset, Builder.findVar, AList.lookup_empty]

/-- The statements of a text, from a builder between two builds. -/
theorem reset_sim (mode : BuildMode) (code : String) (hb : b.Clear) (stmts : List Stmt)
    (stop : Option (Nat × Stop)) :
    Sim (scanStmts mode [] stmts) (buildStmts stmts) (b.reset code mode) stop fun tainted _ b' =>
      Extended (b.reset code mode) (undefStmts [] stmts) (stmtsTree mode code [] stmts)
        (defsAfter mode code [] stmts) tainted b' := by
  have hsees : Sees [] (b.reset code mode).blocks := ?_
  · exact buildStmts_sim stmts hsees rfl rfl
  intro name
  rw [findVar_reset, hb name]
  rfl

/-- A text that does not run to its end aborts as its verdict says. -/
theorem scan_verdict (code : String) (hb : b.Clear) {v : Verdict}
    (hv : verdict mode parse = some v) :
    ∃ abort p, (scan parse).run ⟨b.reset code mode, parse.stop⟩ = (.error abort, p) ∧
      v.Aborts abort := by
  have hsim := reset_sim mode code hb parse.program.statements parse.stop
  unfold Sim at hsim
  unfold verdict at hv
  rw [scan]
  cases hrun : (scanStmts mode [] parse.program.statements).run parse.stop with
  | error v' =>
    rw [hrun] at hsim hv
    rcases hsim with ⟨abort, p, hbuild, habort⟩
    rw [Option.some.inj hv] at habort
    exact ⟨abort, p, Fallible.run_bind_error hbuild, habort⟩
  | ok r =>
    obtain ⟨tainted, stop'⟩ := r
    rw [hrun] at hsim hv
    rcases hsim with ⟨_, b', hbuild, -⟩
    cases stop' with
    | none => exact nomatch hv
    | some s =>
      obtain ⟨n, why⟩ := s
      rw [← Option.some.inj hv, Fallible.run_bind_ok hbuild,
        Fallible.run_bind_ok (Fallible.run_get _)]
      cases why with
      | syntaxError message => exact ⟨_, _, rfl, rfl⟩
      | exception => exact ⟨_, _, rfl, rfl⟩

/-- A text that runs to its end: the undefined identifiers decide. -/
theorem scan_none (code : String) (hb : b.Clear) (hv : verdict mode parse = none) :
    ∃ b' tainted, Extended (b.reset code mode) parse.program.undefinedRefs
        (stmtsTree mode code [] parse.program.statements)
        (defsAfter mode code [] parse.program.statements) tainted b' ∧
      (tainted = true → parse.program.undefinedRefs ≠ []) ∧
      (scan parse).run ⟨b.reset code mode, parse.stop⟩ =
        match parse.program.undefinedRefs.getLast? with
        | none => (.ok (), ⟨b', none⟩)
        | some ref => (.error (.status (undefinedStatus code ref)), ⟨b', none⟩) := by
  rcases verdict_none hv with ⟨hstop, tainted, hrun, htaint⟩
  have hsim := reset_sim mode code hb parse.program.statements none
  unfold Sim at hsim
  rw [hrun] at hsim
  rcases hsim with ⟨_, b', hbuild, hext⟩
  refine ⟨b', tainted, hext, htaint, ?_⟩
  rcases hext.leaves with ⟨fresh, hleaves⟩
  have hmessage : b'.customErrorMessage =
      (b.reset code mode).message parse.program.undefinedRefs := by
    rw [hleaves]
    rfl
  rw [scan, hstop, Fallible.run_bind_ok hbuild, Fallible.run_bind_ok (Fallible.run_get _)]
  simp only
  rw [Fallible.run_bind_ok (Fallible.run_get _)]
  simp only [hmessage, Builder.message]
  cases hrefs : parse.program.undefinedRefs.getLast? with
  | none => rfl
  | some ref =>
    obtain ⟨loc, name⟩ := ref
    have hne : (b.reset code mode).undefinedMessage name loc ≠ "" := Diagnostic.render_ne_empty _
    simp only [if_pos hne]
    rfl

/-- The state `Scan` starts in. -/
theorem run_reset (code : String) (mode : BuildMode) (parse : Parse) (p : Parser) :
    (modify fun p => { builder := p.builder.reset code mode, stop := parse.stop } : M Unit).run p =
      (.ok (), ⟨p.builder.reset code mode, parse.stop⟩) := rfl

/-- What a build does after `Scan` is of no interest if `Scan` fails. -/
theorem build_scan_error {code : String} {p p' : Parser} {abort : Abort}
    (h : (scan parse).run ⟨p.builder.reset code mode, parse.stop⟩ = (.error abort, p')) :
    (build mode code parse).run p = (.error abort, p') := by
  cases mode with
  | kExpression =>
    rw [build, buildExpression, Fallible.run_bind_ok (run_reset _ _ _ _)]
    exact Fallible.run_bind_error h
  | kPipeline =>
    rw [build, buildPipeline, Fallible.run_bind_ok (run_reset _ _ _ _)]
    exact Fallible.run_bind_error h

/-- **A build aborts as the verdict says.** -/
theorem build_verdict (code : String) {p : Parser} (hb : p.builder.Clear) {v : Verdict}
    (hv : verdict mode parse = some v) :
    ∃ abort p', (build mode code parse).run p = (.error abort, p') ∧ v.Aborts abort := by
  rcases scan_verdict code hb hv with ⟨abort, p', hrun, habort⟩
  exact ⟨abort, p', build_scan_error hrun, habort⟩

/-- **The last undefined identifier is reported.** -/
theorem build_undefined (code : String) {p : Parser} (hb : p.builder.Clear)
    (hv : verdict mode parse = none)
    {ref : Ref} (href : parse.program.undefinedRefs.getLast? = some ref) :
    ∃ p', (build mode code parse).run p = (.error (.status (undefinedStatus code ref)), p') ∧
      p'.builder.blockStack = p.builder.blockStack := by
  rcases scan_none code hb hv with ⟨b', tainted, hext, -, hrun⟩
  rw [href] at hrun
  rcases hext.leaves with ⟨fresh, hleaves⟩
  refine ⟨_, build_scan_error hrun, ?_⟩
  change b'.blockStack = p.builder.blockStack
  rw [hleaves]
  rfl

/-- The last tree is that of the last statement. -/
theorem toExecStmts_getLast? {l : List (VarInfo × NodePtr)} {args : List (VarInfo × ExecNode)}
    (h : NodePtr.toExecStmts l = some args) :
    args.getLast?.map Prod.snd = l.getLast?.bind fun arg => arg.2.toExecNode := by
  induction l generalizing args with
  | nil =>
    rw [NodePtr.toExecStmts, Option.some.injEq] at h
    subst h
    rfl
  | cons arg l ih =>
    rcases arg with ⟨var, n⟩
    rw [NodePtr.toExecStmts] at h
    rcases Option.bind_eq_some_iff.mp h with ⟨e, he, h⟩
    rcases Option.map_eq_some_iff.mp h with ⟨rest, hrest, rfl⟩
    replace ih := ih hrest
    cases l with
    | nil =>
      rw [NodePtr.toExecStmts, Option.some.injEq] at hrest
      subst hrest
      simp [he]
    | cons arg l =>
      cases rest with
      | nil =>
        rw [NodePtr.toExecStmts] at hrest
        rcases Option.bind_eq_some_iff.mp hrest with ⟨_, _, h⟩
        rcases Option.map_eq_some_iff.mp h with ⟨_, _, h⟩
        cases h
      | cons x rest => rwa [List.getLast?_cons_cons, List.getLast?_cons_cons]

/-- A program has a statement, and so has its tree. -/
theorem stmtsTree_ne_nil {code : String} {p : Program} {args : List (VarInfo × ExecNode)}
    (h : stmtsTree mode code [] p.statements = some args) : args ≠ [] := by
  cases hs : p.statements with
  | nil => exact absurd hs p.nonempty
  | cons stmt stmts =>
    rw [hs, stmtsTree] at h
    rcases Option.bind_eq_some_iff.mp h with ⟨e, -, h⟩
    rcases Option.map_eq_some_iff.mp h with ⟨rest, -, rfl⟩
    exact List.cons_ne_nil _ _

/-- **Without undefined identifiers a build ends with the tree of the program.** -/
theorem build_ok (code : String) {p : Parser} (hb : p.builder.Clear)
    (hv : verdict mode parse = none)
    (hrefs : parse.program.undefinedRefs = []) :
    ∃ n p' e, (build mode code parse).run p = (.ok n, p') ∧ n.toExecNode = some e ∧
      parse.program.tree mode code = some e ∧ p'.builder.blockStack = p.builder.blockStack := by
  rcases scan_none code hb hv with ⟨b', tainted, hext, htaint, hrun⟩
  rw [hrefs] at hrun
  have hfalse : tainted = false := by
    cases tainted with
    | true => exact absurd hrefs (htaint rfl)
    | false => rfl
  rcases hext with ⟨⟨fresh, hleaves⟩, ⟨sts, hsts, htree⟩, -, htaints⟩
  have hstack : b'.blockStack = p.builder.blockStack := by
    rw [hleaves]
    rfl
  cases hargs : stmtsTree mode code [] parse.program.statements with
  | none =>
    rw [hargs, hfalse] at htaints
    cases htaints
  | some args =>
    rw [hargs] at htree
    cases mode with
    | kPipeline =>
      rw [build, buildPipeline, Fallible.run_bind_ok (run_reset _ _ _ _),
        Fallible.run_bind_ok hrun, Fallible.run_bind_ok (Fallible.run_get _)]
      refine ⟨_, _, .noOP {} args false, rfl, ?_, ?_, hstack⟩
      · rw [NodePtr.toExecNode, BlockContext.args, hsts]
        exact congrArg (Option.map _) htree
      · rw [Program.tree, hargs]
        rfl
    | kExpression =>
      have hlast := toExecStmts_getLast? htree
      rw [build, buildExpression, Fallible.run_bind_ok (run_reset _ _ _ _),
        Fallible.run_bind_ok hrun, Fallible.run_bind_ok (Fallible.run_get _)]
      have hcur : b'.current.statements = sts := hsts
      rw [List.getLast?_map] at hlast
      rw [Program.tree, hargs, Option.bind_some, hlast, hcur]
      have hne := stmtsTree_ne_nil hargs
      cases hl : sts.getLast? with
      | none =>
        rw [hl] at hlast
        rw [List.getLast?_eq_some_getLast hne] at hlast
        cases hlast
      | some st =>
        rw [hl, List.getLast?_eq_some_getLast hne] at hlast
        refine ⟨st.expression, ⟨b', none⟩, (args.getLast hne).2, rfl, hlast.symm, ?_, hstack⟩
        exact hlast.symm

/-- **A build that ends well** has read its text to the end, without undefined identifiers, and
has its tree. -/
theorem tree_of_build {code : String} {p p' : Parser} (hb : p.builder.Clear) {n : NodePtr}
    (h : (build mode code parse).run p = (.ok n, p')) :
    parse.program.undefinedRefs = [] ∧
      ∃ e, n.toExecNode = some e ∧ parse.program.tree mode code = some e := by
  cases hv : verdict mode parse with
  | some v =>
    rcases build_verdict code hb hv with ⟨abort, p'', hrun, -⟩
    exact nomatch h.symm.trans hrun
  | none =>
    cases href : parse.program.undefinedRefs.getLast? with
    | some ref =>
      rcases build_undefined code hb hv href with ⟨p'', hrun, -⟩
      exact nomatch h.symm.trans hrun
    | none =>
      have hnil : parse.program.undefinedRefs = [] := List.getLast?_eq_none_iff.mp href
      rcases build_ok code hb hv hnil with ⟨n', p'', e, hrun, hn, htree, -⟩
      obtain rfl : n = n' := Except.ok.inj (Prod.mk.inj (h.symm.trans hrun)).1
      exact ⟨hnil, e, hn, htree⟩

end Runs

/-! ## 3. Undefined identifiers -/

/-- A build of the text is OK or a parse error, and it reports an undefined identifier if the text
is grammatical and has one. -/
def ReportsUndefined (mode : BuildMode) (code : String) (parse : Parse) (b : Builder) : Prop :=
  ((∃ n, ((build mode code parse).run ⟨b, none⟩).1 = .ok n) ∨
    ∃ message, ((build mode code parse).run ⟨b, none⟩).1 = .error (.status (.parseError message))) ∧
  (Grammatical mode parse → parse.program.undefinedRefs ≠ [] →
    ∃ ref ∈ parse.program.undefinedRefs,
      ((build mode code parse).run ⟨b, none⟩).1 = .error (.status (undefinedStatus code ref)))

/-- **Undefined identifiers are reported unless a null pointer is copied or a conversion throws**
before the parser comes to the end of the text. -/
theorem build_reportsUndefined_iff (mode : BuildMode) (code : String) (parse : Parse) (b : Builder)
    (hb : b.Clear) : ReportsUndefined mode code parse b ↔
      verdict mode parse ≠ some .derefs ∧ verdict mode parse ≠ some (.stopped .exception) := by
  constructor
  · rintro ⟨hends, -⟩
    have hnot : ∀ v abort p, verdict mode parse = some v →
        (build mode code parse).run ⟨b, none⟩ = (.error abort, p) →
        ∃ message, abort = .status (.parseError message) := by
      intro v abort p _ hrun
      rw [hrun] at hends
      rcases hends with ⟨n, h⟩ | ⟨message, h⟩
      · exact nomatch h
      · exact ⟨message, Except.error.inj h⟩
    constructor
    · intro hv
      rcases build_verdict (p := ⟨b, none⟩) code hb hv with ⟨abort, p, hrun, habort⟩
      rcases hnot _ _ _ hv hrun with ⟨message, rfl⟩
      exact nomatch habort
    · intro hv
      rcases build_verdict (p := ⟨b, none⟩) code hb hv with ⟨abort, p, hrun, habort⟩
      rcases hnot _ _ _ hv hrun with ⟨message, rfl⟩
      exact nomatch habort
  · rintro ⟨hderefs, hexception⟩
    cases hv : verdict mode parse with
    | none =>
      cases href : parse.program.undefinedRefs.getLast? with
      | none =>
        have hnil : parse.program.undefinedRefs = [] := List.getLast?_eq_none_iff.mp href
        rcases build_ok (p := ⟨b, none⟩) code hb hv hnil with ⟨n, p, e, hrun, -⟩
        exact ⟨.inl ⟨n, by rw [hrun]⟩, fun _ h => absurd hnil h⟩
      | some ref =>
        rcases build_undefined (p := ⟨b, none⟩) code hb hv href with ⟨p, hrun, -⟩
        refine ⟨.inr ⟨_, by rw [hrun]; rfl⟩, fun _ _ => ⟨ref, List.mem_of_getLast? href, ?_⟩⟩
        rw [hrun]
    | some v =>
      rcases build_verdict (p := ⟨b, none⟩) code hb hv with ⟨abort, p, hrun, habort⟩
      refine ⟨.inr ?_, fun hg => ?_⟩
      · rw [hrun]
        cases v with
        | derefs => exact absurd hv hderefs
        | whenBlock =>
          rcases habort with ⟨message, rfl⟩
          exact ⟨message, rfl⟩
        | stopped why =>
          cases why with
          | exception => exact absurd hv hexception
          | syntaxError message =>
            rw [show abort = _ from habort]
            exact ⟨message, rfl⟩
      · rcases verdict_grammatical hg with h | h
        · exact nomatch hv.symm.trans h
        · exact absurd h hderefs

/-- `a = -x; b = a; b;` -/
def copiedNull : Parse where
  program :=
    { statements :=
        [.assign "a" (.unary ⟨1, 5, 1, 7⟩ .kMinus (.identifier ⟨1, 6, 1, 7⟩ "x")),
          .assign "b" (.identifier ⟨1, 13, 1, 14⟩ "a"),
          .expr (.identifier ⟨1, 16, 1, 17⟩ "b")]
      nonempty := List.cons_ne_nil _ _ }

/-- The second statement copies the expression of the first, which has a null child. -/
theorem copiedNull_not_reportsUndefined :
    ¬ReportsUndefined .kExpression "a = -x; b = a; b;" copiedNull {} := by
  rintro ⟨hends, -⟩
  have hv : verdict .kExpression copiedNull = some .derefs := rfl
  rcases build_verdict (p := ⟨{}, none⟩) "a = -x; b = a; b;" (.of_nil rfl) hv with
    ⟨abort, p, hrun, habort⟩
  rw [show abort = .nullDeref from habort] at hrun
  rw [hrun] at hends
  rcases hends with ⟨n, h⟩ | ⟨message, h⟩ <;> exact nomatch h

/-- `b = -x;` -/
def undefinedOperand : Parse where
  program :=
    { statements :=
        [.assign "b" (.unary ⟨1, 5, 1, 7⟩ .kMinus (.identifier ⟨1, 6, 1, 7⟩ "x"))]
      nonempty := List.cons_ne_nil _ _ }

theorem undefinedOperand_reportsUndefined :
    ReportsUndefined .kExpression "b = -x;" undefinedOperand {} :=
  (build_reportsUndefined_iff .kExpression "b = -x;" undefinedOperand {} (.of_nil rfl)).mpr
    ⟨by decide, by decide⟩

end Athena

end JitFusion
