/-
# Builders in use

A `ProgramAstBuilder` builds one text after another.  Each build starts with a reset of what the
one before it left: the statements, the index of their names, the two messages.  The stack of
blocks is not reset.  A text the parser gives up on inside a when-block leaves the blocks around
it on the stack, and `MakeRefNode` goes on to look names up in them.

Whether a call leaves a name behind is read off its tree and the action the parser stops at
(`leavesName`).  A builder carries something over exactly if one of its calls did
(`reuse_independent_iff`): if none did, every text has the outcome it has on a new builder, and
if one did, the text that consists of the name has another.
-/
import JitFusion.BlockStack
import JitFusion.Lib.Run

namespace JitFusion

namespace Athena

/-! ## 1. Calls -/

/-- A call of `BuildExpression` or of `BuildPipeline`. -/
structure BuildCall where
  mode : BuildMode
  code : String
  parse : Parse

/-- What the caller sees of a build: the tree or the code of the status, if it returns. -/
inductive BuildOutcome
  | ok (tree : Option ExecNode)
  | status (code : StatusCode)
  | exception
  | nullDeref
  | outOfRange

def BuildOutcome.ofRun : Except Abort NodePtr → BuildOutcome
  | .ok n => .ok n.toExecNode
  | .error (.status s) => .status s.code
  | .error .exception => .exception
  | .error .nullDeref => .nullDeref
  | .error .outOfRange => .outOfRange

namespace BuildCall

def run (call : BuildCall) (b : Builder) : Except Abort NodePtr × Parser :=
  (build call.mode call.code call.parse).run ⟨b, none⟩

def outcome (call : BuildCall) (b : Builder) : BuildOutcome := .ofRun (call.run b).1

end BuildCall

/-- The builder after the calls, successful or not.  There is no builder after a call that crashes:
what is said of one is of no account. -/
def Builder.used (calls : List BuildCall) : Builder :=
  Machine.run (fun b call => (call.run b).2.builder) {} calls

/-! ## 2. One call -/

/-- **The call leaves a name behind**: its parse ends inside a when-block around which a name is
defined. -/
def BuildCall.leavesName (call : BuildCall) : Bool :=
  leftStmts call.mode [] call.parse.program.statements call.parse.stop

section Runs

variable {b : Builder}

/-- What follows the statements in `scan`. -/
theorem keepsStack_scan_rest (p : Parser) : KeepsStack (match p.stop with
    | some (_, why) => giveUp why
    | none => do
      let b := (← get).builder
      if b.customErrorMessage ≠ "" then throw (.status (.parseError b.customErrorMessage))) := by
  cases p.stop with
  | some s => exact .giveUp _
  | none =>
    refine KeepsStack.get.bind fun p => ?_
    dsimp only
    split
    · exact .throw _
    · exact .pure ()

/-- What follows `scan` in a build. -/
def finishBuild : BuildMode → M NodePtr
  | .kExpression => do
    match (← get).builder.current.statements.getLast? with
    | some st => return st.expression
    | none => throw .outOfRange
  | .kPipeline => do
    let args := (← get).builder.current.args
    liftAlloc (NodePtr.makeUnique fun a => .noOP a {} args false)

theorem keepsStack_finishBuild (mode : BuildMode) : KeepsStack (finishBuild mode) := by
  cases mode with
  | kExpression =>
    refine KeepsStack.get.bind fun p => ?_
    cases p.builder.current.statements.getLast? with
    | none => exact .throw _
    | some st => exact .pure _
  | kPipeline => exact KeepsStack.get.bind fun _ => .liftAlloc _

theorem BuildCall.run_eq (call : BuildCall) (b : Builder) : call.run b =
    (scan call.parse >>= fun _ => finishBuild call.mode).run
      ⟨b.reset call.code call.mode, call.parse.stop⟩ := by
  rw [run]
  cases call.mode <;> exact Fallible.run_bind_ok (run_reset _ _ _ _)

/-- What is on the stack stays there. -/
theorem BuildCall.suffix_run (call : BuildCall) (b : Builder) :
    b.blockStack <:+ (call.run b).2.builder.blockStack := by
  have hscan : StacksOnly (scan call.parse) := (StacksOnly.buildStmts _).bind fun _ =>
    (KeepsStack.get.bind keepsStack_scan_rest).stacksOnly
  have hrun := hscan.bind (fun _ => (keepsStack_finishBuild call.mode).stacksOnly) b.blockStack
    ⟨b.reset call.code call.mode, call.parse.stop⟩ rfl
  rw [call.run_eq b]
  split at hrun
  · next p hp =>
    rw [hp]
    exact (show _ = _ from hrun) ▸ List.suffix_rfl
  · next p hp =>
    rw [hp]
    exact hrun

/-- **One call**: a stack that knows no name comes to know one exactly if the call leaves a name
behind. -/
theorem BuildCall.clear_run_iff (call : BuildCall) (hb : b.Clear) :
    (call.run b).2.builder.Clear ↔ call.leavesName = false := by
  have ha : Amid call.mode call.code [] (b.reset call.code call.mode) := by
    refine ⟨fun name => ?_, rfl, rfl⟩
    rw [findVar_reset, hb name]
    rfl
  have hleaves : Leaves (scan call.parse >>= fun _ => finishBuild call.mode)
      (b.reset call.code call.mode) call.parse.stop call.leavesName :=
    ((buildStmts_leaves _ ha).andThen fun _ => KeepsStack.get.bind keepsStack_scan_rest).andThen
      fun _ => keepsStack_finishBuild call.mode
  have hreset : (b.reset call.code call.mode).Clear := hb
  rw [call.run_eq b]
  unfold Leaves at hleaves
  split at hleaves
  · next p hp =>
    rw [hp]
    exact iff_of_true (hb.of_suffix (hleaves.2 ▸ List.suffix_rfl)) hleaves.1
  · next p hp =>
    rw [hp]
    exact hleaves.trans (and_iff_right hreset)

end Runs

/-! ## 3. What a build depends on -/

section Outcomes

variable {b b' : Builder}

/-- The outcome of a text that does not run to its end. -/
def Verdict.outcome : Verdict → BuildOutcome
  | .derefs => .nullDeref
  | .stopped .exception => .exception
  | .stopped (.syntaxError _) | .whenBlock => .status .kParseError

theorem Verdict.Aborts.outcome {v : Verdict} {abort : Abort} (h : v.Aborts abort) :
    BuildOutcome.ofRun (.error abort) = v.outcome := by
  cases v with
  | derefs => rw [show abort = _ from h]; rfl
  | whenBlock =>
    rcases h with ⟨message, rfl⟩
    rfl
  | stopped why =>
    cases why with
    | syntaxError message => rw [show abort = _ from h]; rfl
    | exception => rw [show abort = _ from h]; rfl

/-- **The outcome of a text**, from a builder whose stack of blocks knows no name. -/
theorem outcome_of_clear (call : BuildCall) (hb : b.Clear) :
    call.outcome b = match verdict call.mode call.parse with
      | some v => v.outcome
      | none =>
        if call.parse.program.undefinedRefs = [] then
          .ok (call.parse.program.tree call.mode call.code)
        else .status .kParseError := by
  rw [BuildCall.outcome, BuildCall.run]
  cases hv : verdict call.mode call.parse with
  | some v =>
    rcases build_verdict (p := ⟨b, none⟩) call.code hb hv with ⟨abort, p', hrun, habort⟩
    rw [hrun]
    exact habort.outcome
  | none =>
    cases href : call.parse.program.undefinedRefs.getLast? with
    | none =>
      have hnil : call.parse.program.undefinedRefs = [] := List.getLast?_eq_none_iff.mp href
      rcases build_ok (p := ⟨b, none⟩) call.code hb hv hnil with ⟨n, p', e, hrun, hn, htree, -⟩
      simp only [hrun, if_pos hnil, htree]
      exact congrArg BuildOutcome.ok hn
    | some ref =>
      have hne : call.parse.program.undefinedRefs ≠ [] := by
        intro hnil
        rw [hnil] at href
        exact nomatch href
      rcases build_undefined (p := ⟨b, none⟩) call.code hb hv href with ⟨p', hrun, -⟩
      simp only [hrun, if_neg hne]
      rfl

/-- The text `name;`, as a pipeline. -/
def mention (name : String) : BuildCall where
  mode := .kPipeline
  code := name ++ ";"
  parse :=
    { program :=
        { statements := [.expr (.identifier {} name)]
          nonempty := List.cons_ne_nil _ _ } }

/-- A name that nothing defines is an error. -/
theorem outcome_mention_clear (name : String) (hb : b.Clear) :
    (mention name).outcome b = .status .kParseError := by
  rw [outcome_of_clear _ hb]
  have hv : verdict (mention name).mode (mention name).parse = none := rfl
  have hrefs : (mention name).parse.program.undefinedRefs = [({}, name)] := rfl
  rw [hv, hrefs]
  rfl

/-- A name that a block on the stack knows is a reference. -/
theorem outcome_mention_leftover {name : String} (h : Builder.findVar name b.blockStack ≠ none) :
    ∃ tree, (mention name).outcome b = .ok tree := by
  obtain ⟨⟨c, i⟩, hfind⟩ := Option.ne_none_iff_exists'.mp h
  let b₁ := b.reset (name ++ ";") .kPipeline
  have hblocks : Builder.findVar name b₁.blocks = some (c, i) :=
    (findVar_reset _ _ _).trans hfind
  let node : NodePtr := .ref b₁.fresh { loc := b₁.locate {} } name
  let b₂ : Builder :=
    { b₁ with fresh := b₁.fresh + 1, current := b₁.current.addStatement { expression := node } }
  have hterm : (buildTerm (.identifier {} name)).run ⟨b₁, none⟩ =
      (.ok node, ⟨{ b₁ with fresh := b₁.fresh + 1 }, none⟩) :=
    (Fallible.run_bind_ok (m := tick) rfl).trans (run_makeRefNode_pipeline hblocks rfl)
  have hstmts : (buildStmts (mention name).parse.program.statements).run ⟨b₁, none⟩ =
      (.ok (), ⟨b₂, none⟩) := by
    have hstmt : (buildStmt (.expr (.identifier {} name))).run ⟨b₁, none⟩ =
        (.ok { expression := node }, ⟨{ b₁ with fresh := b₁.fresh + 1 }, none⟩) := by
      rw [buildStmt]
      exact Fallible.run_bind_ok hterm
    change (buildStmts [.expr (.identifier {} name)]).run ⟨b₁, none⟩ = _
    rw [buildStmts, Fallible.run_bind_ok hstmt]
    rfl
  have hscan : (scan (mention name).parse).run ⟨b₁, none⟩ = (.ok (), ⟨b₂, none⟩) :=
    Fallible.run_bind_ok hstmts
  have hbuild : (mention name).run b =
      (.ok (.noOP b₂.fresh {} b₂.current.args false), ⟨{ b₂ with fresh := b₂.fresh + 1 }, none⟩) :=
    (Fallible.run_bind_ok (run_reset _ _ _ _)).trans (Fallible.run_bind_ok hscan)
  rw [BuildCall.outcome, hbuild]
  exact ⟨_, rfl⟩

/-- A text the parser reads to its end leaves the stack as it was. -/
theorem blockStack_of_verdict (call : BuildCall) (hb : b.Clear)
    (hv : verdict call.mode call.parse = none) :
    (call.run b).2.builder.blockStack = b.blockStack := by
  rw [BuildCall.run]
  cases href : call.parse.program.undefinedRefs.getLast? with
  | none =>
    have hnil : call.parse.program.undefinedRefs = [] := List.getLast?_eq_none_iff.mp href
    rcases build_ok (p := ⟨b, none⟩) call.code hb hv hnil with ⟨n, p', e, hrun, -, -, hstack⟩
    rw [hrun]
    exact hstack
  | some ref =>
    rcases build_undefined (p := ⟨b, none⟩) call.code hb hv href with ⟨p', hrun, hstack⟩
    rw [hrun]
    exact hstack

end Outcomes

/-! ## 4. Independence -/

/-- Whatever is built next has the outcome it has on a new builder. -/
def Builder.Independent (b : Builder) : Prop := ∀ call : BuildCall, call.outcome b = call.outcome {}

theorem clear_new : Builder.Clear {} := .of_nil rfl

theorem Builder.Clear.independent {b : Builder} (hb : b.Clear) : b.Independent := by
  intro call
  rw [outcome_of_clear call hb, outcome_of_clear call clear_new]

/-- What is left over can be seen. -/
theorem not_independent {b : Builder} {name : String}
    (h : Builder.findVar name b.blockStack ≠ none) : ¬ b.Independent := by
  intro hind
  rcases outcome_mention_leftover h with ⟨tree, hok⟩
  have heq := hind (mention name)
  rw [hok, outcome_mention_clear name clear_new] at heq
  exact nomatch heq

/-- The stack knows no name exactly as long as no call has left one behind. -/
theorem clear_used_iff (calls : List BuildCall) :
    (Builder.used calls).Clear ↔ ∀ call ∈ calls, call.leavesName = false := by
  induction calls using List.reverseRecOn with
  | nil => exact iff_of_true clear_new fun _ h => nomatch h
  | append_singleton calls call ih =>
    have hrun : Builder.used (calls ++ [call]) = (call.run (Builder.used calls)).2.builder :=
      Machine.run_append_singleton _ _ _ _
    rw [hrun]
    by_cases hb : (Builder.used calls).Clear
    · rw [call.clear_run_iff hb]
      have hcalls := ih.mp hb
      simp only [List.mem_append, List.mem_singleton]
      exact ⟨fun h c hc => hc.elim (hcalls c) fun hc => hc ▸ h, fun h => h call (.inr rfl)⟩
    · refine iff_of_false (fun h => hb (h.of_suffix (call.suffix_run _))) fun h => hb ?_
      exact ih.mpr fun c hc => h c (List.mem_append_left _ hc)

/-- A text that the parser reads to its end leaves no name behind. -/
theorem leavesName_of_verdict (call : BuildCall) (hv : verdict call.mode call.parse = none) :
    call.leavesName = false := by
  refine (call.clear_run_iff clear_new).mp fun name => ?_
  rw [blockStack_of_verdict call clear_new hv]
  exact clear_new name

/-- Such texts leave nothing over, also if they are rejected for an undefined name. -/
theorem independent_of_verdicts {calls : List BuildCall}
    (h : ∀ call ∈ calls, verdict call.mode call.parse = none) :
    (Builder.used calls).Independent :=
  ((clear_used_iff calls).mpr fun call hcall =>
    leavesName_of_verdict call (h call hcall)).independent

/-- **A builder that has been used carries nothing over exactly if no parse on it ended inside a
when-block around which a name was defined.** -/
theorem reuse_independent_iff (calls : List BuildCall) :
    (Builder.used calls).Independent ↔ ∀ call ∈ calls, call.leavesName = false := by
  rw [← clear_used_iff]
  constructor
  · intro hind name
    by_contra h
    exact not_independent h hind
  · exact Builder.Clear.independent

/-- `a = 1; when 1 { b = ` -/
def unfinishedBlock : BuildCall where
  mode := .kPipeline
  code := "a = 1; when 1 \x7b b = "
  parse :=
    { program :=
        { statements :=
            [.assign "a" (.literal ⟨1, 5, 1, 6⟩ (.i32 1)),
              .when_ ⟨1, 8, 1, 12⟩ ⟨1, 8, 1, 12⟩ (.literal ⟨1, 13, 1, 14⟩ (.i32 1))
                [.assign "b" (.literal ⟨1, 21, 1, 21⟩ (.i32 0))] []]
          nonempty := List.cons_ne_nil _ _ }
      stop := some (2, .syntaxError "syntax error, unexpected end of file") }

example : unfinishedBlock.leavesName = true := by decide

/-- After it, `a;` is a program. -/
theorem unfinishedBlock_not_independent : ¬ (Builder.used [unfinishedBlock]).Independent := by
  have hleft : Builder.findVar "a" (Builder.used [unfinishedBlock]).blockStack ≠ none := by decide
  exact not_independent hleft

end Athena

end JitFusion
