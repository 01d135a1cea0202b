/-
# The two front ends

`AthenaExpression::Compile` and `AthenaPipeline::Compile` (`athena/athena.cc`).  A text is built
into a tree by a builder of its own; a list of texts is built by one builder, and its trees are
grouped.  The engine compiles what comes out.

Of the engine the validation of the roots is the model's own.  What code generation and LLVM
answer for the annotated roots is a parameter.
-/
import JitFusion.AstBuild
import JitFusion.BatchValidation
import JitFusion.PipelineGrouper

namespace JitFusion

namespace Athena

/-! ## 1. Compiling -/

/-- What code generation and LLVM answer for the annotated roots. -/
abbrev Emit := List ExecNode → Except Abort Unit

/-- `Compile` of either engine. -/
def engineCompile (reg : FunctionRegistry) (emit : Emit) (roots : List ExecNode) :
    Except Abort Unit :=
  if roots.isEmpty then .error (.status (.parseError "Compile: exec_nodes is empty"))
  else
    match Validator.validateBatch reg roots with
    | .error st => .error (.status st)
    | .ok roots => emit roots

/-- The trees below some pointers; what visits them uses every node. -/
def useNodes (nodes : List NodePtr) : Except Abort (List ExecNode) :=
  match NodePtr.toExecNodes nodes with
  | some roots => .ok roots
  | none => .error .nullDeref

def AthenaExpression.compile (reg : FunctionRegistry) (emit : Emit) (code : String)
    (parse : Parse) : Except Abort Unit := do
  let node ← ((buildExpression code parse).run ⟨{}, none⟩).1
  let roots ← useNodes [node]
  engineCompile reg emit roots

/-- The loop over the texts. -/
def buildAll : List (String × Parse) → M (List NodePtr)
  | [] => return []
  | (code, parse) :: texts => do
    let node ← buildPipeline code parse
    let nodes ← buildAll texts
    return node :: nodes

/-- `Group` does not run into the `none` case: `PipelineGrouper.group_run`. -/
def AthenaPipeline.compile (order : PipelineGrouper.IdOrder) (reg : FunctionRegistry)
    (emit : Emit) (texts : List (String × Parse)) : Except Abort Unit := do
  let nodes ← ((buildAll texts).run ⟨{}, none⟩).1
  let roots ← useNodes nodes
  match (PipelineGrouper.group order roots).run' {} with
  | none => throw .outOfRange
  | some groups => engineCompile reg emit groups

/-! ## 2. One text -/

section

variable (reg : FunctionRegistry) (emit : Emit) (code : String) {parse : Parse} {e : ExecNode}

theorem toExecNodes_singleton {n : NodePtr} (h : n.toExecNode = some e) :
    useNodes [n] = .ok [e] := by
  simp [useNodes, NodePtr.toExecNodes, h]

theorem validateBatch_singleton (e : ExecNode) :
    Validator.validateBatch reg [e] = (Validator.validate reg e).map fun r => [r.1] := by
  rw [Validator.validateBatch, Validator.visitAll, Validator.validate]
  cases h : (Validator.visit reg e).run {} with
  | error st =>
    rw [StateT.run_bind, h]
    rfl
  | ok r =>
    rw [StateT.run_bind, h]
    rfl

/-- The engine on one root. -/
theorem engineCompile_singleton (e : ExecNode) :
    engineCompile reg emit [e] = match Validator.validate reg e with
      | .error st => .error (.status st)
      | .ok r => emit [r.1] := by
  rw [engineCompile, if_neg (by simp), validateBatch_singleton]
  cases Validator.validate reg e <;> rfl

/-- **A text that is built is compiled as its tree.** -/
theorem AthenaExpression.compile_eq (hg : Grammatical .kExpression parse)
    (hrefs : parse.program.undefinedRefs = []) :
    ∃ e, parse.program.tree .kExpression code = some e ∧
      compile reg emit code parse = engineCompile reg emit [e] := by
  rcases build_ok (p := ⟨{}, none⟩) code (.of_nil rfl) (verdict_eq_none hg hrefs) hrefs with
    ⟨n, p', e, hrun, hn, htree, -⟩
  refine ⟨e, htree, ?_⟩
  rw [compile, show (buildExpression code parse).run ⟨{}, none⟩ = _ from hrun]
  change (useNodes [n] >>= fun roots => engineCompile reg emit roots) = _
  rw [toExecNodes_singleton hn]
  rfl

end

/-- A list of one is a group of one. -/
theorem group_singleton (order : PipelineGrouper.IdOrder) (e : ExecNode) :
    (PipelineGrouper.group order [e]).run' {} = some [PipelineGrouper.isolatedNoOP [e]] := by
  rcases PipelineGrouper.group_run order [e] with ⟨d, r, labels, s, -, -, hnodup, hlabels, hrun⟩
  -- every pipeline of the list has the label of the first
  have hone : labels = [r (stringHash (rootName 0))] := by
    refine List.perm_singleton.mp ((List.perm_ext_iff_of_nodup hnodup (by simp)).mpr fun k => ?_)
    rw [hlabels, List.mem_singleton]
    constructor
    · rintro ⟨i, rfl⟩
      rw [Fin.val_eq_zero i]
    · rintro rfl
      exact ⟨0, rfl⟩
  change ((PipelineGrouper.group order [e]).run {}).map (·.1) = _
  rw [hrun, hone]
  simp [PipelineGrouper.fibers, List.finRange_succ]

section

variable (order : PipelineGrouper.IdOrder) (reg : FunctionRegistry) (emit : Emit) (code : String)
  {parse : Parse}

/-- **A list of one text is compiled as an isolated statement.** -/
theorem AthenaPipeline.compile_eq (hg : Grammatical .kPipeline parse)
    (hrefs : parse.program.undefinedRefs = []) :
    ∃ args, stmtsTree .kPipeline code [] parse.program.statements = some args ∧
      compile order reg emit [(code, parse)] =
        engineCompile reg emit [PipelineGrouper.isolatedNoOP [.noOP {} args false]] := by
  rcases build_ok (p := ⟨{}, none⟩) code (.of_nil rfl) (verdict_eq_none hg hrefs) hrefs with
    ⟨n, p', e, hrun, hn, htree, -⟩
  rcases Option.map_eq_some_iff.mp htree with ⟨args, hargs, rfl⟩
  refine ⟨args, hargs, ?_⟩
  have hall : (buildAll [(code, parse)]).run ⟨{}, none⟩ = (.ok [n], p') :=
    (Fallible.run_bind_ok hrun).trans rfl
  rw [compile, hall]
  change (useNodes [n] >>= fun roots => match (PipelineGrouper.group order roots).run' {} with
    | none => throw Abort.outOfRange
    | some groups => engineCompile reg emit groups) = _
  rw [toExecNodes_singleton hn]
  change (match (PipelineGrouper.group order [.noOP {} args false]).run' {} with
    | none => throw Abort.outOfRange
    | some groups => engineCompile reg emit groups) = _
  rw [group_singleton]

end

end Athena

end JitFusion
