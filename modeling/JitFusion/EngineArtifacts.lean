/-
# Saved artifacts over whole runs

What `SaveCompiled` writes and `LoadCompiled` makes of it, over every run of an engine.

* Provenance: an engine that has something to save has it from one compilation in its past, and is
  in the state that compilation left, whatever came in between (`ExecEngine.savable_run`,
  `BatchExecEngine.savable_run`).  A batch compilation that fails in its lookups counts as well: it
  has filled the table and captured the object before it failed.
* `engines_saved_load`: so the artifact of a single engine says what that compilation compiled.  Any
  engine whose host suits it loads exactly these object bytes, executes with the same return type,
  and cannot save them again; an engine of the other kind refuses it and stays as it is.

The FP mode of an engine is the one it was constructed with, or that of the last artifact it was
asked to load (`ExecEngine.option_run`); a later compilation uses that one, and says so in its
artifact.
-/
import JitFusion.EngineLife

namespace JitFusion

open Fallible Wire ArtifactLayout

/-! ## 1. What a build leaves in the core -/

/-- The object bytes, if there are any, are those that LLVM emitted in one of the first `n` lookups,
and the option asks for them. -/
def Captured (lookup : Nat → LookupOutcome) (n : Nat) (core : JitCore) : Prop :=
  core.compiledObjectBytes ≠ [] → core.option.enableSaveCompiled = true ∧
    ∃ k < n, (lookup k).object = some core.compiledObjectBytes

theorem captured_capture {lookup : Nat → LookupOutcome} {n i : Nat} {core : JitCore}
    (h : Captured lookup n core) (hi : i < n) : Captured lookup n (capture core (lookup i)) := by
  intro hne
  cases hsave : core.option.enableSaveCompiled with
  | false =>
    have hbytes : (capture core (lookup i)).compiledObjectBytes = core.compiledObjectBytes := by
      simp [capture, hsave]
    rw [hbytes] at hne
    exact absurd (hsave.symm.trans (h hne).1) Bool.false_ne_true
  | true =>
    refine ⟨hsave, ?_⟩
    cases hobj : (lookup i).object with
    | none =>
      have hbytes : (capture core (lookup i)).compiledObjectBytes = core.compiledObjectBytes := by
        simp [capture, hsave, hobj]
      rw [hbytes] at hne ⊢
      exact (h hne).2
    | some bytes =>
      refine ⟨i, hi, ?_⟩
      simp [capture, hsave, hobj]

/-- The state of a build from its `Reset` on. -/
structure Built (option : ExecEngineOption) (lookup : Nat → LookupOutcome) (n : Nat)
    (retTypes : List UInt8) (l : Linking) : Prop where
  option : l.core.option = option
  captured : Captured lookup n l.core
  retTypes : l.retTypes = retTypes

theorem lookupAll_built {option : ExecEngineOption} {fail : String → String → Status}
    {lookup : Nat → LookupOutcome} {n : Nat} {retTypes : List UInt8} (names : List String)
    (i : Nat) (hi : i + names.length = n) :
    Triple (Built option lookup n retTypes) (lookupAll capture fail lookup i names)
      (fun _ => Built option lookup n retTypes) (Built option lookup n retTypes) := by
  induction names generalizing i with
  | nil => exact .pure fun l hl => hl
  | cons name names ih =>
    rw [List.length_cons] at hi
    rw [lookupAll]
    refine .modify_bind (Built option lookup n retTypes) (fun l hl => ?_) ?_
    · exact ⟨hl.option, captured_capture hl.captured (by omega), hl.retTypes⟩
    · cases (lookup i).result with
      | error err => exact .throw fun l hl => hl
      | ok addr =>
        exact .modify_bind (Built option lookup n retTypes) (fun l hl => ⟨hl.1, hl.2, hl.3⟩)
          (ih (i + 1) (by omega))

/-- The return types are recorded from left to right, and the core stays as it is. -/
theorem buildEntries_retTypes {C : JitCore → Prop} (nodes : List NodeOutcome)
    (pre rest : List UInt8) (hrest : rest.length = nodes.length) :
    Triple (fun l => (C l.core ∧ l.funcPtrs = []) ∧ l.retTypes = pre ++ rest)
      (buildEntries pre.length nodes)
      (fun _ l => ((C l.core ∧ l.funcPtrs = []) ∧
        l.retTypes = pre ++ nodes.map NodeOutcome.retType) ∧
          ∀ node ∈ nodes, node.codegen = .ok ())
      (fun l => C l.core ∧ l.funcPtrs = []) := by
  induction nodes generalizing pre rest with
  | nil =>
    obtain rfl : rest = [] := List.length_eq_zero_iff.mp hrest
    exact .pure fun l hl => ⟨hl, by simp⟩
  | cons node nodes ih =>
    cases rest with
    | nil => cases hrest
    | cons t rest =>
      rw [buildEntries]
      refine .modify_bind (fun l => (C l.core ∧ l.funcPtrs = []) ∧
        l.retTypes = (pre ++ [node.retType]) ++ rest) (fun l hl => ⟨hl.1, ?_⟩) ?_
      · show l.retTypes.set pre.length node.retType = _
        rw [hl.2, List.set_append_right _ _ (Nat.le_refl _), Nat.sub_self, List.set_cons_zero,
          List.append_assoc]
        rfl
      · refine (returnNotOk_spec node.codegen fun _ l hl => hl.1).bind
          fun _ => .of_fact fun hok => ?_
        have hstep := ih (pre ++ [node.retType]) rest (Nat.succ.inj hrest)
        rw [List.length_append, List.length_singleton] at hstep
        refine hstep.weaken (fun _ hl => hl) (fun _ l hl => ⟨⟨hl.1.1, ?_⟩, ?_⟩) fun _ hl => hl
        · rw [hl.1.2, List.append_assoc]
          rfl
        · exact List.forall_mem_cons.mpr ⟨hok, hl.2⟩

/-- **What a build leaves**: if it succeeds, or fails in its lookups, the types of the roots and the
object that LLVM emitted; if it fails before, no pointers.  The option stays in any case. -/
theorem buildAndLink_built {option : ExecEngineOption} {nodes : List NodeOutcome}
    {names : List String} (o : BuildOutcome) (hlen : names.length = nodes.length) :
    Triple (fun l => l.core.option = option ∧ l.funcPtrs = []) (JitCore.buildAndLink nodes names o)
      (fun _ => Built option o.lookup nodes.length (nodes.map NodeOutcome.retType))
      (fun l => l.core.option = option ∧ (l.funcPtrs = [] ∨ o.ReachesLookup nodes ∧
        Built option o.lookup nodes.length (nodes.map NodeOutcome.retType) l)) := by
  unfold JitCore.buildAndLink
  refine .guard_bind (fun _ l hl => ⟨hl.1, .inl hl.2⟩) fun _ => ?_
  refine .guard_bind (fun _ l hl => ⟨hl.1, .inl hl.2⟩) fun _ => ?_
  refine (returnNotOk_spec o.validate fun _ l hl => ⟨hl.1, .inl hl.2⟩).bind
    fun _ => .of_fact fun hval => ?_
  -- from the `Reset` to the lookups there is no object and there are no pointers
  let C : JitCore → Prop := fun core => core.option = option ∧ core.compiledObjectBytes = []
  have hfail : ∀ l : Linking, C l.core ∧ l.funcPtrs = [] → l.core.option = option ∧
      (l.funcPtrs = [] ∨ o.ReachesLookup nodes ∧
        Built option o.lookup nodes.length (nodes.map NodeOutcome.retType) l) :=
    fun l hl => ⟨hl.1.1, .inl hl.2⟩
  refine .modify_bind (fun l => C l.core ∧ l.funcPtrs = []) (fun l hl => ⟨⟨hl.1, rfl⟩, hl.2⟩) ?_
  refine .modify_bind (fun l => (C l.core ∧ l.funcPtrs = []) ∧ l.retTypes.length = nodes.length)
    (fun l hl => ⟨hl, resize_length _ _⟩) ?_
  have hentries : Triple
      (fun l => (C l.core ∧ l.funcPtrs = []) ∧ l.retTypes.length = nodes.length)
      (buildEntries 0 nodes) (fun _ l => ((C l.core ∧ l.funcPtrs = []) ∧
        l.retTypes = nodes.map NodeOutcome.retType) ∧ ∀ node ∈ nodes, node.codegen = .ok ())
      (fun l => C l.core ∧ l.funcPtrs = []) :=
    fun l hl => buildEntries_retTypes nodes [] l.retTypes hl.2 l ⟨hl.1, rfl⟩
  refine (hentries.weaken (fun _ hl => hl) (fun _ _ hl => hl) hfail).bind
    fun _ => .of_fact fun hcg => ?_
  refine (returnNotOk_spec o.setCFuncAttr fun _ l hl => hfail l hl.1).bind
    fun _ => .of_fact fun hattr => ?_
  cases hver : o.verifyModule with
  | some info => exact .throw fun l hl => hfail l hl.1
  | none =>
    let P : Linking → Prop := fun l => (C l.core ∧ l.funcPtrs = []) ∧
      l.retTypes = nodes.map NodeOutcome.retType
    have hinstall : Triple P (createJit o.createJit) (fun _ l => P l ∧ o.createJit = .created)
        (fun l => C l.core ∧ l.funcPtrs = []) := by
      cases o.createJit with
      | created => exact .modify fun l hl => ⟨hl, rfl⟩
      | builderFails err => exact .throw fun l hl => hl.1
      | generatorFails err => exact .modify_bind P (fun l hl => hl) (.throw fun l hl => hl.1)
    refine (hinstall.weaken (fun _ hl => hl) (fun _ _ hl => hl) hfail).bind
      fun _ => .of_fact fun hjit => ?_
    cases hadd : o.addIRModule with
    | some err => exact .throw fun l hl => hfail l hl.1
    | none =>
      refine (returnNotOk_spec o.mappingToJIT fun _ l hl => hfail l hl.1).bind
        fun _ => .of_fact fun hmap => ?_
      have hreach : o.ReachesLookup nodes := ⟨hval, hcg, hattr, hver, hjit, hadd, hmap⟩
      refine .modify_bind (Built option o.lookup nodes.length (nodes.map NodeOutcome.retType))
        (fun l hl => ⟨hl.1.1.1, fun hne => absurd hl.1.1.2 hne, hl.2⟩) ?_
      refine (lookupAll_built names 0 (by rw [Nat.zero_add, hlen])).weaken (fun _ hl => hl)
        (fun _ _ hl => hl) fun l hl => ⟨hl.option, .inr ⟨hreach, hl⟩⟩

/-- A load leaves no object bytes behind, wherever it fails, and keeps the option. -/
theorem loadObject_option {option : ExecEngineOption} (obj : Bytes) (names : List String)
    (o : LoadOutcome) :
    Triple (fun l => l.core.option = option) (JitCore.loadObject obj names o)
      (fun _ l => l.core.option = option ∧ l.core.compiledObjectBytes = [])
      (fun l => l.core.option = option ∧ l.core.compiledObjectBytes = []) := by
  let P : Linking → Prop := fun l => l.core.option = option ∧ l.core.compiledObjectBytes = []
  have hlookup : ∀ (names : List String) (fail : String → String → Status) (i : Nat),
      Triple P (lookupAll (fun core _ => core) fail o.lookup i names) (fun _ => P) P := by
    intro names fail
    induction names with
    | nil => exact fun i => .pure fun l hl => hl
    | cons name names ih =>
      intro i
      rw [lookupAll]
      refine .modify_bind P (fun l hl => hl) ?_
      cases (o.lookup i).result with
      | error err => exact .throw fun l hl => hl
      | ok addr => exact .modify_bind P (fun l hl => hl) (ih (i + 1))
  unfold JitCore.loadObject
  refine .modify_bind P (fun l hl => ⟨hl, rfl⟩) ?_
  have hinstall : Triple P (createJit o.createJit) (fun _ => P) P := by
    cases o.createJit with
    | created => exact .modify fun l hl => hl
    | builderFails err => exact .throw fun l hl => hl
    | generatorFails err => exact .modify_bind P (fun l hl => hl) (.throw fun l hl => hl)
  refine hinstall.bind fun _ => ?_
  cases o.addObjectFile obj with
  | some err => exact .throw fun l hl => hl
  | none =>
    refine ((returnNotOk_spec o.mappingToJIT fun _ l hl => hl).weaken (fun _ hl => hl)
      (fun _ _ hl => hl.1) fun _ hl => hl).bind fun _ => ?_
    exact .modify_bind P (fun l hl => hl) (hlookup names _ 0)

/-! ## 2. What a load makes of an artifact -/

/-- The FP mode after a load: one that gets past the checks takes that of the artifact, whether or
not it succeeds. -/
def loadedMode (bytes : Bytes) (opts : LoadCompiledOptions) (host : Host) (kind : ArtifactMode)
    (mode : FPMathMode) : FPMathMode :=
  match ExecEngine.loadable bytes opts host kind with
  | .error _ => mode
  | .ok (header, _) => header.fpMathMode

/-- The strings of the process fit into a header. -/
structure Host.Fits (host : Host) : Prop where
  llvmVersion : host.llvmVersion.length < 2 ^ 32
  targetTriple : host.targetTriple.length < 2 ^ 32
  cpuName : host.cpuName.length < 2 ^ 32

/-- What is checked of the host the artifact was saved on agrees with the host it is loaded on. -/
structure LoadCompiledOptions.Suits (opts : LoadCompiledOptions) (saved host : Host) : Prop where
  llvmVersion : opts.checkLlvmVersion = true → saved.llvmVersion = host.llvmVersion
  targetTriple : opts.checkTargetTriple = true → saved.targetTriple = host.targetTriple
  cpuName : opts.checkCpuName = true → saved.cpuName = host.cpuName

theorem checkHostCompatibility_eq_ok_iff {core : JitCore} {saved host : Host}
    {opts : LoadCompiledOptions} {kind expected : ArtifactMode} {retTypes : List UInt8} :
    checkHostCompatibility (ExecEngine.artifactHeader core saved kind retTypes) opts host
      expected = .ok () ↔ opts.Suits saved host ∧ kind = expected := by
  have hguard : ∀ (c : Prop) [Decidable c] (st : Status) (rest : Unit → Except Status Unit),
      (if c then throw st >>= rest else rest ()) = .ok () ↔ ¬c ∧ rest () = .ok () := by
    intro c _ st rest
    by_cases hc : c
    · rw [if_pos hc]
      exact iff_of_false (by rintro ⟨⟩) fun h => h.1 hc
    · rw [if_neg hc, and_iff_right hc]
  have hlast : ∀ (c : Prop) [Decidable c] (st : Status),
      (if c then throw st else pure () : Except Status Unit) = .ok () ↔ ¬c := by
    intro c _ st
    by_cases hc : c
    · rw [if_pos hc]
      exact iff_of_false (by rintro ⟨⟩) fun h => h hc
    · rw [if_neg hc]
      exact iff_of_true rfl hc
  unfold checkHostCompatibility ExecEngine.artifactHeader
  dsimp only
  rw [hguard, hguard, hguard, hlast]
  simp only [not_and, not_not, ne_eq]
  exact ⟨fun h => ⟨⟨h.1, h.2.1, h.2.2.1⟩, h.2.2.2⟩, fun h => ⟨h.1.1, h.1.2, h.1.3, h.2⟩⟩

/-- What was written is read back. -/
theorem accepted_encode {h : ArtifactHeader} {o : Bytes} (henc : Encodable h o)
    (hsize : (encode h o).length < 2 ^ 64) :
    Accepted (encode h o) (deserializeArtifact (encode h o) (some {})) h o := by
  have ht := tracks_deserialize {} hsize fun _ => (objSizeWithin_encode henc).fits hsize
  unfold Tracks at ht
  rw [parseArtifact_encode henc] at ht
  obtain ⟨_, r, hrun, -, hs, -⟩ := ht
  rw [deserializeArtifact, hrun]
  exact ⟨rfl, hs.header, hs.object⟩

section Load

variable {core : JitCore} {saved : Host} {kind : ArtifactMode} {retTypes : List UInt8}
  {obj blob : Bytes}

/-- **A saved artifact is what the load works with**, if the host suits it and the engine is of the
kind that saved it; otherwise it is refused. -/
theorem loadable_saved (hhost : saved.Fits) (hlen : retTypes.length < 2 ^ 32)
    (hkind : kind = .kSingle → retTypes.length = 1)
    (hsave : serializeArtifact (ExecEngine.artifactHeader core saved kind retTypes) obj
      (some []) = .ok blob) (hsize : blob.length < 2 ^ 64)
    (opts : LoadCompiledOptions) (host : Host) (expected : ArtifactMode) :
    (opts.Suits saved host ∧ kind = expected → ExecEngine.loadable blob opts host expected =
      .ok (ExecEngine.artifactHeader core saved kind retTypes, obj)) ∧
    (¬(opts.Suits saved host ∧ kind = expected) →
      ∃ st, ExecEngine.loadable blob opts host expected = .error st) := by
  have hne : retTypes ≠ [] := by
    rintro rfl
    simp [serializeArtifact, ExecEngine.artifactHeader] at hsave
  have hv : CoreValid (ExecEngine.artifactHeader core saved kind retTypes) :=
    ⟨hhost.llvmVersion, hhost.targetTriple, hhost.cpuName, hlen, hne, hkind⟩
  have hexts : ExtensionsValid (ExecEngine.artifactHeader core saved kind retTypes).extensions :=
    ⟨Nat.two_pow_pos 32, fun _ h => absurd h List.not_mem_nil⟩
  rw [serializeArtifact_eq hv hexts, List.nil_append] at hsave
  have hblob := Except.ok.inj hsave
  have hobj : obj.length < 2 ^ 64 := by
    rw [← hblob] at hsize
    simp only [encodePayload, Codec.bytes, List.length_append] at hsize
    omega
  rw [Nat.mod_eq_of_lt hobj] at hblob
  have henc : encode (ExecEngine.artifactHeader core saved kind retTypes) obj = blob := hblob
  have hacc := accepted_encode ⟨hv, hexts, hobj⟩ (henc ▸ hsize)
  rw [henc] at hacc
  have hload : ExecEngine.loadable blob opts host expected =
      (checkHostCompatibility (ExecEngine.artifactHeader core saved kind retTypes) opts host
        expected).map fun _ => (ExecEngine.artifactHeader core saved kind retTypes, obj) := by
    unfold ExecEngine.loadable
    rcases hd : deserializeArtifact blob (some {}) with ⟨st, r⟩
    rw [hd] at hacc
    obtain rfl : st = .ok () := hacc.status
    have hheader : r.out.header = _ := hacc.header
    have hobject : r.out.object.map (ObjectView.bytes blob) = some obj := hacc.object
    simp only [hheader, hobject, Option.getD_some]
    cases checkHostCompatibility (ExecEngine.artifactHeader core saved kind retTypes) opts host
        expected with
    | error st => rfl
    | ok u => rfl
  rw [hload]
  constructor
  · intro h
    rw [checkHostCompatibility_eq_ok_iff.mpr h]
    rfl
  · intro h
    cases hc : checkHostCompatibility (ExecEngine.artifactHeader core saved kind retTypes) opts host
        expected with
    | error st => exact ⟨st, rfl⟩
    | ok u => exact absurd (checkHostCompatibility_eq_ok_iff.mp hc) h

end Load

/-! ## 3. `ExecEngine` -/

namespace ExecEngine

/-- `e` is what a successful compilation has made of `before`. -/
structure CompiledFrom (before : ExecEngine) (node : NodeOutcome) (o : BuildOutcome)
    (e : ExecEngine) : Prop where
  compiled : before.compile node o = (.ok (), e)
  retType : e.retType = node.retType
  option : e.core.option = before.core.option
  captured : Captured o.lookup 1 e.core

/-- Something is compiled, and its object was captured. -/
def Savable (e : ExecEngine) : Prop := e.entryFuncPtr ≠ none ∧ e.core.compiledObjectBytes ≠ []

theorem compile_cases (e : ExecEngine) (node : NodeOutcome) (o : BuildOutcome) :
    (e.compile node o).2.core.option = e.core.option ∧
      (e.CompiledFrom node o (e.compile node o).2 ∨ (e.compile node o).2.entryFuncPtr = none) := by
  have hlen : [kEntryFunctionName].length = [node].length := rfl
  have h := buildAndLink_built o hlen { core := e.core, created := e.created } ⟨rfl, rfl⟩
  rcases hc : e.compile node o with ⟨st, e'⟩
  have hcompile := hc
  unfold compile at hcompile
  dsimp only at hcompile
  split at hcompile
  · next st' l hrun =>
    rw [hrun] at h
    cases hcompile
    exact ⟨h.1, .inr rfl⟩
  · next l hrun =>
    rw [hrun] at h
    cases hcompile
    have hret : l.retTypes.headD 0 = node.retType := by
      rw [h.retTypes]
      rfl
    exact ⟨h.option, .inl ⟨hc, hret, h.option, h.captured⟩⟩

theorem loadCompiled_cases (e : ExecEngine) (bytes : Bytes) (opts : LoadCompiledOptions)
    (host : Host) (o : LoadOutcome) :
    (e.loadCompiled bytes opts host o).2.core.option = { e.core.option with
        fpMathMode := loadedMode bytes opts host .kSingle e.core.option.fpMathMode } ∧
      ((e.loadCompiled bytes opts host o).2 = e ∨
        (e.loadCompiled bytes opts host o).2.core.compiledObjectBytes = []) := by
  cases hload : loadable bytes opts host .kSingle with
  | error st =>
    simp only [loadCompiled, loadedMode, hload, true_or, and_self]
  | ok r =>
    obtain ⟨header, obj⟩ := r
    have h := loadObject_option obj [kEntryFunctionName] o
      { core := freshCore e.core header, created := e.created } rfl
    simp only [loadCompiled, loadedMode, hload]
    split
    · next st l hrun =>
      rw [hrun] at h
      exact ⟨h.1, .inr h.2⟩
    · next l hrun =>
      rw [hrun] at h
      exact ⟨h.1, .inr h.2⟩

/-- The FP mode after a call. -/
def nextMode (mode : FPMathMode) : Call → FPMathMode
  | .loadCompiled bytes opts host _ => loadedMode bytes opts host .kSingle mode
  | _ => mode

/-- **The option of an engine** is the one it was constructed with, but for the FP mode. -/
theorem option_run (option : ExecEngineOption) (calls : List Call) :
    (run option calls).core.option =
      { option with fpMathMode := calls.foldl nextMode option.fpMathMode } := by
  induction calls using List.reverseRecOn with
  | nil => rfl
  | append_singleton calls c ih =>
    have hmode : (run option calls).core.option.fpMathMode =
        calls.foldl nextMode option.fpMathMode := by rw [ih]
    rw [run, Machine.run_append_singleton, List.foldl_append, List.foldl_cons, List.foldl_nil,
      ← run]
    cases c with
    | compile node o => exact (compile_cases _ node o).1.trans ih
    | loadCompiled bytes opts host o =>
      refine (loadCompiled_cases _ bytes opts host o).1.trans ?_
      rw [hmode, ih]
      rfl
    | _ => exact ih

/-- **Provenance.**  The induction is on the run, from its end: a call that does not compile leaves
a savable engine as it was. -/
theorem savable_run (option : ExecEngineOption) (calls : List Call)
    (h : (run option calls).Savable) : ∃ pre node o post, calls = pre ++ .compile node o :: post ∧
      (run option pre).CompiledFrom node o (run option calls) := by
  induction calls using List.reverseRecOn with
  | nil => exact absurd rfl h.1
  | append_singleton calls c ih =>
    rw [run, Machine.run_append_singleton, ← run] at h ⊢
    have hsame : after (run option calls) c = run option calls → ∃ pre node o post,
        calls ++ [c] = pre ++ .compile node o :: post ∧
          (run option pre).CompiledFrom node o (after (run option calls) c) := by
      intro hc
      rw [hc] at h ⊢
      obtain ⟨pre, node, o, post, rfl, hfrom⟩ := ih h
      exact ⟨pre, node, o, post ++ [c], by simp, hfrom⟩
    cases c with
    | compile node o =>
      rcases (compile_cases (run option calls) node o).2 with hfrom | hnone
      · exact ⟨calls, node, o, [], rfl, hfrom⟩
      · exact absurd hnone h.1
    | loadCompiled bytes opts host o =>
      rcases (loadCompiled_cases (run option calls) bytes opts host o).2 with hc | hnil
      · exact hsame hc
      · exact absurd hnil h.2
    | _ => exact hsame rfl

theorem saveCompiled_eq_ok {e : ExecEngine} {host : Host} {out blob : Bytes}
    (h : e.saveCompiled host (some out) = .ok blob) : e.Savable ∧
      serializeArtifact (artifactHeader e.core host .kSingle [e.retType])
        e.core.compiledObjectBytes (some out) = .ok blob := by
  simp only [saveCompiled] at h
  split_ifs at h with hptr hobj
  exact ⟨⟨hptr, hobj⟩, h⟩

/-- What a call reports does not depend on the address it jumps to. -/
theorem callRetType_status (p q : Option CodePtr) (retType : UInt8) (errors : Option String) :
    (callRetType p retType errors).status = (callRetType q retType errors).status := by
  unfold callRetType
  split <;> rfl

/-- An engine that has loaded what `saved` had compiled. -/
structure LoadedFrom (saved e : ExecEngine) : Prop where
  live : Live e.core e.entryFuncPtr
  fpMathMode : e.core.option.fpMathMode = saved.core.option.fpMathMode
  executes : ∀ errors, (e.executeRetType errors).status = (saved.executeRetType errors).status
  refuses : ∀ host out, ∃ st, e.saveCompiled host out = .error st

/-- **A saved artifact can be loaded** wherever its host suits. -/
theorem loadCompiled_saved {saved : ExecEngine} {host : Host} {blob : Bytes} (hhost : host.Fits)
    (hsave : saved.saveCompiled host (some []) = .ok blob) (hsize : blob.length < 2 ^ 64)
    (e : ExecEngine) (opts : LoadCompiledOptions) (host' : Host) (o : LoadOutcome) :
    (opts.Suits host host' → o.Succeeds saved.core.compiledObjectBytes 1 →
      ∃ e', e.loadCompiled blob opts host' o = (.ok (), e') ∧ saved.LoadedFrom e') ∧
    (¬opts.Suits host host' → ∃ st, e.loadCompiled blob opts host' o = (.error st, e)) := by
  obtain ⟨-, hser⟩ := saveCompiled_eq_ok hsave
  have hload := loadable_saved hhost (Nat.one_lt_two_pow (by decide)) (fun _ => rfl) hser hsize opts
    host' .kSingle
  constructor
  · intro hsuits hsucc
    have hspec := loadObject_spec saved.core.compiledObjectBytes [kEntryFunctionName] o
      { core := freshCore e.core (artifactHeader saved.core host .kSingle [saved.retType])
        created := e.created } rfl
    have hopt := loadObject_option saved.core.compiledObjectBytes [kEntryFunctionName] o
      { core := freshCore e.core (artifactHeader saved.core host .kSingle [saved.retType])
        created := e.created } rfl
    simp only [loadCompiled, hload.1 ⟨hsuits, rfl⟩]
    split
    · next st l hrun =>
      rw [hrun] at hspec
      exact absurd hsucc hspec
    · next l hrun =>
      rw [hrun] at hspec hopt
      have hlive := hspec.2 _ (headD_mem hspec.1 none)
      refine ⟨_, rfl, hlive, ?_, fun errors => ?_, fun host'' out => ?_⟩
      · show l.core.option.fpMathMode = _
        rw [hopt.1]
        rfl
      · exact callRetType_status _ _ saved.retType errors
      · cases out with
        | none => exact ⟨_, rfl⟩
        | some out =>
          obtain ⟨c, hc, -⟩ := hlive
          simp only [saveCompiled, hopt.2, if_pos, hc, reduceCtorEq, if_false]
          exact ⟨_, rfl⟩
  · intro hnot
    obtain ⟨st, hst⟩ := hload.2 fun h => hnot h.1
    exact ⟨st, by simp only [loadCompiled, hst]⟩

end ExecEngine

/-! ## 4. `BatchExecEngine` -/

namespace BatchExecEngine

/-- `e` is what a compilation has made of `before`, one that has succeeded or failed in its
lookups. -/
structure CompiledFrom (before : BatchExecEngine) (nodes : List NodeOutcome) (o : BuildOutcome)
    (e : BatchExecEngine) : Prop where
  compiled : (before.compile nodes o).2 = e
  linked : (before.compile nodes o).1 = .ok () ∨
    o.ReachesLookup nodes ∧ ¬Found o.lookup nodes.length
  retTypes : e.retTypes = nodes.map NodeOutcome.retType
  option : e.core.option = before.core.option
  captured : Captured o.lookup nodes.length e.core

def Savable (e : BatchExecEngine) : Prop :=
  e.entryFuncPtrs ≠ [] ∧ e.core.compiledObjectBytes ≠ []

theorem compile_cases (e : BatchExecEngine) (nodes : List NodeOutcome) (o : BuildOutcome) :
    (e.compile nodes o).2.core.option = e.core.option ∧
      ((e.compile nodes o).2 = e ∨ e.CompiledFrom nodes o (e.compile nodes o).2 ∨
        (e.compile nodes o).2.entryFuncPtrs = []) := by
  rcases hc : e.compile nodes o with ⟨st, e'⟩
  have hcompile := hc
  unfold compile at hcompile
  split at hcompile
  · cases hcompile
    exact ⟨rfl, .inl rfl⟩
  · have hlen := entryNames_length nodes.length
    have hbuilt := buildAndLink_built o hlen
      { core := e.core, created := e.created, funcPtrs := [], retTypes := [] } ⟨rfl, rfl⟩
    have hspec := buildAndLink_spec o hlen
      { core := e.core, created := e.created, funcPtrs := [], retTypes := [] } rfl
    rcases hrun : (JitCore.buildAndLink nodes (entryNames nodes.length) o).run
      { core := e.core, created := e.created, funcPtrs := [], retTypes := [] } with ⟨r, l⟩
    rw [hrun] at hbuilt hspec hcompile
    cases hcompile
    cases st with
    | ok u =>
      have hb : Built e.core.option o.lookup nodes.length (nodes.map NodeOutcome.retType) l :=
        hbuilt
      refine ⟨hb.option, .inr (.inl ⟨?_, .inl ?_, hb.retTypes, hb.option, hb.captured⟩)⟩
      · rw [hc]
      · rw [hc]
    | error st =>
      refine ⟨hbuilt.1, ?_⟩
      rcases hbuilt.2 with hnil | ⟨hreach, hb⟩
      · exact .inr (.inr hnil)
      · rcases hspec with hnil | hnot
        · exact .inr (.inr hnil)
        · refine .inr (.inl ⟨?_, .inr hnot, hb.retTypes, hb.option, hb.captured⟩)
          rw [hc]

theorem loadCompiled_cases (e : BatchExecEngine) (bytes : Bytes) (opts : LoadCompiledOptions)
    (host : Host) (o : LoadOutcome) :
    (e.loadCompiled bytes opts host o).2.core.option = { e.core.option with
        fpMathMode := loadedMode bytes opts host .kBatch e.core.option.fpMathMode } ∧
      ((e.loadCompiled bytes opts host o).2 = e ∨
        (e.loadCompiled bytes opts host o).2.core.compiledObjectBytes = []) := by
  cases hload : ExecEngine.loadable bytes opts host .kBatch with
  | error st =>
    simp only [loadCompiled, loadedMode, hload, true_or, and_self]
  | ok r =>
    obtain ⟨header, obj⟩ := r
    have h := loadObject_option obj (entryNames header.perEntryRetTypes.length) o
      { core := ExecEngine.freshCore e.core header, created := e.created } rfl
    simp only [loadCompiled, loadedMode, hload]
    split
    · next st l hrun =>
      rw [hrun] at h
      exact ⟨h.1, .inr h.2⟩
    · next l hrun =>
      rw [hrun] at h
      exact ⟨h.1, .inr h.2⟩

def nextMode (mode : FPMathMode) : Call → FPMathMode
  | .loadCompiled bytes opts host _ => loadedMode bytes opts host .kBatch mode
  | _ => mode

theorem option_run (option : ExecEngineOption) (calls : List Call) :
    (run option calls).core.option =
      { option with fpMathMode := calls.foldl nextMode option.fpMathMode } := by
  induction calls using List.reverseRecOn with
  | nil => rfl
  | append_singleton calls c ih =>
    have hmode : (run option calls).core.option.fpMathMode =
        calls.foldl nextMode option.fpMathMode := by rw [ih]
    rw [run, Machine.run_append_singleton, List.foldl_append, List.foldl_cons, List.foldl_nil,
      ← run]
    cases c with
    | compile nodes o => exact (compile_cases _ nodes o).1.trans ih
    | loadCompiled bytes opts host o =>
      refine (loadCompiled_cases _ bytes opts host o).1.trans ?_
      rw [hmode, ih]
      rfl
    | _ => exact ih

/-- **Provenance**, as for `ExecEngine`. -/
theorem savable_run (option : ExecEngineOption) (calls : List Call)
    (h : (run option calls).Savable) :
    ∃ pre nodes o post, calls = pre ++ .compile nodes o :: post ∧
      (run option pre).CompiledFrom nodes o (run option calls) := by
  induction calls using List.reverseRecOn with
  | nil => exact absurd rfl h.1
  | append_singleton calls c ih =>
    rw [run, Machine.run_append_singleton, ← run] at h ⊢
    have hsame : after (run option calls) c = run option calls → ∃ pre nodes o post,
        calls ++ [c] = pre ++ .compile nodes o :: post ∧
          (run option pre).CompiledFrom nodes o (after (run option calls) c) := by
      intro hc
      rw [hc] at h ⊢
      obtain ⟨pre, nodes, o, post, rfl, hfrom⟩ := ih h
      exact ⟨pre, nodes, o, post ++ [c], by simp, hfrom⟩
    cases c with
    | compile nodes o =>
      rcases (compile_cases (run option calls) nodes o).2 with hc | hfrom | hnil
      · exact hsame hc
      · exact ⟨calls, nodes, o, [], rfl, hfrom⟩
      · exact absurd hnil h.1
    | loadCompiled bytes opts host o =>
      rcases (loadCompiled_cases (run option calls) bytes opts host o).2 with hc | hnil
      · exact hsame hc
      · exact absurd hnil h.2
    | _ => exact hsame rfl

theorem saveCompiled_eq_ok {e : BatchExecEngine} {host : Host} {out blob : Bytes}
    (h : e.saveCompiled host (some out) = .ok blob) : e.Savable ∧
      serializeArtifact (ExecEngine.artifactHeader e.core host .kBatch e.retTypes)
        e.core.compiledObjectBytes (some out) = .ok blob := by
  simp only [saveCompiled] at h
  split_ifs at h with hptr hobj
  exact ⟨⟨hptr, hobj⟩, h⟩

structure LoadedFrom (saved e : BatchExecEngine) : Prop where
  length : e.entryFuncPtrs.length = saved.retTypes.length
  live : ∀ p ∈ e.entryFuncPtrs, Live e.core p
  retTypes : e.retTypes = saved.retTypes
  fpMathMode : e.core.option.fpMathMode = saved.core.option.fpMathMode
  refuses : ∀ host out, ∃ st, e.saveCompiled host out = .error st

theorem loadCompiled_saved {saved : BatchExecEngine} {host : Host} {blob : Bytes}
    (hhost : host.Fits) (hlen : saved.retTypes.length < 2 ^ 32)
    (hsave : saved.saveCompiled host (some []) = .ok blob) (hsize : blob.length < 2 ^ 64)
    (e : BatchExecEngine) (opts : LoadCompiledOptions) (host' : Host) (o : LoadOutcome) :
    (opts.Suits host host' → o.Succeeds saved.core.compiledObjectBytes saved.retTypes.length →
      ∃ e', e.loadCompiled blob opts host' o = (.ok (), e') ∧ saved.LoadedFrom e') ∧
    (¬opts.Suits host host' → ∃ st, e.loadCompiled blob opts host' o = (.error st, e)) := by
  obtain ⟨-, hser⟩ := saveCompiled_eq_ok hsave
  have hkind : ArtifactMode.kBatch = .kSingle → saved.retTypes.length = 1 := by rintro ⟨⟩
  have hload := loadable_saved hhost hlen hkind hser hsize opts host' .kBatch
  constructor
  · intro hsuits hsucc
    have hspec := loadObject_spec saved.core.compiledObjectBytes
      (entryNames saved.retTypes.length) o
      { core := ExecEngine.freshCore e.core
          (ExecEngine.artifactHeader saved.core host .kBatch saved.retTypes)
        created := e.created } rfl
    have hopt := loadObject_option saved.core.compiledObjectBytes
      (entryNames saved.retTypes.length) o
      { core := ExecEngine.freshCore e.core
          (ExecEngine.artifactHeader saved.core host .kBatch saved.retTypes)
        created := e.created } rfl
    rw [entryNames_length] at hspec
    simp only [loadCompiled, hload.1 ⟨hsuits, rfl⟩, ExecEngine.artifactHeader] at hspec hopt ⊢
    split
    · next st l hrun =>
      rw [hrun] at hspec
      exact absurd hsucc hspec
    · next l hrun =>
      rw [hrun] at hspec hopt
      refine ⟨_, rfl, hspec.1, hspec.2, rfl, ?_, fun host'' out => ?_⟩
      · show l.core.option.fpMathMode = _
        rw [hopt.1]
        rfl
      · cases out with
        | none => exact ⟨_, rfl⟩
        | some out =>
          simp only [saveCompiled, hopt.2, if_pos]
          split <;> exact ⟨_, rfl⟩
  · intro hnot
    obtain ⟨st, hst⟩ := hload.2 fun h => hnot h.1
    exact ⟨st, by simp only [loadCompiled, hst]⟩

end BatchExecEngine

/-! ## 5. Both engines -/

/-- The artifact of one kind of engine is refused by the other. -/
theorem saved_refused {core : JitCore} {saved : Host} {kind expected : ArtifactMode}
    {retTypes : List UInt8} {obj blob : Bytes} (hhost : saved.Fits)
    (hlen : retTypes.length < 2 ^ 32) (hkind : kind = .kSingle → retTypes.length = 1)
    (hsave : serializeArtifact (ExecEngine.artifactHeader core saved kind retTypes) obj
      (some []) = .ok blob) (hsize : blob.length < 2 ^ 64) (hne : kind ≠ expected)
    (opts : LoadCompiledOptions) (host : Host) :
    ∃ st, ExecEngine.loadable blob opts host expected = .error st :=
  (loadable_saved hhost hlen hkind hsave hsize opts host expected).2 fun h => hne h.2

/-- **Saving and loading, over whole runs of both engines.**  An artifact comes from one compilation
of the run, and the engine that saves it is as that compilation has left it; a batch may have failed
in its lookups.  Every engine of the
same kind loads it if the host suits it and linking succeeds, and is then an engine that has loaded
what was compiled; otherwise, and if it is of the other kind, it refuses the artifact and stays as
it is. -/
theorem engines_saved_load (option : ExecEngineOption) {host : Host} (hhost : host.Fits) :
    (∀ calls blob, (ExecEngine.run option calls).saveCompiled host (some []) = .ok blob →
      blob.length < 2 ^ 64 →
        (∃ pre node o post, calls = pre ++ .compile node o :: post ∧
          (ExecEngine.run option pre).CompiledFrom node o (ExecEngine.run option calls)) ∧
        (∀ (e : ExecEngine) opts host' o,
          (opts.Suits host host' →
            o.Succeeds (ExecEngine.run option calls).core.compiledObjectBytes 1 →
              ∃ e', e.loadCompiled blob opts host' o = (.ok (), e') ∧
                (ExecEngine.run option calls).LoadedFrom e') ∧
          (¬opts.Suits host host' → ∃ st, e.loadCompiled blob opts host' o = (.error st, e))) ∧
        ∀ (e : BatchExecEngine) opts host' o,
          ∃ st, e.loadCompiled blob opts host' o = (.error st, e)) ∧
    (∀ calls blob, (BatchExecEngine.run option calls).saveCompiled host (some []) = .ok blob →
      blob.length < 2 ^ 64 → (BatchExecEngine.run option calls).retTypes.length < 2 ^ 32 →
        (∃ pre nodes o post, calls = pre ++ .compile nodes o :: post ∧
          (BatchExecEngine.run option pre).CompiledFrom nodes o
            (BatchExecEngine.run option calls)) ∧
        (∀ (e : BatchExecEngine) opts host' o,
          (opts.Suits host host' →
            o.Succeeds (BatchExecEngine.run option calls).core.compiledObjectBytes
              (BatchExecEngine.run option calls).retTypes.length →
              ∃ e', e.loadCompiled blob opts host' o = (.ok (), e') ∧
                (BatchExecEngine.run option calls).LoadedFrom e') ∧
          (¬opts.Suits host host' → ∃ st, e.loadCompiled blob opts host' o = (.error st, e))) ∧
        ∀ (e : ExecEngine) opts host' o,
          ∃ st, e.loadCompiled blob opts host' o = (.error st, e)) ∧
    (∀ calls, (ExecEngine.run option calls).core.option =
      { option with fpMathMode := calls.foldl ExecEngine.nextMode option.fpMathMode }) ∧
    ∀ calls, (BatchExecEngine.run option calls).core.option =
      { option with fpMathMode := calls.foldl BatchExecEngine.nextMode option.fpMathMode } := by
  refine ⟨fun calls blob hsave hsize => ?_, fun calls blob hsave hsize hlen => ?_,
    ExecEngine.option_run option, BatchExecEngine.option_run option⟩
  · obtain ⟨hsavable, hser⟩ := ExecEngine.saveCompiled_eq_ok hsave
    refine ⟨ExecEngine.savable_run option calls hsavable,
      ExecEngine.loadCompiled_saved hhost hsave hsize, fun e opts host' o => ?_⟩
    have hkinds : ArtifactMode.kSingle ≠ .kBatch := by decide
    obtain ⟨st, hst⟩ := saved_refused hhost (Nat.one_lt_two_pow (by decide)) (fun _ => rfl) hser
      hsize hkinds opts host'
    exact ⟨st, by simp only [BatchExecEngine.loadCompiled, hst]⟩
  · obtain ⟨hsavable, hser⟩ := BatchExecEngine.saveCompiled_eq_ok hsave
    refine ⟨BatchExecEngine.savable_run option calls hsavable,
      BatchExecEngine.loadCompiled_saved hhost hlen hsave hsize, fun e opts host' o => ?_⟩
    have hkind : ArtifactMode.kBatch = .kSingle →
        (BatchExecEngine.run option calls).retTypes.length = 1 := by rintro ⟨⟩
    have hkinds : ArtifactMode.kBatch ≠ .kSingle := by decide
    obtain ⟨st, hst⟩ := saved_refused hhost hlen hkind hser hsize hkinds opts host'
    exact ⟨st, by simp only [ExecEngine.loadCompiled, hst]⟩

/-- A compilation, a refused load and an execution; then the artifact in a fresh engine. -/
def savedCalls : List ExecEngine.Call :=
  [.compile ⟨7, .ok ()⟩ { lookup := fun _ => ⟨none, some [0xaa], .ok 64⟩ },
    .loadCompiled [] {} ⟨[], [], []⟩ { lookup := fun _ => ⟨none, none, .ok 0⟩ },
    .executeRetType none]

/-- Two roots, compiled together. -/
def savedBatchCalls : List BatchExecEngine.Call :=
  [.compile [⟨7, .ok ()⟩, ⟨12, .ok ()⟩]
    { lookup := fun i => ⟨none, if i = 0 then some [0xaa] else none, .ok (64 + i)⟩ }]

theorem engines_saved_load_fresh :
    (∃ blob e', (ExecEngine.run { enableSaveCompiled := true } savedCalls).saveCompiled
        ⟨[0x31], [], [0x78]⟩ (some []) = .ok blob ∧
      ExecEngine.loadCompiled {} blob {} ⟨[0x31], [], [0x78]⟩
        { lookup := fun _ => ⟨none, none, .ok 96⟩ } = (.ok (), e') ∧
      (ExecEngine.run { enableSaveCompiled := true } savedCalls).LoadedFrom e') ∧
    ∃ blob e', (BatchExecEngine.run { enableSaveCompiled := true } savedBatchCalls).saveCompiled
        ⟨[0x31], [], [0x78]⟩ (some []) = .ok blob ∧
      BatchExecEngine.loadCompiled {} blob {} ⟨[0x31], [], [0x78]⟩
        { lookup := fun _ => ⟨none, none, .ok 96⟩ } = (.ok (), e') ∧
      (BatchExecEngine.run { enableSaveCompiled := true } savedBatchCalls).LoadedFrom e' := by
  have hhost : Host.Fits ⟨[0x31], [], [0x78]⟩ := ⟨by decide, by decide, by decide⟩
  have h := engines_saved_load { enableSaveCompiled := true } hhost
  have hsuits : LoadCompiledOptions.Suits {} ⟨[0x31], [], [0x78]⟩ ⟨[0x31], [], [0x78]⟩ :=
    ⟨fun _ => rfl, fun _ => rfl, fun _ => rfl⟩
  have hlinks : ∀ obj n, LoadOutcome.Succeeds { lookup := fun _ => ⟨none, none, .ok 96⟩ } obj n :=
    fun _ _ => ⟨rfl, rfl, rfl, fun _ _ => ⟨96, rfl⟩⟩
  constructor
  · obtain ⟨blob, hsave, hsize⟩ : ∃ blob, (ExecEngine.run { enableSaveCompiled := true }
        savedCalls).saveCompiled ⟨[0x31], [], [0x78]⟩ (some []) = .ok blob ∧
          blob.length < 2 ^ 64 := ⟨_, rfl, by decide +kernel⟩
    obtain ⟨e', hload, hfrom⟩ := ((h.1 savedCalls blob hsave hsize).2.1 {} {} _ _).1 hsuits
      (hlinks _ _)
    exact ⟨blob, e', hsave, hload, hfrom⟩
  · obtain ⟨blob, hsave, hsize, hlen⟩ : ∃ blob, (BatchExecEngine.run { enableSaveCompiled := true }
        savedBatchCalls).saveCompiled ⟨[0x31], [], [0x78]⟩ (some []) = .ok blob ∧
          blob.length < 2 ^ 64 ∧ (BatchExecEngine.run { enableSaveCompiled := true }
            savedBatchCalls).retTypes.length < 2 ^ 32 :=
      ⟨_, rfl, by decide +kernel, by decide +kernel⟩
    obtain ⟨e', hload, hfrom⟩ := ((h.2.1 savedBatchCalls blob hsave hsize hlen).2.1 {} {} _ _).1
      hsuits (hlinks _ _)
    exact ⟨blob, e', hsave, hload, hfrom⟩

end JitFusion
