/-
# What a failed build leaves in the core

The header promises that a `BuildAndLink` that fails leaves the core RESET: no LLJIT instance,
no IR text and no object bytes.  The function calls `Reset` once, after validation, and returns
early at nine points, so there are three zones.

* Before the `Reset` the core is as the call found it.
* From the `Reset` to the point where the LLJIT instance is installed, it is reset.
* After that point it owns an instance, and the lookups may have captured IR text and bytes.

`build_spec` says which zone a failure falls into, and `buildAndLink_reset_iff` when the promise
is kept.
-/
import JitFusion.EngineLife

namespace JitFusion

open Fallible

namespace JitCore

/-! ## 1. The zones -/

/-- What `Reset` establishes. -/
def IsReset (core : JitCore) : Prop :=
  core.jit = none ∧ core.irCode = "" ∧ core.compiledObjectBytes = []

theorem isReset_reset (core : JitCore) : core.reset.IsReset := ⟨rfl, rfl, rfl⟩

/-- The checks in front of the `Reset` fail. -/
def FailsBeforeReset (nodes : List NodeOutcome) (symbolNames : List String) (o : BuildOutcome) :
    Prop :=
  nodes = [] ∨ nodes.length ≠ symbolNames.length ∨ o.validate ≠ .ok ()

/-- A step fails before an LLJIT instance is installed. -/
def FailsBeforeJit (nodes : List NodeOutcome) (o : BuildOutcome) : Prop :=
  (¬∀ node ∈ nodes, node.codegen = .ok ()) ∨ o.setCFuncAttr ≠ .ok () ∨ o.verifyModule ≠ none ∨
    ∃ err, o.createJit = .builderFails err

/-- The steps from the LLJIT instance on all succeed. -/
def Links (symbolNames : List String) (o : BuildOutcome) : Prop :=
  o.createJit = .created ∧ o.addIRModule = none ∧ o.mappingToJIT = .ok () ∧
    Found o.lookup symbolNames.length

variable {nodes : List NodeOutcome} {symbolNames : List String} {o : BuildOutcome}

/-! ## 2. The steps -/

/-- Generating the entries does not touch the core. -/
theorem buildEntries_core {core : JitCore} : ∀ (nodes : List NodeOutcome) (i : Nat),
    Triple (fun l => l.core = core) (buildEntries i nodes)
      (fun _ l => l.core = core ∧ ∀ node ∈ nodes, node.codegen = .ok ())
      (fun l => l.core = core ∧ ¬∀ node ∈ nodes, node.codegen = .ok ()) := by
  intro nodes
  induction nodes with
  | nil =>
    intro i
    exact .pure fun l hl => ⟨hl, by simp⟩
  | cons node nodes ih =>
    intro i
    rw [buildEntries]
    refine .modify_bind (fun l => l.core = core) (fun l hl => hl) ?_
    refine (returnNotOk_spec node.codegen fun hne l hl => ?_).bind fun _ => ?_
    · exact ⟨hl, fun hall => hne (hall node List.mem_cons_self)⟩
    · refine .of_fact fun hok => ?_
      refine (ih (i + 1)).weaken (fun l hl => hl) (fun _ l hl => ?_) (fun l hl => ?_)
      · exact ⟨hl.1, by simpa [hok] using hl.2⟩
      · exact ⟨hl.1, fun hall => hl.2 fun nd hnd => hall nd (List.mem_cons_of_mem _ hnd)⟩

/-- The lookups of a build keep the LLJIT instance, and fail at the first missing symbol. -/
theorem lookupAll_jit {fail : String → String → Status} {lookup : Nat → LookupOutcome} {n : Nat} :
    ∀ (names : List String) (i : Nat), i + names.length = n →
      Triple (fun l => l.core.jit.isSome ∧ Found lookup i) (lookupAll capture fail lookup i names)
        (fun _ _ => Found lookup n) (fun l => l.core.jit.isSome ∧ ¬Found lookup n) := by
  intro names
  induction names with
  | nil =>
    intro i hi
    refine .pure fun l hl => ?_
    obtain rfl : i = n := hi
    exact hl.2
  | cons name names ih =>
    intro i hi
    rw [List.length_cons] at hi
    rw [lookupAll]
    refine .modify_bind (fun l => l.core.jit.isSome ∧ Found lookup i) (fun l hl => hl) ?_
    cases hres : (lookup i).result with
    | error err =>
      refine .throw fun l hl => ⟨hl.1, fun hall => ?_⟩
      rcases hall i (by omega) with ⟨addr, haddr⟩
      rw [hres] at haddr
      cases haddr
    | ok addr =>
      refine .modify_bind _ (fun l hl => ⟨hl.1, fun k hk => ?_⟩) (ih (i + 1) (by omega))
      by_cases hki : k = i
      · exact ⟨addr, hki ▸ hres⟩
      · exact hl.2 k (by omega)

/-! ## 3. A whole build -/

/-- The zone a build that started on `core` has failed in. -/
structure FailedIn (core : JitCore) (nodes : List NodeOutcome) (symbolNames : List String)
    (o : BuildOutcome) (l : Linking) : Prop where
  beforeReset : FailsBeforeReset nodes symbolNames o → l.core = core
  beforeJit : ¬FailsBeforeReset nodes symbolNames o → FailsBeforeJit nodes o → l.core.IsReset
  linking : ¬FailsBeforeReset nodes symbolNames o → ¬FailsBeforeJit nodes o →
    l.core.jit.isSome ∧ ¬Links symbolNames o

theorem failedIn_beforeReset {core : JitCore} {l : Linking} (hl : l.core = core)
    (h : FailsBeforeReset nodes symbolNames o) : FailedIn core nodes symbolNames o l :=
  ⟨fun _ => hl, fun hn => absurd h hn, fun hn => absurd h hn⟩

theorem failedIn_beforeJit {core : JitCore} {l : Linking} (hl : l.core.IsReset)
    (hn : ¬FailsBeforeReset nodes symbolNames o) (h : FailsBeforeJit nodes o) :
    FailedIn core nodes symbolNames o l :=
  ⟨fun hr => absurd hr hn, fun _ _ => hl, fun _ hj => absurd h hj⟩

theorem failedIn_linking {core : JitCore} {l : Linking} (hl : l.core.jit.isSome)
    (hn : ¬FailsBeforeReset nodes symbolNames o) (hj : ¬FailsBeforeJit nodes o)
    (h : ¬Links symbolNames o) : FailedIn core nodes symbolNames o l :=
  ⟨fun hr => absurd hr hn, fun _ hb => absurd hb hj, fun _ _ => ⟨hl, h⟩⟩

/-- **Every way a build can end.** -/
theorem build_spec (core : JitCore) (nodes : List NodeOutcome) (symbolNames : List String)
    (o : BuildOutcome) :
    Triple (fun l => l.core = core) (buildAndLink nodes symbolNames o)
      (fun _ _ => ¬FailsBeforeReset nodes symbolNames o ∧ ¬FailsBeforeJit nodes o ∧
        Links symbolNames o)
      (FailedIn core nodes symbolNames o) := by
  unfold buildAndLink
  refine .guard_bind (fun h l hl => failedIn_beforeReset hl (.inl h)) fun hnil => ?_
  refine .guard_bind (fun h l hl => failedIn_beforeReset hl (.inr (.inl h))) fun hlen => ?_
  refine (returnNotOk_spec o.validate fun h l hl =>
    failedIn_beforeReset hl (.inr (.inr h))).bind fun _ => .of_fact fun hval => ?_
  have hreset : ¬FailsBeforeReset nodes symbolNames o := by
    rintro (h | h | h)
    · exact hnil h
    · exact hlen h
    · exact h hval
  refine .modify_bind (fun l => l.core = core.reset) (fun l hl => congrArg reset hl) ?_
  refine .modify_bind (fun l => l.core = core.reset) (fun l hl => hl) ?_
  have hclean : ∀ {l : Linking}, l.core = core.reset → FailsBeforeJit nodes o →
      FailedIn core nodes symbolNames o l := fun hl hj =>
    failedIn_beforeJit (hl ▸ isReset_reset core) hreset hj
  refine ((buildEntries_core nodes 0).weaken (fun l hl => hl) (fun _ l hl => hl) fun l hl =>
    hclean hl.1 (.inl hl.2)).bind fun _ => .of_fact fun hcg => ?_
  refine (returnNotOk_spec o.setCFuncAttr fun h l hl => hclean hl (.inr (.inl h))).bind
    fun _ => .of_fact fun hattr => ?_
  cases hver : o.verifyModule with
  | some info => exact .throw fun l hl => hclean hl (.inr (.inr (.inl (by simp [hver]))))
  | none =>
    have hjit : (∃ err, o.createJit = .builderFails err) ∨ ¬FailsBeforeJit nodes o := by
      by_cases hb : ∃ err, o.createJit = .builderFails err
      · exact .inl hb
      · right
        rintro (h | h | h | h)
        · exact h hcg
        · exact h hattr
        · exact h hver
        · exact hb h
    cases hc : o.createJit with
    | builderFails err =>
      exact .throw_bind fun l hl => hclean hl (.inr (.inr (.inr ⟨err, hc⟩)))
    | generatorFails err =>
      have hj : ¬FailsBeforeJit nodes o := hjit.resolve_left (by simp [hc])
      have hinstall : Triple (fun l => l.core = core.reset) (createJit (.generatorFails err))
          (fun _ _ => False) (FailedIn core nodes symbolNames o) :=
        .modify_bind (fun l => l.core.jit.isSome) (fun l _ => rfl) (.throw fun l hl =>
          failedIn_linking hl hreset hj fun h => by rw [h.1] at hc; cases hc)
      exact hinstall.bind fun _ _ hf => hf.elim
    | created =>
      have hj : ¬FailsBeforeJit nodes o := hjit.resolve_left (by simp [hc])
      have hfail : ∀ {l : Linking}, l.core.jit.isSome → ¬Links symbolNames o →
          FailedIn core nodes symbolNames o l := fun hl h => failedIn_linking hl hreset hj h
      refine .modify_bind (fun l => l.core.jit.isSome) (fun l _ => rfl) ?_
      cases hadd : o.addIRModule with
      | some err =>
        exact .throw fun l hl => hfail hl fun h => by rw [h.2.1] at hadd; cases hadd
      | none =>
        refine (returnNotOk_spec o.mappingToJIT fun h l hl => hfail hl fun hl' =>
          h hl'.2.2.1).bind fun _ => .of_fact fun hmap => ?_
        refine .modify_bind (fun l => l.core.jit.isSome ∧ Found o.lookup 0)
          (fun l hl => ⟨hl, fun k hk => absurd hk (by omega)⟩) ?_
        refine (lookupAll_jit symbolNames 0 (Nat.zero_add _)).weaken (fun l hl => hl)
          (fun _ l hl => ?_) fun l hl => hfail hl.1 fun h => hl.2 h.2.2.2
        exact ⟨hreset, hj, hc, hadd, hmap, hl⟩

/-- **When a failed build leaves the core reset**: if it fails before the `Reset`, exactly when
the core was reset already, and otherwise exactly when it fails before the LLJIT instance is
installed. -/
theorem buildAndLink_reset_iff (l : Linking) (nodes : List NodeOutcome)
    (symbolNames : List String) (o : BuildOutcome) :
    (∀ st l', (buildAndLink nodes symbolNames o).run l = (.error st, l') → l'.core.IsReset) ↔
      (FailsBeforeReset nodes symbolNames o → l.core.IsReset) ∧
      (¬FailsBeforeReset nodes symbolNames o →
        FailsBeforeJit nodes o ∨ Links symbolNames o) := by
  have hspec := build_spec l.core nodes symbolNames o l rfl
  rcases hrun : (buildAndLink nodes symbolNames o).run l with ⟨st | v, l'⟩
  · rw [hrun] at hspec
    have hfail : FailedIn l.core nodes symbolNames o l' := hspec
    constructor
    · intro h
      have hr : l'.core.IsReset := h st l' rfl
      refine ⟨fun he => hfail.beforeReset he ▸ hr, fun he => ?_⟩
      by_cases hj : FailsBeforeJit nodes o
      · exact .inl hj
      · have hsome := (hfail.linking he hj).1
        rw [hr.1] at hsome
        cases hsome
    · rintro ⟨hearly, hlate⟩ st' l'' heq
      cases heq
      by_cases he : FailsBeforeReset nodes symbolNames o
      · rw [hfail.beforeReset he]
        exact hearly he
      · by_cases hj : FailsBeforeJit nodes o
        · exact hfail.beforeJit he hj
        · exact absurd ((hlate he).resolve_left hj) (hfail.linking he hj).2
  · rw [hrun] at hspec
    have hok : ¬FailsBeforeReset nodes symbolNames o ∧ ¬FailsBeforeJit nodes o ∧
        Links symbolNames o := hspec
    constructor
    · intro _
      exact ⟨fun he => absurd he hok.1, fun _ => .inr hok.2.2⟩
    · intro _ st' l'' heq
      cases heq

/-- A core that has compiled before, with its IR text. -/
def compiledCore : Linking :=
  { core := { option := { dumpIR := true }, jit := some 0, irCode := "define i32 @entry" }
    created := 1 }

/-- A build of a root the validator rejects. -/
def rejectedRoot : BuildOutcome :=
  { validate := .error (.parseError "type error"), lookup := fun _ => { result := .error "" } }

/-- The rejected build leaves the old instance and the old IR text. -/
theorem rejectedRoot_not_reset :
    ¬∀ st l', (buildAndLink [{ retType := 4 }] ["entry"] rejectedRoot).run compiledCore =
      (.error st, l') → l'.core.IsReset := by
  intro h
  have hr : compiledCore.core.IsReset := h (.parseError "type error") compiledCore rfl
  have hjit := hr.1
  cases hjit

end JitCore

end JitFusion
