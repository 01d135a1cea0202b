/-
# The engines' life cycle

A cached address is LIVE (`Live`) as long as the engine's core owns the LLJIT instance it was
looked up in.  A call is SAFE if every pointer it jumps through is live, and a call that jumps
through none returns an error (`ExecResult.Safe`).

Two things break safety.  The `void*` overloads of `ExecEngine` do not look at their pointer, so
before the first successful compilation they jump through null.  And two operations put an engine
into a state in which no overload is safe any more: a `LoadCompiled` that fails after it has
replaced the core leaves the old addresses in place, and a batch `Compile` that fails in its
lookups leaves null pointers in the table.

`ExecEngine.Admits` and `BatchExecEngine.Admits` exclude exactly these, from the state and the
input of each call.  The invariant is `Sound`: every cached pointer is live, and an empty
`ExecEngine` has a return type that calls nothing.
-/
import JitFusion.ExecEngine
import JitFusion.ArtifactFormat
import JitFusion.Lib.Run

namespace JitFusion

open Fallible

/-! ## 1. Live pointers -/

/-- A pointer that may be called: not null, into code the core still owns. -/
def Live (core : JitCore) (p : Option CodePtr) : Prop :=
  ∃ c, p = some c ∧ core.jit = some c.jit

/-- What one call may do. -/
def ExecResult.Safe (core : JitCore) (r : ExecResult) : Prop :=
  (∀ p ∈ r.invoked, Live core p) ∧ (r.invoked = [] → r.status ≠ .ok ())

theorem safe_callVoid {core : JitCore} {p : Option CodePtr} (h : Live core p)
    (errors : Option String) : (callVoid p errors).Safe core := by
  refine ⟨fun q hq => ?_, fun hnil => ?_⟩
  · rw [List.mem_singleton.mp hq]
    exact h
  · cases hnil

theorem safe_callRetType {core : JitCore} {p : Option CodePtr} {retType : UInt8}
    (h : dispatches retType = true → Live core p) (errors : Option String) :
    (callRetType p retType errors).Safe core := by
  unfold callRetType
  split
  · next hd => exact safe_callVoid (h hd) errors
  · exact ⟨by simp, by simp⟩

/-! ## 2. What building and loading leave behind -/

/-- The lookups that are done: the first `i` of `n` slots hold addresses of the current LLJIT. -/
structure Filled (n i : Nat) (l : Linking) : Prop where
  length : l.funcPtrs.length = n
  live : ∀ k < i, ∃ p, l.funcPtrs[k]? = some p ∧ Live l.core p

/-- **One lookup loop**: it succeeds only if every symbol is found, and then every slot is live. -/
theorem lookupAll_spec {emit : JitCore → LookupOutcome → JitCore}
    {fail : String → String → Status} {lookup : Nat → LookupOutcome} {n m : Nat}
    (hemit : ∀ core o, (emit core o).jit = core.jit) (names : List String) (i : Nat)
    (hi : i + names.length = n) :
    Triple (fun l => l.core.jit.isSome ∧ l.retTypes.length = m ∧ Filled n i l)
      (lookupAll emit fail lookup i names)
      (fun _ l => l.retTypes.length = m ∧ Filled n n l)
      (fun _ => ¬∀ k < n, ∃ addr, (lookup k).result = .ok addr) := by
  induction names generalizing i with
  | nil =>
    obtain rfl : i = n := hi
    exact .pure fun l hl => hl.2
  | cons name names ih =>
    rw [List.length_cons] at hi
    have hin : i < n := by omega
    rw [lookupAll]
    refine .modify_bind (fun l => l.core.jit.isSome ∧ l.retTypes.length = m ∧ Filled n i l)
      (fun l hl => ?_) ?_
    · obtain ⟨hjit, hm, hfill⟩ := hl
      refine ⟨by rw [hemit]; exact hjit, hm, hfill.length, fun k hk => ?_⟩
      obtain ⟨p, hp, c, hc, hcj⟩ := hfill.live k hk
      exact ⟨p, hp, c, hc, (hemit _ _).trans hcj⟩
    · cases hres : (lookup i).result with
      | error err =>
        refine .throw fun l _ hall => ?_
        obtain ⟨addr, haddr⟩ := hall i hin
        rw [hres] at haddr
        cases haddr
      | ok addr =>
        refine .modify_bind _ (fun l hl => ?_) (ih (i + 1) (by omega))
        obtain ⟨hjit, hm, hfill⟩ := hl
        obtain ⟨jit, hjit⟩ := Option.isSome_iff_exists.mp hjit
        refine ⟨by simp [hjit], hm, by simpa using hfill.length, fun k hk => ?_⟩
        by_cases hki : k = i
        · subst hki
          refine ⟨some ⟨jit, addr⟩, ?_, ⟨jit, addr⟩, rfl, hjit⟩
          rw [List.getElem?_set_self (by rw [hfill.length]; exact hin), hjit]
          rfl
        · obtain ⟨p, hp, hlive⟩ := hfill.live k (by omega)
          exact ⟨p, by rw [List.getElem?_set_ne (Ne.symm hki)]; exact hp, hlive⟩

theorem Filled.all_live {n : Nat} {l : Linking} (h : Filled n n l) :
    ∀ p ∈ l.funcPtrs, Live l.core p := by
  intro p hp
  obtain ⟨k, hk, rfl⟩ := List.getElem_of_mem hp
  obtain ⟨q, hq, hlive⟩ := h.live k (h.length ▸ hk)
  rw [List.getElem?_eq_getElem hk] at hq
  cases hq
  exact hlive

theorem resizePtrs_length (ptrs : List (Option CodePtr)) (n : Nat) :
    (resizePtrs ptrs n).length = n := by
  simp only [resizePtrs, List.length_append, List.length_take, List.length_replicate]
  omega

theorem resize_length (l : List UInt8) (n : Nat) : (resize l n).length = n := by
  simp only [resize, List.length_append, List.length_take, List.length_replicate]
  omega

theorem returnNotOk_spec {P : Linking → Prop} (st : Except Status Unit) {E : Linking → Prop}
    (hE : st ≠ .ok () → ∀ l, P l → E l) :
    Triple P (returnNotOk st) (fun _ l => P l ∧ st = .ok ()) E := by
  cases st with
  | ok _ => exact .pure fun l hl => ⟨hl, rfl⟩
  | error e => exact .throw fun l hl => hE (by simp) l hl

/-- The steps of a build before the lookups all succeed. -/
structure BuildOutcome.ReachesLookup (o : BuildOutcome) (nodes : List NodeOutcome) : Prop where
  validate : o.validate = .ok ()
  codegen : ∀ node ∈ nodes, node.codegen = .ok ()
  setCFuncAttr : o.setCFuncAttr = .ok ()
  verifyModule : o.verifyModule = none
  createJit : o.createJit = .created
  addIRModule : o.addIRModule = none
  mappingToJIT : o.mappingToJIT = .ok ()

/-- Every one of the first `n` symbols is found. -/
def Found (lookup : Nat → LookupOutcome) (n : Nat) : Prop :=
  ∀ k < n, ∃ addr, (lookup k).result = .ok addr

theorem buildEntries_spec {n : Nat} {E : Linking → Prop} (nodes : List NodeOutcome) (i : Nat)
    (hE : ¬(∀ node ∈ nodes, node.codegen = .ok ()) → ∀ l, l.funcPtrs = [] → E l) :
    Triple (fun l => l.funcPtrs = [] ∧ l.retTypes.length = n) (buildEntries i nodes)
      (fun _ l => (l.funcPtrs = [] ∧ l.retTypes.length = n) ∧
        ∀ node ∈ nodes, node.codegen = .ok ()) E := by
  induction nodes generalizing i with
  | nil => exact .pure fun l hl => ⟨hl, by simp⟩
  | cons node nodes ih =>
    rw [buildEntries]
    refine .modify_bind (fun l => l.funcPtrs = [] ∧ l.retTypes.length = n)
      (fun l hl => ⟨hl.1, by simpa using hl.2⟩) ?_
    refine Triple.bind (returnNotOk_spec node.codegen fun hne l hl => ?_) fun _ => ?_
    · exact hE (fun hall => hne (hall node List.mem_cons_self)) l hl.1
    · refine .of_fact fun hok => ?_
      replace ih := ih (i + 1) fun hnot l' hl' =>
        hE (fun hall => hnot fun nd hnd => hall nd (List.mem_cons_of_mem _ hnd)) l' hl'
      refine ih.weaken (fun s hs => hs) (fun _ s hs => ⟨hs.1, ?_⟩) fun _ hs => hs
      rintro nd (_ | ⟨_, hnd⟩)
      · exact hok
      · exact hs.2 nd hnd

/-- Creating the LLJIT leaves it installed, or fails. -/
theorem createJit_spec {P : Linking → Prop} {E : Linking → Prop} (o : CreateJitOutcome)
    (hP : ∀ l core created, P l → P { l with core, created })
    (hE : o ≠ .created → ∀ l, P l → E l) :
    Triple P (createJit o) (fun _ l => (P l ∧ l.core.jit.isSome) ∧ o = .created) E := by
  cases o with
  | created => exact .modify fun l hl => ⟨⟨hP l _ _ hl, rfl⟩, rfl⟩
  | builderFails err => exact .throw fun l hl => hE (by simp) l hl
  | generatorFails err =>
    exact .modify_bind P (fun l hl => hP l _ _ hl) (.throw fun l hl => hE (by simp) l hl)

/-- **A build from an empty table**: if it succeeds every slot is live, and if it fails the table
is still empty, unless it was a lookup that failed. -/
theorem buildAndLink_spec {nodes : List NodeOutcome} {names : List String} (o : BuildOutcome)
    (hlen : names.length = nodes.length) :
    Triple (fun l => l.funcPtrs = []) (JitCore.buildAndLink nodes names o)
      (fun _ l => l.retTypes.length = nodes.length ∧ l.funcPtrs.length = nodes.length ∧
        ∀ p ∈ l.funcPtrs, Live l.core p)
      (fun l => l.funcPtrs = [] ∨ o.ReachesLookup nodes ∧ ¬Found o.lookup nodes.length) := by
  unfold JitCore.buildAndLink
  refine .guard_bind (fun _ l hl => .inl hl) fun _ => ?_
  refine .guard_bind (fun _ l hl => .inl hl) fun _ => ?_
  refine (returnNotOk_spec o.validate fun _ l hl => .inl hl).bind fun _ => .of_fact fun hval => ?_
  refine .modify_bind (fun l => l.funcPtrs = []) (fun l hl => hl) ?_
  refine .modify_bind (fun l => l.funcPtrs = [] ∧ l.retTypes.length = nodes.length)
    (fun l hl => ⟨hl, resize_length _ _⟩) ?_
  refine (buildEntries_spec nodes 0 fun _ l hl => .inl hl).bind fun _ => .of_fact fun hcg => ?_
  refine (returnNotOk_spec o.setCFuncAttr fun _ l hl => .inl hl.1).bind
    fun _ => .of_fact fun hattr => ?_
  cases hver : o.verifyModule with
  | some info => exact .throw fun l hl => .inl hl.1
  | none =>
    refine (createJit_spec o.createJit (fun l _ _ hl => hl) fun _ l hl => .inl hl.1).bind
      fun _ => .of_fact fun hjit => ?_
    cases hadd : o.addIRModule with
    | some err => exact .throw fun l hl => .inl hl.1.1
    | none =>
      refine (returnNotOk_spec o.mappingToJIT fun _ l hl => .inl hl.1.1).bind
        fun _ => .of_fact fun hmap => ?_
      have hreach : o.ReachesLookup nodes := ⟨hval, hcg, hattr, hver, hjit, hadd, hmap⟩
      refine .modify_bind (fun l => l.core.jit.isSome ∧ l.retTypes.length = nodes.length ∧
        Filled nodes.length 0 l) (fun l hl => ?_) ?_
      · obtain ⟨⟨-, hret⟩, hsome⟩ := hl
        exact ⟨hsome, hret, hlen ▸ resizePtrs_length _ _, fun k hk => absurd hk (by omega)⟩
      · have hcap : ∀ core o, (capture core o).jit = core.jit := fun _ _ => rfl
        exact (lookupAll_spec hcap names 0 (by rw [Nat.zero_add, hlen])).weaken
          (fun _ hl => hl) (fun _ l hl => ⟨hl.1, hl.2.length, hl.2.all_live⟩)
            fun _ hl => .inr ⟨hreach, hl⟩

/-- The steps of a load all succeed. -/
structure LoadOutcome.Succeeds (o : LoadOutcome) (objectBytes : Bytes) (n : Nat) : Prop where
  createJit : o.createJit = .created
  addObjectFile : o.addObjectFile objectBytes = none
  mappingToJIT : o.mappingToJIT = .ok ()
  lookup : Found o.lookup n

/-- **A load into a fresh core**: if it succeeds every slot is live. -/
theorem loadObject_spec (obj : Bytes) (names : List String) (o : LoadOutcome) :
    Triple (fun l => l.retTypes.length = 0) (JitCore.loadObject obj names o)
      (fun _ l => l.funcPtrs.length = names.length ∧ ∀ p ∈ l.funcPtrs, Live l.core p)
      (fun _ => ¬o.Succeeds obj names.length) := by
  unfold JitCore.loadObject
  refine .modify_bind (fun l => l.retTypes.length = 0) (fun _ hl => hl) ?_
  refine (createJit_spec o.createJit (fun _ _ _ hl => hl) fun hne _ _ hs =>
    hne hs.createJit).bind fun _ => .of_fact fun hjit => ?_
  cases hadd : o.addObjectFile obj with
  | some err =>
    refine .throw fun _ _ hs => ?_
    have h := hs.addObjectFile
    rw [hadd] at h
    cases h
  | none =>
    refine (returnNotOk_spec o.mappingToJIT fun hne _ _ hs => hne hs.mappingToJIT).bind
      fun _ => .of_fact fun _ => ?_
    refine .modify_bind (fun l => l.core.jit.isSome ∧ l.retTypes.length = 0 ∧
      Filled names.length 0 l) (fun l hl => ?_) ?_
    · exact ⟨hl.2, hl.1, resizePtrs_length _ _, fun k hk => absurd hk (by omega)⟩
    · exact (lookupAll_spec (fun _ _ => rfl) names 0 (Nat.zero_add _)).weaken
        (fun _ hl => hl) (fun _ l hl => ⟨hl.2.length, hl.2.all_live⟩)
          fun _ hl hs => hl hs.lookup

/-! ## 3. `ExecEngine` -/

namespace ExecEngine

/-- **The invariant**: the cached pointer is live, or there is none and the return type calls
nothing. -/
def Sound (e : ExecEngine) : Prop :=
  Live e.core e.entryFuncPtr ∨ e.entryFuncPtr = none ∧ dispatches e.retType = false

/-- A call of one of the public functions, with what the outside answers.  The `errors` of an
execution are those its context ends up with. -/
inductive Call
  | compile (node : NodeOutcome) (o : BuildOutcome)
  | loadCompiled (bytes : Bytes) (opts : LoadCompiledOptions) (host : Host) (o : LoadOutcome)
  | saveCompiled (host : Host) (out : Option Bytes)
  | executeRetType (errors : Option String)
  | executeCtxRetType (errors : Option String)
  | executeVoid (errors : Option String)
  | executeCtxVoid (errors : Option String)

/-- The engine after a call. -/
def after (e : ExecEngine) : Call → ExecEngine
  | .compile node o => (e.compile node o).2
  | .loadCompiled bytes opts host o => (e.loadCompiled bytes opts host o).2
  | _ => e

/-- What a call executes, if it is one that executes. -/
def executed (e : ExecEngine) : Call → Option ExecResult
  | .executeRetType errors => some (e.executeRetType errors)
  | .executeCtxRetType errors => some (e.executeCtxRetType errors)
  | .executeVoid errors => some (e.executeVoid errors)
  | .executeCtxVoid errors => some (e.executeCtxVoid errors)
  | _ => none

/-- Every pointer the call jumps through is live; if there is none the call returns an error. -/
def SafeCall (e : ExecEngine) (c : Call) : Prop := ∀ r, e.executed c = some r → r.Safe e.core

/-- **The condition on a call**, on the engine before it.  A `void*` execution needs something
compiled.  A load needs an engine with nothing compiled, or a blob that is refused before the core
is replaced, or load steps that all succeed. -/
def Admits (e : ExecEngine) : Call → Prop
  | .executeVoid _ | .executeCtxVoid _ => e.entryFuncPtr ≠ none
  | .loadCompiled bytes opts host o =>
    e.entryFuncPtr = none ∨
      ∀ header obj, loadable bytes opts host .kSingle = .ok (header, obj) → o.Succeeds obj 1
  | _ => True

theorem headD_mem {α : Type} {l : List α} {n : Nat} (h : l.length = n + 1) (d : α) :
    l.headD d ∈ l := by
  cases l with
  | nil => cases h
  | cons a l => exact List.mem_cons_self

/-- **A compilation ends in a sound state**, wherever it fails: the cached pointer is dropped
first. -/
theorem sound_compile (e : ExecEngine) (node : NodeOutcome) (o : BuildOutcome) :
    (e.compile node o).2.Sound := by
  have hlen : [kEntryFunctionName].length = [node].length := rfl
  have h := buildAndLink_spec o hlen { core := e.core, created := e.created } rfl
  unfold compile
  dsimp only
  split
  · have hd : dispatches ValueType.kUnknown.toByte = false := by decide
    exact .inr ⟨rfl, hd⟩
  · next l hrun =>
    rw [hrun] at h
    obtain ⟨-, hptrs, hlive⟩ := h
    exact .inl (hlive _ (headD_mem hptrs none))

/-- **An admitted load ends in a sound state.** -/
theorem sound_loadCompiled {e : ExecEngine} (h : e.Sound) {bytes : Bytes}
    {opts : LoadCompiledOptions} {host : Host} {o : LoadOutcome}
    (hok : e.Admits (.loadCompiled bytes opts host o)) :
    (e.loadCompiled bytes opts host o).2.Sound := by
  unfold loadCompiled
  split
  · exact h
  · next header obj hload =>
    have hspec := loadObject_spec obj [kEntryFunctionName] o
      { core := freshCore e.core header, created := e.created } rfl
    split
    · next st l hrun =>
      rw [hrun] at hspec
      rcases hok with hnone | hsucc
      · rcases h with ⟨c, hc, -⟩ | hdead
        · rw [hnone] at hc
          cases hc
        · exact .inr hdead
      · exact absurd (hsucc header obj hload) hspec
    · next l hrun =>
      rw [hrun] at hspec
      obtain ⟨hptrs, hlive⟩ := hspec
      exact .inl (hlive _ (headD_mem hptrs none))

theorem sound_after {e : ExecEngine} (h : e.Sound) {c : Call} (hok : e.Admits c) :
    (e.after c).Sound := by
  cases c with
  | compile node o => exact e.sound_compile node o
  | loadCompiled bytes opts host o => exact sound_loadCompiled h hok
  | _ => exact h

/-- From a sound state an admitted call is safe. -/
theorem safeCall_of_sound {e : ExecEngine} (h : e.Sound) {c : Call} (hok : e.Admits c) :
    e.SafeCall c := by
  have hret : dispatches e.retType = true → Live e.core e.entryFuncPtr := by
    intro hd
    rcases h with hlive | ⟨-, hdead⟩
    · exact hlive
    · rw [hdead] at hd
      cases hd
  have hvoid : e.entryFuncPtr ≠ none → Live e.core e.entryFuncPtr := by
    intro hne
    rcases h with hlive | ⟨hnone, -⟩
    · exact hlive
    · exact absurd hnone hne
  rintro r hr
  cases c with
  | compile => cases hr
  | loadCompiled => cases hr
  | saveCompiled => cases hr
  | executeRetType errors =>
    obtain rfl := Option.some.inj hr
    exact safe_callRetType hret errors
  | executeCtxRetType errors =>
    obtain rfl := Option.some.inj hr
    exact safe_callRetType hret errors
  | executeVoid errors =>
    obtain rfl := Option.some.inj hr
    exact safe_callVoid (hvoid hok) errors
  | executeCtxVoid errors =>
    obtain rfl := Option.some.inj hr
    exact safe_callVoid (hvoid hok) errors

/-- The engine after the calls, from construction with `option`. -/
def run (option : ExecEngineOption) (calls : List Call) : ExecEngine :=
  Machine.run after { core := { option } } calls

/-- **A run of admitted calls is safe at every call.** -/
theorem safe_run (option : ExecEngineOption) {calls : List Call}
    (hok : ∀ pre c, pre ++ [c] <+: calls → (run option pre).Admits c) :
    ∀ pre c, pre ++ [c] <+: calls → (run option pre).SafeCall c := by
  have hd : dispatches ValueType.kUnknown.toByte = false := by decide
  have hinit : ExecEngine.Sound { core := { option } } := .inr ⟨rfl, hd⟩
  have hsound := Machine.run_inv_of_ok hinit (fun _ _ h hadm => sound_after h hadm) hok
  intro pre c hpre
  have hpre' : pre <+: calls := (List.prefix_append pre [c]).trans hpre
  exact safeCall_of_sound (hsound pre hpre') (hok pre c hpre)

end ExecEngine

/-! ## 4. `BatchExecEngine` -/

namespace BatchExecEngine

/-- **The invariant**: every cached pointer is live and has a return type. -/
def Sound (e : BatchExecEngine) : Prop :=
  e.entryFuncPtrs.length ≤ e.retTypes.length ∧ ∀ p ∈ e.entryFuncPtrs, Live e.core p

inductive Call
  | compile (nodes : List NodeOutcome) (o : BuildOutcome)
  | loadCompiled (bytes : Bytes) (opts : LoadCompiledOptions) (host : Host) (o : LoadOutcome)
  | saveCompiled (host : Host) (out : Option Bytes)
  | executeAtRetType (index : Nat) (errors : Option String)
  | executeAtCtxRetType (index : Nat) (errors : Option String)
  | executeAtVoid (index : Nat) (errors : Option String)
  | executeAtCtxVoid (index : Nat) (errors : Option String)
  | executeAllRetType (errors : Nat → Option String)
  | executeAllCtxRetType (errors : Nat → Option String)
  | executeAllVoid (errors : Nat → Option String)
  | executeAllCtxVoid (errors : Nat → Option String)

def after (e : BatchExecEngine) : Call → BatchExecEngine
  | .compile nodes o => (e.compile nodes o).2
  | .loadCompiled bytes opts host o => (e.loadCompiled bytes opts host o).2
  | _ => e

/-- The `ExecuteAt` calls a call makes: itself, or one for every entry. -/
def executed (e : BatchExecEngine) : Call → List ExecResult
  | .executeAtRetType i errors => [e.executeAtRetType i errors]
  | .executeAtCtxRetType i errors => [e.executeAtCtxRetType i errors]
  | .executeAtVoid i errors => [e.executeAtVoid i errors]
  | .executeAtCtxVoid i errors => [e.executeAtCtxVoid i errors]
  | .executeAllRetType errors =>
    (List.range e.entryFuncPtrs.length).map fun i => e.executeAtRetType i (errors i)
  | .executeAllCtxRetType errors =>
    (List.range e.entryFuncPtrs.length).map fun i => e.executeAtCtxRetType i (errors i)
  | .executeAllVoid errors =>
    (List.range e.entryFuncPtrs.length).map fun i => e.executeAtVoid i (errors i)
  | .executeAllCtxVoid errors =>
    (List.range e.entryFuncPtrs.length).map fun i => e.executeAtCtxVoid i (errors i)
  | _ => []

def SafeCall (e : BatchExecEngine) (c : Call) : Prop := ∀ r ∈ e.executed c, r.Safe e.core

/-- **The condition on a call.**  A compilation that gets as far as its lookups finds every
symbol.  A load needs an empty table, or a blob that is refused before the core is replaced, or
load steps that all succeed. -/
def Admits (e : BatchExecEngine) : Call → Prop
  | .compile nodes o => nodes ≠ [] → o.ReachesLookup nodes → Found o.lookup nodes.length
  | .loadCompiled bytes opts host o =>
    e.entryFuncPtrs = [] ∨
      ∀ header obj, ExecEngine.loadable bytes opts host .kBatch = .ok (header, obj) →
        o.Succeeds obj header.perEntryRetTypes.length
  | _ => True

theorem entryNames_length (n : Nat) : (entryNames n).length = n := by simp [entryNames]

theorem sound_compile {e : BatchExecEngine} (h : e.Sound) {nodes : List NodeOutcome}
    {o : BuildOutcome} (hok : e.Admits (.compile nodes o)) : (e.compile nodes o).2.Sound := by
  unfold compile
  split
  · exact h
  · next hne =>
    have hspec := buildAndLink_spec o (entryNames_length nodes.length)
      { core := e.core, created := e.created, funcPtrs := [], retTypes := [] } rfl
    split at hspec
    · next l hrun =>
      rw [hrun]
      obtain ⟨hret, hptrs, hlive⟩ := hspec
      exact ⟨by rw [hptrs, hret], hlive⟩
    · next st l hrun =>
      rw [hrun]
      rcases hspec with hnil | ⟨hreach, hnot⟩
      · refine ⟨by simp [hnil], fun p hp => ?_⟩
        have hp' : p ∈ l.funcPtrs := hp
        rw [hnil] at hp'
        cases hp'
      · exact absurd (hok hne hreach) hnot

theorem sound_loadCompiled {e : BatchExecEngine} (h : e.Sound) {bytes : Bytes}
    {opts : LoadCompiledOptions} {host : Host} {o : LoadOutcome}
    (hok : e.Admits (.loadCompiled bytes opts host o)) :
    (e.loadCompiled bytes opts host o).2.Sound := by
  unfold loadCompiled
  split
  · exact h
  · next header obj hload =>
    have hspec := loadObject_spec obj (entryNames header.perEntryRetTypes.length) o
      { core := ExecEngine.freshCore e.core header, created := e.created } rfl
    rw [entryNames_length] at hspec
    split
    · next st l hrun =>
      rw [hrun] at hspec
      rcases hok with hnil | hsucc
      · refine ⟨by simp [hnil], fun p hp => ?_⟩
        rw [hnil] at hp
        cases hp
      · exact absurd (hsucc header obj hload) hspec
    · next l hrun =>
      rw [hrun] at hspec
      exact ⟨le_of_eq hspec.1, hspec.2⟩

theorem sound_after {e : BatchExecEngine} (h : e.Sound) {c : Call} (hok : e.Admits c) :
    (e.after c).Sound := by
  cases c with
  | compile nodes o => exact sound_compile h hok
  | loadCompiled bytes opts host o => exact sound_loadCompiled h hok
  | _ => exact h

theorem safe_indexOutOfRange (core : JitCore) : indexOutOfRange.Safe core :=
  ⟨by simp [indexOutOfRange], by simp [indexOutOfRange]⟩

theorem safe_executeAtVoid {e : BatchExecEngine} (h : e.Sound) (i : Nat)
    (errors : Option String) : (e.executeAtVoid i errors).Safe e.core := by
  unfold executeAtVoid
  split
  · exact safe_indexOutOfRange e.core
  · next p hp => exact safe_callVoid (h.2 p (List.mem_of_getElem? hp)) errors

theorem safe_executeAtRetType {e : BatchExecEngine} (h : e.Sound) (i : Nat)
    (errors : Option String) : (e.executeAtRetType i errors).Safe e.core := by
  unfold executeAtRetType
  split
  · exact safe_indexOutOfRange e.core
  · next p hp =>
    have hlt : i < e.retTypes.length := lt_of_lt_of_le (List.getElem?_eq_some_iff.mp hp).1 h.1
    rw [List.getElem?_eq_getElem hlt]
    exact safe_callRetType (fun _ => h.2 p (List.mem_of_getElem? hp)) errors

/-- From a sound state every call is safe. -/
theorem safeCall_of_sound {e : BatchExecEngine} (h : e.Sound) (c : Call) : e.SafeCall c := by
  intro r hr
  cases c with
  | compile => cases hr
  | loadCompiled => cases hr
  | saveCompiled => cases hr
  | executeAtRetType i errors =>
    rw [List.mem_singleton.mp hr]
    exact safe_executeAtRetType h i errors
  | executeAtCtxRetType i errors =>
    rw [List.mem_singleton.mp hr]
    exact safe_executeAtRetType h i errors
  | executeAtVoid i errors =>
    rw [List.mem_singleton.mp hr]
    exact safe_executeAtVoid h i errors
  | executeAtCtxVoid i errors =>
    rw [List.mem_singleton.mp hr]
    exact safe_executeAtVoid h i errors
  | executeAllRetType errors =>
    obtain ⟨i, -, rfl⟩ := List.mem_map.mp hr
    exact safe_executeAtRetType h i _
  | executeAllCtxRetType errors =>
    obtain ⟨i, -, rfl⟩ := List.mem_map.mp hr
    exact safe_executeAtRetType h i _
  | executeAllVoid errors =>
    obtain ⟨i, -, rfl⟩ := List.mem_map.mp hr
    exact safe_executeAtVoid h i _
  | executeAllCtxVoid errors =>
    obtain ⟨i, -, rfl⟩ := List.mem_map.mp hr
    exact safe_executeAtVoid h i _

def run (option : ExecEngineOption) (calls : List Call) : BatchExecEngine :=
  Machine.run after { core := { option } } calls

/-- **A run of admitted calls is safe at every call.** -/
theorem safe_run (option : ExecEngineOption) {calls : List Call}
    (hok : ∀ pre c, pre ++ [c] <+: calls → (run option pre).Admits c) :
    ∀ pre c, pre ++ [c] <+: calls → (run option pre).SafeCall c := by
  have hinit : BatchExecEngine.Sound { core := { option } } := ⟨le_refl 0, by simp⟩
  have hsound := Machine.run_inv_of_ok hinit (fun _ _ h hadm => sound_after h hadm) hok
  intro pre c hpre
  have hpre' : pre <+: calls := (List.prefix_append pre [c]).trans hpre
  exact safeCall_of_sound (hsound pre hpre') c

end BatchExecEngine

/-! ## 5. Both engines -/

/-- **The life cycle of both engines.**  In every run whose calls are admitted, every pointer a
call jumps through is non-null and belongs to the LLJIT the engine's core owns; an execution that
jumps through none returns an error. -/
theorem engines_safe_run (option : ExecEngineOption) :
    (∀ calls : List ExecEngine.Call,
      (∀ pre c, pre ++ [c] <+: calls → (ExecEngine.run option pre).Admits c) →
        ∀ pre c, pre ++ [c] <+: calls → (ExecEngine.run option pre).SafeCall c) ∧
    (∀ calls : List BatchExecEngine.Call,
      (∀ pre c, pre ++ [c] <+: calls → (BatchExecEngine.run option pre).Admits c) →
        ∀ pre c, pre ++ [c] <+: calls → (BatchExecEngine.run option pre).SafeCall c) :=
  ⟨fun _ => ExecEngine.safe_run option, fun _ => BatchExecEngine.safe_run option⟩

/-- A compilation and a load that replaces it, each followed by an execution. -/
def replacedCalls : List ExecEngine.Call :=
  [.compile ⟨7, .ok ()⟩ { lookup := fun _ => ⟨none, none, .ok 64⟩ }, .executeRetType none,
    .loadCompiled sampleBlob.bytes {} ⟨[], [], [0x78]⟩ { lookup := fun _ => ⟨none, none, .ok 96⟩ },
    .executeCtxRetType none]

/-- The artifact of two entries. -/
def batchBlob : Bytes :=
  ArtifactLayout.encode { mode := .kBatch, cpuName := [0x78], perEntryRetTypes := [7, 12] } [0xaa]

/-- The same with a batch of two roots. -/
def replacedBatchCalls : List BatchExecEngine.Call :=
  [.compile [⟨7, .ok ()⟩, ⟨7, .ok ()⟩] { lookup := fun i => ⟨none, none, .ok (64 + i)⟩ },
    .executeAtRetType 1 none,
    .loadCompiled batchBlob {} ⟨[], [], [0x78]⟩ { lookup := fun i => ⟨none, none, .ok (96 + i)⟩ },
    .executeAllVoid fun _ => none]

theorem engines_safe_run_replaced :
    (∀ pre c, pre ++ [c] <+: replacedCalls → (ExecEngine.run {} pre).SafeCall c) ∧
    (∀ pre c, pre ++ [c] <+: replacedBatchCalls → (BatchExecEngine.run {} pre).SafeCall c) ∧
    (ExecEngine.run {} replacedCalls).entryFuncPtr = some ⟨1, 96⟩ ∧
    (BatchExecEngine.run {} replacedBatchCalls).entryFuncPtrs = [some ⟨1, 96⟩, some ⟨1, 97⟩] := by
  refine ⟨?_, ?_, by decide +kernel, by decide +kernel⟩
  · refine (engines_safe_run {}).1 _ fun pre c hpre => ?_
    have hc := hpre.subset (List.mem_append_right pre List.mem_cons_self)
    simp only [replacedCalls, List.mem_cons, List.not_mem_nil, or_false] at hc
    rcases hc with rfl | rfl | rfl | rfl
    · trivial
    · trivial
    · exact .inr fun _ _ _ => ⟨rfl, rfl, rfl, fun _ _ => ⟨96, rfl⟩⟩
    · trivial
  · refine (engines_safe_run {}).2 _ fun pre c hpre => ?_
    have hc := hpre.subset (List.mem_append_right pre List.mem_cons_self)
    simp only [replacedBatchCalls, List.mem_cons, List.not_mem_nil, or_false] at hc
    rcases hc with rfl | rfl | rfl | rfl
    · exact fun _ _ i _ => ⟨64 + i, rfl⟩
    · trivial
    · exact .inr fun _ _ _ => ⟨rfl, rfl, rfl, fun i _ => ⟨96 + i, rfl⟩⟩
    · trivial

/-- Compiled into LLJIT 0, then a load whose lookup fails after the core was replaced. -/
def staleCalls : List ExecEngine.Call :=
  [.compile ⟨7, .ok ()⟩ { lookup := fun _ => ⟨none, none, .ok 64⟩ },
    .loadCompiled sampleBlob.bytes {} ⟨[], [], [0x78]⟩
      { lookup := fun _ => ⟨none, none, .error "not found"⟩ }]

/-- Two roots, the second symbol of which is not found. -/
def halfLinkedCalls : List BatchExecEngine.Call :=
  [.compile [⟨7, .ok ()⟩, ⟨7, .ok ()⟩]
    { lookup := fun i => ⟨none, none, if i = 0 then .ok 64 else .error "not found"⟩ }]

/-- Null on an engine nothing was compiled in; an address of LLJIT 0 while the core owns LLJIT 1;
null from a table whose compilation failed. -/
theorem engines_not_safe :
    ¬(ExecEngine.run {} []).SafeCall (.executeVoid none) ∧
    ¬(ExecEngine.run {} staleCalls).SafeCall (.executeRetType none) ∧
    ¬(BatchExecEngine.run {} halfLinkedCalls).SafeCall (.executeAtRetType 1 none) := by
  have hstale : (ExecEngine.run {} staleCalls).executed (.executeRetType none) =
      some ⟨.ok (), [some ⟨0, 64⟩]⟩ ∧ (ExecEngine.run {} staleCalls).core.jit = some 1 := by
    decide +kernel
  have hhalf : (BatchExecEngine.run {} halfLinkedCalls).executed (.executeAtRetType 1 none) =
      [⟨.ok (), [none]⟩] := by
    decide +kernel
  refine ⟨fun h => ?_, fun h => ?_, fun h => ?_⟩
  · obtain ⟨c, hc, -⟩ := (h _ rfl).1 none List.mem_cons_self
    cases hc
  · obtain ⟨c, hc, hjit⟩ := (h _ hstale.1).1 _ List.mem_cons_self
    rw [hstale.2] at hjit
    cases hc
    cases hjit
  · obtain ⟨c, hc, -⟩ := (h _ (hhalf ▸ List.mem_cons_self)).1 none List.mem_cons_self
    cases hc

end JitFusion
