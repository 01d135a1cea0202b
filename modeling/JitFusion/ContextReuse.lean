/-
# Reusing an execution context

A context that starts without errors may be passed to any number of `Execute`, `ExecuteAt` and
`ExecuteAll` calls, on any compiled engines: every call answers what the overload with a fresh
context answers (`context_reuse`).

The invariant is `Calm`: no errors are recorded, and the arena is in a state its own calls can
reach.  A kernel run from a calm process records its own errors only, and `Clear` makes the
process calm again and runs what finalizers there are.  The overloads for all entries are loops
over the ones for a single entry, so one simulation of loops (`loop_sim`) covers them.
-/
import JitFusion.ExecContext

namespace JitFusion

/-! ## 1. Calm processes -/

theorem World.Kept.uses {w : World} (h : w.Kept) {us : List Use} (hfair : w.UsesFair us) :
    (w.uses us).Kept := by
  have hadds := World.uses_adds us w
  exact ⟨World.stable_sound.uses us w h.sound hfair, h.recorded.adds hadds, by
    rw [hadds.1]; exact h.guarded⟩

/-- After a `Reset` there is nothing to finalize. -/
theorem World.Kept.reset_finalizers {w : World} (h : w.Kept) :
    w.reset.arena.finalizers = [] := by
  have hkept : w.reset.Kept := h.call (c := .reset) trivial
  exact hkept.recorded.pending

namespace Process

/-- **No errors are recorded, and the arena has been used by its own functions only.** -/
structure Calm (p : Process) : Prop where
  errors : p.ctx.errors = []
  arena : p.ctx.arena.Kept

/-- Nothing is left of a call. -/
def Clean (p : Process) : Prop := p.ctx.errors = [] ∧ p.ctx.arena.arena.finalizers = []

end Process

namespace Runtime

variable {A W : Type} {rt : Runtime A W}

/-- `Clear` calms a process whatever errors it has recorded. -/
theorem clear_calm (rt : Runtime A W) {p : Process} (h : p.ctx.arena.Kept) :
    (rt.clear p).Calm ∧ (rt.clear p).Clean :=
  ⟨⟨rfl, h.call (c := .reset) trivial⟩, rfl, h.reset_finalizers⟩

/-- A kernel uses the arena through its own functions. -/
theorem run_kept {p : Process} (h : p.Calm) (k : Kernel A W) (a : A) (out : Option W) :
    (k.run a out p).process.ctx.arena.Kept := by
  rcases k.uses a out p with ⟨us, hfair, harena⟩
  rw [harena]
  exact h.arena.uses hfair

/-! ## 2. One entry -/

/-- The pointer and the return type of an entry belong to one compiled function. -/
def Linked (rt : Runtime A W) (ptr : Option CodePtr) (retType : UInt8) : Prop :=
  ∃ q, ptr = some q ∧ retType = (rt.kernel q).type.toByte

theorem find_toByte (t : ValueType) :
    (ValueType.kUnknown :: .kPtr :: switchTypes).find? (fun x => x.toByte == t.toByte)
      = some t := by
  cases t <;> decide

theorem toByte_injective : Function.Injective ValueType.toByte := by
  intro t u h
  have hfind := find_toByte t
  rw [h, find_toByte u] at hfind
  exact (Option.some.inj hfind).symm

/-- The status is a function of the recorded errors. -/
theorem statusOf_congr {ctx ctx' : ExecContext} (h : ctx.errors = ctx'.errors) :
    statusOf ctx = statusOf ctx' := by
  cases ctx
  cases ctx'
  cases h
  rfl

/-- The answer of the `RetType*` form does not depend on what the context went through. -/
theorem callCtxRetType_spec {ptr : Option CodePtr} {retType : UInt8} (hl : rt.Linked ptr retType)
    (a : A) (result : RetType) {p : Process} (h : p.Calm) :
    (rt.callCtxRetType ptr retType a result p).1 = rt.callRetType ptr retType a result ∧
      (rt.callCtxRetType ptr retType a result p).2.Calm ∧
      (dispatches retType → (rt.callCtxRetType ptr retType a result p).2.Clean) := by
  rcases hl with ⟨q, rfl, rfl⟩
  unfold callCtxRetType callRetType expandSwitchType
  cases hfind : switchTypes.find? fun t => t.toByte == (rt.kernel q).type.toByte with
  | none =>
    refine ⟨rfl, h, fun hd => ?_⟩
    rw [List.find?_eq_none] at hfind
    rcases List.any_eq_true.mp hd with ⟨t, ht, heq⟩
    exact absurd heq (hfind t ht)
  | some type =>
    have htype : type = (rt.kernel q).type :=
      toByte_injective (by simpa using List.find?_some hfind)
    subst htype
    have hclear := clear_calm rt (run_kept h (rt.kernel q) a none)
    refine ⟨?_, hclear.1, fun _ => hclear.2⟩
    have hvalue := ((rt.kernel q).determined a none p rt.fresh h.errors rfl).2
    have herrors := (rt.kernel q).errors_determined a none none p rt.fresh h.errors rfl
    simp only [jump, statusOf_congr herrors, hvalue]

theorem callCtxVoid_spec {ptr : Option CodePtr} {retType : UInt8} (hl : rt.Linked ptr retType)
    (a : A) (out : Option W) {p : Process} (h : p.Calm) :
    (rt.callCtxVoid ptr a out p).1 = rt.callVoid ptr a out ∧
      (rt.callCtxVoid ptr a out p).2.Calm ∧ (rt.callCtxVoid ptr a out p).2.Clean := by
  rcases hl with ⟨q, rfl, -⟩
  have hclear := clear_calm rt (run_kept h (rt.kernel q) a out)
  refine ⟨?_, hclear.1, hclear.2⟩
  have hout := ((rt.kernel q).determined a out p rt.fresh h.errors rfl).1
  have herrors := (rt.kernel q).errors_determined a out out p rt.fresh h.errors rfl
  simp only [callCtxVoid, callVoid, jump, statusOf_congr herrors, hout]

/-- The slot for the result does not influence the status. -/
theorem callRetType_status (ptr : Option CodePtr) (retType : UInt8) (a : A)
    (result result' : RetType) : (rt.callRetType ptr retType a result).status
      = (rt.callRetType ptr retType a result').status := by
  unfold callRetType expandSwitchType
  cases switchTypes.find? fun t => t.toByte == retType <;> rfl

/-- Nor does the buffer, since errors are determined by the arguments. -/
theorem callVoid_status {ptr : Option CodePtr} {retType : UInt8} (hl : rt.Linked ptr retType)
    (a : A) (out out' : Option W) :
    (rt.callVoid ptr a out).status = (rt.callVoid ptr a out').status := by
  rcases hl with ⟨q, rfl, -⟩
  have herrors := (rt.kernel q).errors_determined a out out' rt.fresh rt.fresh rfl rfl
  simp only [callVoid, jump, statusOf_congr herrors]

/-- The message of the context a call leaves, if it has errors. -/
def message (rt : Runtime A W) (ptr : Option CodePtr) (a : A) (out : Option W) : Option String :=
  let ctx := (rt.jump ptr a out rt.fresh).process.ctx
  if ctx.hasErrors then some ctx.getErrorMessage else none

/-- **The engine model's calls are these**, told which errors the code records. -/
theorem callRetType_status_eq (ptr : Option CodePtr) (retType : UInt8) (a : A)
    (result : RetType) : (rt.callRetType ptr retType a result).status
      = (JitFusion.callRetType ptr retType (rt.message ptr a none)).status := by
  unfold callRetType expandSwitchType JitFusion.callRetType dispatches
  cases hfind : switchTypes.find? fun t => t.toByte == retType with
  | none =>
    have hany : (switchTypes.any fun t => t.toByte == retType) = false := by
      rw [List.any_eq_false]
      exact List.find?_eq_none.mp hfind
    rw [hany]
    rfl
  | some type =>
    have hany : (switchTypes.any fun t => t.toByte == retType) = true :=
      List.any_eq_true.mpr
        ⟨type, List.mem_of_find?_eq_some hfind, by simpa using List.find?_some hfind⟩
    rw [hany]
    rfl

theorem callVoid_status_eq (ptr : Option CodePtr) (a : A) (out : Option W) :
    (rt.callVoid ptr a out).status = (JitFusion.callVoid ptr (rt.message ptr a out)).status :=
  rfl

/-- An engine whose entry point was compiled. -/
def Compiled (rt : Runtime A W) (e : ExecEngine) : Prop := rt.Linked e.entryFuncPtr e.retType

/-- A batch engine whose entries were compiled. -/
def CompiledAll (rt : Runtime A W) (e : BatchExecEngine) : Prop :=
  ∀ (i : Nat) (ptr : Option CodePtr), e.entryFuncPtrs[i]? = some ptr →
    ∃ retType : UInt8, e.retTypes[i]? = some retType ∧ rt.Linked ptr retType

theorem CompiledAll.linked {e : BatchExecEngine} (he : rt.CompiledAll e) {i : Nat}
    {ptr : Option CodePtr} (h : e.entryFuncPtrs[i]? = some ptr) :
    rt.Linked ptr (retTypeAt e i) := by
  rcases he i ptr h with ⟨retType, hret, hl⟩
  rw [retTypeAt, List.getD_eq_getElem?_getD, hret]
  exact hl

theorem executeAtCtx_spec {e : BatchExecEngine} (he : rt.CompiledAll e) (i : Nat) (a : A)
    (result : RetType) {p : Process} (h : p.Calm) :
    (rt.executeAtCtx e i a result p).1 = rt.executeAt e i a result ∧
      (rt.executeAtCtx e i a result p).2.Calm := by
  unfold executeAtCtx executeAt
  cases hptr : e.entryFuncPtrs[i]? with
  | none => exact ⟨rfl, h⟩
  | some ptr =>
    have hspec := callCtxRetType_spec (he.linked hptr) a result h
    exact ⟨hspec.1, hspec.2.1⟩

theorem executeAtCtxVoid_spec {e : BatchExecEngine} (he : rt.CompiledAll e) (i : Nat) (a : A)
    (out : Option W) {p : Process} (h : p.Calm) :
    (rt.executeAtCtxVoid e i a out p).1 = rt.executeAtVoid e i a out ∧
      (rt.executeAtCtxVoid e i a out p).2.Calm := by
  unfold executeAtCtxVoid executeAtVoid
  cases hptr : e.entryFuncPtrs[i]? with
  | none => exact ⟨rfl, h⟩
  | some ptr =>
    have hspec := callCtxVoid_spec (he.linked hptr) a out h
    exact ⟨hspec.1, hspec.2.1⟩

/-- A call that jumps into code cleans the context; one that does not leaves it. -/
theorem executeAtCtx_clean {e : BatchExecEngine} (he : rt.CompiledAll e) (i : Nat) (a : A)
    (result : RetType) {p : Process} (h : p.Calm) :
    (rt.executeAtCtx e i a result p).2.Clean ∨
      (rt.executeAtCtx e i a result p).2 = p ∧ (e.executeAtRetType i none).invoked = [] := by
  unfold executeAtCtx BatchExecEngine.executeAtRetType
  cases hptr : e.entryFuncPtrs[i]? with
  | none => exact .inr ⟨rfl, rfl⟩
  | some ptr =>
    rcases he i ptr hptr with ⟨retType, hret, hl⟩
    have hat : retTypeAt e i = retType := by
      rw [retTypeAt, List.getD_eq_getElem?_getD, hret]
      rfl
    simp only [hret, hat]
    by_cases hd : dispatches retType
    · exact .inl ((callCtxRetType_spec hl a result h).2.2 hd)
    · right
      refine ⟨?_, by simp [JitFusion.callRetType, hd]⟩
      have hfind : (switchTypes.find? fun t => t.toByte == retType) = none := by
        rw [List.find?_eq_none]
        exact List.any_eq_false.mp (by simpa [dispatches] using hd)
      simp only [callCtxRetType, expandSwitchType, hfind]

theorem executeAtCtxVoid_clean {e : BatchExecEngine} (he : rt.CompiledAll e) (i : Nat) (a : A)
    (out : Option W) {p : Process} (h : p.Calm) :
    (rt.executeAtCtxVoid e i a out p).2.Clean ∨
      (rt.executeAtCtxVoid e i a out p).2 = p ∧ (e.executeAtVoid i none).invoked = [] := by
  unfold executeAtCtxVoid BatchExecEngine.executeAtVoid
  cases hptr : e.entryFuncPtrs[i]? with
  | none => exact .inr ⟨rfl, rfl⟩
  | some ptr => exact .inl (callCtxVoid_spec (he.linked hptr) a out h).2.2

/-! ## 3. Loops over the entries -/

/-- **Two loops whose steps answer alike from related states** collect the same errors and end in
related states. -/
theorem loop_sim {S T : Type} (R : S → T → Prop) (step : Nat → S → Except Status Unit × S)
    (step' : Nat → T → Except Status Unit × T)
    (hstep : ∀ i s t, R s t → (step i s).1 = (step' i t).1 ∧ R (step i s).2 (step' i t).2)
    (is : List Nat) : ∀ (acc : String) (s : S) (t : T), R s t →
      (loop step is (acc, s)).1 = (loop step' is (acc, t)).1 ∧
        R (loop step is (acc, s)).2 (loop step' is (acc, t)).2 := by
  induction is with
  | nil => exact fun _ _ _ h => ⟨rfl, h⟩
  | cons i is ih =>
    intro acc s t h
    have hi := hstep i s t h
    simp only [loop]
    rw [hi.1]
    exact ih _ _ _ hi.2

/-- The errors a loop collects, when the statuses of its steps are known. -/
theorem loop_errors {S : Type} (step : Nat → S → Except Status Unit × S)
    (status : Nat → Except Status Unit) (hstep : ∀ i s, (step i s).1 = status i) (is : List Nat) :
    ∀ (acc : String) (s : S),
      (loop step is (acc, s)).1 = (is.map status).foldl addStatus acc := by
  induction is with
  | nil => exact fun _ _ => rfl
  | cons i is ih =>
    intro acc s
    simp only [loop, List.map_cons, List.foldl_cons, hstep]
    exact ih _ _

/-- The texts of the statuses that are errors. -/
def messages (statuses : List (Except Status Unit)) : List String :=
  statuses.filterMap fun st =>
    match st with
    | .ok () => none
    | .error st => some st.toString

theorem toString_ne_empty (st : Status) : st.toString ≠ "" := by
  intro h
  have hl := congrArg String.length h
  simp [Status.toString] at hl

/-- The string the loop builds up is the messages with `"| "` between them. -/
theorem foldl_addStatus (statuses : List (Except Status Unit)) : ∀ acc,
    statuses.foldl addStatus acc
      = String.intercalate "| " ((if acc = "" then [] else [acc]) ++ messages statuses) := by
  induction statuses with
  | nil =>
    intro acc
    by_cases hacc : acc = "" <;> simp [hacc, messages]
  | cons st statuses ih =>
    intro acc
    rw [List.foldl_cons, ih]
    cases st with
    | ok u => rfl
    | error st =>
      have hne := toString_ne_empty st
      by_cases hacc : acc = ""
      · simp [addStatus, hacc, hne, messages]
      · have hlong : acc ++ "| " ++ st.toString ≠ "" := by
          intro h
          have hl := congrArg String.length h
          simp at hl
        have hmsg : messages (.error st :: statuses) = st.toString :: messages statuses := rfl
        simp only [addStatus, hacc, if_false, hlong, hmsg, List.singleton_append,
          String.intercalate_cons_append, String.intercalate_cons_cons]

/-- The final status, from those of the entries. -/
theorem allStatus_foldl (statuses : List (Except Status Unit)) :
    allStatus (statuses.foldl addStatus "") =
      if messages statuses = [] then .ok ()
      else .error (.runtimeError (String.intercalate "| " (messages statuses))) := by
  rw [foldl_addStatus, if_pos rfl, List.nil_append, allStatus]
  cases hm : messages statuses with
  | nil => rfl
  | cons t l =>
    have hne : String.intercalate "| " (t :: l) ≠ "" := by
      have ht : t ≠ "" := by
        have hmem : t ∈ messages statuses := by simp [hm]
        rcases List.mem_filterMap.mp hmem with ⟨st, -, hst⟩
        cases st with
        | ok u => cases hst
        | error st =>
          cases hst
          exact toString_ne_empty st
      intro h
      have happ := String.intercalate_cons_append (s := "| ") (t := t) (u := "") (l := l)
      rw [String.append_empty, h] at happ
      exact ht (String.append_eq_empty_iff.mp happ.symm).1
    rw [if_neg hne, if_neg (by simp)]

/-- So a loop is fine exactly when all of its entries are. -/
theorem messages_eq_nil (statuses : List (Except Status Unit)) :
    messages statuses = [] ↔ ∀ st ∈ statuses, st = .ok () := by
  rw [messages, List.filterMap_eq_nil_iff]
  refine forall₂_congr fun st _ => ?_
  cases st with
  | ok u => exact iff_of_true rfl rfl
  | error st => exact iff_of_false (by simp) (by simp)

/-- In a loop whose steps clean the process or leave it, it is clean at the end if one step
cleans it. -/
theorem loop_clean {S : Type} {step : Nat → S × Process → Except Status Unit × S × Process}
    (jumps : Nat → Prop)
    (hstep : ∀ i s p, Process.Calm p → (step i (s, p)).2.2.Calm ∧
      ((step i (s, p)).2.2.Clean ∨ (step i (s, p)).2.2 = p ∧ ¬ jumps i))
    (is : List Nat) : ∀ (acc : String) (s : S) (p : Process), p.Calm →
      (p.Clean ∨ ∃ i ∈ is, jumps i) → (loop step is (acc, s, p)).2.2.Clean := by
  induction is with
  | nil =>
    intro acc s p _ h
    rcases h with h | ⟨i, hi, -⟩
    · exact h
    · cases hi
  | cons i is ih =>
    intro acc s p hp h
    have hi := hstep i s p hp
    refine ih _ _ _ hi.1 ?_
    rcases hi.2 with hclean | ⟨heq, hno⟩
    · exact .inl hclean
    rw [heq]
    refine h.imp id ?_
    rintro ⟨j, hj, hjumps⟩
    rcases List.mem_cons.mp hj with rfl | hj
    · exact absurd hjumps hno
    · exact ⟨j, hj, hjumps⟩

/-! ## 4. All entries -/

theorem stepCtxRetType_spec {e : BatchExecEngine} (he : rt.CompiledAll e) (a : A) (i : Nat)
    (s : List RetType) {p : Process} (h : p.Calm) :
    (rt.stepCtxRetType e a i (s, p)).1 = (rt.stepRetType e a i s).1 ∧
      (rt.stepCtxRetType e a i (s, p)).2.1 = (rt.stepRetType e a i s).2 ∧
      (rt.stepCtxRetType e a i (s, p)).2.2.Calm := by
  have hspec := executeAtCtx_spec he i a (s.getD i (.scalar .kU8 0)) h
  simp only [stepCtxRetType, stepRetType, hspec.1, true_and]
  exact hspec.2

theorem stepCtxVoid_spec {e : BatchExecEngine} (he : rt.CompiledAll e) (a : A) (i : Nat)
    (out : Option W) {p : Process} (h : p.Calm) :
    (rt.stepCtxVoid e a i (out, p)).1 = (rt.stepVoid e a i out).1 ∧
      (rt.stepCtxVoid e a i (out, p)).2.1 = (rt.stepVoid e a i out).2 ∧
      (rt.stepCtxVoid e a i (out, p)).2.2.Calm := by
  have hspec := executeAtCtxVoid_spec he i a out h
  simp only [stepCtxVoid, stepVoid, hspec.1, true_and]
  exact hspec.2

/-- **`ExecuteAll` on a calm context answers what it answers on fresh ones**, entry by entry. -/
theorem executeAllCtx_spec {e : BatchExecEngine} (he : rt.CompiledAll e) (a : A)
    (results : List RetType) {p : Process} (h : p.Calm) :
    (rt.executeAllCtx e a results p).1 = rt.executeAll e a results ∧
      (rt.executeAllCtx e a results p).2.Calm ∧
      ((∃ i ∈ List.range e.entryFuncPtrs.length, (e.executeAtRetType i none).invoked ≠ []) →
        (rt.executeAllCtx e a results p).2.Clean) := by
  have hsim := loop_sim (fun s t => s.1 = t ∧ Process.Calm s.2) (rt.stepCtxRetType e a)
    (rt.stepRetType e a)
    (by
      rintro i ⟨s, q⟩ t ⟨rfl, hq⟩
      have hspec := stepCtxRetType_spec he a i s hq
      exact ⟨hspec.1, hspec.2.1, hspec.2.2⟩)
    (List.range e.entryFuncPtrs.length) "" (resize results e.entryFuncPtrs.length, p)
    (resize results e.entryFuncPtrs.length) ⟨rfl, h⟩
  refine ⟨?_, hsim.2.2, fun hjumps => ?_⟩
  · simp only [executeAllCtx, executeAll, hsim.1, hsim.2.1]
  · refine loop_clean (fun i => (e.executeAtRetType i none).invoked ≠ []) ?_ _ _ _ _ h
      (.inr hjumps)
    intro i s q hq
    refine ⟨(stepCtxRetType_spec he a i s hq).2.2, ?_⟩
    rcases executeAtCtx_clean he i a (s.getD i (.scalar .kU8 0)) hq with hclean | ⟨heq, hno⟩
    · exact .inl hclean
    · exact .inr ⟨heq, fun hne => hne hno⟩

theorem executeAllCtxVoid_spec {e : BatchExecEngine} (he : rt.CompiledAll e) (a : A)
    (out : Option W) {p : Process} (h : p.Calm) :
    (rt.executeAllCtxVoid e a out p).1 = rt.executeAllVoid e a out ∧
      (rt.executeAllCtxVoid e a out p).2.Calm ∧
      ((∃ i ∈ List.range e.entryFuncPtrs.length, (e.executeAtVoid i none).invoked ≠ []) →
        (rt.executeAllCtxVoid e a out p).2.Clean) := by
  have hsim := loop_sim (fun s t => s.1 = t ∧ Process.Calm s.2) (rt.stepCtxVoid e a)
    (rt.stepVoid e a)
    (by
      rintro i ⟨s, q⟩ t ⟨rfl, hq⟩
      have hspec := stepCtxVoid_spec he a i s hq
      exact ⟨hspec.1, hspec.2.1, hspec.2.2⟩)
    (List.range e.entryFuncPtrs.length) "" (out, p) out ⟨rfl, h⟩
  refine ⟨?_, hsim.2.2, fun hjumps => ?_⟩
  · simp only [executeAllCtxVoid, executeAllVoid, hsim.1, hsim.2.1]
  · refine loop_clean (fun i => (e.executeAtVoid i none).invoked ≠ []) ?_ _ _ _ _ h
      (.inr hjumps)
    intro i s q hq
    refine ⟨(stepCtxVoid_spec he a i s hq).2.2, ?_⟩
    rcases executeAtCtxVoid_clean he i a s hq with hclean | ⟨heq, hno⟩
    · exact .inl hclean
    · exact .inr ⟨heq, fun hne => hne hno⟩

/-- The status of an entry, on a fresh context, whatever its output slot holds. -/
theorem executeAt_status (e : BatchExecEngine) (i : Nat) (a : A) (result result' : RetType) :
    (rt.executeAt e i a result).status = (rt.executeAt e i a result').status := by
  unfold executeAt
  cases e.entryFuncPtrs[i]? with
  | none => rfl
  | some ptr => exact callRetType_status ptr _ a result result'

theorem executeAtVoid_status {e : BatchExecEngine} (he : rt.CompiledAll e) (i : Nat) (a : A)
    (out out' : Option W) :
    (rt.executeAtVoid e i a out).status = (rt.executeAtVoid e i a out').status := by
  unfold executeAtVoid
  cases hptr : e.entryFuncPtrs[i]? with
  | none => rfl
  | some ptr => exact callVoid_status (he.linked hptr) a out out'

/-- The engine model's `collect`, as a function of the statuses. -/
theorem collect_status (n : Nat) (status : Nat → Except Status Unit) :
    (BatchExecEngine.collect ((List.range n).map fun i => ⟨status i, []⟩)).status
      = allStatus (((List.range n).map status).foldl addStatus "") := by
  simp only [allStatus_foldl, BatchExecEngine.collect, messages, List.filterMap_map]
  rfl

/-- **The status of `ExecuteAll` is put together from those of the entries alone.** -/
theorem executeAll_status (e : BatchExecEngine) (a : A) (results : List RetType)
    (result : RetType) : (rt.executeAll e a results).status
      = (BatchExecEngine.collect ((List.range e.entryFuncPtrs.length).map fun i =>
          ⟨(rt.executeAt e i a result).status, []⟩)).status := by
  rw [collect_status e.entryFuncPtrs.length fun i => (rt.executeAt e i a result).status]
  have herrors := loop_errors (rt.stepRetType e a)
    (fun i => (rt.executeAt e i a result).status)
    (fun i s => executeAt_status e i a _ result) (List.range e.entryFuncPtrs.length) ""
    (resize results e.entryFuncPtrs.length)
  simp only [executeAll, herrors]

theorem executeAllVoid_status {e : BatchExecEngine} (he : rt.CompiledAll e) (a : A)
    (out out' : Option W) : (rt.executeAllVoid e a out).status
      = (BatchExecEngine.collect ((List.range e.entryFuncPtrs.length).map fun i =>
          ⟨(rt.executeAtVoid e i a out').status, []⟩)).status := by
  rw [collect_status e.entryFuncPtrs.length fun i => (rt.executeAtVoid e i a out').status]
  have herrors := loop_errors (rt.stepVoid e a)
    (fun i => (rt.executeAtVoid e i a out').status)
    (fun i s => executeAtVoid_status he i a s out') (List.range e.entryFuncPtrs.length) "" out
  simp only [executeAllVoid, herrors]

/-- `ExecuteAll` is fine exactly when every entry is. -/
theorem collect_status_ok_iff (n : Nat) (status : Nat → Except Status Unit) :
    (BatchExecEngine.collect ((List.range n).map fun i => ⟨status i, []⟩)).status = .ok () ↔
      ∀ i < n, status i = .ok () := by
  have hmsg := messages_eq_nil ((List.range n).map status)
  simp only [List.forall_mem_map, List.mem_range] at hmsg
  rw [collect_status, allStatus_foldl, ← hmsg]
  split
  · rename_i hnil
    exact iff_of_true rfl hnil
  · rename_i hne
    exact iff_of_false (by simp) hne

end Runtime

/-! ## 5. Sequences of calls -/

/-- A call of an overload with a context, on any engine. -/
inductive ExecCall (A W : Type)
  | execute (e : ExecEngine) (a : A) (result : RetType)
  | executeVoid (e : ExecEngine) (a : A) (out : Option W)
  | executeAt (e : BatchExecEngine) (index : Nat) (a : A) (result : RetType)
  | executeAtVoid (e : BatchExecEngine) (index : Nat) (a : A) (out : Option W)
  | executeAll (e : BatchExecEngine) (a : A) (results : List RetType)
  | executeAllVoid (e : BatchExecEngine) (a : A) (out : Option W)

/-- What a call answers. -/
inductive ExecAnswer (W : Type)
  | retType (answer : Answer RetType)
  | void (answer : Answer (Option W))
  | all (answer : Answer (List RetType))

namespace ExecCall

variable {A W : Type} (rt : Runtime A W)

/-- The call of the overload that builds a fresh context. -/
def onFresh : ExecCall A W → ExecAnswer W
  | .execute e a result => .retType (rt.execute e a result)
  | .executeVoid e a out => .void (rt.executeVoid e a out)
  | .executeAt e index a result => .retType (rt.executeAt e index a result)
  | .executeAtVoid e index a out => .void (rt.executeAtVoid e index a out)
  | .executeAll e a results => .all (rt.executeAll e a results)
  | .executeAllVoid e a out => .void (rt.executeAllVoid e a out)

/-- The call itself, on the context of the process. -/
def onContext (p : Process) : ExecCall A W → ExecAnswer W × Process
  | .execute e a result => (rt.executeCtx e a result p).map .retType id
  | .executeVoid e a out => (rt.executeCtxVoid e a out p).map .void id
  | .executeAt e index a result => (rt.executeAtCtx e index a result p).map .retType id
  | .executeAtVoid e index a out => (rt.executeAtCtxVoid e index a out p).map .void id
  | .executeAll e a results => (rt.executeAllCtx e a results p).map .all id
  | .executeAllVoid e a out => (rt.executeAllCtxVoid e a out p).map .void id

/-- The engine of the call is compiled. -/
def Compiled : ExecCall A W → Prop
  | .execute e _ _ | .executeVoid e _ _ => rt.Compiled e
  | .executeAt e _ _ _ | .executeAtVoid e _ _ _ | .executeAll e _ _ | .executeAllVoid e _ _ =>
    rt.CompiledAll e

/-- The call invokes a compiled function. -/
def Invokes : ExecCall A W → Prop
  | .execute e _ _ => (e.executeRetType none).invoked ≠ []
  | .executeVoid e _ _ => (e.executeVoid none).invoked ≠ []
  | .executeAt e index _ _ => (e.executeAtRetType index none).invoked ≠ []
  | .executeAtVoid e index _ _ => (e.executeAtVoid index none).invoked ≠ []
  | .executeAll e _ _ => (e.executeAllRetType fun _ => none).invoked ≠ []
  | .executeAllVoid e _ _ => (e.executeAllVoid fun _ => none).invoked ≠ []

variable {rt}

/-- **One call on a calm context**: it answers what a fresh context would have made it answer,
and leaves the context calm, and clean if it invoked a function. -/
theorem onContext_spec {c : ExecCall A W} (hc : c.Compiled rt) {p : Process} (h : p.Calm) :
    (c.onContext rt p).1 = c.onFresh rt ∧ (c.onContext rt p).2.Calm ∧
      (c.Invokes → (c.onContext rt p).2.Clean) := by
  cases c with
  | execute e a result =>
    have hspec := Runtime.callCtxRetType_spec hc a result h
    refine ⟨congrArg ExecAnswer.retType hspec.1, hspec.2.1, fun hi => hspec.2.2 ?_⟩
    by_contra hd
    simp [Invokes, ExecEngine.executeRetType, callRetType, hd] at hi
  | executeVoid e a out =>
    have hspec := Runtime.callCtxVoid_spec hc a out h
    exact ⟨congrArg ExecAnswer.void hspec.1, hspec.2.1, fun _ => hspec.2.2⟩
  | executeAt e index a result =>
    have hspec := Runtime.executeAtCtx_spec hc index a result h
    refine ⟨congrArg ExecAnswer.retType hspec.1, hspec.2, fun hi => ?_⟩
    rcases Runtime.executeAtCtx_clean hc index a result h with hclean | ⟨-, hno⟩
    · exact hclean
    · exact absurd hno hi
  | executeAtVoid e index a out =>
    have hspec := Runtime.executeAtCtxVoid_spec hc index a out h
    refine ⟨congrArg ExecAnswer.void hspec.1, hspec.2, fun hi => ?_⟩
    rcases Runtime.executeAtCtxVoid_clean hc index a out h with hclean | ⟨-, hno⟩
    · exact hclean
    · exact absurd hno hi
  | executeAll e a results =>
    have hspec := Runtime.executeAllCtx_spec hc a results h
    refine ⟨congrArg ExecAnswer.all hspec.1, hspec.2.1, fun hi => hspec.2.2 ?_⟩
    by_contra hno
    push Not at hno
    exact hi (by
      simp only [BatchExecEngine.executeAllRetType, BatchExecEngine.executeAll,
        BatchExecEngine.collect, List.flatMap_map, List.flatMap_eq_nil_iff]
      exact hno)
  | executeAllVoid e a out =>
    have hspec := Runtime.executeAllCtxVoid_spec hc a out h
    refine ⟨congrArg ExecAnswer.void hspec.1, hspec.2.1, fun hi => hspec.2.2 ?_⟩
    by_contra hno
    push Not at hno
    exact hi (by
      simp only [BatchExecEngine.executeAllVoid, BatchExecEngine.executeAll,
        BatchExecEngine.collect, List.flatMap_map, List.flatMap_eq_nil_iff]
      exact hno)

end ExecCall

/-- The process after the calls. -/
def afterExecCalls {A W : Type} (rt : Runtime A W) (p : Process) (calls : List (ExecCall A W)) :
    Process :=
  Machine.run (fun p c => (ExecCall.onContext rt p c).2) p calls

/-- **Reusing a context is transparent.**  Along every sequence of calls on one context, each call
answers what the overload with a fresh context answers, and a call that invoked a function leaves
neither errors nor finalizers.  `ExecuteAll` is fine if and only if every entry alone is, and its
message is made of those of the entries alone. -/
theorem context_reuse {A W : Type} {rt : Runtime A W} {p : Process} (herrors : p.ctx.errors = [])
    (harena : ∃ minChunkSize calls, World.Fair minChunkSize calls ∧
      p.ctx.arena = World.afterCalls minChunkSize calls)
    {calls : List (ExecCall A W)} (hcalls : ∀ c ∈ calls, c.Compiled rt) :
    (∀ pre c, pre ++ [c] <+: calls →
      (c.onContext rt (afterExecCalls rt p pre)).1 = c.onFresh rt ∧
        (c.Invokes → (afterExecCalls rt p (pre ++ [c])).Clean)) ∧
    ∀ e, rt.CompiledAll e → ∀ a,
      (∀ results result, ((rt.executeAll e a results).status = .ok () ↔
          ∀ i < e.entryFuncPtrs.length, (rt.executeAt e i a result).status = .ok ()) ∧
        (rt.executeAll e a results).status = (BatchExecEngine.collect
          ((List.range e.entryFuncPtrs.length).map fun i =>
            ⟨(rt.executeAt e i a result).status, []⟩)).status) ∧
      ∀ out, ((rt.executeAllVoid e a out).status = .ok () ↔
          ∀ i < e.entryFuncPtrs.length, (rt.executeAtVoid e i a out).status = .ok ()) ∧
        (rt.executeAllVoid e a out).status = (BatchExecEngine.collect
          ((List.range e.entryFuncPtrs.length).map fun i =>
            ⟨(rt.executeAtVoid e i a out).status, []⟩)).status := by
  refine ⟨?_, ?_⟩
  · have hcalm : p.Calm := by
      rcases harena with ⟨minChunkSize, arenaCalls, hfair, heq⟩
      exact ⟨herrors, heq ▸ World.kept_afterCalls hfair _ (List.prefix_refl _)⟩
    have hmem : ∀ {pre c}, pre ++ [c] <+: calls → c.Compiled rt := fun hpre =>
      hcalls _ (hpre.subset (by simp))
    have hrun : ∀ pre, pre <+: calls → (afterExecCalls rt p pre).Calm :=
      Machine.run_inv_of_ok hcalm
        (fun _ _ hp (hc : ExecCall.Compiled rt _) => (ExecCall.onContext_spec hc hp).2.1)
        fun _ _ hpre => hmem hpre
    intro pre c hpre
    have hspec := ExecCall.onContext_spec (hmem hpre)
      (hrun pre ((List.prefix_append pre [c]).trans hpre))
    refine ⟨hspec.1, fun hi => ?_⟩
    rw [afterExecCalls, Machine.run_append_singleton]
    exact hspec.2.2 hi
  · intro e he a
    refine ⟨fun results result => ⟨?_, Runtime.executeAll_status e a results result⟩,
      fun out => ⟨?_, Runtime.executeAllVoid_status he a out out⟩⟩
    · rw [Runtime.executeAll_status e a results result]
      exact Runtime.collect_status_ok_iff _ _
    · rw [Runtime.executeAllVoid_status he a out out]
      exact Runtime.collect_status_ok_iff _ _

/-- A `Create` of an object with a destructor; `malloc` has one chunk, at the address `4096`. -/
def createObject (w : World) : Use :=
  .create ⟨0, 8, 8, false⟩
    (if w.arena.chunks = [] ∧ 4096 + w.arena.chunkSize 8 8 < 2 ^ 64 then some 4096 else none)
    [] .completes

theorem createObject_fair (w : World) : w.UseFair (createObject w) := by
  refine ⟨⟨⟨3, by decide⟩, fun _ => ?_, fun _ _ => ⟨by decide, fun p hp => ?_⟩⟩,
    fun _ _ _ => trivial⟩
  · have hpadding : Arena.padding w.arena.availBuf 8 ≤ 7 := Nat.and_le_right
    exact (by decide : 8 ≤ sizeMax - 7).trans (Nat.sub_le_sub_left hpadding sizeMax)
  · split at hp
    · next h =>
      obtain rfl := Option.some.inj hp
      refine ⟨by decide, h.2, fun c hc => ?_⟩
      rw [h.1] at hc
      cases hc
    · cases hp

/-- Code that creates an object and returns its argument as an `i32`; it records an error for
zero. -/
def objectKernel : Kernel Nat Unit where
  run a out p := ⟨{ bits := a }, out,
    { p with ctx := {
        arena := p.ctx.arena.use (createObject p.ctx.arena)
        errors := p.ctx.errors ++ if a = 0 then ["zero"] else [] } }⟩
  type := .kI32
  uses _ _ p := ⟨[createObject p.ctx.arena], ⟨createObject_fair p.ctx.arena, trivial⟩, rfl⟩
  determined _ _ _ _ _ _ := ⟨rfl, rfl⟩
  errors_determined a _ _ p p' h h' := by simp [h, h']

def objectRuntime : Runtime Nat Unit :=
  { kernel := fun _ => objectKernel, minChunkSize := 4096, freshHeap := fun _ => 0
    clearedHeap := fun _ _ => 255 }

def objectEngine : ExecEngine :=
  { entryFuncPtr := some ⟨0, 4096⟩, retType := ValueType.kI32.toByte }

/-- The error of the first call is not reported by the second, and its object is destroyed. -/
theorem context_reuse_object :
    ((ExecCall.execute objectEngine 7 (.scalar .kU8 0)).onContext objectRuntime
      (afterExecCalls objectRuntime objectRuntime.fresh
        [.execute objectEngine 0 (.scalar .kU8 0)])).1
      = .retType ⟨.ok (), .scalar .kI32 7⟩ ∧
    (afterExecCalls objectRuntime objectRuntime.fresh
      [.execute objectEngine 0 (.scalar .kU8 0)]).Clean ∧
    Event.destroyed ⟨4096, 0⟩ ∈ (afterExecCalls objectRuntime objectRuntime.fresh
      [.execute objectEngine 0 (.scalar .kU8 0)]).ctx.arena.log := by
  have hcalls : ∀ c ∈ [ExecCall.execute objectEngine 0 (.scalar .kU8 0),
      .execute objectEngine 7 (.scalar .kU8 0)], c.Compiled objectRuntime := by
    simp [ExecCall.Compiled, Runtime.Compiled, Runtime.Linked, objectEngine, objectRuntime,
      objectKernel]
  have h := (context_reuse (p := objectRuntime.fresh) rfl ⟨4096, [], World.fair_nil 4096, rfl⟩
    hcalls).1
  have hinvokes : (ExecCall.execute (W := Unit) objectEngine 0 (.scalar .kU8 0)).Invokes :=
    (by decide : (objectEngine.executeRetType none).invoked ≠ [])
  refine ⟨(h _ _ (List.prefix_refl _)).1, (h [] _ (by simp)).2 hinvokes, ?_⟩
  decide +kernel

end JitFusion
