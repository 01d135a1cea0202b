/-
# Registration: what one call leaves in the registry

Two questions about a single call of a `Register*` function, on any registry.

* What does a REFUSED call change?  The five registrations that write one entry check before
  they write, so nothing.  The two `*WithExecCtx` registrations write twice, and when the
  second write is refused the first one stands: `Torn` names that state and call, and a
  refused call changes a lookup exactly there (`RegisterCall.refused_unchanged_iff`).
* What does an ACCEPTED override put in place?  The structure is replaced, but the return type
  is part of the map's key, which `operator[]` leaves as it is.  So the new function is in
  place as a whole exactly when the key was free, or held the same return type already
  (`RegisterCall.override_installs_iff`); otherwise validation and code generation go on with
  the return type of the function that was replaced.
-/
import JitFusion.Dispatch
import JitFusion.CodeGen

namespace JitFusion
namespace FunctionRegistry

/-! ## 1. One write -/

/-- A refused write leaves the registry as it is. -/
theorem registerFunc_refused {reg : FunctionRegistry} {sign : FunctionSignature}
    {fs : FunctionStructure} {ov : Bool} {st : Status}
    (h : (reg.registerFunc sign fs ov).1 = .error st) : (reg.registerFunc sign fs ov).2 = reg := by
  rcases registerFunc_cases reg sign fs ov with ⟨-, hr⟩ | ⟨-, st', hr⟩
  · rw [hr] at h
    cases h
  · rw [hr]

/-- An accepted write is the assignment, and its checks passed. -/
theorem registerFunc_accepted {reg : FunctionRegistry} {sign : FunctionSignature}
    {fs : FunctionStructure} {ov : Bool} (h : (reg.registerFunc sign fs ov).1 = .ok ()) :
    reg.Accepts sign fs ov ∧ (reg.registerFunc sign fs ov).2 = reg.assign sign fs := by
  rcases registerFunc_cases reg sign fs ov with ⟨ha, hr⟩ | ⟨-, st', hr⟩
  · exact ⟨ha, by rw [hr]⟩
  · rw [hr] at h
    cases h

/-- The return type an assignment leaves under a key: the one that was there, if any. -/
theorem find_assign (reg : FunctionRegistry) (sign : FunctionSignature)
    (fs : FunctionStructure) : (reg.assign sign fs).find sign.key
      = some (((reg.find sign.key).map Prod.fst).getD sign.retType, fs) :=
  AList.lookup_insert _

/-! ## 2. Refused calls -/

/-- **The state and call of a torn registration**: the signature as the user sees it is free,
so the first write goes through, and the legacy one is taken, so the second does not. -/
def Torn (reg : FunctionRegistry) (sign : FunctionSignature) (cFuncPtr : Nat)
    (allowOverride : Bool) : Prop :=
  cFuncPtr ≠ 0 ∧ allowOverride = false ∧ reg.find sign.key = none ∧
    (reg.find (legacyKey sign.key)).isSome

/-- Only the registrations that write a pair can be torn. -/
def Tears (reg : FunctionRegistry) : RegisterCall → Prop
  | .readOnlyCFuncWithExecCtx sign p ov => reg.Torn sign p ov
  | .commutativeCFuncWithExecCtx sign p ov => reg.Torn sign p ov
  | _ => False

/-- A call that fails leaves every lookup as it was. -/
def Unchanged (reg : FunctionRegistry) (result : Except Status Unit × FunctionRegistry) : Prop :=
  ∀ st, result.1 = .error st → ∀ sign, result.2.getFuncBySign sign = reg.getFuncBySign sign

theorem unchanged_of_eq {reg : FunctionRegistry} {result : Except Status Unit × FunctionRegistry}
    (h : ∀ st, result.1 = .error st → result.2 = reg) : reg.Unchanged result :=
  fun st hst sign => by rw [h st hst]

theorem registerFunc_unchanged (reg : FunctionRegistry) (sign : FunctionSignature)
    (fs : FunctionStructure) (ov : Bool) : reg.Unchanged (reg.registerFunc sign fs ov) :=
  unchanged_of_eq fun _ => registerFunc_refused

theorem registerLLVMIntrinicFunc_unchanged (reg : FunctionRegistry) (sign : FunctionSignature)
    (cb : Option CodeGenFunc) (ov : Bool) :
    reg.Unchanged (reg.registerLLVMIntrinicFunc sign cb ov) := by
  unfold registerLLVMIntrinicFunc
  split
  · exact unchanged_of_eq fun _ _ => rfl
  · exact registerFunc_unchanged reg sign _ ov

theorem registerCFunc_unchanged (setter : FuncAttrSetter) (reg : FunctionRegistry)
    (sign : FunctionSignature) (p : Nat) (ov : Bool) :
    reg.Unchanged (registerCFunc setter reg sign p ov) := by
  unfold registerCFunc
  split
  · exact unchanged_of_eq fun _ _ => rfl
  · exact registerFunc_unchanged reg sign _ ov

/-- **A registration of a pair is atomic except when it is torn.**  The second write alone can
leave something behind, and it is refused only for a legacy signature that is taken. -/
theorem registerCFuncWithExecCtx_unchanged_iff (setter : FuncAttrSetter) (reg : FunctionRegistry)
    (sign : FunctionSignature) (p : Nat) (ov : Bool) :
    reg.Unchanged (registerCFuncWithExecCtx setter reg sign p ov) ↔ ¬ reg.Torn sign p ov := by
  unfold registerCFuncWithExecCtx
  by_cases hp : p = 0
  · simp only [if_pos hp]
    exact iff_of_true (unchanged_of_eq fun _ _ => rfl) fun ht => ht.1 hp
  rw [if_neg hp]
  generalize hfs : ({ funcType := .kCFunc, cFuncPtr := p, funcAttrSetter := setter,
                      needsExecCtx := true } : FunctionStructure) = fs
  generalize hfs' : ({ funcType := .kCFunc, cFuncPtr := p, funcAttrSetter := setter } :
    FunctionStructure) = fs'
  rcases registerFunc_cases reg sign fs ov with ⟨ha, hr⟩ | ⟨ha, st, hr⟩ <;> rw [hr] <;> dsimp only
  · have hfree : ov = true ∨ reg.find sign.key = none := ha.2.2
    rcases registerFunc_cases (reg.assign sign fs) (legacySign sign) fs' ov
      with ⟨hb, hr'⟩ | ⟨hb, st', hr'⟩
    · -- both writes go through
      rw [hr']
      have hlegacy := hb.2.2
      rw [find_assign_legacySign] at hlegacy
      refine iff_of_true (fun st hst => by cases hst) ?_
      rintro ⟨-, hov, -, htaken⟩
      rcases hlegacy with h | h
      · simp [hov] at h
      · simp [h] at htaken
    · -- the second write is refused, and the first one shows
      rw [hr']
      have hov : ov = false := by
        by_contra hne
        refine hb ⟨by simp [← hfs'], by simp [← hfs', hp], .inl (by simpa using hne)⟩
      have hkey : reg.find sign.key = none := hfree.resolve_left (by simp [hov])
      have htaken : (reg.find (legacyKey sign.key)).isSome := by
        rw [Option.isSome_iff_ne_none]
        intro hnone
        refine hb ⟨by simp [← hfs'], by simp [← hfs', hp], .inr ?_⟩
        rw [find_assign_legacySign, hnone]
      refine iff_of_false (fun h => ?_) fun h => h ⟨hp, hov, hkey, htaken⟩
      have hlook := h st' rfl sign
      simp only [getFuncBySign, find_assign, hkey] at hlook
      cases hlook
  · -- the first write is refused
    have hkey : reg.find sign.key ≠ none := by
      intro hnone
      exact ha ⟨by simp [← hfs], by simp [← hfs, hp], .inr hnone⟩
    exact iff_of_true (unchanged_of_eq fun _ _ => rfl) fun ht => hkey ht.2.2.1

/-- **A refused registration leaves every lookup as it was, unless it is torn**, on every
registry and for every one of the public functions. -/
theorem RegisterCall.refused_unchanged_iff (reg : FunctionRegistry) (c : RegisterCall) :
    reg.Unchanged (c.apply reg) ↔ ¬ reg.Tears c := by
  cases c with
  | func sign fs ov => exact iff_of_true (registerFunc_unchanged reg sign fs ov) id
  | llvmIntrinicFunc sign cb ov =>
    exact iff_of_true (registerLLVMIntrinicFunc_unchanged reg sign cb ov) id
  | readOnlyCFunc sign p ov => exact iff_of_true (registerCFunc_unchanged _ reg sign p ov) id
  | readOnlyCFuncWithExecCtx sign p ov =>
    exact registerCFuncWithExecCtx_unchanged_iff .readOnly reg sign p ov
  | storeCFunc sign p i ov => exact iff_of_true (registerCFunc_unchanged _ reg sign p ov) id
  | commutativeCFunc sign p ov => exact iff_of_true (registerCFunc_unchanged _ reg sign p ov) id
  | commutativeCFuncWithExecCtx sign p ov =>
    exact registerCFuncWithExecCtx_unchanged_iff .commutant reg sign p ov

/-- With `f(i32, ptr)` registered, registering `f(i32)` with an execution context is refused,
and yet `f(i32)` resolves afterwards. -/
theorem refused_changes_lookup :
    ¬ (afterCalls [.readOnlyCFunc ⟨"f", [.kI32, .kPtr], .kI32⟩ 1 false]).Unchanged
      (RegisterCall.apply (afterCalls [.readOnlyCFunc ⟨"f", [.kI32, .kPtr], .kI32⟩ 1 false])
        (.readOnlyCFuncWithExecCtx ⟨"f", [.kI32], .kI32⟩ 2 false)) := by
  intro h
  have hlook := h _ rfl ⟨"f", [.kI32], .kUnknown⟩
  have hbefore : (afterCalls [.readOnlyCFunc ⟨"f", [.kI32, .kPtr], .kI32⟩ 1 false]).find
      ("f", [.kI32]) = none := by decide
  simp only [getFuncBySign, FunctionSignature.key, hbefore] at hlook
  cases hlook

/-! ## 3. Overrides -/

/-- The signature a call registers. -/
def RegisterCall.sign : RegisterCall → FunctionSignature
  | func sign _ _ | llvmIntrinicFunc sign _ _ | readOnlyCFunc sign _ _
  | readOnlyCFuncWithExecCtx sign _ _ | storeCFunc sign _ _ _ | commutativeCFunc sign _ _
  | commutativeCFuncWithExecCtx sign _ _ => sign

def RegisterCall.allowOverride : RegisterCall → Bool
  | func _ _ ov | llvmIntrinicFunc _ _ ov | readOnlyCFunc _ _ ov
  | readOnlyCFuncWithExecCtx _ _ ov | storeCFunc _ _ _ ov | commutativeCFunc _ _ ov
  | commutativeCFuncWithExecCtx _ _ ov => ov

/-- The implementation a call registers under its signature. -/
def RegisterCall.implementation : RegisterCall → FunctionStructure
  | func _ fs _ => fs
  | llvmIntrinicFunc _ cb _ => { funcType := .kLLVMIntrinicFunc, codegenFunc := cb }
  | readOnlyCFunc _ p _ => { funcType := .kCFunc, cFuncPtr := p, funcAttrSetter := .readOnly }
  | readOnlyCFuncWithExecCtx _ p _ =>
    { funcType := .kCFunc, cFuncPtr := p, funcAttrSetter := .readOnly, needsExecCtx := true }
  | storeCFunc _ p i _ => { funcType := .kCFunc, cFuncPtr := p, funcAttrSetter := .store i }
  | commutativeCFunc _ p _ =>
    { funcType := .kCFunc, cFuncPtr := p, funcAttrSetter := .commutant }
  | commutativeCFuncWithExecCtx _ p _ =>
    { funcType := .kCFunc, cFuncPtr := p, funcAttrSetter := .commutant, needsExecCtx := true }

/-- **The function is in place as a whole**: lookup answers its return type and its structure,
the validator gives a call of it its return type, and the code generator, run on what the
validator found, declares the callee of a C function with that return type. -/
structure Installed (reg : FunctionRegistry) (sign : FunctionSignature)
    (fs : FunctionStructure) : Prop where
  resolves : ∀ r, reg.getFuncBySign { sign with retType := r } = .ok (sign, fs)
  validates : ∀ loc args, args.map ExecNode.getReturnType = sign.paramTypes →
    Validator.functionType reg loc sign.funcName args = .ok sign.retType
  generates : fs.funcType = .kCFunc → ∀ (ctx : CodeGen.Context) loc args values,
    ctx.functionRegistry = reg → args.map ExecNode.getReturnType = sign.paramTypes →
    (do let ret ← CodeGen.returnNotOk (Validator.functionType reg loc sign.funcName args)
        CodeGen.call ctx ret (Validator.callSignature sign.funcName args) values)
      = (do let type ← CodeGen.returnNotOk (CodeGen.valueTypeToLLVMType sign.retType)
            let value ← CodeGen.emit values.get
              (.op (.call (callSymbolName sign fs) type)
                (CodeGen.callArgs values.length fs.needsExecCtx))
            return if sign.retType = .kVoid then none else some value)

/-- The three readings all go through one entry of the table. -/
theorem installed_iff {reg : FunctionRegistry} {sign : FunctionSignature}
    {fs : FunctionStructure} :
    reg.Installed sign fs ↔ reg.find sign.key = some (sign.retType, fs) := by
  constructor
  · intro h
    rcases getFuncBySign_eq_ok.mp (h.resolves sign.retType) with ⟨r, hfind, hsign⟩
    have hr : sign.retType = r := congrArg FunctionSignature.retType hsign
    rw [hr]
    exact hfind
  · intro h
    have hget : ∀ r, reg.getFuncBySign { sign with retType := r } = .ok (sign, fs) := fun r =>
      getFuncBySign_eq_ok.mpr ⟨sign.retType, h, rfl⟩
    have hcall : ∀ args : List ExecNode, args.map ExecNode.getReturnType = sign.paramTypes →
        reg.getFuncBySign (Validator.callSignature sign.funcName args) = .ok (sign, fs) := by
      intro args hargs
      rw [Validator.callSignature, hargs]
      exact hget .kUnknown
    have htype : ∀ loc args, args.map ExecNode.getReturnType = sign.paramTypes →
        Validator.functionType reg loc sign.funcName args = .ok sign.retType := by
      intro loc args hargs
      rw [Validator.functionType, hcall args hargs]
    refine ⟨hget, htype, ?_⟩
    intro hc ctx loc args values hreg hargs
    rw [htype loc args hargs]
    simp only [CodeGen.call, hreg, hcall args hargs, CodeGen.returnNotOk, hc, pure_bind]

/-- What an accepted write of `fs` leaves under the signature. -/
def Holds (reg : FunctionRegistry) (sign : FunctionSignature) (fs : FunctionStructure)
    (result : Except Status Unit × FunctionRegistry) : Prop :=
  result.1 = .ok () → result.2.find sign.key
    = some (((reg.find sign.key).map Prod.fst).getD sign.retType, fs)

theorem registerFunc_holds (reg : FunctionRegistry) (sign : FunctionSignature)
    (fs : FunctionStructure) (ov : Bool) : reg.Holds sign fs (reg.registerFunc sign fs ov) := by
  intro hok
  rw [(registerFunc_accepted hok).2, find_assign]

theorem registerCFunc_holds (setter : FuncAttrSetter) (reg : FunctionRegistry)
    (sign : FunctionSignature) (p : Nat) (ov : Bool) :
    reg.Holds sign { funcType := .kCFunc, cFuncPtr := p, funcAttrSetter := setter }
      (registerCFunc setter reg sign p ov) := by
  unfold registerCFunc
  split
  · intro hok
    cases hok
  · exact registerFunc_holds reg sign _ ov

theorem registerCFuncWithExecCtx_holds (setter : FuncAttrSetter) (reg : FunctionRegistry)
    (sign : FunctionSignature) (p : Nat) (ov : Bool) :
    reg.Holds sign
      { funcType := .kCFunc, cFuncPtr := p, funcAttrSetter := setter, needsExecCtx := true }
      (registerCFuncWithExecCtx setter reg sign p ov) := by
  unfold registerCFuncWithExecCtx
  split
  · intro hok
    cases hok
  generalize ({ funcType := .kCFunc, cFuncPtr := p, funcAttrSetter := setter,
                needsExecCtx := true } : FunctionStructure) = fs
  rcases registerFunc_cases reg sign fs ov with ⟨-, hr⟩ | ⟨-, st, hr⟩ <;> rw [hr]
  · -- the legacy entry has another key
    intro hok
    have hne : sign.key ≠ (legacySign sign).key := fun he => legacyKey_ne sign.key he.symm
    dsimp only at hok ⊢
    rw [(registerFunc_accepted hok).2, find_assign_ne _ _ hne, find_assign]
  · intro hok
    cases hok

theorem RegisterCall.apply_holds (reg : FunctionRegistry) (c : RegisterCall) :
    reg.Holds c.sign c.implementation (c.apply reg) := by
  cases c with
  | func sign fs ov => exact registerFunc_holds reg sign fs ov
  | llvmIntrinicFunc sign cb ov =>
    simp only [RegisterCall.apply, registerLLVMIntrinicFunc]
    split
    · intro hok
      cases hok
    · exact registerFunc_holds reg sign _ ov
  | readOnlyCFunc sign p ov => exact registerCFunc_holds .readOnly reg sign p ov
  | readOnlyCFuncWithExecCtx sign p ov =>
    exact registerCFuncWithExecCtx_holds .readOnly reg sign p ov
  | storeCFunc sign p i ov => exact registerCFunc_holds (.store i) reg sign p ov
  | commutativeCFunc sign p ov => exact registerCFunc_holds .commutant reg sign p ov
  | commutativeCFuncWithExecCtx sign p ov =>
    exact registerCFuncWithExecCtx_holds .commutant reg sign p ov

/-- **An accepted registration installs the whole function if and only if the key was free or held
the same return type**, whatever function of the interface registers it. -/
theorem RegisterCall.override_installs_iff {reg : FunctionRegistry} {c : RegisterCall}
    (hok : (c.apply reg).1 = .ok ()) :
    (c.apply reg).2.Installed c.sign c.implementation ↔
      ∀ v, reg.find c.sign.key = some v → v.1 = c.sign.retType := by
  rw [installed_iff, RegisterCall.apply_holds reg c hok]
  cases hfind : reg.find c.sign.key with
  | none => simp
  | some v => simp

/-- Overriding `f(i32) -> i32` by a function with the same return type, at another address. -/
theorem RegisterCall.override_installs_same :
    (RegisterCall.apply (afterCalls [.readOnlyCFunc ⟨"f", [.kI32], .kI32⟩ 1 false])
      (.readOnlyCFunc ⟨"f", [.kI32], .kI32⟩ 2 true)).2.Installed ⟨"f", [.kI32], .kI32⟩
        { funcType := .kCFunc, cFuncPtr := 2, funcAttrSetter := .readOnly } :=
  (RegisterCall.override_installs_iff (c := .readOnlyCFunc ⟨"f", [.kI32], .kI32⟩ 2 true)
    rfl).mpr (by decide)

/-- Overriding `f(i32) -> i32` by a function that returns an `f64` is accepted, and lookup goes
on answering `i32`. -/
theorem override_keeps_return_type :
    ¬ ∀ (calls : List RegisterCall) (c : RegisterCall), c.allowOverride = true →
      (c.apply (afterCalls calls)).1 = .ok () →
      (c.apply (afterCalls calls)).2.Installed c.sign c.implementation := by
  intro h
  have hnew := h [.readOnlyCFunc ⟨"f", [.kI32], .kI32⟩ 1 false]
    (.readOnlyCFunc ⟨"f", [.kI32], .kF64⟩ 2 true) rfl rfl
  have hfind := installed_iff.mp hnew
  revert hfind
  decide

end FunctionRegistry
end JitFusion
