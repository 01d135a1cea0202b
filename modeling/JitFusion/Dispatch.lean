/-
# Dispatch: the function a signature resolves to is the function that gets called

Resolution and linking read different entries of the registry.  `getFuncBySign` answers for
the signature the user wrote; the call the code generator emits names a symbol, and
`mappingToJIT` binds mangled symbols.  For a function registered `WithExecCtx` the two entries are
different: the symbol is the one of the LEGACY signature, with the trailing `kPtr`.  Dispatch
is consistent (`DispatchConsistent`) when the two always lead to the same address.

* A symbol is bound to an address at which a plain function is linked under it.  Two signatures may
  have one symbol, if the name of one begins with the mark that the mangler drops.
* So dispatch is consistent exactly when every symbol has ONE address, and every exec-context entry
  has that of its legacy symbol (`Paired`, `dispatchConsistent_iff_paired`).
* A registration can break that: the second of its two writes can fail after the first, an
  override can replace either half, and a function can take the symbol of another one.
  `KeepsPairs` is the condition on the state and the call under which it does not, and it is exact,
  one step at a time (`RegisterCall.paired_apply_iff`) and over whole runs
  (`dispatchConsistent_run_iff`).
-/
import JitFusion.Lib.Run
import JitFusion.SymbolNames

namespace JitFusion

/-! ## 1. Plain and exec-context entries -/

namespace FunctionStructure

/-- A structure that links a C function at the address under the entry's own symbol. -/
def PlainAt (fs : FunctionStructure) (p : Nat) : Prop :=
  fs.funcType = .kCFunc ∧ fs.needsExecCtx = false ∧ fs.cFuncPtr = p

/-- A C function whose calls go through the legacy symbol. -/
def ViaLegacy (fs : FunctionStructure) : Prop :=
  fs.funcType = .kCFunc ∧ fs.needsExecCtx = true

end FunctionStructure

namespace FunctionRegistry

open FunctionSignature

variable (mangle : String → String)

/-! ## 2. Symbols -/

/-- The mangled symbol of a signature. -/
def symbolOf (key : SigKey) : String :=
  mangle (FunctionSignature.toString ⟨key.1, key.2, .kUnknown⟩)

/-- The key of the legacy signature. -/
def legacyKey (key : SigKey) : SigKey := (key.1, key.2 ++ [.kPtr])

/-- A plain C function at the address is linked under the symbol, and its key is none of `keys`. -/
def LinkedBut (reg : FunctionRegistry) (keys : List SigKey) (symbol : String) (p : Nat) : Prop :=
  ∃ key r fs, key ∉ keys ∧ reg.find key = some (r, fs) ∧ fs.PlainAt p ∧
    symbolOf mangle key = symbol

/-- The calls of an exec-context function at the address go to the symbol, and its key is none of
`keys`. -/
def CalledBut (reg : FunctionRegistry) (keys : List SigKey) (symbol : String) (p : Nat) : Prop :=
  ∃ key r fs, key ∉ keys ∧ reg.find key = some (r, fs) ∧ fs.ViaLegacy ∧ fs.cFuncPtr = p ∧
    symbolOf mangle (legacyKey key) = symbol

/-- Every symbol has one address, which is that of the exec-context functions that are called
through it. -/
structure Paired (reg : FunctionRegistry) : Prop where
  unique : ∀ symbol p q, reg.LinkedBut mangle [] symbol p → reg.LinkedBut mangle [] symbol q →
    p = q
  linked : ∀ symbol p, reg.CalledBut mangle [] symbol p → reg.LinkedBut mangle [] symbol p

/-- **Dispatch is consistent**: for every signature that resolves to a C function, the symbol
of the emitted call is bound, and bound to the address resolution answered. -/
def DispatchConsistent (reg : FunctionRegistry) : Prop :=
  ∀ sign sign' fs, reg.getFuncBySign sign = .ok (sign', fs) → fs.funcType = .kCFunc →
    (reg.mappingToJIT mangle).lookup (mangle (callSymbolName sign' fs)) = some fs.cFuncPtr

variable {mangle} {reg : FunctionRegistry} {keys : List SigKey} {symbol : String} {p q : Nat}

theorem plainAt_iff_linkName {key : SigKey} {fs : FunctionStructure} :
    (linkName key fs).map mangle = some symbol ∧ fs.cFuncPtr = p ↔
      fs.PlainAt p ∧ symbolOf mangle key = symbol := by
  unfold linkName FunctionStructure.PlainAt symbolOf
  cases fs.funcType with
  | kLLVMIntrinicFunc => simp
  | kCFunc =>
    cases fs.needsExecCtx with
    | true => simp
    | false => simpa using and_comm

variable (mangle) in
/-- **`mappingToJIT` binds the symbols of the plain functions**, each to the address of one of
them. -/
theorem lookup_mappingToJIT_cases (reg : FunctionRegistry) (symbol : String) :
    match (reg.mappingToJIT mangle).lookup symbol with
    | some p => reg.LinkedBut mangle [] symbol p
    | none => ∀ p, ¬ reg.LinkedBut mangle [] symbol p := by
  have hl := lookup_foldl_tryEmplace
    (fun e : Sigma fun _ : SigKey => ValueType × FunctionStructure =>
      (linkName e.1 e.2.2).map mangle)
    (fun e => e.2.2.cFuncPtr) symbol reg.signature2funcstruct.entries ∅
  simp only [AList.lookup_empty, Option.none_or] at hl
  rw [mappingToJIT, hl]
  cases hf : reg.signature2funcstruct.entries.find?
      (fun e => (linkName e.1 e.2.2).map mangle == some symbol) with
  | none =>
    rintro p ⟨key, r, fs, -, hfind, hplain⟩
    have hne := List.find?_eq_none.mp hf _ (mem_entries_iff.mpr hfind)
    exact hne (beq_iff_eq.mpr (plainAt_iff_linkName.mpr hplain).1)
  | some e =>
    have hlink : (linkName e.1 e.2.2).map mangle = some symbol := by
      simpa using List.find?_some hf
    exact ⟨e.1, e.2.1, e.2.2, List.not_mem_nil,
      mem_entries_iff.mp (List.mem_of_find?_eq_some hf), plainAt_iff_linkName.mp ⟨hlink, rfl⟩⟩

theorem getFuncBySign_eq_ok {reg : FunctionRegistry} {sign sign' : FunctionSignature}
    {fs : FunctionStructure} : reg.getFuncBySign sign = .ok (sign', fs) ↔
      ∃ r, reg.find sign.key = some (r, fs) ∧ sign' = { sign with retType := r } := by
  unfold getFuncBySign
  split
  · rename_i h; simp [h]
  · rename_i r fs' h
    simp only [h, Except.ok.injEq, Prod.mk.injEq, Option.some.injEq]
    constructor
    · rintro ⟨rfl, rfl⟩; exact ⟨r, ⟨rfl, rfl⟩, rfl⟩
    · rintro ⟨r', ⟨rfl, rfl⟩, rfl⟩; exact ⟨rfl, rfl⟩

/-- **Consistent dispatch is pairing.**  A plain C function is called at the address of its symbol;
an exec-context one is called at whatever its legacy symbol is bound to. -/
theorem dispatchConsistent_iff_paired (reg : FunctionRegistry) :
    reg.DispatchConsistent mangle ↔ reg.Paired mangle := by
  have hbound : ∀ {symbol p}, (reg.mappingToJIT mangle).lookup symbol = some p →
      reg.LinkedBut mangle [] symbol p := by
    intro symbol p hlookup
    have h := lookup_mappingToJIT_cases mangle reg symbol
    rwa [hlookup] at h
  constructor
  · intro h
    have hplain : ∀ {symbol p}, reg.LinkedBut mangle [] symbol p →
        (reg.mappingToJIT mangle).lookup symbol = some p := by
      rintro symbol p ⟨⟨n, ps⟩, r, fs, -, hfind, ⟨hty, hctx, rfl⟩, rfl⟩
      have hcall := h ⟨n, ps, .kUnknown⟩ ⟨n, ps, r⟩ fs
        (getFuncBySign_eq_ok.mpr ⟨r, hfind, rfl⟩) hty
      rw [callSymbolName, if_neg (by simp [hctx])] at hcall
      exact hcall
    refine ⟨fun symbol p q hp hq => ?_, ?_⟩
    · exact Option.some.inj ((hplain hp).symm.trans (hplain hq))
    · rintro symbol p ⟨⟨n, ps⟩, r, fs, -, hfind, ⟨hty, hctx⟩, rfl, rfl⟩
      have hcall := h ⟨n, ps, .kUnknown⟩ ⟨n, ps, r⟩ fs
        (getFuncBySign_eq_ok.mpr ⟨r, hfind, rfl⟩) hty
      rw [callSymbolName, if_pos hctx] at hcall
      exact hbound hcall
  · intro h sign sign' fs hget hty
    obtain ⟨r, hfind, rfl⟩ := getFuncBySign_eq_ok.mp hget
    have hlinked : reg.LinkedBut mangle [] (mangle (callSymbolName { sign with retType := r } fs))
        fs.cFuncPtr := by
      unfold callSymbolName
      by_cases hctx : fs.needsExecCtx = true
      · rw [if_pos hctx]
        exact h.linked _ _ ⟨sign.key, r, fs, List.not_mem_nil, hfind, ⟨hty, hctx⟩, rfl, rfl⟩
      · rw [if_neg hctx]
        exact ⟨sign.key, r, fs, List.not_mem_nil, hfind, ⟨hty, by simpa using hctx, rfl⟩, rfl⟩
    have hcases := lookup_mappingToJIT_cases mangle reg
      (mangle (callSymbolName { sign with retType := r } fs))
    split at hcases
    · next q hlookup => rw [hlookup, h.unique _ _ _ hcases hlinked]
    · exact absurd hlinked (hcases _)

/-! ## 3. Symbols of different signatures -/

/-- Two keys have one symbol only if they have the same parameters. -/
theorem params_eq_of_symbolOf {globalPrefix : String} (hmangle : Mangles globalPrefix mangle)
    {k l : SigKey} (h : symbolOf mangle k = symbolOf mangle l) : k.2 = l.2 := by
  rcases (hmangle.mangle_eq_iff _ _).mp h with hk | hk | hk
  · exact (Prod.mk.inj hk).2
  · exact (Prod.mk.inj hk.2).2
  · exact (Prod.mk.inj hk.2).2.symm

/-- The symbol of the legacy signature is another one. -/
theorem symbolOf_legacyKey_ne {globalPrefix : String} (hmangle : Mangles globalPrefix mangle)
    (key : SigKey) : symbolOf mangle (legacyKey key) ≠ symbolOf mangle key := by
  intro h
  have hlen := congrArg List.length (params_eq_of_symbolOf hmangle h)
  simp [legacyKey] at hlen

theorem symbolOf_legacyKey_legacyKey_ne {globalPrefix : String}
    (hmangle : Mangles globalPrefix mangle) (key : SigKey) :
    symbolOf mangle (legacyKey (legacyKey key)) ≠ symbolOf mangle key := by
  intro h
  have hlen := congrArg List.length (params_eq_of_symbolOf hmangle h)
  simp [legacyKey] at hlen

/-! ## 4. What one write does to the symbols -/

theorem find_assign_self (reg : FunctionRegistry) (sign : FunctionSignature)
    (fs : FunctionStructure) : ∃ r, (reg.assign sign fs).find sign.key = some (r, fs) :=
  ⟨_, AList.lookup_insert _⟩

theorem find_assign_ne (reg : FunctionRegistry) {sign : FunctionSignature}
    (fs : FunctionStructure) {key : SigKey} (h : key ≠ sign.key) :
    (reg.assign sign fs).find key = reg.find key :=
  AList.lookup_insert_ne h

theorem legacyKey_ne (key : SigKey) : legacyKey key ≠ key := by
  intro h
  have hlen := congrArg (fun k : SigKey => k.2.length) h
  simp [legacyKey] at hlen

theorem find_assign_legacySign (reg : FunctionRegistry) (sign : FunctionSignature)
    (fs : FunctionStructure) :
    (reg.assign sign fs).find (legacySign sign).key = reg.find (legacyKey sign.key) :=
  find_assign_ne reg fs (legacyKey_ne sign.key)

theorem linkedBut_assign (reg : FunctionRegistry) (sign : FunctionSignature)
    (fs : FunctionStructure) : (reg.assign sign fs).LinkedBut mangle keys symbol p ↔
      (sign.key ∉ keys ∧ fs.PlainAt p ∧ symbolOf mangle sign.key = symbol) ∨
        reg.LinkedBut mangle (sign.key :: keys) symbol p := by
  obtain ⟨r₀, hr₀⟩ := find_assign_self reg sign fs
  constructor
  · rintro ⟨key, r, fs', hkey, hfind, hplain, hsymbol⟩
    by_cases hk : key = sign.key
    · subst hk
      rw [hr₀] at hfind
      cases hfind
      exact .inl ⟨hkey, hplain, hsymbol⟩
    · rw [find_assign_ne reg fs hk] at hfind
      exact .inr ⟨key, r, fs', List.not_mem_cons_of_ne_of_not_mem hk hkey, hfind, hplain, hsymbol⟩
  · rintro (⟨hkey, hplain, hsymbol⟩ | ⟨key, r, fs', hkey, hfind, hplain, hsymbol⟩)
    · exact ⟨sign.key, r₀, fs, hkey, hr₀, hplain, hsymbol⟩
    · obtain ⟨hk, hkeys⟩ := not_or.mp (mt List.mem_cons.mpr hkey)
      exact ⟨key, r, fs', hkeys, by rwa [find_assign_ne reg fs hk], hplain, hsymbol⟩

theorem calledBut_assign (reg : FunctionRegistry) (sign : FunctionSignature)
    (fs : FunctionStructure) : (reg.assign sign fs).CalledBut mangle keys symbol p ↔
      (sign.key ∉ keys ∧ fs.ViaLegacy ∧ fs.cFuncPtr = p ∧
        symbolOf mangle (legacyKey sign.key) = symbol) ∨
        reg.CalledBut mangle (sign.key :: keys) symbol p := by
  obtain ⟨r₀, hr₀⟩ := find_assign_self reg sign fs
  constructor
  · rintro ⟨key, r, fs', hkey, hfind, hvia, haddr, hsymbol⟩
    by_cases hk : key = sign.key
    · subst hk
      rw [hr₀] at hfind
      cases hfind
      exact .inl ⟨hkey, hvia, haddr, hsymbol⟩
    · rw [find_assign_ne reg fs hk] at hfind
      exact .inr ⟨key, r, fs', List.not_mem_cons_of_ne_of_not_mem hk hkey, hfind, hvia, haddr,
        hsymbol⟩
  · rintro (⟨hkey, hvia, haddr, hsymbol⟩ | ⟨key, r, fs', hkey, hfind, hvia, haddr, hsymbol⟩)
    · exact ⟨sign.key, r₀, fs, hkey, hr₀, hvia, haddr, hsymbol⟩
    · obtain ⟨hk, hkeys⟩ := not_or.mp (mt List.mem_cons.mpr hkey)
      exact ⟨key, r, fs', hkeys, by rwa [find_assign_ne reg fs hk], hvia, haddr, hsymbol⟩

theorem LinkedBut.mono {keys' : List SigKey} (hkeys : keys' ⊆ keys)
    (h : reg.LinkedBut mangle keys symbol p) : reg.LinkedBut mangle keys' symbol p := by
  obtain ⟨key, r, fs, hkey, hrest⟩ := h
  exact ⟨key, r, fs, fun hk => hkey (hkeys hk), hrest⟩

theorem CalledBut.mono {keys' : List SigKey} (hkeys : keys' ⊆ keys)
    (h : reg.CalledBut mangle keys symbol p) : reg.CalledBut mangle keys' symbol p := by
  obtain ⟨key, r, fs, hkey, hrest⟩ := h
  exact ⟨key, r, fs, fun hk => hkey (hkeys hk), hrest⟩

/-- Another key can be left out if its symbol is another one. -/
theorem LinkedBut.but {key : SigKey} (h : reg.LinkedBut mangle keys symbol p)
    (hne : symbolOf mangle key ≠ symbol) : reg.LinkedBut mangle (key :: keys) symbol p := by
  obtain ⟨key', r, fs, hkey, hfind, hplain, rfl⟩ := h
  refine ⟨key', r, fs, List.not_mem_cons_of_ne_of_not_mem ?_ hkey, hfind, hplain, rfl⟩
  rintro rfl
  exact hne rfl

theorem CalledBut.but {key : SigKey} (h : reg.CalledBut mangle keys symbol p)
    (hne : symbolOf mangle (legacyKey key) ≠ symbol) :
    reg.CalledBut mangle (key :: keys) symbol p := by
  obtain ⟨key', r, fs, hkey, hfind, hvia, haddr, rfl⟩ := h
  refine ⟨key', r, fs, List.not_mem_cons_of_ne_of_not_mem ?_ hkey, hfind, hvia, haddr, rfl⟩
  rintro rfl
  exact hne rfl

/-- **One write keeps the pairs** exactly when a plain function finds no other one under its symbol
at another address, the exec-context functions that are called through the symbol keep their
address, and an exec-context function finds its legacy symbol at its address. -/
theorem paired_assign_iff (h : reg.Paired mangle) (sign : FunctionSignature)
    (fs : FunctionStructure) : (reg.assign sign fs).Paired mangle ↔
      (∀ p, fs.PlainAt p →
        ∀ q, reg.LinkedBut mangle [sign.key] (symbolOf mangle sign.key) q → q = p) ∧
      (∀ p, reg.CalledBut mangle [sign.key] (symbolOf mangle sign.key) p →
        fs.PlainAt p ∨ reg.LinkedBut mangle [sign.key] (symbolOf mangle sign.key) p) ∧
      (fs.ViaLegacy → reg.LinkedBut mangle [sign.key] (symbolOf mangle (legacyKey sign.key))
        fs.cFuncPtr) := by
  have hsub : [] ⊆ [sign.key] := List.nil_subset _
  constructor
  · intro hnew
    refine ⟨fun p hp q hq => ?_, fun p hp => ?_, fun hvia => ?_⟩
    · exact hnew.unique (symbolOf mangle sign.key) q p
        ((linkedBut_assign reg sign fs).mpr (.inr hq))
        ((linkedBut_assign reg sign fs).mpr (.inl ⟨List.not_mem_nil, hp, rfl⟩))
    · have hlink := hnew.linked _ p ((calledBut_assign reg sign fs).mpr (.inr hp))
      rcases (linkedBut_assign reg sign fs).mp hlink with ⟨-, hplain, -⟩ | hlink
      · exact .inl hplain
      · exact .inr hlink
    · have hlink := hnew.linked _ _
        ((calledBut_assign reg sign fs).mpr (.inl ⟨List.not_mem_nil, hvia, rfl, rfl⟩))
      rcases (linkedBut_assign reg sign fs).mp hlink with ⟨-, hplain, -⟩ | hlink
      · exact absurd hvia.2 (by simp [hplain.2.1])
      · exact hlink
  · rintro ⟨hplain, hleg, hvia⟩
    refine ⟨fun symbol p q hp hq => ?_, fun symbol p hp => ?_⟩
    · rcases (linkedBut_assign reg sign fs).mp hp with ⟨-, hp', hsp⟩ | hp' <;>
        rcases (linkedBut_assign reg sign fs).mp hq with ⟨-, hq', hsq⟩ | hq'
      · exact hp'.2.2.symm.trans hq'.2.2
      · exact (hplain p hp' q (hsp ▸ hq')).symm
      · exact hplain q hq' p (hsq ▸ hp')
      · exact h.unique symbol p q (hp'.mono hsub) (hq'.mono hsub)
    · rw [linkedBut_assign]
      rcases (calledBut_assign reg sign fs).mp hp with ⟨-, hv, rfl, rfl⟩ | hp'
      · exact .inr (hvia hv)
      · by_cases hsymbol : symbolOf mangle sign.key = symbol
        · rcases hleg p (hsymbol ▸ hp') with hplain' | hlink
          · exact .inl ⟨List.not_mem_nil, hplain', hsymbol⟩
          · exact .inr (hsymbol ▸ hlink)
        · exact .inr ((h.linked symbol p (hp'.mono hsub)).but hsymbol)

section Pair

variable {fs fs' : FunctionStructure} {symbol : String} {p : Nat}

/-- What is linked after both writes of an exec-context registration. -/
theorem linkedBut_pair (reg : FunctionRegistry) (sign : FunctionSignature) (hvia : fs.ViaLegacy)
    (hplain : fs'.PlainAt fs.cFuncPtr) :
    ((reg.assign sign fs).assign (legacySign sign) fs').LinkedBut mangle [] symbol p ↔
      (p = fs.cFuncPtr ∧ symbolOf mangle (legacyKey sign.key) = symbol) ∨
        reg.LinkedBut mangle [sign.key, legacyKey sign.key] symbol p := by
  have hkey : (legacySign sign).key = legacyKey sign.key := rfl
  have hnotPlain : ∀ {p}, ¬ fs.PlainAt p := fun hp => absurd hvia.2 (by simp [hp.2.1])
  rw [linkedBut_assign, linkedBut_assign, hkey]
  constructor
  · rintro (⟨-, hp, hsymbol⟩ | ⟨-, hp, -⟩ | hp)
    · exact .inl ⟨hp.2.2.symm.trans hplain.2.2, hsymbol⟩
    · exact absurd hp hnotPlain
    · exact .inr hp
  · rintro (⟨rfl, hsymbol⟩ | hp)
    · exact .inl ⟨List.not_mem_nil, hplain, hsymbol⟩
    · exact .inr (.inr hp)

/-- What is called after them. -/
theorem calledBut_pair {globalPrefix : String} (hmangle : Mangles globalPrefix mangle)
    (reg : FunctionRegistry) (sign : FunctionSignature) (hvia : fs.ViaLegacy)
    (hplain : fs'.PlainAt fs.cFuncPtr) :
    ((reg.assign sign fs).assign (legacySign sign) fs').CalledBut mangle [] symbol p ↔
      (fs.cFuncPtr = p ∧ symbolOf mangle (legacyKey sign.key) = symbol) ∨
        reg.CalledBut mangle [sign.key, legacyKey sign.key] symbol p := by
  have hkey : (legacySign sign).key = legacyKey sign.key := rfl
  have hkeys : sign.key ∉ [legacyKey sign.key] := by
    rw [List.mem_singleton]
    exact fun he => symbolOf_legacyKey_ne hmangle sign.key (congrArg (symbolOf mangle) he.symm)
  have hnotVia : ¬ fs'.ViaLegacy := fun hv => absurd hv.2 (by simp [hplain.2.1])
  rw [calledBut_assign, calledBut_assign, hkey]
  constructor
  · rintro (⟨-, hv, -⟩ | ⟨-, -, hp, hsymbol⟩ | hp)
    · exact absurd hv hnotVia
    · exact .inl ⟨hp, hsymbol⟩
    · exact .inr hp
  · rintro (⟨hp, hsymbol⟩ | hp)
    · exact .inr (.inl ⟨hkeys, hvia, hp, hsymbol⟩)
    · exact .inr (.inr hp)

end Pair

/-- **Both writes of an exec-context registration** keep the pairs exactly when the first does not
take away an address that is called, and nothing else is called or linked under the symbol of the
second one. -/
theorem paired_assign_assign_iff {globalPrefix : String} (hmangle : Mangles globalPrefix mangle)
    (h : reg.Paired mangle) (sign : FunctionSignature) {fs fs' : FunctionStructure}
    (hvia : fs.ViaLegacy) (hplain : fs'.PlainAt fs.cFuncPtr) :
    ((reg.assign sign fs).assign (legacySign sign) fs').Paired mangle ↔
      (∀ p, reg.CalledBut mangle [sign.key] (symbolOf mangle sign.key) p →
        reg.LinkedBut mangle [sign.key] (symbolOf mangle sign.key) p) ∧
      ∀ p, reg.CalledBut mangle [sign.key] (symbolOf mangle (legacyKey sign.key)) p ∨
        reg.LinkedBut mangle [sign.key, legacyKey sign.key]
          (symbolOf mangle (legacyKey sign.key)) p → p = fs.cFuncPtr := by
  have hne := symbolOf_legacyKey_ne hmangle sign.key
  have hlinked : ∀ symbol p,
      ((reg.assign sign fs).assign (legacySign sign) fs').LinkedBut mangle [] symbol p ↔ _ :=
    fun _ _ => linkedBut_pair reg sign hvia hplain
  have hcalled : ∀ symbol p,
      ((reg.assign sign fs).assign (legacySign sign) fs').CalledBut mangle [] symbol p ↔ _ :=
    fun _ _ => calledBut_pair hmangle reg sign hvia hplain
  have hsub : [sign.key] ⊆ [sign.key, legacyKey sign.key] := by simp
  have hsub₀ : [] ⊆ [sign.key, legacyKey sign.key] := List.nil_subset _
  -- leaving out the legacy key as well changes nothing for a symbol that is not its own
  have hbut : ∀ {symbol p}, reg.LinkedBut mangle [sign.key] symbol p →
      symbolOf mangle (legacyKey sign.key) ≠ symbol →
      reg.LinkedBut mangle [sign.key, legacyKey sign.key] symbol p :=
    fun hp hs => (hp.but hs).mono (by simp)
  have hbut' : ∀ {symbol p}, reg.CalledBut mangle [sign.key] symbol p →
      symbolOf mangle (legacyKey (legacyKey sign.key)) ≠ symbol →
      reg.CalledBut mangle [sign.key, legacyKey sign.key] symbol p :=
    fun hp hs => (hp.but hs).mono (by simp)
  constructor
  · intro hnew
    refine ⟨fun p hp => ?_, fun p hp => ?_⟩
    · have hp' := hbut' hp (symbolOf_legacyKey_legacyKey_ne hmangle sign.key)
      rcases (hlinked _ p).mp (hnew.linked _ p ((hcalled _ p).mpr (.inr hp'))) with ⟨-, hs⟩ | hp
      · exact absurd hs hne
      · exact hp.mono hsub
    · have hlink : ((reg.assign sign fs).assign (legacySign sign) fs').LinkedBut mangle []
          (symbolOf mangle (legacyKey sign.key)) p := by
        rcases hp with hp | hp
        · exact hnew.linked _ p ((hcalled _ p).mpr
            (.inr (hbut' hp (symbolOf_legacyKey_ne hmangle (legacyKey sign.key)))))
        · exact (hlinked _ p).mpr (.inr hp)
      exact hnew.unique _ _ _ hlink ((hlinked _ _).mpr (.inl ⟨rfl, rfl⟩))
  · rintro ⟨hleg, hown⟩
    refine ⟨fun symbol p q hp hq => ?_, fun symbol p hp => ?_⟩
    · rcases (hlinked symbol p).mp hp with ⟨haddr, hsp⟩ | hp' <;>
        rcases (hlinked symbol q).mp hq with ⟨haddr', hsq⟩ | hq'
      · exact haddr.trans haddr'.symm
      · exact haddr.trans (hown q (.inr (hsp ▸ hq'))).symm
      · exact (hown p (.inr (hsq ▸ hp'))).trans haddr'.symm
      · exact h.unique symbol p q (hp'.mono hsub₀) (hq'.mono hsub₀)
    · rw [hlinked]
      rcases (hcalled symbol p).mp hp with ⟨haddr, hs⟩ | hp'
      · exact .inl ⟨haddr.symm, hs⟩
      · by_cases hs : symbolOf mangle (legacyKey sign.key) = symbol
        · exact .inl ⟨hown p (.inl (hs ▸ hp'.mono hsub)), hs⟩
        · refine .inr (hbut ?_ hs)
          by_cases hs' : symbolOf mangle sign.key = symbol
          · exact hs' ▸ hleg p (hs' ▸ hp'.mono hsub)
          · exact (h.linked symbol p (hp'.mono hsub₀)).but hs'

/-! ## 5. What a registration needs -/

/-- The three checks of `registerFunc`. -/
def Accepts (reg : FunctionRegistry) (sign : FunctionSignature) (fs : FunctionStructure)
    (allowOverride : Bool) : Prop :=
  (fs.funcType = .kLLVMIntrinicFunc → fs.codegenFunc ≠ none) ∧
  (fs.funcType = .kCFunc → fs.cFuncPtr ≠ 0) ∧
  (allowOverride = true ∨ reg.find sign.key = none)

/-- An accepted structure is written; a refused one leaves the registry alone. -/
theorem registerFunc_cases (reg : FunctionRegistry) (sign : FunctionSignature)
    (fs : FunctionStructure) (ov : Bool) :
    (reg.Accepts sign fs ov ∧ reg.registerFunc sign fs ov = (.ok (), reg.assign sign fs)) ∨
    (¬ reg.Accepts sign fs ov ∧ ∃ st, reg.registerFunc sign fs ov = (.error st, reg)) := by
  unfold registerFunc Accepts
  split
  · rename_i hc; exact .inr ⟨fun ha => ha.1 hc.1 hc.2, _, rfl⟩
  · split
    · rename_i hc; exact .inr ⟨fun ha => ha.2.1 hc.1 hc.2, _, rfl⟩
    · split
      · rename_i hc
        refine .inr ⟨fun ha => ?_, _, rfl⟩
        rcases ha.2.2 with h | h <;> simp_all
      · rename_i h1 h2 h3
        refine .inl ⟨⟨fun ht hn => h1 ⟨ht, hn⟩, fun ht hn => h2 ⟨ht, hn⟩, ?_⟩, rfl⟩
        cases hov : ov
        · right; simpa [hov] using h3
        · left; rfl

variable (mangle reg)

/-- The condition on a registration that writes one entry. -/
structure WriteKeeps (sign : FunctionSignature) (fs : FunctionStructure) : Prop where
  /-- No other plain function has the symbol, unless it is at the same address. -/
  own : ∀ p, fs.PlainAt p →
    ∀ q, reg.LinkedBut mangle [sign.key] (symbolOf mangle sign.key) q → q = p
  /-- An exec-context function that is called through the symbol finds its address there. -/
  called : ∀ p, reg.CalledBut mangle [sign.key] (symbolOf mangle sign.key) p →
    fs.PlainAt p ∨ reg.LinkedBut mangle [sign.key] (symbolOf mangle sign.key) p
  /-- An exec-context function finds the legacy function. -/
  legacy : fs.ViaLegacy → reg.LinkedBut mangle [sign.key] (symbolOf mangle (legacyKey sign.key))
    fs.cFuncPtr

/-- The condition on a registration that writes the pair: the user-visible signature takes no
address away from an exec-context function; and nothing at another address is linked or called under
the legacy symbol, or, if the legacy signature is taken, the same function is linked there. -/
structure PairWriteKeeps (sign : FunctionSignature) (cFuncPtr : Nat) (allowOverride : Bool) :
    Prop where
  called : ∀ p, reg.CalledBut mangle [sign.key] (symbolOf mangle sign.key) p →
    reg.LinkedBut mangle [sign.key] (symbolOf mangle sign.key) p
  free : allowOverride = true ∨ reg.find (legacyKey sign.key) = none →
    ∀ p, reg.CalledBut mangle [sign.key] (symbolOf mangle (legacyKey sign.key)) p ∨
      reg.LinkedBut mangle [sign.key, legacyKey sign.key]
        (symbolOf mangle (legacyKey sign.key)) p → p = cFuncPtr
  taken : ¬ (allowOverride = true ∨ reg.find (legacyKey sign.key) = none) →
    reg.LinkedBut mangle [sign.key] (symbolOf mangle (legacyKey sign.key)) cFuncPtr

def WriteKeepsPairs (sign : FunctionSignature) (fs : FunctionStructure) (allowOverride : Bool) :
    Prop :=
  reg.Accepts sign fs allowOverride → reg.WriteKeeps mangle sign fs

def PairWriteKeepsPairs (sign : FunctionSignature) (cFuncPtr : Nat) (allowOverride : Bool) :
    Prop :=
  cFuncPtr ≠ 0 → (allowOverride = true ∨ reg.find sign.key = none) →
    reg.PairWriteKeeps mangle sign cFuncPtr allowOverride

variable {mangle reg}

theorem paired_registerFunc_iff (h : reg.Paired mangle) (sign : FunctionSignature)
    (fs : FunctionStructure) (ov : Bool) :
    (reg.registerFunc sign fs ov).2.Paired mangle ↔ reg.WriteKeepsPairs mangle sign fs ov := by
  rcases registerFunc_cases reg sign fs ov with ⟨ha, hr⟩ | ⟨ha, st, hr⟩ <;> rw [hr]
  · simp only [WriteKeepsPairs, ha, true_implies]
    rw [paired_assign_iff h]
    exact ⟨fun hk => ⟨hk.1, hk.2.1, hk.2.2⟩, fun hk => ⟨hk.own, hk.called, hk.legacy⟩⟩
  · simp [WriteKeepsPairs, ha, h]

theorem paired_registerCFunc_iff (h : reg.Paired mangle) (setter : FuncAttrSetter)
    (sign : FunctionSignature) (p : Nat) (ov : Bool) :
    (registerCFunc setter reg sign p ov).2.Paired mangle ↔ reg.WriteKeepsPairs mangle sign
      { funcType := .kCFunc, cFuncPtr := p, funcAttrSetter := setter } ov := by
  unfold registerCFunc
  split
  · rename_i hp
    simp [h, WriteKeepsPairs, Accepts, hp]
  · exact paired_registerFunc_iff h sign _ ov

theorem paired_registerCFuncWithExecCtx_iff {globalPrefix : String}
    (hmangle : Mangles globalPrefix mangle) (h : reg.Paired mangle) (setter : FuncAttrSetter)
    (sign : FunctionSignature) (p : Nat) (ov : Bool) :
    (registerCFuncWithExecCtx setter reg sign p ov).2.Paired mangle ↔
      reg.PairWriteKeepsPairs mangle sign p ov := by
  unfold registerCFuncWithExecCtx
  by_cases hp : p = 0
  · simp [h, PairWriteKeepsPairs, hp]
  rw [if_neg hp]
  generalize hfs : ({ funcType := .kCFunc, cFuncPtr := p, funcAttrSetter := setter,
                      needsExecCtx := true } : FunctionStructure) = fs
  generalize hfs' : ({ funcType := .kCFunc, cFuncPtr := p, funcAttrSetter := setter } :
    FunctionStructure) = fs'
  have hvia : fs.ViaLegacy := by rw [← hfs]; exact ⟨rfl, rfl⟩
  have hptr : fs.cFuncPtr = p := by rw [← hfs]
  have hplain : fs'.PlainAt fs.cFuncPtr := by
    rw [hptr, ← hfs']; exact ⟨rfl, rfl, rfl⟩
  have hnotPlain : ∀ {q}, ¬ fs.PlainAt q := fun hq => absurd hvia.2 (by simp [hq.2.1])
  have hacc : ∀ (r : FunctionRegistry) (s : FunctionSignature),
      (r.Accepts s fs ov ↔ ov = true ∨ r.find s.key = none) ∧
      (r.Accepts s fs' ov ↔ ov = true ∨ r.find s.key = none) := by
    intro r s
    simp [Accepts, hvia.1, hptr, hplain.1, hplain.2.2, hp]
  rcases registerFunc_cases reg sign fs ov with ⟨ha, hr⟩ | ⟨ha, st, hr⟩ <;> rw [hr]
  · have ha' := (hacc reg sign).1.mp ha
    have hiff : reg.PairWriteKeepsPairs mangle sign p ov ↔ reg.PairWriteKeeps mangle sign p ov :=
      ⟨fun hk => hk hp ha', fun hk _ _ => hk⟩
    dsimp only
    rcases registerFunc_cases (reg.assign sign fs) (legacySign sign) fs' ov
      with ⟨hb, hr'⟩ | ⟨hb, st', hr'⟩ <;> rw [hr', hiff] <;>
      rw [(hacc _ _).2, find_assign_legacySign] at hb
    · rw [paired_assign_assign_iff hmangle h sign hvia hplain, hptr]
      exact ⟨fun hk => ⟨hk.1, fun _ => hk.2, fun hno => absurd hb hno⟩,
        fun hk => ⟨hk.called, hk.free hb⟩⟩
    · -- the second write is refused: only the exec-context entry is in place
      rw [paired_assign_iff h, hptr]
      constructor
      · rintro ⟨-, hl, hv⟩
        exact ⟨fun q hq => (hl q hq).resolve_left hnotPlain, fun hf => absurd hf hb,
          fun _ => hv hvia⟩
      · intro hk
        exact ⟨fun q hq => absurd hq hnotPlain, fun q hq => .inr (hk.called q hq),
          fun _ => hk.taken hb⟩
  · have ha' : ¬ (ov = true ∨ reg.find sign.key = none) := fun hc => ha ((hacc reg sign).1.mpr hc)
    simp only [h, PairWriteKeepsPairs, true_iff]
    exact fun _ hc => absurd hc ha'

/-! ## 6. Runs -/

/-- A call of one of the public `Register*` functions. -/
inductive RegisterCall
  | func (sign : FunctionSignature) (fs : FunctionStructure) (allowOverride : Bool)
  | llvmIntrinicFunc (sign : FunctionSignature) (codegenFunc : Option CodeGenFunc)
      (allowOverride : Bool)
  | readOnlyCFunc (sign : FunctionSignature) (cFuncPtr : Nat) (allowOverride : Bool)
  | readOnlyCFuncWithExecCtx (sign : FunctionSignature) (cFuncPtr : Nat) (allowOverride : Bool)
  | storeCFunc (sign : FunctionSignature) (cFuncPtr storeArgsIndex : Nat) (allowOverride : Bool)
  | commutativeCFunc (sign : FunctionSignature) (cFuncPtr : Nat) (allowOverride : Bool)
  | commutativeCFuncWithExecCtx (sign : FunctionSignature) (cFuncPtr : Nat)
      (allowOverride : Bool)

def RegisterCall.apply (reg : FunctionRegistry) :
    RegisterCall → Except Status Unit × FunctionRegistry
  | func sign fs ov => reg.registerFunc sign fs ov
  | llvmIntrinicFunc sign cb ov => reg.registerLLVMIntrinicFunc sign cb ov
  | readOnlyCFunc sign p ov => reg.registerReadOnlyCFunc sign p ov
  | readOnlyCFuncWithExecCtx sign p ov => reg.registerReadOnlyCFuncWithExecCtx sign p ov
  | storeCFunc sign p i ov => reg.registerStoreCFunc sign p i ov
  | commutativeCFunc sign p ov => reg.registerCommutativeCFunc sign p ov
  | commutativeCFuncWithExecCtx sign p ov => reg.registerCommutativeCFuncWithExecCtx sign p ov

/-- The registry after the calls, whether they succeeded or not. -/
def afterCalls (calls : List RegisterCall) : FunctionRegistry :=
  Machine.run (fun reg c => (RegisterCall.apply reg c).2) {} calls

/-- **The condition under which a registration keeps dispatch consistent**, on the registry
before the call. -/
def KeepsPairs (mangle : String → String) (reg : FunctionRegistry) : RegisterCall → Prop
  | .func sign fs ov => reg.WriteKeepsPairs mangle sign fs ov
  | .llvmIntrinicFunc sign cb ov =>
    reg.WriteKeepsPairs mangle sign { funcType := .kLLVMIntrinicFunc, codegenFunc := cb } ov
  | .readOnlyCFunc sign p ov => reg.WriteKeepsPairs mangle sign
      { funcType := .kCFunc, cFuncPtr := p, funcAttrSetter := .readOnly } ov
  | .readOnlyCFuncWithExecCtx sign p ov => reg.PairWriteKeepsPairs mangle sign p ov
  | .storeCFunc sign p i ov => reg.WriteKeepsPairs mangle sign
      { funcType := .kCFunc, cFuncPtr := p, funcAttrSetter := .store i } ov
  | .commutativeCFunc sign p ov => reg.WriteKeepsPairs mangle sign
      { funcType := .kCFunc, cFuncPtr := p, funcAttrSetter := .commutant } ov
  | .commutativeCFuncWithExecCtx sign p ov => reg.PairWriteKeepsPairs mangle sign p ov

theorem RegisterCall.paired_apply_iff {globalPrefix : String}
    (hmangle : Mangles globalPrefix mangle) (h : reg.Paired mangle) (c : RegisterCall) :
    (c.apply reg).2.Paired mangle ↔ reg.KeepsPairs mangle c := by
  cases c with
  | func sign fs ov => exact paired_registerFunc_iff h sign fs ov
  | llvmIntrinicFunc sign cb ov =>
    simp only [RegisterCall.apply, registerLLVMIntrinicFunc, KeepsPairs]
    split
    · rename_i hcb
      simp [h, WriteKeepsPairs, Accepts, hcb]
    · exact paired_registerFunc_iff h sign _ ov
  | readOnlyCFunc sign p ov => exact paired_registerCFunc_iff h _ sign p ov
  | readOnlyCFuncWithExecCtx sign p ov =>
    exact paired_registerCFuncWithExecCtx_iff hmangle h _ sign p ov
  | storeCFunc sign p i ov => exact paired_registerCFunc_iff h _ sign p ov
  | commutativeCFunc sign p ov => exact paired_registerCFunc_iff h _ sign p ov
  | commutativeCFuncWithExecCtx sign p ov =>
    exact paired_registerCFuncWithExecCtx_iff hmangle h _ sign p ov

theorem paired_empty : ({} : FunctionRegistry).Paired mangle where
  unique symbol p q hp _ := by
    obtain ⟨key, r, fs, -, hfind, -⟩ := hp
    simp [find] at hfind
  linked symbol p hp := by
    obtain ⟨key, r, fs, -, hfind, -⟩ := hp
    simp [find] at hfind

/-- **Dispatch is consistent all along a run of registrations if and only if every call keeps
the pairs.** -/
theorem dispatchConsistent_run_iff {globalPrefix : String} {mangle : String → String}
    (hmangle : Mangles globalPrefix mangle) (calls : List RegisterCall) :
    (∀ pre, pre <+: calls → (afterCalls pre).DispatchConsistent mangle) ↔
      ∀ pre c, pre ++ [c] <+: calls → (afterCalls pre).KeepsPairs mangle c := by
  simp only [dispatchConsistent_iff_paired]
  exact Machine.run_inv_iff paired_empty
    (fun _ c h => RegisterCall.paired_apply_iff hmangle h c) calls

/-- A function of an integer and a context pointer at address `1`, then one of the same name
whose context pointer the code generator supplies, at address `2`: the second call reports
that the legacy signature is taken, but its first write stands. -/
def splitPair : List RegisterCall :=
  [.readOnlyCFunc ⟨"f", [.kI32, .kPtr], .kI32⟩ 1 false,
    .readOnlyCFuncWithExecCtx ⟨"f", [.kI32], .kI32⟩ 2 false]

/-- After `splitPair` the signature `f(i32)` resolves to address `2`, and its calls go to `1`. -/
theorem splitPair_not_dispatchConsistent :
    ¬ (afterCalls splitPair).DispatchConsistent elfMangle := by
  intro h
  have hcall := h ⟨"f", [.kI32], .kUnknown⟩ ⟨"f", [.kI32], .kI32⟩
    { funcType := .kCFunc, cFuncPtr := 2, funcAttrSetter := .readOnly, needsExecCtx := true }
    (by rfl) rfl
  revert hcall
  decide

/-- So some call of the run does not keep the pairs. -/
theorem splitPair_breaks : ¬ ∀ pre c, pre ++ [c] <+: splitPair →
    (afterCalls pre).KeepsPairs elfMangle c := fun h =>
  splitPair_not_dispatchConsistent
    ((dispatchConsistent_run_iff elfMangle_mangles splitPair).mpr h splitPair List.prefix_rfl)

end FunctionRegistry

end JitFusion
