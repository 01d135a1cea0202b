/-
# The two visitors in step

What the code generator does from the scopes the validator has left: they know the same names, and
the value of a variable is of the LLVM type of its entry (`Tracks`).

`Emits sure good st m A st'` says that the action `m` takes scopes in step with `st` to scopes in
step with `st'` and returns what satisfies `A`.  It succeeds if `good`; where `sure` holds it
succeeds only then.  There is a rule for each action of the generator.
-/
import JitFusion.CodeTypes

namespace JitFusion

namespace CodeGen

open TypeHelper Validator

/-! ## 1. Registered functions -/

/-- The values are of the LLVM types of `types`. -/
def ArgsTyped (types : List ValueType) (args : List Value) : Prop :=
  List.Forall₂ (fun t v => valueTypeToLLVMType t = .ok v.type) types args

/-- The code of a callback for arguments it is called with. -/
def callbackCode (ctx : Context) (f : CodeGenFunc) (key : SigKey) (ret : ValueType)
    (args : List Value) : Option (IRExpr args.length) :=
  codegenFunc ctx f ⟨key.1, key.2, ret⟩ args.length fun i => (args.get i).type

/-- Every registered callback returns a value of the registered type. -/
def CallbacksTyped (ctx : Context) : Prop :=
  ∀ key t fs, ctx.functionRegistry.find key = some (t, fs) → fs.funcType = .kLLVMIntrinicFunc →
    ∃ f, fs.codegenFunc = some f ∧ ∀ args, ArgsTyped key.2 args → t ≠ .kVoid →
      ∃ x, callbackCode ctx f key t args = some x ∧ Typed (fun i => (args.get i).type) x t

/-- A callback registered as void returns null. -/
def VoidCallbacksNull (ctx : Context) : Prop :=
  ∀ key fs f, ctx.functionRegistry.find key = some (.kVoid, fs) → fs.codegenFunc = some f →
    ∀ args, ArgsTyped key.2 args → callbackCode ctx f key .kVoid args = none

/-- What code generation relies on besides the tree. -/
structure Backed (sure : Prop) (ctx : Context) : Prop where
  builtins : Builtins ctx.functionRegistry
  callbacks : CallbacksTyped ctx
  voids : sure → VoidCallbacksNull ctx

/-! ## 2. Scopes in step -/

/-- The value of a node of type `t`: one of its LLVM type, and null for a void node. -/
structure Carries (sure : Prop) (t : ValueType) (v : Option Value) : Prop where
  value : t ≠ .kVoid → ∃ x, v = some x ∧ valueTypeToLLVMType t = .ok x.type
  null : sure → t = .kVoid → v = none

namespace Carries

variable {sure : Prop} {t : ValueType} {v : Option Value}

theorem ne_kUnknown (h : Carries sure t v) : t ≠ .kUnknown := by
  rintro rfl
  obtain ⟨x, -, hx⟩ := h.value nofun
  cases hx

theorem some {x : Value} (hv : t ≠ .kVoid) (hx : valueTypeToLLVMType t = .ok x.type) :
    Carries sure t (some x) := ⟨fun _ => ⟨x, rfl, hx⟩, fun _ ht => absurd ht hv⟩

theorem none : Carries sure .kVoid none := ⟨fun h => absurd rfl h, fun _ _ => rfl⟩

end Carries

/-- The values of a scope are those of the entries of a scope of the validator. -/
def ScopeTracks (sure : Prop) (a : Scope VarEntry) (b : Scope (Option Value)) : Prop :=
  ∀ x, Option.Rel (fun e v => Carries sure e.type v) (a.lookup x) (b.lookup x)

structure Tracks (sure : Prop) (st : ScopeStack VarEntry) (s : State) : Prop where
  scopes : List.Forall₂ (ScopeTracks sure) (st.top :: st.outer)
    (s.scopeStack.top :: s.scopeStack.outer)
  cache : ∀ e ∈ s.constListCache, e.2.type = (Literal.list e.1).type
  visited : ∀ e ∈ s.visited, Carries sure e.1 e.2

variable {sure : Prop} {st st' st₁ st₂ : ScopeStack VarEntry} {s s' : State}

theorem lookupIn_tracks {as : List (Scope VarEntry)} {bs : List (Scope (Option Value))}
    (h : List.Forall₂ (ScopeTracks sure) as bs) (x : String) :
    Option.Rel (fun e v => Carries sure e.type v) (ScopeStack.lookupIn x as)
      (ScopeStack.lookupIn x bs) := by
  induction h with
  | nil => exact .none
  | @cons a b as bs hab _ ih =>
    have hx := hab x
    rw [ScopeStack.lookupIn, ScopeStack.lookupIn]
    generalize a.lookup x = entry at hx ⊢
    generalize b.lookup x = value at hx ⊢
    cases hx with
    | some hc => exact .some hc
    | none => exact ih

theorem knownIn_tracks {as : List (Scope VarEntry)} {bs : List (Scope (Option Value))}
    (h : List.Forall₂ (ScopeTracks sure) as bs) (x : String) :
    ScopeStack.knownIn x as = ScopeStack.knownIn x bs := by
  have hx := lookupIn_tracks h x
  unfold ScopeStack.knownIn
  generalize ScopeStack.lookupIn x as = entry at hx ⊢
  generalize ScopeStack.lookupIn x bs = value at hx ⊢
  cases hx <;> rfl

theorem ScopeTracks.insert {a : Scope VarEntry} {b : Scope (Option Value)} {e : VarEntry}
    {v : Option Value} (h : ScopeTracks sure a b) (x : String) (hv : Carries sure e.type v) :
    ScopeTracks sure (a.insert x e) (b.insert x v) := by
  intro y
  by_cases hy : y = x
  · subst hy
    rw [AList.lookup_insert, AList.lookup_insert]
    exact .some hv
  · rw [AList.lookup_insert_ne hy, AList.lookup_insert_ne hy]
    exact h y

theorem scopeTracks_empty : ScopeTracks sure ∅ ∅ := by
  intro x
  rw [AList.lookup_empty, AList.lookup_empty]
  exact .none

theorem popScope_tracks {a : ScopeStack VarEntry} {b : ScopeStack (Option Value)}
    (h : List.Forall₂ (ScopeTracks sure) a.outer b.outer) :
    List.Forall₂ (ScopeTracks sure) (a.popScope.top :: a.popScope.outer)
      (b.popScope.top :: b.popScope.outer) := by
  unfold ScopeStack.popScope
  generalize a.outer = as at h ⊢
  generalize b.outer = bs at h ⊢
  cases h with
  | nil => exact .cons scopeTracks_empty .nil
  | cons hab hrest => exact .cons hab hrest

namespace Tracks

theorem entryState : Tracks sure {} entryState where
  scopes := .cons scopeTracks_empty .nil
  cache _ he := nomatch List.not_mem_nil he
  visited _ he := nomatch List.not_mem_nil he

/-- Only the scopes, the cache and the values matter. -/
theorem of_eq (h : Tracks sure st s) (hs : s'.scopeStack = s.scopeStack)
    (hc : s'.constListCache = s.constListCache) (hv : s'.visited = s.visited) :
    Tracks sure st s' where
  scopes := hs ▸ h.scopes
  cache := hc ▸ h.cache
  visited := hv ▸ h.visited

theorem lookup (h : Tracks sure st s) (x : String) :
    Option.Rel (fun e v => Carries sure e.type v) (st.lookup x) (s.scopeStack.lookup x) :=
  lookupIn_tracks h.scopes x

theorem lookup_some (h : Tracks sure st s) {x : String} {e : VarEntry}
    (he : st.lookup x = some e) :
    ∃ v, s.scopeStack.lookup x = some v ∧ Carries sure e.type v := by
  have hrel := h.lookup x
  rw [he] at hrel
  generalize s.scopeStack.lookup x = found at hrel
  cases hrel with
  | some hv => exact ⟨_, rfl, hv⟩

theorem ne_kUnknown (h : Tracks sure st s) {x : String} {e : VarEntry}
    (he : st.lookup x = some e) : e.type ≠ .kUnknown := by
  obtain ⟨v, -, hv⟩ := h.lookup_some he
  exact hv.ne_kUnknown

/-- Only what the scopes of the validator say matters. -/
theorem congr (h : Tracks sure st s) (htop : ∀ x, st'.top.lookup x = st.top.lookup x)
    (hout : st'.outer = st.outer) : Tracks sure st' s where
  scopes := by
    obtain ⟨hab, hrest⟩ := List.forall₂_cons.mp h.scopes
    refine .cons (fun x => ?_) (hout ▸ hrest)
    rw [htop]
    exact hab x
  cache := h.cache
  visited := h.visited

theorem set (h : Tracks sure st s) (x : String) {e : VarEntry} {v : Option Value}
    (hv : Carries sure e.type v) :
    Tracks sure (st.set x e) (s.modifyScope (·.set x v)) where
  scopes := by
    obtain ⟨hab, hrest⟩ := List.forall₂_cons.mp h.scopes
    exact .cons (hab.insert x hv) hrest
  cache := h.cache
  visited := h.visited

theorem pushScope (h : Tracks sure st s) :
    Tracks sure st.pushScope (s.modifyScope ScopeStack.pushScope) where
  scopes := .cons scopeTracks_empty h.scopes
  cache := h.cache
  visited := h.visited

theorem popScope (h : Tracks sure st s) :
    Tracks sure st.popScope (s.modifyScope ScopeStack.popScope) where
  scopes := popScope_tracks (List.forall₂_cons.mp h.scopes).2
  cache := h.cache
  visited := h.visited

theorem getShadowed (h : Tracks sure st s) :
    ScopeTracks sure st.getShadowed s.scopeStack.getShadowed := by
  intro x
  rw [ScopeStack.lookup_getShadowed, ScopeStack.lookup_getShadowed]
  obtain ⟨hab, hrest⟩ := List.forall₂_cons.mp h.scopes
  rw [knownIn_tracks hrest x]
  split
  · exact hab x
  · exact .none

theorem visit (h : Tracks sure st s) {t : ValueType} {v : Option Value}
    (hv : Carries sure t v) : Tracks sure st (s.visit t v) where
  scopes := h.scopes
  cache := h.cache
  visited := List.forall_mem_cons.mpr ⟨hv, h.visited⟩

theorem cacheList (h : Tracks sure st s) {valList : ConstantListValueType} {v : Value}
    (hv : v.type = (Literal.list valList).type) :
    Tracks sure st { s with constListCache := s.constListCache ++ [(valList, v)] } where
  scopes := h.scopes
  cache e he := by
    rcases List.mem_append.mp he with he | he
    · exact h.cache e he
    · rw [List.mem_singleton.mp he]
      exact hv
  visited := h.visited

end Tracks

/-! ## 3. Actions -/

def Emits {α : Type} (sure good : Prop) (st : ScopeStack VarEntry) (m : Gen α) (A : α → Prop)
    (st' : ScopeStack VarEntry) : Prop :=
  Checked.Decides sure good (Tracks sure st) m fun a s => A a ∧ Tracks sure st' s

namespace Emits

variable {α β : Type} {good good' : Prop} {m : Gen α} {k : α → Gen β} {A A' : α → Prop}
  {B : β → Prop}

theorem congr (h : Emits sure good st m A st') (hg : good ↔ good') : Emits sure good' st m A st' :=
  Checked.Decides.congr h hg

theorem of_true (h : Emits sure True st m A st') (hg : good) : Emits sure good st m A st' :=
  h.congr ⟨fun _ => hg, fun _ => trivial⟩

theorem imp (h : Emits sure good st m A st') (hA : ∀ a, A a → A' a) : Emits sure good st m A' st' :=
  h.weaken (fun _ hs => hs) fun a _ hs => ⟨hA a hs.1, hs.2⟩

/-- **Sequencing.** -/
theorem bind (h : Emits sure good st m A st₁) (hk : ∀ a, A a → Emits sure good' st₁ (k a) B st₂) :
    Emits sure (good ∧ good') st (m >>= k) B st₂ :=
  Checked.Decides.bind h fun a => .of_fact (hk a)

/-- An action that always succeeds, then the rest. -/
theorem step (h : Emits sure True st m A st₁) (hk : ∀ a, A a → Emits sure good st₁ (k a) B st₂) :
    Emits sure good st (m >>= k) B st₂ :=
  Checked.Decides.step h fun a => .of_fact (hk a)

/-- An action, then a rest that always succeeds. -/
theorem last (h : Emits sure good st m A st₁) (hk : ∀ a, A a → Emits sure True st₁ (k a) B st₂) :
    Emits sure good st (m >>= k) B st₂ :=
  Checked.Decides.last h fun a => .of_fact (hk a)

theorem pure {a : α} (ha : A a) : Emits sure True st (Pure.pure a) A st :=
  Checked.Decides.pure fun _ hs => ⟨ha, hs⟩

theorem throw {e : Fault} (hg : ¬ good) : Emits sure good st (MonadExcept.throw e : Gen α) A st' :=
  Checked.Decides.throw hg

theorem of_tracks (h : ∀ s, Tracks sure st s → Emits sure good st m A st') :
    Emits sure good st m A st' := Checked.Decides.of_pre h

theorem get_bind {f : State → Gen β}
    (h : ∀ s, Tracks sure st s → Emits sure good st (f s) B st') :
    Emits sure good st (get >>= f) B st' := Checked.Decides.get_bind h

theorem modify {g : State → State} (h : ∀ s, Tracks sure st s → Tracks sure st' (g s)) :
    Emits sure True st (modify g : Gen Unit) (fun _ => True) st' :=
  Checked.Decides.modify fun s hs => ⟨trivial, h s hs⟩

/-- An action on the builder. -/
theorem build {g : State → State} (h : ∀ s, ∃ b, g s = { s with builder := b }) :
    Emits sure True st (MonadState.modifyGet fun s => ((), g s) : Gen Unit) (fun _ => True) st := by
  refine modify fun s hs => ?_
  obtain ⟨b, hb⟩ := h s
  rw [hb]
  exact hs.of_eq rfl rfl rfl

theorem createBlock (label : Label) :
    Emits sure True st (createBlock label) (fun _ => True) st :=
  .of_run fun _ hs => ⟨_, _, rfl, trivial, hs.of_eq rfl rfl rfl⟩

theorem getInsertBlock : Emits sure True st getInsertBlock (fun _ => True) st :=
  .of_run fun s hs => ⟨_, s, rfl, trivial, hs⟩

theorem emit {n : Nat} (inputs : Fin n → Value) (x : IRExpr n) :
    Emits sure True st (emit inputs x) (fun v => v.type = x.type fun i => (inputs i).type) st :=
  .of_run fun _ hs => ⟨_, _, rfl, rfl, hs.of_eq rfl rfl rfl⟩

theorem createPhi (type : LLVMType) (incoming : List (Ssa.Operand Literal × Nat)) :
    Emits sure True st (createPhi type incoming) (fun v => v.type = type) st :=
  .of_run fun _ hs => ⟨_, _, rfl, rfl, hs.of_eq rfl rfl rfl⟩

theorem deref (a : α) : Emits sure True st (deref (some a)) (· = a) st := .pure rfl

theorem returnNotOk {x : Except Status α} {a : α} (h : x = .ok a) :
    Emits sure True st (returnNotOk x) (· = a) st := by
  rw [h]
  exact .pure rfl

/-- Only `unknown` has no LLVM type. -/
theorem llvmType (t : ValueType) :
    Emits sure (t ≠ .kUnknown) st (CodeGen.returnNotOk (valueTypeToLLVMType t))
      (fun type => valueTypeToLLVMType t = .ok type) st := by
  by_cases ht : t = .kUnknown
  · subst ht
    exact .throw (not_not.mpr rfl)
  · obtain ⟨type, htype⟩ := valueTypeToLLVMType_ok ht
    refine ((returnNotOk htype).imp ?_).of_true ht
    rintro _ rfl
    exact htype

theorem mapM {f : α → Gen β} {l : List α}
    (h : ∀ a ∈ l, Emits sure True st (f a) (fun _ => True) st) :
    Emits sure True st (l.mapM f) (fun _ => True) st :=
  (Checked.Decides.mapM fun a ha => (h a ha).weaken (fun _ hs => hs) fun _ _ hs => hs.2).weaken
    (fun _ hs => hs) fun _ _ hs => ⟨trivial, hs⟩

end Emits

/-! ## 4. Nodes -/

section Nodes

variable {good : Prop} {node : ExecNode} {visit : Gen (Option Value)}

theorem getValue_emits (h : Emits sure good st visit (Carries sure node.getReturnType) st') :
    Emits sure good st (getValue node visit) (Carries sure node.getReturnType) st' := by
  refine h.last fun value hv => ?_
  exact (Emits.modify fun s hs => hs.visit hv).step fun _ _ => .pure hv

/-- The value of a node that is not void, used. -/
theorem getValue_deref_emits {α : Type} {good' : Prop} {k : Value → Gen α} {A : α → Prop}
    (h : Emits sure good st visit (Carries sure node.getReturnType) st₁)
    (hv : node.getReturnType ≠ .kVoid)
    (hk : ∀ x, valueTypeToLLVMType node.getReturnType = .ok x.type →
      Emits sure good' st₁ (k x) A st₂) :
    Emits sure (good ∧ good') st (do k (← deref (← getValue node visit))) A st₂ := by
  refine (getValue_emits h).bind fun value hval => ?_
  obtain ⟨x, rfl, hx⟩ := hval.value hv
  refine (Emits.deref x).step ?_
  rintro _ rfl
  exact hk _ hx

theorem getCondition_emits {what : String}
    (h : Emits sure good st visit (Carries sure node.getReturnType) st')
    (hn : isNumericType node.getReturnType = true) :
    Emits sure good st (getCondition what node visit) (fun _ => True) st' := by
  refine (getValue_deref_emits h (ne_kVoid_of_isNumericType hn) fun x hx => ?_).congr
    (Iff.of_eq (and_true _))
  obtain ⟨y, hy⟩ := toBool_ok what (.input 0 : IRExpr 1) hn hx
  refine (Emits.returnNotOk hy).step fun z _ => ?_
  exact (Emits.emit _ _).imp fun _ _ => trivial

theorem getBranchValue_emits {ret : ValueType} {mergeBlock : Nat}
    (h : Emits sure good st visit (Carries sure node.getReturnType) st')
    (hv : node.getReturnType ≠ .kVoid) (hfit : Fits ret node.getReturnType) :
    Emits sure good st (getBranchValue node visit ret mergeBlock) (fun _ => ret ≠ .kVoid) st' := by
  refine (getValue_deref_emits h hv fun x hx => ?_).congr (Iff.of_eq (and_true _))
  have hconv := hfit (valueTypeToLLVMType_ne_kUnknown hx)
  have hin : Typed (fun _ => x.type) (.input 0 : IRExpr 1) node.getReturnType := hx
  obtain ⟨y, hy, -⟩ := numericTypeConvert_typed hconv hin
  refine (Emits.returnNotOk hy).step fun z _ => ?_
  refine (Emits.emit _ _).step fun v _ => ?_
  refine Emits.getInsertBlock.step fun _ _ => ?_
  exact (Emits.build fun s => ⟨_, rfl⟩).step fun _ _ => .pure (hconv.ne_kVoid hv)

/-- A body of a when-block, in a scope of its own. -/
theorem getBranchBody_emits {mergeBlock : Nat}
    (h : Emits sure good st.pushScope visit (Carries sure node.getReturnType) st₁)
    (hkeep : Validator.Keeps st.pushScope st₁) :
    Emits sure good st (getBranchBody node visit mergeBlock)
      (fun info => ScopeTracks sure st₁.getShadowed info.modified) st := by
  refine (Emits.modify fun s hs => hs.pushScope).step fun _ _ => ?_
  refine (getValue_emits h).last fun _ _ => ?_
  refine Emits.get_bind fun s hs => ?_
  refine Emits.getInsertBlock.step fun _ _ => ?_
  have hpop : Emits sure True st₁ (modify (·.modifyScope ScopeStack.popScope)) (fun _ => True) st :=
    Emits.modify fun s hs => hkeep.popScope ▸ hs.popScope
  refine hpop.step fun _ _ => ?_
  exact (Emits.build fun s => ⟨_, rfl⟩).step fun _ _ => .pure hs.getShadowed

end Nodes

end CodeGen

end JitFusion
