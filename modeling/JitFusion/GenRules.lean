/-
# What a run of the generator does

The generator's steps taken apart: a successful run of each of its small actions, as an equation
between the states, and then what every construct keeps.

* `Ready` is what a state needs for code to be emitted: the insertion block is open, branches go
  to blocks there are, and the scopes name registers that are defined.
* `Grown` is what a whole node does to a state, and `Mid` what a part of a construct has done to
  the state the construct started from, when some of its blocks are still open.
-/
import JitFusion.CodeGen
import JitFusion.Lib.SsaFlow

namespace JitFusion

namespace CodeGen

open TypeHelper Ssa.Builder

/-! ## 1. States -/

namespace State

variable (s : State)

@[simp] theorem nextBlock_eq : s.nextBlock = s.builder.size := rfl

@[simp] theorem insertBlock_eq : s.insertBlock = s.builder.insertPoint := rfl

@[simp] theorem size_createBlock (label : Label) :
    (s.createBlock label).builder.size = s.builder.size + 1 := Ssa.Builder.size_createBlock _ _

@[simp] theorem size_setInsertPoint (i : Nat) :
    (s.setInsertPoint i).builder.size = s.builder.size := rfl

@[simp] theorem size_createBr (target : Nat) :
    (s.createBr target).builder.size = s.builder.size := size_terminate _ _

@[simp] theorem size_createCondBr (c : Value) (thenBlock elseBlock : Nat) :
    (s.createCondBr c thenBlock elseBlock).builder.size = s.builder.size := size_terminate _ _

@[simp] theorem size_createPhi (incoming : List (Ssa.Operand Literal × Nat)) :
    (s.createPhi incoming).builder.size = s.builder.size := Ssa.Builder.size_createPhi _ _

@[simp] theorem insertPoint_createBlock (label : Label) :
    (s.createBlock label).builder.insertPoint = s.builder.insertPoint := rfl

@[simp] theorem insertPoint_setInsertPoint (i : Nat) :
    (s.setInsertPoint i).builder.insertPoint = i := rfl

@[simp] theorem insertPoint_createBr (target : Nat) :
    (s.createBr target).builder.insertPoint = s.builder.insertPoint := rfl

@[simp] theorem insertPoint_createCondBr (c : Value) (thenBlock elseBlock : Nat) :
    (s.createCondBr c thenBlock elseBlock).builder.insertPoint = s.builder.insertPoint := rfl

@[simp] theorem insertPoint_createPhi (incoming : List (Ssa.Operand Literal × Nat)) :
    (s.createPhi incoming).builder.insertPoint = s.builder.insertPoint := rfl

@[simp] theorem insertPoint_emit {n : Nat} (inputs : Fin n → Value) (x : IRExpr n) :
    (s.emit inputs x).builder.insertPoint = s.builder.insertPoint := rfl

end State

/-! ## 2. Actions -/

section Actions

variable {s s' : State} {α : Type}

theorem returnNotOk_run {x : Except Status α} {a : α} :
    (returnNotOk x).run s = .ok (a, s') ↔ x = .ok a ∧ s' = s := by
  cases x with
  | error e =>
    refine ⟨fun h => absurd h Checked.run_throw_ne_ok, ?_⟩
    rintro ⟨h, -⟩
    exact nomatch h
  | ok b =>
    rw [returnNotOk, Checked.run_pure_eq_ok, Except.ok.injEq]
    exact and_congr_left fun _ => eq_comm

theorem deref_run {p : Option α} {a : α} :
    (deref p).run s = .ok (a, s') ↔ p = some a ∧ s' = s := by
  cases p with
  | none =>
    refine ⟨fun h => absurd h Checked.run_throw_ne_ok, ?_⟩
    rintro ⟨h, -⟩
    exact nomatch h
  | some b =>
    rw [deref, Checked.run_pure_eq_ok, Option.some.injEq]
    exact and_congr_left fun _ => eq_comm

theorem createBlock_run {label : Label} {i : Nat} :
    (createBlock label).run s = .ok (i, s') ↔ i = s.nextBlock ∧ s' = s.createBlock label := by
  simp only [createBlock, Checked.run_bind_eq_ok, Checked.run_get_eq_ok, Checked.run_set_eq_ok,
    Checked.run_pure_eq_ok]
  constructor
  · rintro ⟨_, _, ⟨rfl, rfl⟩, _, _, rfl, rfl, rfl⟩
    exact ⟨rfl, rfl⟩
  · rintro ⟨rfl, rfl⟩
    exact ⟨_, _, ⟨rfl, rfl⟩, ⟨⟩, _, rfl, rfl, rfl⟩

theorem emit_run {n : Nat} {inputs : Fin n → Value} {x : IRExpr n} {v : Value} :
    (emit inputs x).run s = .ok (v, s') ↔ v = s.emitted inputs x ∧ s' = s.emit inputs x := by
  simp only [emit, Checked.run_bind_eq_ok, Checked.run_get_eq_ok, Checked.run_set_eq_ok,
    Checked.run_pure_eq_ok]
  constructor
  · rintro ⟨_, _, ⟨rfl, rfl⟩, _, _, rfl, rfl, rfl⟩
    exact ⟨rfl, rfl⟩
  · rintro ⟨rfl, rfl⟩
    exact ⟨_, _, ⟨rfl, rfl⟩, ⟨⟩, _, rfl, rfl, rfl⟩

theorem createPhi_run {type : LLVMType} {incoming : List (Ssa.Operand Literal × Nat)} {v : Value} :
    (createPhi type incoming).run s = .ok (v, s') ↔ v = s.phi type ∧ s' = s.createPhi incoming := by
  simp only [createPhi, Checked.run_bind_eq_ok, Checked.run_get_eq_ok, Checked.run_set_eq_ok,
    Checked.run_pure_eq_ok]
  constructor
  · rintro ⟨_, _, ⟨rfl, rfl⟩, _, _, rfl, rfl, rfl⟩
    exact ⟨rfl, rfl⟩
  · rintro ⟨rfl, rfl⟩
    exact ⟨_, _, ⟨rfl, rfl⟩, ⟨⟩, _, rfl, rfl, rfl⟩

theorem getInsertBlock_run {i : Nat} :
    getInsertBlock.run s = .ok (i, s') ↔ i = s.insertBlock ∧ s' = s := by
  simp only [getInsertBlock, Checked.run_bind_eq_ok, Checked.run_get_eq_ok, Checked.run_pure_eq_ok]
  constructor
  · rintro ⟨_, _, ⟨rfl, rfl⟩, rfl, rfl⟩
    exact ⟨rfl, rfl⟩
  · rintro ⟨rfl, rfl⟩
    exact ⟨_, _, ⟨rfl, rfl⟩, rfl, rfl⟩

variable {node : ExecNode} {m : Gen (Option Value)}

theorem getValue_run {v : Option Value} :
    (getValue node m).run s = .ok (v, s') ↔
      ∃ s₁, m.run s = .ok (v, s₁) ∧ s' = s₁.visit node.getReturnType v := by
  simp only [getValue, Checked.run_bind_eq_ok, Checked.run_modify_eq_ok, Checked.run_pure_eq_ok]
  constructor
  · rintro ⟨_, s₁, h, _, _, rfl, rfl, rfl⟩
    exact ⟨s₁, h, rfl⟩
  · rintro ⟨s₁, h, rfl⟩
    exact ⟨_, s₁, h, (), _, rfl, rfl, rfl⟩

theorem getCondition_run {what : String} {c : Value} :
    (getCondition what node m).run s = .ok (c, s') ↔
      ∃ v s₁ x, (getValue node m).run s = .ok (some v, s₁) ∧
        toBool what v.type (.input 0) = .ok x ∧ c = s₁.emitted ![v] x ∧ s' = s₁.emit ![v] x := by
  simp only [getCondition, Checked.run_bind_eq_ok, deref_run, returnNotOk_run, emit_run]
  constructor
  · rintro ⟨_, s₁, h, v, _, ⟨rfl, rfl⟩, x, _, ⟨hx, rfl⟩, rfl, rfl⟩
    exact ⟨v, _, x, h, hx, rfl, rfl⟩
  · rintro ⟨v, s₁, x, h, hx, rfl, rfl⟩
    exact ⟨_, s₁, h, v, _, ⟨rfl, rfl⟩, x, _, ⟨hx, rfl⟩, rfl, rfl⟩

theorem getBranchValue_run {ret : ValueType} {mergeBlock : Nat} {r : Value × Nat} :
    (getBranchValue node m ret mergeBlock).run s = .ok (r, s') ↔
      ∃ v s₁ x, (getValue node m).run s = .ok (some v, s₁) ∧
        numericTypeConvert node.getReturnType ret (.input 0) = .ok x ∧
        r = (s₁.emitted ![v] x, s₁.insertBlock) ∧
        s' = (s₁.emit ![v] x).createBr mergeBlock := by
  simp only [getBranchValue, Checked.run_bind_eq_ok, deref_run, returnNotOk_run, emit_run,
    getInsertBlock_run, Checked.run_modify_eq_ok, Checked.run_pure_eq_ok]
  constructor
  · rintro ⟨_, s₁, h, v, _, ⟨rfl, rfl⟩, x, _, ⟨hx, rfl⟩, _, _, ⟨rfl, rfl⟩, _, _, ⟨rfl, rfl⟩, _, _,
      rfl, rfl, rfl⟩
    exact ⟨v, _, x, h, hx, rfl, rfl⟩
  · rintro ⟨v, s₁, x, h, hx, rfl, rfl⟩
    exact ⟨_, s₁, h, v, _, ⟨rfl, rfl⟩, x, _, ⟨hx, rfl⟩, _, _, ⟨rfl, rfl⟩, _, _, ⟨rfl, rfl⟩, (), _,
      rfl, rfl, rfl⟩

theorem getBranchBody_run {mergeBlock : Nat} {info : BranchInfo} :
    (getBranchBody node m mergeBlock).run s = .ok (info, s') ↔
      ∃ v s₁, (getValue node m).run (s.modifyScope ScopeStack.pushScope) = .ok (v, s₁) ∧
        info = ⟨s₁.insertBlock, s₁.scopeStack.getShadowed⟩ ∧
        s' = (s₁.modifyScope ScopeStack.popScope).createBr mergeBlock := by
  simp only [getBranchBody, Checked.run_bind_eq_ok, Checked.run_modify_eq_ok,
    Checked.run_get_eq_ok, getInsertBlock_run, Checked.run_pure_eq_ok]
  constructor
  · rintro ⟨_, _, rfl, v, s₁, h, _, _, ⟨rfl, rfl⟩, _, _, ⟨rfl, rfl⟩, _, _, rfl, _, _, rfl, rfl, rfl⟩
    exact ⟨v, _, h, rfl, rfl⟩
  · rintro ⟨v, s₁, h, rfl, rfl⟩
    exact ⟨(), _, rfl, v, s₁, h, _, _, ⟨rfl, rfl⟩, _, _, ⟨rfl, rfl⟩, (), _, rfl, (), _, rfl, rfl,
      rfl⟩

end Actions

/-! ## 3. States in which code is emitted -/

def ValueBelow (fresh : Nat) (v : Option Value) : Prop :=
  ∀ val, v = some val → val.operand.Below fresh

theorem ValueBelow.mono {a b : Nat} {v : Option Value} (h : ValueBelow a v) (hab : a ≤ b) :
    ValueBelow b v := fun val hv => (h val hv).mono hab

structure Ready (s : State) : Prop where
  isOpen : s.builder.IsOpen s.builder.insertPoint
  targets : s.builder.Targets
  below : ∀ name v, s.scopeStack.lookup name = some v → ValueBelow s.builder.fresh v
  cached : ∀ e ∈ s.constListCache, e.2 = ⟨.const (.list e.1), (Literal.list e.1).type⟩

theorem Ready.modifyScope {s : State} (h : Ready s)
    {f : ScopeStack (Option Value) → ScopeStack (Option Value)}
    (hf : ∀ name v, (f s.scopeStack).lookup name = some v → ValueBelow s.builder.fresh v) :
    Ready (s.modifyScope f) := ⟨h.isOpen, h.targets, hf, h.cached⟩

/-- **What the code of a node does to a state.**  Its PHI nodes are sound if `good`. -/
structure Grown (s s' : State) (good : Prop) : Prop where
  grows : Grows s.builder s'.builder
  ready : Ready s'
  outer : s'.scopeStack.outer = s.scopeStack.outer
  cache : s.constListCache <+: s'.constListCache
  sound : good → ∀ m, s.builder.size ≤ m → m < s'.builder.size → Sound s'.builder.blocks m

namespace Grown

variable {s s₁ s₂ : State} {good good' : Prop}

theorem refl (h : Ready s) : Grown s s good where
  grows := .refl h.isOpen
  ready := h
  outer := rfl
  cache := List.prefix_refl _
  sound _ m hm hlt := absurd hlt (by omega)

theorem mono (h : Grown s s₁ good) (hg : good' → good) : Grown s s₁ good' :=
  ⟨h.grows, h.ready, h.outer, h.cache, fun hgood => h.sound (hg hgood)⟩

theorem trans (h : Grown s s₁ good) (h' : Grown s₁ s₂ good) : Grown s s₂ good where
  grows := h.grows.trans h'.grows
  ready := h'.ready
  outer := h'.outer.trans h.outer
  cache := h.cache.trans h'.cache
  sound hg m hm hlt := by
    by_cases hm₁ : m < s₁.builder.size
    · exact (Ssa.Builder.Stable.grows h'.grows h.ready.isOpen hm₁).sound_iff.mpr
        (h.sound hg m hm hm₁)
    · exact h'.sound hg m (by omega) hlt

theorem fresh (h : Grown s s₁ good) : s.builder.fresh ≤ s₁.builder.fresh := Frag.fresh h.grows

theorem later (h : Grown s s₁ good) (hs : Ready s) :
    Later s.builder.blocks s₁.builder.blocks := .grows h.grows hs.isOpen

/-- The insertion block stays what it is only if both parts leave it. -/
theorem insertPoint_trans (h : Grown s s₁ good) (h' : Grown s₁ s₂ good) :
    s₂.builder.insertPoint = s.builder.insertPoint ↔
      s₁.builder.insertPoint = s.builder.insertPoint ∧
        s₂.builder.insertPoint = s₁.builder.insertPoint := by
  have h₁ := h.grows.insertPoint
  have h₂ := h'.grows.insertPoint
  have hlt := Frag.insert_lt h.grows
  have hsize := Frag.size h.grows
  omega

/-- The record of a returned value. -/
theorem visit (h : Grown s s₁ good) (t : ValueType) (v : Option Value) :
    Grown s (s₁.visit t v) good :=
  ⟨h.grows, ⟨h.ready.isOpen, h.ready.targets, h.ready.below, h.ready.cached⟩, h.outer, h.cache,
    h.sound⟩

end Grown

/-! ## 4. Emitted code -/

section Emit

variable {s : State} {n : Nat} {inputs : Fin n → Value} {x : IRExpr n}

/-- The inputs are registers that are defined. -/
def InputsBelow (s : State) (inputs : Fin n → Value) : Prop :=
  ∀ i, (inputs i).operand.Below s.builder.fresh

theorem inputsBelow_one {v : Value} (h : ValueBelow s.builder.fresh (some v)) :
    InputsBelow s ![v] := by
  intro i
  rw [Subsingleton.elim i 0]
  exact h v rfl

theorem inputsBelow_two {v w : Value} (hv : ValueBelow s.builder.fresh (some v))
    (hw : ValueBelow s.builder.fresh (some w)) : InputsBelow s ![v, w] := by
  intro i
  cases i using Fin.cases with
  | zero => exact hv v rfl
  | succ i =>
    rw [Subsingleton.elim i 0]
    exact hw w rfl

theorem emit_fresh (hb : InputsBelow s inputs) :
    s.builder.fresh ≤ (s.emit inputs x).builder.fresh :=
  (Ssa.Expr.code_below (O := Opcode) hb x).1

theorem emitted_below (hb : InputsBelow s inputs) :
    ValueBelow (s.emit inputs x).builder.fresh (some (s.emitted inputs x)) := by
  rintro val ⟨⟩
  exact (Ssa.Expr.code_below (O := Opcode) hb x).2

theorem isOpen_append {b : IRBuilder} {α : Type} (c : Ssa.Expr.Code Opcode Literal α)
    (h : b.IsOpen b.insertPoint) : (b.append c).IsOpen (b.append c).insertPoint := by
  rcases h with ⟨blk, hb, ht⟩
  refine ⟨{ blk with body := blk.body ++ c.instrs }, ?_, ht⟩
  rw [insertPoint_append]
  unfold Ssa.Builder.append
  rw [block_modifyInsert, if_pos rfl, hb]
  rfl

theorem Ready.emit (h : Ready s) (hb : InputsBelow s inputs) : Ready (s.emit inputs x) where
  isOpen := isOpen_append _ h.isOpen
  targets j m hp := by
    have hs := Ssa.Builder.Stable.append (m := m) (b := s.builder) (s.code inputs x)
    have hm := h.targets j m ((hs.preds j).mp hp)
    exact lt_of_lt_of_eq hm (size_append _ _).symm
  below name v hv := (h.below name v hv).mono (emit_fresh hb)
  cached := h.cached

theorem Grown.emit {s₀ : State} {good : Prop} (h : Grown s₀ s good) (hb : InputsBelow s inputs) :
    Grown s₀ (s.emit inputs x) good where
  grows := Frag.append h.grows rfl (emit_fresh hb)
  ready := h.ready.emit hb
  outer := h.outer
  cache := h.cache
  sound hg m hm hlt := by
    have hs := Ssa.Builder.Stable.append (m := m) (b := s.builder) (s.code inputs x)
    exact hs.sound_iff.mpr (h.sound hg m hm (lt_of_lt_of_eq hlt (size_append _ _)))

end Emit

/-! ## 5. In the middle of a construct -/

/-- **What a part of a construct has done**, from the state `s₀` in which the construct started:
the blocks that satisfy `P` are still open, and `T` keeps the predecessors of those that wait for
PHI nodes. -/
structure Mid (s₀ s : State) (P : Nat → Prop) (T : Nat → Option (List Nat)) (good : Prop) :
    Prop where
  frag : Frag s₀.builder s.builder P
  traces : Traces s₀.builder s.builder T good
  start : Ready s₀
  scopes : s.scopeStack = s₀.scopeStack
  cache : s₀.constListCache <+: s.constListCache
  cached : ∀ e ∈ s.constListCache, e.2 = ⟨.const (.list e.1), (Literal.list e.1).type⟩

namespace Mid

variable {s₀ s s₁ : State} {P : Nat → Prop} {T : Nat → Option (List Nat)} {good good' : Prop}

theorem refl (h : Ready s₀) (good : Prop) :
    Mid s₀ s₀ (· = s₀.builder.insertPoint) (fun _ => none) good :=
  ⟨.refl h.isOpen, .refl h.targets, h, rfl, List.prefix_refl _, h.cached⟩

theorem congr {Q : Nat → Prop} {U : Nat → Option (List Nat)} (h : Mid s₀ s P T good)
    (hP : ∀ j, Q j ↔ P j) (hT : ∀ j, U j = T j) : Mid s₀ s Q U good := by
  rw [funext hT]
  exact ⟨h.frag.congr hP, h.traces, h.start, h.scopes, h.cache, h.cached⟩

/-- An open block of the construct as insertion block. -/
theorem ready (h : Mid s₀ s P T good) (hi : P s.builder.insertPoint) : Ready s where
  isOpen := h.frag.isOpen_of hi
  targets := h.traces.targets
  below name v hv := (h.start.below name v (h.scopes ▸ hv)).mono h.frag.fresh
  cached := h.cached

theorem createBlock (h : Mid s₀ s P T good) (label : Label) {i : Nat} (hi : i = s.builder.size) :
    Mid s₀ (s.createBlock label) (fun j => P j ∨ j = i) (Function.update T i (some [])) good := by
  rw [hi]
  exact ⟨h.frag.createBlock label, h.traces.createBlock label, h.start, h.scopes, h.cache,
    h.cached⟩

theorem setInsertPoint (h : Mid s₀ s P T good) (i : Nat) : Mid s₀ (s.setInsertPoint i) P T good :=
  ⟨h.frag.setInsertPoint i, h.traces.setInsertPoint i, h.start, h.scopes, h.cache, h.cached⟩

theorem emit {n : Nat} {inputs : Fin n → Value} {x : IRExpr n} (h : Mid s₀ s P T good)
    (hi : P s.builder.insertPoint) (hb : InputsBelow s inputs) :
    Mid s₀ (s.emit inputs x) P T good :=
  ⟨h.frag.append hi (emit_fresh hb), h.traces.append _, h.start, h.scopes, h.cache, h.cached⟩

/-- A part that leaves the scopes as they were. -/
theorem part (h : Mid s₀ s P T good) (hi : P s.builder.insertPoint) (hg : Grown s s₁ good')
    (hgood : good → good') (hs : s₁.scopeStack = s.scopeStack) :
    Mid s₀ s₁ (fun j => (P j ∧ j ≠ s.builder.insertPoint) ∨ j = s₁.builder.insertPoint) T good :=
  ⟨h.frag.child hi hg.grows, h.traces.child hg.grows (h.frag.isOpen_of hi) hg.ready.targets
    fun hg' => hg.sound (hgood hg'), h.start, hs.trans h.scopes, h.cache.trans hg.cache,
    hg.ready.cached⟩

theorem terminate (h : Mid s₀ s P T good) (hi : P s.builder.insertPoint) {t : Ssa.Term Literal}
    (ht : ∀ m ∈ t.targets, (T m).isSome) :
    Mid s₀ { s with builder := s.builder.terminate t } (fun j => P j ∧ j ≠ s.builder.insertPoint)
      (fun m => (T m).map fun l => if m ∈ t.targets then s.builder.insertPoint :: l else l)
      good := by
  refine ⟨h.frag.terminate hi fun m hm => ?_, h.traces.terminate (h.frag.isOpen_of hi) ht,
    h.start, h.scopes, h.cache, h.cached⟩
  rcases Option.isSome_iff_exists.mp (ht m hm) with ⟨l, hT⟩
  exact h.traces.own m l hT

/-- A branch to a block that waits for PHI nodes. -/
theorem createBr (h : Mid s₀ s P T good) (m : Nat) (hi : P s.builder.insertPoint) {l : List Nat}
    (hT : T m = some l) :
    Mid s₀ (s.createBr m) (fun j => P j ∧ j ≠ s.builder.insertPoint)
      (Function.update T m (some (s.builder.insertPoint :: l))) good := by
  have hmid := h.terminate hi (t := .br m) fun j hj => by
    rw [List.mem_singleton.mp hj, hT]
    rfl
  have hT' : (fun j => (T j).map fun l =>
      if j ∈ (Ssa.Term.br (K := Literal) m).targets then s.builder.insertPoint :: l else l) =
        Function.update T m (some (s.builder.insertPoint :: l)) := by
    funext j
    by_cases hj : j = m
    · subst hj
      simp [hT, Ssa.Term.targets]
    · simp [Ssa.Term.targets, hj]
  exact hT' ▸ hmid

/-- A branch to one of two blocks. -/
theorem createCondBr (h : Mid s₀ s P T good) (c : Value) (m m' : Nat)
    (hi : P s.builder.insertPoint) {l l' : List Nat} (hne : m ≠ m') (hT : T m = some l)
    (hT' : T m' = some l') :
    Mid s₀ (s.createCondBr c m m') (fun j => P j ∧ j ≠ s.builder.insertPoint)
      (Function.update (Function.update T m (some (s.builder.insertPoint :: l))) m'
        (some (s.builder.insertPoint :: l'))) good := by
  have hmid := h.terminate hi (t := .condBr c.operand m m') fun j hj => by
    simp only [Ssa.Term.targets, List.mem_cons, List.not_mem_nil, or_false] at hj
    rcases hj with rfl | rfl
    · simp [hT]
    · simp [hT']
  have hfun : (fun j => (T j).map fun l => if j ∈ (Ssa.Term.condBr c.operand m m').targets then
      s.builder.insertPoint :: l else l) =
        Function.update (Function.update T m (some (s.builder.insertPoint :: l))) m'
          (some (s.builder.insertPoint :: l')) := by
    funext j
    by_cases hj : j = m'
    · subst hj
      simp [hT', Ssa.Term.targets]
    · by_cases hj' : j = m
      · subst hj'
        simp [hT, Ssa.Term.targets, hj]
      · simp [Ssa.Term.targets, hj, hj']
  exact hfun ▸ hmid

/-- The PHI node of the merge block. -/
theorem createPhi (h : Mid s₀ s P T good) (incoming : List (Ssa.Operand Literal × Nat))
    (hi : P s.builder.insertPoint) (hne : s.builder.insertPoint ≠ s₀.builder.insertPoint)
    {l : List Nat} (hT : T s.builder.insertPoint = some l)
    (hp : good → (incoming.map Prod.snd).Perm l) :
    Mid s₀ (s.createPhi incoming) P (Function.update T s.builder.insertPoint none) good := by
  refine ⟨h.frag.createPhi hi hne, h.traces.finish hT fun hg phi hphi => ?_, h.start, h.scopes,
    h.cache, h.cached⟩
  rw [List.mem_singleton.mp hphi]
  exact hp hg

/-- The end of a construct that has one open block left. -/
theorem grown (h : Mid s₀ s (· = s.builder.insertPoint) T good) : Grown s₀ s good where
  grows := h.frag
  ready := h.ready rfl
  outer := congrArg ScopeStack.outer h.scopes
  cache := h.cache
  sound hg := h.traces.all hg

end Mid

end CodeGen

end JitFusion
