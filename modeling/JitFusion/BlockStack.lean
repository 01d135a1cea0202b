/-
# The stack of blocks

A parse that ends between the braces of a block leaves the blocks around it on the stack.  A
fourth reading of a tree says whether one of them knows a name: `leftStmts` goes through the text
as `scan` does, and tells of the blocks that are entered and not left.

`buildStmts_leaves` says that the actions do what the reading says.  Whatever the stack held
before they keep (`StacksOnly`), and terms and leaves do not touch it at all (`KeepsStack`).
-/
import JitFusion.AstBuild

namespace JitFusion

namespace Athena

open Fallible (Triple)

/-! ## 1. The texts that leave a name behind -/

/-- What is said of the rest, if the reading does not stop. -/
def Scan.after {α : Type} (r : Scan α) (stop : Option (Nat × Stop))
    (rest : α → Option (Nat × Stop) → Bool) : Bool :=
  match r.run stop with
  | .ok (a, stop') => rest a stop'
  | .error _ => false

def Scan.stops {α : Type} (r : Scan α) (stop : Option (Nat × Stop)) : Bool :=
  match r.run stop with
  | .ok _ => false
  | .error _ => true

section Left

variable (mode : BuildMode)

/-- A block that is entered and not left leaves the names `known` around it behind; `left` says
whether a block between its braces does. -/
def leftBlock (known : Taints) (stmts : Scan Bool) (left : Option (Nat × Stop) → Bool)
    (stop : Option (Nat × Stop)) : Bool :=
  scanTick.after stop fun _ stop =>
    left stop || (!known.isEmpty && (stmts >>= fun _ => scanTick).stops stop)

mutual

/-- Whether the parse of a statement ends inside a block around which a name is defined. -/
def leftStmt (known : Taints) : Stmt → Option (Nat × Stop) → Bool
  | .assign _ _, _ | .let_ _ _, _ | .expr _, _ => false
  | .when_ _ _ cond block chain, stop =>
    (scanTerm mode known cond).after stop fun _ stop =>
      leftBlock known (scanStmts mode known block) (leftStmts known block) stop ||
        (scanBlock (scanStmts mode known block)).after stop fun _ stop =>
          leftChain known chain stop

def leftStmts (known : Taints) : List Stmt → Option (Nat × Stop) → Bool
  | [], _ => false
  | stmt :: stmts, stop =>
    leftStmt known stmt stop ||
      (scanStmt mode known stmt).after stop fun a stop => scanTick.after stop fun _ stop =>
        leftStmts (stmt.defines.map (·, a) ++ known) stmts stop

def leftClause (known : Taints) : Clause → Option (Nat × Stop) → Bool
  | .elif cond block, stop =>
    (scanTerm mode known cond).after stop fun _ stop =>
      leftBlock known (scanStmts mode known block) (leftStmts known block) stop
  | .else_ block, stop => leftBlock known (scanStmts mode known block) (leftStmts known block) stop

def leftChain (known : Taints) : List Clause → Option (Nat × Stop) → Bool
  | [], _ => false
  | clause :: clauses, stop =>
    leftClause known clause stop ||
      (scanClause mode known clause).after stop fun _ stop => leftChain known clauses stop

end

end Left

/-! ## 2. The stack -/

/-- The stack of blocks. -/
def OnStack (stack : List BlockContext) (p : Parser) : Prop := p.builder.blockStack = stack

/-- The stack is as before `m`, also where `m` aborts. -/
def KeepsStack {β : Type} (m : M β) : Prop :=
  ∀ stack, Triple (OnStack stack) m (fun _ => OnStack stack) (OnStack stack)

/-- The stack is as before `m`; where `m` aborts, blocks may have come on top of it. -/
def StacksOnly {β : Type} (m : M β) : Prop :=
  ∀ stack, Triple (OnStack stack) m (fun _ => OnStack stack) fun p =>
    stack <:+ p.builder.blockStack

namespace KeepsStack

variable {α β : Type} {m : M α}

theorem bind {f : α → M β} (hm : KeepsStack m) (hf : ∀ v, KeepsStack (f v)) :
    KeepsStack (m >>= f) := fun stack => (hm stack).bind fun v => hf v stack

theorem pure (v : α) : KeepsStack (Pure.pure v : M α) := fun _ => Triple.pure fun _ h => h

theorem throw (abort : Abort) : KeepsStack (MonadExcept.throw abort : M α) :=
  fun _ => Triple.throw fun _ h => h

theorem get : KeepsStack (MonadState.get : M Parser) := fun _ _ h => h

theorem modifyBuilder {f : Builder → Builder} (h : ∀ b, (f b).blockStack = b.blockStack) :
    KeepsStack (modifyBuilder f) :=
  fun _ => Triple.modify fun p (hp : _ = _) => (h p.builder).trans hp

theorem giveUp (why : Stop) : KeepsStack (giveUp why : M α) := by
  cases why with
  | syntaxError message => exact bind (modifyBuilder fun _ => rfl) fun _ => throw _
  | exception => exact throw _

theorem tick : KeepsStack tick := by
  refine get.bind fun p => ?_
  rcases p.stop with - | ⟨n, why⟩
  · exact pure ()
  · cases n with
    | zero => exact giveUp why
    | succ n => exact fun _ => Triple.modify fun _ h => h

theorem liftAlloc (m : NodePtr.Alloc α) : KeepsStack (liftAlloc m) := by
  refine get.bind fun p => ?_
  cases m.run p.builder.fresh with
  | none => exact throw _
  | some r => exact bind (modifyBuilder fun _ => rfl) fun _ => pure _

theorem makeNode (loc : Location) (node : Nat → NodeInfo → NodePtr) :
    KeepsStack (makeNode loc node) := get.bind fun _ => liftAlloc _

theorem makeRefNode (loc : Location) (name : String) : KeepsStack (makeRefNode loc name) := by
  refine get.bind fun p => ?_
  dsimp only
  rcases Builder.findVar name p.builder.blocks with - | ⟨c, i⟩
  · exact bind (modifyBuilder fun _ => rfl) fun _ => pure _
  · dsimp only
    split
    · exact makeNode _ _
    · cases c.statements[i]? with
      | none => exact throw _
      | some st => exact (liftAlloc _).bind fun _ => pure _

theorem checkWhen (keyword : Location) : KeepsStack (checkWhen keyword) := by
  refine get.bind fun p => ?_
  dsimp only
  split
  · exact giveUp _
  · exact pure ()

theorem addStatement (st : Statement) : KeepsStack (addStatement st) := modifyBuilder fun _ => rfl

theorem stacksOnly (hm : KeepsStack m) : StacksOnly m := fun stack =>
  (hm stack).weaken (fun _ h => h) (fun _ _ h => h) fun _ h => h ▸ List.suffix_rfl

mutual

theorem buildTerm : ∀ t : Term, KeepsStack (buildTerm t)
  | .literal _ _ | .list _ _ => makeNode _ _
  | .identifier loc name => tick.bind fun _ => makeRefNode loc name
  | .entryArg _ | .execCtx _ | .output _ => makeNode _ _
  | .paren term => buildTerm term
  | .unary _ _ term => (buildTerm term).bind fun _ => makeNode _ _
  | .binary _ _ left right | .in_ _ left right =>
    (buildTerm left).bind fun _ => (buildTerm right).bind fun _ => makeNode _ _
  | .if_ _ args | .call _ _ args | .switch_ _ args => (buildArgs args).bind fun _ => makeNode _ _

theorem buildArgs : ∀ args : List Term, KeepsStack (buildArgs args)
  | [] => pure []
  | arg :: args => (buildTerm arg).bind fun _ => (buildArgs args).bind fun _ => pure _

end

end KeepsStack

theorem leaveBlock_ok {b : Builder} {c : BlockContext} {stack : List BlockContext}
    (stop : Option (Nat × Stop)) (h : b.blockStack = c :: stack) :
    ∃ n b', leaveBlock.run ⟨b, stop⟩ = (.ok n, ⟨b', stop⟩) ∧ b'.blockStack = stack := by
  refine ⟨_, _, rfl, ?_⟩
  simp only [Builder.leaveBlock, h]

namespace StacksOnly

variable {α β : Type} {m : M α}

theorem bind {f : α → M β} (hm : StacksOnly m) (hf : ∀ v, StacksOnly (f v)) :
    StacksOnly (m >>= f) := fun stack => (hm stack).bind fun v => hf v stack

theorem pure (v : α) : StacksOnly (Pure.pure v : M α) := (KeepsStack.pure v).stacksOnly

/-- A block is taken off the stack again unless its statements abort. -/
theorem buildBlock {stmts : M Unit} (h : StacksOnly stmts) : StacksOnly (buildBlock stmts) := by
  intro stack
  let Inside (p : Parser) : Prop := ∃ c, OnStack (c :: stack) p
  have hout : ∀ {p : Parser} {c : BlockContext}, (c :: stack) <:+ p.builder.blockStack →
      stack <:+ p.builder.blockStack := fun h => (List.suffix_cons _ _).trans h
  have hinside : Triple Inside stmts (fun _ => Inside) fun p => stack <:+ p.builder.blockStack := by
    rintro p ⟨c, hp⟩
    exact (h (c :: stack)).weaken (fun _ h => h) (fun _ _ h => ⟨c, h⟩) (fun _ h => hout h) p hp
  have htick : Triple Inside tick (fun _ => Inside) fun p => stack <:+ p.builder.blockStack := by
    rintro p ⟨c, hp⟩
    exact (KeepsStack.tick.stacksOnly (c :: stack)).weaken (fun _ h => h) (fun _ _ h => ⟨c, h⟩)
      (fun _ h => hout h) p hp
  refine (KeepsStack.tick.stacksOnly stack).bind fun _ => ?_
  refine (Triple.modify fun p hp => ?_ : Triple _ _ (fun _ => Inside) _).bind fun _ =>
    hinside.bind fun _ => htick.bind fun _ => ?_
  · exact ⟨p.builder.current, congrArg _ hp⟩
  rintro ⟨b, stop⟩ ⟨c, hp⟩
  rcases leaveBlock_ok stop hp with ⟨n, b', hrun, hstack⟩
  rw [hrun]
  exact hstack

mutual

theorem buildStmt : ∀ stmt : Stmt, StacksOnly (buildStmt stmt)
  | .assign _ expr | .let_ _ expr | .expr expr =>
    ((KeepsStack.buildTerm expr).bind fun _ => .pure _).stacksOnly
  | .when_ keyword _ cond block chain =>
    (KeepsStack.buildTerm cond).stacksOnly.bind fun _ => (buildBlock (buildStmts block)).bind
      fun _ => (buildChain chain).bind fun _ => KeepsStack.stacksOnly <| KeepsStack.tick.bind
        fun _ => (KeepsStack.checkWhen keyword).bind fun _ => (KeepsStack.makeNode _ _).bind
          fun _ => .pure _

theorem buildStmts : ∀ stmts : List Stmt, StacksOnly (buildStmts stmts)
  | [] => pure ()
  | stmt :: stmts => (buildStmt stmt).bind fun _ => KeepsStack.tick.stacksOnly.bind fun _ =>
    (KeepsStack.addStatement _).stacksOnly.bind fun _ => buildStmts stmts

theorem buildClause : ∀ clause : Clause, StacksOnly (buildClause clause)
  | .elif cond block => (KeepsStack.buildTerm cond).stacksOnly.bind fun _ =>
    (buildBlock (buildStmts block)).bind fun _ => pure _
  | .else_ block => (buildBlock (buildStmts block)).bind fun _ => pure _

theorem buildChain : ∀ chain : List Clause, StacksOnly (buildChain chain)
  | [] => pure []
  | clause :: chain => (buildClause clause).bind fun _ => (buildChain chain).bind fun _ => pure _

end

end StacksOnly

/-! ## 3. What an abandoned parse leaves -/

theorem findVar_append_eq_none {name : String} {cs cs' : List BlockContext}
    (h : Builder.findVar name (cs ++ cs') = none) : Builder.findVar name cs' = none := by
  induction cs with
  | nil => exact h
  | cons c cs ih =>
    rw [List.cons_append, Builder.findVar] at h
    cases hi : c.var2index.lookup name with
    | some i =>
      rw [hi] at h
      cases h
    | none =>
      rw [hi] at h
      exact ih h

theorem Builder.Clear.of_suffix {b b' : Builder} (h : b'.Clear)
    (hs : b.blockStack <:+ b'.blockStack) : b.Clear := by
  intro name
  rcases hs with ⟨cs, hcs⟩
  have hname := h name
  rw [← hcs] at hname
  exact findVar_append_eq_none hname

theorem Builder.clear_congr {b b' : Builder} (h : b'.blockStack = b.blockStack) :
    b'.Clear ↔ b.Clear := by
  unfold Builder.Clear
  rw [h]

/-- The stack of a block that is entered knows no name exactly if none is defined around it. -/
theorem Sees.clear_enterBlock {defs : Defs} {b : Builder} (h : Sees defs b.blocks) :
    b.enterBlock.Clear ↔ defs.taints.isEmpty = true := by
  rw [List.isEmpty_iff, Defs.taints, List.map_eq_nil_iff]
  constructor
  · intro hclear
    cases defs with
    | nil => rfl
    | cons d defs =>
      have hname := h d.1
      rw [show Builder.findVar d.1 b.blocks = none from hclear d.1] at hname
      simp at hname
  · rintro rfl name
    have hname := h name
    cases hv : Builder.findVar name b.blocks with
    | none => exact hv
    | some ci =>
      rw [hv] at hname
      rcases hname with ⟨st, -, hst⟩
      cases hst

theorem Builder.Clear.of_enterBlock {b : Builder} (h : b.enterBlock.Clear) : b.Clear :=
  h.of_suffix (List.suffix_cons _ _)

/-- The actions `m` leave the stack as it was if they end well; if they abort, it knows a name
exactly if it did before or `left` says so. -/
def Leaves {β : Type} (m : M β) (b : Builder) (stop : Option (Nat × Stop)) (left : Bool) : Prop :=
  match m.run ⟨b, stop⟩ with
  | (.ok _, p) => left = false ∧ p.builder.blockStack = b.blockStack
  | (.error _, p) => p.builder.Clear ↔ b.Clear ∧ left = false

theorem KeepsStack.leaves {β : Type} {m : M β} (h : KeepsStack m) (b : Builder)
    (stop : Option (Nat × Stop)) : Leaves m b stop false := by
  have hrun := h b.blockStack ⟨b, stop⟩ rfl
  unfold Leaves
  split at hrun
  · next p hm =>
    rw [hm]
    exact ⟨rfl, hrun⟩
  · next p hm =>
    rw [hm]
    exact (Builder.clear_congr hrun).trans (and_iff_left rfl).symm

namespace Leaves

variable {α β γ : Type} {r : Scan α} {m : M β} {f : β → M γ} {b : Builder}
  {stop : Option (Nat × Stop)} {post : α → β → Builder → Prop} {left : Bool}
  {rest : α → Option (Nat × Stop) → Bool}

/-- **Sequencing.** -/
theorem bind (h : Leaves m b stop left) (hs : Sim r m b stop post)
    (hf : ∀ a v b' stop', post a v b' → Leaves (f v) b' stop' (rest a stop')) :
    Leaves (m >>= f) b stop (left || r.after stop rest) := by
  unfold Leaves at h ⊢
  unfold Sim at hs
  unfold Scan.after
  cases hr : r.run stop with
  | error v =>
    rw [hr] at hs
    rcases hs with ⟨abort, p, hrun, -⟩
    rw [hrun] at h
    rw [Fallible.run_bind_error hrun]
    simpa using h
  | ok x =>
    obtain ⟨a, stop'⟩ := x
    rw [hr] at hs
    rcases hs with ⟨v, b', hrun, hpost⟩
    rw [hrun] at h
    rcases h with ⟨rfl, hstack⟩
    have hrest := hf a v b' stop' hpost
    unfold Leaves at hrest
    rw [Fallible.run_bind_ok hrun, Bool.false_or]
    split at hrest
    · exact ⟨hrest.1, hrest.2.trans hstack⟩
    · exact hrest.trans (and_congr_left' (Builder.clear_congr hstack))

/-- After actions that keep the stack. -/
theorem after (hm : KeepsStack m) (hs : Sim r m b stop post)
    (hf : ∀ a v b' stop', post a v b' → Leaves (f v) b' stop' (rest a stop')) :
    Leaves (m >>= f) b stop (r.after stop rest) := (hm.leaves b stop).bind hs hf

/-- Before actions that keep the stack. -/
theorem andThen (h : Leaves m b stop left) (hf : ∀ v, KeepsStack (f v)) :
    Leaves (m >>= f) b stop left := by
  unfold Leaves at h ⊢
  split at h
  · next v p hp =>
    rw [Fallible.run_bind_ok hp]
    have hrest := (hf v).leaves p.builder p.stop
    unfold Leaves at hrest
    split at hrest
    · next p' hp' =>
      rw [show (f v).run p = _ from hp']
      exact ⟨h.1, hrest.2.trans h.2⟩
    · next p' hp' =>
      rw [show (f v).run p = _ from hp', h.1]
      exact hrest.trans (and_congr_left' (Builder.clear_congr h.2))
  · next p hp =>
    rw [Fallible.run_bind_error hp]
    exact h

end Leaves

/-- A builder in the midst of its actions: the definitions in sight, the mode and the text. -/
structure Amid (mode : BuildMode) (source : String) (defs : Defs) (b : Builder) : Prop where
  sees : Sees defs b.blocks
  mode_eq : b.buildMode = mode
  source_eq : b.sourceCode = source

section Actions

variable {mode : BuildMode} {source : String} {defs : Defs} {b : Builder}
  {stop : Option (Nat × Stop)}

namespace Amid

theorem after (h : Amid mode source defs b) (refs : List Ref) (fresh : Nat) :
    Amid mode source defs (b.after refs fresh) := ⟨h.sees, h.mode_eq, h.source_eq⟩

theorem enterBlock (h : Amid mode source defs b) : Amid mode source defs b.enterBlock :=
  ⟨h.sees.enter, h.mode_eq, h.source_eq⟩

theorem addStatement (h : Amid mode source defs b) {st : Statement} {stmt : Stmt}
    (hvar : ({ name := st.varName, isConst := st.isConst } : VarInfo) = stmt.var) :
    Amid mode source (stmt.addTo st.expression.toExecNode defs)
      { b with current := b.current.addStatement st } :=
  ⟨h.sees.addStatement st stmt (congrArg VarInfo.name hvar), h.mode_eq, h.source_eq⟩

end Amid

/-- A block. -/
theorem Leaves.block {stmts : List Stmt} {left : Option (Nat × Stop) → Bool}
    (ha : Amid mode source defs b)
    (h : ∀ stop, Leaves (buildStmts stmts) b.enterBlock stop (left stop)) :
    Leaves (buildBlock (buildStmts stmts)) b stop
      (leftBlock defs.taints (scanStmts mode defs.taints stmts) left stop) := by
  refine Leaves.after .tick .tick ?_
  rintro ⟨⟩ ⟨⟩ b' stop' rfl
  have henter := ha.sees.clear_enterBlock
  have hinside : Leaves (buildStmts stmts >>= fun _ => tick) b'.enterBlock stop' (left stop') :=
    (h stop').andThen fun _ => .tick
  have hstmts : Sim _ (buildStmts stmts) b'.enterBlock stop' _ :=
    buildStmts_sim stmts ha.enterBlock.sees ha.mode_eq ha.source_eq
  have hsim : Sim (scanStmts mode defs.taints stmts >>= fun _ => scanTick)
      (buildStmts stmts >>= fun _ => tick) b'.enterBlock stop' fun _ _ _ => True :=
    hstmts.bind fun _ _ _ _ _ => Sim.tick.mono fun _ _ _ _ => trivial
  rw [Leaves, Fallible.run_bind_ok (run_modifyBuilder _ b' stop'), ← bind_assoc]
  unfold Leaves at hinside
  unfold Sim at hsim
  unfold Scan.stops
  cases hr : (scanStmts mode defs.taints stmts >>= fun _ => scanTick).run stop' with
  | error v =>
    rw [hr] at hsim
    rcases hsim with ⟨abort, p, hrun, -⟩
    rw [hrun, henter] at hinside
    rw [Fallible.run_bind_error hrun]
    refine hinside.trans ⟨fun hclear => ⟨(henter.mpr hclear.1).of_enterBlock, ?_⟩, fun hclear => ?_⟩
    · simp [hclear.1, hclear.2]
    · simpa [and_comm] using hclear.2
  | ok x =>
    obtain ⟨a, stop''⟩ := x
    rw [hr] at hsim
    rcases hsim with ⟨v, b'', hrun, -⟩
    rw [hrun] at hinside
    rcases leaveBlock_ok stop'' hinside.2 with ⟨n, b₃, hleave, hstack⟩
    rw [Fallible.run_bind_ok hrun, hleave, hinside.1]
    exact ⟨by simp, hstack⟩

mutual

theorem buildStmt_leaves (stmt : Stmt) : ∀ {defs : Defs} {b : Builder}
    {stop : Option (Nat × Stop)}, Amid mode source defs b →
    Leaves (buildStmt stmt) b stop (leftStmt mode defs.taints stmt stop) := by
  intro defs b stop ha
  cases stmt with
  | assign name expr => exact ((KeepsStack.buildTerm expr).bind fun _ => .pure _).leaves b stop
  | let_ name expr => exact ((KeepsStack.buildTerm expr).bind fun _ => .pure _).leaves b stop
  | expr expr => exact ((KeepsStack.buildTerm expr).bind fun _ => .pure _).leaves b stop
  | when_ keyword loc cond block chain =>
    rw [buildStmt]
    refine Leaves.after (.buildTerm cond) (buildTerm_sim cond ha.sees ha.mode_eq ha.source_eq) ?_
    rintro a n _ stop₁ ⟨⟨fresh, rfl⟩, -, -⟩
    have ha₁ := ha.after (undefTerm defs.names cond) fresh
    have hblock : Sim _ (buildBlock (buildStmts block)) (b.after _ fresh) stop₁ _ :=
      Sim.block fun stop =>
        buildStmts_sim block ha₁.enterBlock.sees ha₁.enterBlock.mode_eq ha₁.enterBlock.source_eq
    refine (Leaves.block ha₁ fun stop => buildStmts_leaves block ha₁.enterBlock).bind hblock ?_
    rintro a m _ stop₂ ⟨⟨fresh', rfl⟩, -, -⟩
    refine (buildChain_leaves chain (ha₁.after _ fresh')).andThen fun _ => ?_
    exact KeepsStack.tick.bind fun _ => (KeepsStack.checkWhen keyword).bind fun _ =>
      (KeepsStack.makeNode _ _).bind fun _ => .pure _
termination_by structural stmt

theorem buildStmts_leaves (stmts : List Stmt) : ∀ {defs : Defs} {b : Builder}
    {stop : Option (Nat × Stop)}, Amid mode source defs b →
    Leaves (buildStmts stmts) b stop (leftStmts mode defs.taints stmts stop) := by
  intro defs b stop ha
  cases stmts with
  | nil => exact (KeepsStack.pure ()).leaves b stop
  | cons stmt stmts =>
    rw [buildStmts]
    refine (buildStmt_leaves stmt ha).bind (buildStmt_sim stmt ha.sees ha.mode_eq ha.source_eq) ?_
    rintro tainted st _ stop₁ ⟨⟨⟨fresh, rfl⟩, htree, htaint⟩, hvar⟩
    refine Leaves.after .tick .tick ?_
    rintro ⟨⟩ ⟨⟩ _ stop₂ rfl
    have ha₂ := (ha.after (undefStmt defs.names stmt) fresh).addStatement hvar
    rw [htree] at ha₂
    have hrest : Leaves (buildStmts stmts) _ stop₂ _ := buildStmts_leaves stmts ha₂
    rw [stmt.addTo_taints, ← htaint] at hrest
    exact hrest
termination_by structural stmts

theorem buildClause_leaves (clause : Clause) : ∀ {defs : Defs} {b : Builder}
    {stop : Option (Nat × Stop)}, Amid mode source defs b →
    Leaves (buildClause clause) b stop (leftClause mode defs.taints clause stop) := by
  intro defs b stop ha
  cases clause with
  | elif cond block =>
    rw [buildClause]
    refine Leaves.after (.buildTerm cond) (buildTerm_sim cond ha.sees ha.mode_eq ha.source_eq) ?_
    rintro a n _ stop₁ ⟨⟨fresh, rfl⟩, -, -⟩
    have ha₁ := ha.after (undefTerm defs.names cond) fresh
    exact (Leaves.block ha₁ fun stop => buildStmts_leaves block ha₁.enterBlock).andThen
      fun _ => .pure _
  | else_ block =>
    rw [buildClause]
    exact (Leaves.block ha fun stop => buildStmts_leaves block ha.enterBlock).andThen
      fun _ => .pure _
termination_by structural clause

theorem buildChain_leaves (chain : List Clause) : ∀ {defs : Defs} {b : Builder}
    {stop : Option (Nat × Stop)}, Amid mode source defs b →
    Leaves (buildChain chain) b stop (leftChain mode defs.taints chain stop) := by
  intro defs b stop ha
  cases chain with
  | nil => exact (KeepsStack.pure []).leaves b stop
  | cons clause chain =>
    rw [buildChain]
    refine (buildClause_leaves clause ha).bind
      (buildClause_sim clause ha.sees ha.mode_eq ha.source_eq) ?_
    rintro a n _ stop₁ ⟨⟨fresh, rfl⟩, -, -⟩
    exact (buildChain_leaves chain (ha.after _ fresh)).andThen fun _ => .pure _
termination_by structural chain

end

end Actions

end Athena

end JitFusion
