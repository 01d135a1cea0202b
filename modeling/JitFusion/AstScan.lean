/-
# What a build does with a text

The builder seen from the syntax.  Three readings of a tree say what its actions do:

* `undefinedRefs`: the identifiers used before any definition, in order.  The last of them is the
  one the builder reports.
* `tree`: the node built, from the trees of the definitions it refers to; `none` if there is a
  null pointer in it.
* `scan`: whether the actions run to the end.  It keeps one bit a name, whether its definition
  has a null pointer in it, and counts the actions up to where the parser gives up.

`buildStmts_sim` says that the actions do what the readings say.
-/
import JitFusion.Lib.Checked
import JitFusion.NodeClone

namespace JitFusion

namespace Athena

/-! ## 1. Identifiers -/

/-- An identifier of the text. -/
abbrev Ref := Location × String

mutual

/-- The identifiers that are not in `known`, in the order of the text. -/
def undefTerm (known : List String) : Term → List Ref
  | .identifier loc name => if name ∈ known then [] else [(loc, name)]
  | .paren term | .unary _ _ term => undefTerm known term
  | .binary _ _ left right | .in_ _ left right => undefTerm known left ++ undefTerm known right
  | .if_ _ args | .call _ _ args | .switch_ _ args => undefArgs known args
  | .literal _ _ | .list _ _ | .entryArg _ | .execCtx _ | .output _ => []

def undefArgs (known : List String) : List Term → List Ref
  | [] => []
  | arg :: args => undefTerm known arg ++ undefArgs known args

end

/-- The variable of a statement; empty if it has none. -/
def Stmt.var : Stmt → VarInfo
  | .assign name _ => { name }
  | .let_ name _ => { name, isConst := true }
  | .expr _ | .when_ _ _ _ _ _ => {}

def Stmt.isWhen : Stmt → Bool
  | .when_ _ _ _ _ _ => true
  | _ => false

/-- The name a statement defines. -/
def Stmt.defines (stmt : Stmt) : List String := if stmt.var.name = "" then [] else [stmt.var.name]

mutual

def undefStmt (known : List String) : Stmt → List Ref
  | .assign _ expr | .let_ _ expr | .expr expr => undefTerm known expr
  | .when_ _ _ cond block chain =>
    undefTerm known cond ++ (undefStmts known block ++ undefChain known chain)

/-- A statement sees the names the statements before it define. -/
def undefStmts (known : List String) : List Stmt → List Ref
  | [] => []
  | stmt :: stmts => undefStmt known stmt ++ undefStmts (stmt.defines ++ known) stmts

def undefClause (known : List String) : Clause → List Ref
  | .elif cond block => undefTerm known cond ++ undefStmts known block
  | .else_ block => undefStmts known block

def undefChain (known : List String) : List Clause → List Ref
  | [] => []
  | clause :: clauses => undefClause known clause ++ undefChain known clauses

end

/-- The identifiers a program uses before any definition. -/
def Program.undefinedRefs (p : Program) : List Ref := undefStmts [] p.statements

/-! ## 2. Trees -/

def Location.inSource (source : String) (loc : Location) : SourceLocation :=
  ⟨source, loc.beginLine, loc.beginCol, loc.endLine, loc.endCol⟩

/-- The definitions in sight, the last one first, with the trees of their expressions. -/
abbrev Defs := List (String × Option ExecNode)

section Trees

variable (mode : BuildMode) (source : String)

/-- A reference: by name in a pipeline, a copy of the definition in an expression. -/
def refTree (defs : Defs) (loc : Location) (name : String) : Option ExecNode :=
  (defs.lookup name).bind fun tree =>
    if mode = .kPipeline then some (.ref { loc := loc.inSource source } name)
    else tree.map fun e => setLocation (loc.inSource source) (cloned e)

mutual

def Term.tree (defs : Defs) : Term → Option ExecNode
  | .literal loc val => some (.constantValue { loc := loc.inSource source } val)
  | .list loc valList => some (.constantListValue { loc := loc.inSource source } valList)
  | .identifier loc name => refTree mode source defs loc name
  | .entryArg loc => some (.entryArgument { loc := loc.inSource source })
  | .execCtx loc => some (.execContext { loc := loc.inSource source })
  | .output loc => some (.output { loc := loc.inSource source })
  | .paren term => term.tree defs
  | .unary loc op term => (term.tree defs).map (.unaryOP { loc := loc.inSource source } op)
  | .binary loc op left right =>
    (left.tree defs).bind fun l =>
      (right.tree defs).map (.binaryOP { loc := loc.inSource source } op l)
  | .in_ loc left right =>
    (left.tree defs).bind fun l =>
      (right.tree defs).map fun r => .function { loc := loc.inSource source } "in" [l, r]
  | .if_ loc args => (argsTree defs args).map (.ifNode { loc := loc.inSource source })
  | .call loc name args => (argsTree defs args).map (.function { loc := loc.inSource source } name)
  | .switch_ loc args => (argsTree defs args).map (.switchNode { loc := loc.inSource source })

def argsTree (defs : Defs) : List Term → Option (List ExecNode)
  | [] => some []
  | arg :: args => (arg.tree defs).bind fun e => (argsTree defs args).map (e :: ·)

end

/-- The definitions after a statement with the tree `e`. -/
def Stmt.addTo (stmt : Stmt) (e : Option ExecNode) (defs : Defs) : Defs :=
  stmt.defines.map (·, e) ++ defs

mutual

def Stmt.tree (defs : Defs) : Stmt → Option ExecNode
  | .assign _ expr | .let_ _ expr | .expr expr => expr.tree mode source defs
  | .when_ _ loc cond block chain =>
    (cond.tree mode source defs).bind fun c => (stmtsTree defs block).bind fun args =>
      (chainTree defs chain).map fun rest =>
        .ifBlock { loc := loc.inSource source } (c :: .noOP {} args false :: rest)

/-- The statements of a `NoOPNode`. -/
def stmtsTree (defs : Defs) : List Stmt → Option (List (VarInfo × ExecNode))
  | [] => some []
  | stmt :: stmts =>
    (stmt.tree defs).bind fun e =>
      (stmtsTree (stmt.addTo (stmt.tree defs) defs) stmts).map ((stmt.var, e) :: ·)

def clauseTree (defs : Defs) : Clause → Option (List ExecNode)
  | .elif cond block =>
    (cond.tree mode source defs).bind fun c =>
      (stmtsTree defs block).map fun args => [c, .noOP {} args false]
  | .else_ block => (stmtsTree defs block).map fun args => [.noOP {} args false]

def chainTree (defs : Defs) : List Clause → Option (List ExecNode)
  | [] => some []
  | clause :: clauses =>
    (clauseTree defs clause).bind fun args => (chainTree defs clauses).map (args ++ ·)

end

/-- The definitions after some statements. -/
def defsAfter (defs : Defs) : List Stmt → Defs
  | [] => defs
  | stmt :: stmts => defsAfter (stmt.addTo (stmt.tree mode source defs) defs) stmts

end Trees

/-! ## 3. Whether the actions run to the end -/

inductive Verdict
  /-- A definition with a null pointer in it is copied. -/
  | derefs
  | stopped (why : Stop)
  /-- A when-block in an expression. -/
  | whenBlock
  deriving DecidableEq

/-- A reading that stops; its state is what is left until the parser gives up. -/
abbrev Scan (α : Type) := Checked.M (Option (Nat × Stop)) Verdict α

def scanTick : Scan Unit := do
  match ← get with
  | none => return ()
  | some (0, why) => throw (.stopped why)
  | some (n + 1, why) => set (some (n, why))

/-- For every definition in sight, whether there is a null pointer in its tree. -/
abbrev Taints := List (String × Bool)

section Scan

variable (mode : BuildMode)

mutual

/-- Whether the tree of a term has a null pointer in it. -/
def scanTerm (known : Taints) : Term → Scan Bool
  | .literal _ _ | .list _ _ | .entryArg _ | .execCtx _ | .output _ => return false
  | .identifier _ name => do
    scanTick
    match known.lookup name with
    | none => return true
    | some tainted =>
      if mode = .kPipeline then return false
      else if tainted then throw .derefs
      else return false
  | .paren term | .unary _ _ term => scanTerm known term
  | .binary _ _ left right | .in_ _ left right => do
    let a ← scanTerm known left
    let b ← scanTerm known right
    return a || b
  | .if_ _ args | .call _ _ args | .switch_ _ args => scanArgs known args

def scanArgs (known : Taints) : List Term → Scan Bool
  | [] => return false
  | arg :: args => do
    let a ← scanTerm known arg
    let b ← scanArgs known args
    return a || b

end

def scanBlock (stmts : Scan Bool) : Scan Bool := do
  scanTick
  let a ← stmts
  scanTick
  return a

mutual

def scanStmt (known : Taints) : Stmt → Scan Bool
  | .assign _ expr | .let_ _ expr | .expr expr => scanTerm mode known expr
  | .when_ _ _ cond block chain => do
    let a ← scanTerm mode known cond
    let b ← scanBlock (scanStmts known block)
    let c ← scanChain known chain
    scanTick
    if mode = .kExpression then throw .whenBlock
    return a || (b || c)

def scanStmts (known : Taints) : List Stmt → Scan Bool
  | [] => return false
  | stmt :: stmts => do
    let a ← scanStmt known stmt
    scanTick
    let b ← scanStmts (stmt.defines.map (·, a) ++ known) stmts
    return a || b

def scanClause (known : Taints) : Clause → Scan Bool
  | .elif cond block => do
    let a ← scanTerm mode known cond
    let b ← scanBlock (scanStmts known block)
    return a || b
  | .else_ block => scanBlock (scanStmts known block)

def scanChain (known : Taints) : List Clause → Scan Bool
  | [] => return false
  | clause :: clauses => do
    let a ← scanClause known clause
    let b ← scanChain known clauses
    return a || b

end

end Scan

/-- The verdict on a text: the statements, and where the parser gives up. -/
def verdict (mode : BuildMode) (parse : Parse) : Option Verdict :=
  match (scanStmts mode [] parse.program.statements).run parse.stop with
  | .error v => some v
  | .ok (_, some (_, why)) => some (.stopped why)
  | .ok (_, none) => none

/-! ## 4. The actions against the readings -/

/-- How a build ends when the verdict is not that it runs to the end. -/
def Verdict.Aborts : Verdict → Abort → Prop
  | .derefs, a => a = .nullDeref
  | .stopped (.syntaxError message), a => a = .status (.parseError message)
  | .stopped .exception, a => a = .exception
  | .whenBlock, a => ∃ message, a = .status (.parseError message)

/-- The actions `m` do what the reading `r` says: where it stops they abort, and where it yields
a value they end in a value and a builder that `post` relates to it. -/
def Sim {α β : Type} (r : Scan α) (m : M β) (b : Builder) (stop : Option (Nat × Stop))
    (post : α → β → Builder → Prop) : Prop :=
  match r.run stop with
  | .ok (a, stop') => ∃ v b', m.run ⟨b, stop⟩ = (.ok v, ⟨b', stop'⟩) ∧ post a v b'
  | .error v => ∃ abort p, m.run ⟨b, stop⟩ = (.error abort, p) ∧ v.Aborts abort

namespace Sim

variable {α α' β β' : Type} {r : Scan α} {m : M β} {b b' : Builder} {stop : Option (Nat × Stop)}
  {post post' : α → β → Builder → Prop} {post₂ : α' → β' → Builder → Prop}

theorem pure {a : α} {v : β} (h : post a v b) :
    Sim (pure a : Scan α) (pure v : M β) b stop post := ⟨v, b, rfl, h⟩

theorem mono (h : Sim r m b stop post) (hp : ∀ a v b', post a v b' → post' a v b') :
    Sim r m b stop post' := by
  unfold Sim at h ⊢
  cases hr : r.run stop with
  | error v =>
    rw [hr] at h
    exact h
  | ok p =>
    rw [hr] at h
    rcases h with ⟨v, b', hrun, hpost⟩
    exact ⟨v, b', hrun, hp _ _ _ hpost⟩

/-- **Sequencing.** -/
theorem bind (h : Sim r m b stop post) {k : α → Scan α'} {f : β → M β'}
    (hk : ∀ a v b' stop', post a v b' → Sim (k a) (f v) b' stop' post₂) :
    Sim (r >>= k) (m >>= f) b stop post₂ := by
  unfold Sim at h
  cases hr : r.run stop with
  | error v =>
    rw [hr] at h
    rcases h with ⟨abort, p, hrun, hv⟩
    have hbind : (r >>= k).run stop = .error v := by
      rw [StateT.run_bind, hr]
      rfl
    unfold Sim
    rw [hbind]
    exact ⟨abort, p, Fallible.run_bind_error hrun, hv⟩
  | ok p =>
    obtain ⟨a, stop'⟩ := p
    rw [hr] at h
    rcases h with ⟨v, b', hrun, hpost⟩
    have hbind : (r >>= k).run stop = (k a).run stop' := Checked.run_bind_ok hr
    have h' := hk a v b' stop' hpost
    unfold Sim at h' ⊢
    rw [hbind, Fallible.run_bind_ok hrun]
    exact h'

/-- A step the reading has no part in. -/
theorem silent {v : β} {f : β → M β'} {r : Scan α'}
    (hm : ∀ stop, m.run ⟨b, stop⟩ = (.ok v, ⟨b', stop⟩)) (h : Sim r (f v) b' stop post₂) :
    Sim r (m >>= f) b stop post₂ := by
  unfold Sim at h ⊢
  rw [Fallible.run_bind_ok (hm stop)]
  exact h

/-- The last step, with a value the reading has already. -/
theorem last {v : β} (hm : ∀ stop, m.run ⟨b, stop⟩ = (.ok v, ⟨b', stop⟩)) {a : α}
    (h : post a v b') : Sim (Pure.pure a) m b stop post := ⟨v, b', hm stop, h⟩

/-- More steps after the reading has its value. -/
theorem andThen (h : Sim r m b stop post) {f : β → M β'} {post₂ : α → β' → Builder → Prop}
    (hf : ∀ a v b', post a v b' →
      ∃ v' b'', (∀ stop, (f v).run ⟨b', stop⟩ = (.ok v', ⟨b'', stop⟩)) ∧ post₂ a v' b'') :
    Sim r (m >>= f) b stop post₂ := by
  have hb : Sim (r >>= fun a => Pure.pure a) (m >>= f) b stop post₂ := by
    refine h.bind fun a v b' stop' hpost => ?_
    rcases hf a v b' hpost with ⟨v', b'', hrun, hpost'⟩
    exact last hrun hpost'
  rwa [bind_pure] at hb

theorem giveUp (why : Stop) :
    Sim (throw (.stopped why) : Scan α) (Athena.giveUp why : M β) b stop post := by
  cases why with
  | syntaxError message => exact ⟨_, _, rfl, rfl⟩
  | exception => exact ⟨_, _, rfl, rfl⟩

/-- Counting an action. -/
theorem tick : Sim scanTick Athena.tick b stop fun _ _ b' => b' = b := by
  rcases stop with - | ⟨n, why⟩
  · exact ⟨(), b, rfl, rfl⟩
  · cases n with
    | zero =>
      cases why with
      | syntaxError message => exact ⟨_, _, rfl, rfl⟩
      | exception => exact ⟨_, _, rfl, rfl⟩
    | succ n => exact ⟨(), b, rfl, rfl⟩

end Sim

/-! ## 5. Terms -/

namespace Defs

def names (defs : Defs) : List String := defs.map Prod.fst

def taints (defs : Defs) : Taints := defs.map fun d => (d.1, d.2.isNone)

theorem mem_names_iff {name : String} : ∀ {defs : Defs},
    name ∈ defs.names ↔ (defs.lookup name).isSome := by
  intro defs
  induction defs with
  | nil => simp [names]
  | cons d defs ih =>
    rw [names, List.map_cons, List.mem_cons, List.lookup_cons, ← names, ih]
    by_cases h : name = d.1
    · simp [h]
    · have hb : (name == d.1) = false := by simpa using h
      simp [h, hb]

theorem lookup_taints (name : String) : ∀ defs : Defs,
    defs.taints.lookup name = (defs.lookup name).map Option.isNone := by
  intro defs
  induction defs with
  | nil => rfl
  | cons d defs ih =>
    rw [taints, List.map_cons, List.lookup_cons, List.lookup_cons, ← taints, ih]
    split <;> rfl

end Defs

/-- The blocks define what `defs` says. -/
def Sees (defs : Defs) (blocks : List BlockContext) : Prop :=
  ∀ name, match Builder.findVar name blocks with
    | none => defs.lookup name = none
    | some (c, i) =>
      ∃ st, c.statements[i]? = some st ∧ defs.lookup name = some st.expression.toExecNode

namespace Builder

/-- The error text after some undefined identifiers. -/
def message (b : Builder) (refs : List Ref) : String :=
  match refs.getLast? with
  | none => b.customErrorMessage
  | some (loc, name) => b.undefinedMessage name loc

/-- The builder after some undefined identifiers, with new nodes. -/
def after (b : Builder) (refs : List Ref) (fresh : Nat) : Builder :=
  { b with customErrorMessage := b.message refs, fresh }

theorem message_append (b : Builder) (refs refs' : List Ref) (fresh : Nat) :
    (b.after refs fresh).message refs' = b.message (refs ++ refs') := by
  unfold message
  rw [List.getLast?_append]
  cases refs'.getLast? with
  | none => rfl
  | some _ => rfl

theorem after_after (b : Builder) (refs refs' : List Ref) (fresh fresh' : Nat) :
    (b.after refs fresh).after refs' fresh' = b.after (refs ++ refs') fresh' := by
  rw [after, message_append]
  rfl

end Builder

/-- What a term leaves: the builder with the undefined identifiers `refs`, and a tree. -/
structure Built {γ : Type} (b : Builder) (refs : List Ref) (tree : Option γ) (tainted : Bool)
    (got : Option γ) (b' : Builder) : Prop where
  leaves : ∃ fresh, b' = b.after refs fresh
  builds : got = tree
  taints : tainted = tree.isNone

theorem run_makeNode (loc : Location) (node : Nat → NodeInfo → NodePtr) (b : Builder)
    (stop : Option (Nat × Stop)) : (makeNode loc node).run ⟨b, stop⟩ =
      (.ok (node b.fresh { loc := loc.inSource b.sourceCode }),
        ⟨{ b with fresh := b.fresh + 1 }, stop⟩) := rfl

theorem run_modifyBuilder (f : Builder → Builder) (b : Builder) (stop : Option (Nat × Stop)) :
    (modifyBuilder f).run ⟨b, stop⟩ = (.ok (), ⟨f b, stop⟩) := rfl

section Terms

variable {mode : BuildMode} {source : String} {defs : Defs} {b : Builder}
  {stop : Option (Nat × Stop)}

/-- A node with one thing below it. -/
theorem Sim.node {α γ : Type} {r : Scan Bool} {m : M α} {refs : List Ref} {tree : Option γ}
    {got : α → Option γ} (hs : b.sourceCode = source)
    (h : Sim r m b stop fun tainted v b' => Built b refs tree tainted (got v) b')
    (loc : Location) {node : α → Nat → NodeInfo → NodePtr} {f : NodeInfo → γ → ExecNode}
    (hn : ∀ v a info, (node v a info).toExecNode = (got v).map (f info)) :
    Sim r (m >>= fun v => makeNode loc (node v)) b stop fun tainted n b' =>
      Built b refs (tree.map (f { loc := loc.inSource source })) tainted n.toExecNode b' := by
  refine h.andThen fun tainted v b' hb => ?_
  rcases hb with ⟨⟨fresh, rfl⟩, htree, htaint⟩
  refine ⟨_, _, fun stop => run_makeNode loc (node v) _ stop, ⟨fresh + 1, rfl⟩, ?_, ?_⟩
  · rw [hn, htree, ← hs]
    rfl
  · rw [htaint, Option.isNone_map]

/-- A leaf. -/
theorem Sim.leaf (hs : b.sourceCode = source) (loc : Location) {node : Nat → NodeInfo → NodePtr}
    {f : NodeInfo → ExecNode} (hn : ∀ a info, (node a info).toExecNode = some (f info)) :
    Sim (Pure.pure false) (makeNode loc node) b stop fun tainted n b' =>
      Built b [] (some (f { loc := loc.inSource source })) tainted n.toExecNode b' := by
  refine Sim.last (fun stop => run_makeNode loc node b stop) ⟨⟨b.fresh + 1, rfl⟩, ?_, rfl⟩
  rw [hn, hs]

/-- Two things one after the other. -/
theorem Sim.pair {α β γ δ ε ζ : Type} {r r' : Scan Bool} {m : M α} {m' : M β}
    {refs refs' : List Ref} {tree : Option γ} {tree' : Option δ} {got : α → Option γ}
    {got' : β → Option δ}
    (h : Sim r m b stop fun tainted v b' => Built b refs tree tainted (got v) b')
    (h' : ∀ fresh stop', Sim r' m' (b.after refs fresh) stop' fun tainted v b' =>
      Built (b.after refs fresh) refs' tree' tainted (got' v) b')
    {join : γ → δ → ζ} {pair : α → β → ε} {gotPair : ε → Option ζ}
    (hp : ∀ v w, gotPair (pair v w) = (got v).bind fun x => (got' w).map (join x)) :
    Sim (r >>= fun a => r' >>= fun c => Pure.pure (a || c))
      (m >>= fun v => m' >>= fun w => Pure.pure (pair v w)) b stop fun tainted v b' =>
        Built b (refs ++ refs') (tree.bind fun x => tree'.map (join x)) tainted (gotPair v) b' := by
  refine h.bind fun a v b₁ stop₁ hb => ?_
  rcases hb with ⟨⟨fresh, rfl⟩, htree, htaint⟩
  refine (h' fresh stop₁).bind fun a' w b₂ stop₂ hb' => ?_
  rcases hb' with ⟨⟨fresh', rfl⟩, htree', htaint'⟩
  refine Sim.pure ⟨⟨fresh', b.after_after refs refs' fresh fresh'⟩, ?_, ?_⟩
  · rw [hp, htree, htree']
  · rw [htaint, htaint']
    cases tree with
    | none => rfl
    | some x => cases tree' <;> rfl

/-- A node with two things below it. -/
theorem Sim.nodePair {r r' : Scan Bool} {m m' : M NodePtr} {refs refs' : List Ref}
    {tree tree' : Option ExecNode} (hs : b.sourceCode = source)
    (h : Sim r m b stop fun tainted n b' => Built b refs tree tainted n.toExecNode b')
    (h' : ∀ fresh stop', Sim r' m' (b.after refs fresh) stop' fun tainted n b' =>
      Built (b.after refs fresh) refs' tree' tainted n.toExecNode b')
    (loc : Location) {node : NodePtr → NodePtr → Nat → NodeInfo → NodePtr}
    {f : NodeInfo → ExecNode → ExecNode → ExecNode}
    (hn : ∀ v w a info, (node v w a info).toExecNode =
      v.toExecNode.bind fun x => w.toExecNode.map (f info x)) :
    Sim (r >>= fun a => r' >>= fun c => Pure.pure (a || c))
      (m >>= fun v => m' >>= fun w => makeNode loc (node v w)) b stop fun tainted n b' =>
        Built b (refs ++ refs')
          (tree.bind fun x => tree'.map (f { loc := loc.inSource source } x)) tainted
          n.toExecNode b' := by
  let both (p : NodePtr × NodePtr) : Option (ExecNode × ExecNode) :=
    p.1.toExecNode.bind fun x => p.2.toExecNode.map (Prod.mk x)
  have hboth : ∀ v w, both (v, w) = v.toExecNode.bind fun x => w.toExecNode.map (Prod.mk x) :=
    fun _ _ => rfl
  have hp := Sim.pair h h' hboth
  have hn' : ∀ p a info, (node p.1 p.2 a info).toExecNode =
      (both p).map fun q => f info q.1 q.2 := by
    intro p a info
    rw [hn]
    simp only [both]
    cases p.1.toExecNode with
    | none => rfl
    | some x => cases p.2.toExecNode <;> rfl
  have hnode := hp.node (f := fun info p => f info p.1 p.2) hs loc hn'
  have htree : Option.map (fun p : ExecNode × ExecNode => f { loc := loc.inSource source } p.1 p.2)
      (tree.bind fun x => tree'.map (Prod.mk x)) =
      tree.bind fun x => tree'.map (f { loc := loc.inSource source } x) := by
    cases tree with
    | none => rfl
    | some x => cases tree' <;> rfl
  simpa only [bind_assoc, pure_bind, htree] using hnode

theorem run_makeRefNode_none {loc : Location} {name : String}
    (h : Builder.findVar name b.blocks = none) : (makeRefNode loc name).run ⟨b, stop⟩ =
      (.ok .null, ⟨b.after [(loc, name)] b.fresh, stop⟩) := by
  rw [makeRefNode, Fallible.run_bind_ok (Fallible.run_get _)]
  simp only [h]
  rfl

theorem run_makeRefNode_pipeline {loc : Location} {name : String} {c : BlockContext} {i : Nat}
    (h : Builder.findVar name b.blocks = some (c, i)) (hm : b.buildMode = .kPipeline) :
    (makeRefNode loc name).run ⟨b, stop⟩ =
      (makeNode loc fun a info => .ref a info name).run ⟨b, stop⟩ := by
  rw [makeRefNode, Fallible.run_bind_ok (Fallible.run_get _)]
  simp only [h, if_pos hm]

theorem run_makeRefNode_expression (loc : Location) {name : String} {c : BlockContext} {i : Nat}
    {st : Statement} (h : Builder.findVar name b.blocks = some (c, i))
    (hst : c.statements[i]? = some st) (hm : b.buildMode ≠ .kPipeline)
    (stop : Option (Nat × Stop)) :
    (makeRefNode loc name).run ⟨b, stop⟩ =
      match st.expression.clone.run b.fresh with
      | none => (.error .nullDeref, ⟨b, stop⟩)
      | some (n, fresh) => (.ok (n.withLoc (b.locate loc)), ⟨{ b with fresh }, stop⟩) := by
  rw [makeRefNode, Fallible.run_bind_ok (Fallible.run_get _)]
  simp only [h, hst, if_neg hm]
  rw [liftAlloc, bind_assoc, Fallible.run_bind_ok (Fallible.run_get _)]
  cases hc : st.expression.clone.run b.fresh with
  | none => rfl
  | some r => rfl

/-- **An identifier.** -/
theorem makeRefNode_sim (hd : Sees defs b.blocks) (hm : b.buildMode = mode)
    (hs : b.sourceCode = source) (loc : Location) (name : String) :
    Sim (scanTerm mode defs.taints (.identifier loc name)) (buildTerm (.identifier loc name)) b stop
      fun tainted n b' => Built b (undefTerm defs.names (.identifier loc name))
        (refTree mode source defs loc name) tainted n.toExecNode b' := by
  rw [scanTerm, buildTerm, undefTerm, refTree, Defs.lookup_taints]
  refine Sim.tick.bind ?_
  rintro ⟨⟩ ⟨⟩ b' stop' rfl
  have hname := hd name
  cases hv : Builder.findVar name b'.blocks with
  | none =>
    rw [hv] at hname
    have hout : name ∉ defs.names := by rw [Defs.mem_names_iff, hname]; simp
    rw [if_neg hout, hname]
    exact Sim.last (fun stop => run_makeRefNode_none hv) ⟨⟨b'.fresh, rfl⟩, rfl, rfl⟩
  | some ci =>
    obtain ⟨c, i⟩ := ci
    rw [hv] at hname
    rcases hname with ⟨st, hst, hlook⟩
    have hin : name ∈ defs.names := by rw [Defs.mem_names_iff, hlook]; rfl
    rw [if_pos hin, hlook]
    simp only [Option.map_some, Option.bind_some]
    by_cases hp : mode = .kPipeline
    · rw [if_pos hp, if_pos hp]
      refine Sim.last (fun stop => (run_makeRefNode_pipeline hv (hm.trans hp)).trans
        (run_makeNode _ _ _ _)) ⟨⟨b'.fresh + 1, rfl⟩, ?_, rfl⟩
      rw [← hs]
      rfl
    · rw [if_neg hp, if_neg hp]
      have hrun := fun stop => run_makeRefNode_expression loc hv hst (hm ▸ hp) stop
      have hcopy := NodePtr.clone_copies st.expression b'.fresh
      cases he : st.expression.toExecNode with
      | none =>
        rw [he] at hcopy
        simp only [hcopy] at hrun
        exact ⟨_, _, hrun stop', rfl⟩
      | some e =>
        rw [he] at hcopy
        rcases hcopy with ⟨n, fresh, hclone, hnew, -⟩
        simp only [hclone] at hrun
        refine Sim.last hrun ⟨⟨fresh, rfl⟩, ?_, rfl⟩
        rw [NodePtr.toExecNode_withLoc, hnew, ← hs]
        rfl

mutual

theorem buildTerm_sim (t : Term) : ∀ {b : Builder} {stop : Option (Nat × Stop)},
    Sees defs b.blocks → b.buildMode = mode → b.sourceCode = source →
    Sim (scanTerm mode defs.taints t) (buildTerm t) b stop fun tainted n b' =>
      Built b (undefTerm defs.names t) (t.tree mode source defs) tainted n.toExecNode b' := by
  intro b stop hd hm hs
  cases t with
  | literal loc val =>
    rw [scanTerm, buildTerm]
    exact .leaf (f := (.constantValue · val)) hs loc fun _ _ => rfl
  | list loc valList =>
    rw [scanTerm, buildTerm]
    exact .leaf (f := (.constantListValue · valList)) hs loc fun _ _ => rfl
  | entryArg loc =>
    rw [scanTerm, buildTerm]
    exact .leaf (f := .entryArgument) hs loc fun _ _ => rfl
  | execCtx loc =>
    rw [scanTerm, buildTerm]
    exact .leaf (f := .execContext) hs loc fun _ _ => rfl
  | output loc =>
    rw [scanTerm, buildTerm]
    exact .leaf (f := .output) hs loc fun _ _ => rfl
  | identifier loc name => exact makeRefNode_sim hd hm hs loc name
  | paren term => exact buildTerm_sim term hd hm hs
  | unary loc op term =>
    rw [scanTerm, buildTerm]
    exact (buildTerm_sim term hd hm hs).node (f := (.unaryOP · op ·)) hs loc fun _ _ _ => rfl
  | binary loc op left right =>
    rw [scanTerm, buildTerm]
    exact Sim.nodePair (f := (.binaryOP · op · ·)) hs (buildTerm_sim left hd hm hs)
      (fun fresh stop' => buildTerm_sim right hd hm hs) loc fun _ _ _ _ => rfl
  | in_ loc left right =>
    rw [scanTerm, buildTerm]
    refine Sim.nodePair (f := (.function · "in" [·, ·])) hs (buildTerm_sim left hd hm hs)
      (fun fresh stop' => buildTerm_sim right hd hm hs) loc fun v w a info => ?_
    simp only [NodePtr.toExecNode, NodePtr.toExecNodes]
    cases v.toExecNode with
    | none => rfl
    | some x => cases w.toExecNode <;> rfl
  | if_ loc args =>
    rw [scanTerm, buildTerm]
    exact (buildArgs_sim args hd hm hs).node (f := .ifNode) hs loc fun _ _ _ => rfl
  | call loc name args =>
    rw [scanTerm, buildTerm]
    exact (buildArgs_sim args hd hm hs).node (f := (.function · name ·)) hs loc fun _ _ _ => rfl
  | switch_ loc args =>
    rw [scanTerm, buildTerm]
    exact (buildArgs_sim args hd hm hs).node (f := .switchNode) hs loc fun _ _ _ => rfl
termination_by structural t

theorem buildArgs_sim (args : List Term) : ∀ {b : Builder} {stop : Option (Nat × Stop)},
    Sees defs b.blocks → b.buildMode = mode → b.sourceCode = source →
    Sim (scanArgs mode defs.taints args) (buildArgs args) b stop fun tainted l b' =>
      Built b (undefArgs defs.names args) (argsTree mode source defs args) tainted
        (NodePtr.toExecNodes l) b' := by
  intro b stop hd hm hs
  cases args with
  | nil => exact Sim.pure ⟨⟨b.fresh, rfl⟩, rfl, rfl⟩
  | cons arg args =>
    exact Sim.pair (buildTerm_sim arg hd hm hs) (fun fresh stop' => buildArgs_sim args hd hm hs)
      fun _ _ => rfl
termination_by structural args

end

end Terms

/-! ## 6. Statements -/

namespace Stmt

theorem addTo_names (stmt : Stmt) (e : Option ExecNode) (defs : Defs) :
    (stmt.addTo e defs).names = stmt.defines ++ defs.names := by
  unfold addTo Defs.names
  rw [List.map_append, List.map_map]
  simp [Function.comp_def]

theorem addTo_taints (stmt : Stmt) (e : Option ExecNode) (defs : Defs) :
    (stmt.addTo e defs).taints = stmt.defines.map (·, e.isNone) ++ defs.taints := by
  unfold addTo Defs.taints
  rw [List.map_append, List.map_map]
  rfl

end Stmt

/-- What the statement is in a `NoOPNode`. -/
def Statement.arg (st : Statement) : VarInfo × NodePtr :=
  ({ name := st.varName, isConst := st.isConst }, st.expression)

namespace NodePtr

theorem toExecNodes_two (n n' : NodePtr) : toExecNodes [n, n'] =
    n.toExecNode.bind fun e => n'.toExecNode.map fun e' => [e, e'] := by
  simp only [toExecNodes]
  cases n.toExecNode with
  | none => rfl
  | some e => cases n'.toExecNode <;> rfl

theorem toExecNodes_append (l l' : List NodePtr) : toExecNodes (l ++ l') =
    (toExecNodes l).bind fun es => (toExecNodes l').map (es ++ ·) := by
  induction l with
  | nil => simp [toExecNodes]
  | cons n l ih =>
    simp only [List.cons_append, toExecNodes, ih]
    cases n.toExecNode with
    | none => rfl
    | some e =>
      cases toExecNodes l with
      | none => rfl
      | some es => cases toExecNodes l' <;> rfl

end NodePtr

namespace Sees

variable {defs : Defs} {c : BlockContext} {cs : List BlockContext}

/-- A new block defines nothing. -/
theorem enter (h : Sees defs cs) : Sees defs ({} :: cs) := by
  intro name
  have hname := h name
  have hfind : Builder.findVar name ({} :: cs) = Builder.findVar name cs := by
    rw [Builder.findVar, AList.lookup_empty]
  rw [hfind]
  exact hname

/-- A new statement defines its name. -/
theorem addStatement (h : Sees defs (c :: cs)) (st : Statement) (stmt : Stmt)
    (hn : st.varName = stmt.var.name) :
    Sees (stmt.addTo st.expression.toExecNode defs) (c.addStatement st :: cs) := by
  intro name
  have hname := h name
  have hget : ∀ (i : Nat) (x : Statement), c.statements[i]? = some x →
      (c.statements ++ [st])[i]? = some x := by
    intro i x hx
    rw [List.getElem?_append_left (List.getElem?_eq_some_iff.mp hx).1, hx]
  have hkeep : ∀ {defs' : Defs}, defs'.lookup name = defs.lookup name →
      (c.addStatement st).var2index.lookup name = c.var2index.lookup name →
      match Builder.findVar name (c.addStatement st :: cs) with
      | none => defs'.lookup name = none
      | some (c, i) =>
        ∃ st, c.statements[i]? = some st ∧ defs'.lookup name = some st.expression.toExecNode := by
    intro defs' hdefs hlook
    rw [Builder.findVar] at hname ⊢
    rw [hlook, hdefs]
    cases hi : c.var2index.lookup name with
    | none =>
      rw [hi] at hname
      exact hname
    | some i =>
      rw [hi] at hname
      rcases hname with ⟨x, hx, hlx⟩
      exact ⟨x, hget i x hx, hlx⟩
  unfold Stmt.addTo Stmt.defines
  by_cases hv : st.varName = ""
  · rw [← hn, if_pos hv]
    refine hkeep rfl ?_
    rw [BlockContext.addStatement, if_pos hv]
  · rw [← hn, if_neg hv]
    by_cases he : name = st.varName
    · subst he
      rw [Builder.findVar, BlockContext.addStatement, if_neg hv, AList.lookup_insert]
      refine ⟨st, ?_, ?_⟩
      · simp
      · simp
    · refine hkeep ?_ ?_
      · have hb : (name == st.varName) = false := by simpa using he
        simp [List.lookup_cons, hb]
      · rw [BlockContext.addStatement, if_neg hv, AList.lookup_insert_ne he]

end Sees

/-- What some statements leave: the builder with the undefined identifiers `refs`, and the new
statements in the current block. -/
structure Extended (b : Builder) (refs : List Ref) (tree : Option (List (VarInfo × ExecNode)))
    (defs : Defs) (tainted : Bool) (b' : Builder) : Prop where
  leaves : ∃ fresh, b' = { b.after refs fresh with current := b'.current }
  builds : ∃ sts : List Statement, b'.current.statements = b.current.statements ++ sts ∧
    NodePtr.toExecStmts (sts.map Statement.arg) = tree
  sees : Sees defs b'.blocks
  taints : tainted = tree.isNone

/-- A statement, and the statements after it. -/
theorem Extended.cons {b b₁ b₂ : Builder} {refs refs' : List Ref} {stmt : Stmt} {st : Statement}
    {tree : Option ExecNode} {trees : Option (List (VarInfo × ExecNode))} {defs : Defs}
    {tainted : Bool} {fresh : Nat} (htree : st.expression.toExecNode = tree)
    (hvar : ({ name := st.varName, isConst := st.isConst } : VarInfo) = stmt.var)
    (hb : b₁ = b.after refs fresh)
    (h : Extended { b₁ with current := b₁.current.addStatement st } refs' trees defs tainted b₂) :
    Extended b (refs ++ refs') (tree.bind fun e => trees.map ((stmt.var, e) :: ·)) defs
      (tree.isNone || tainted) b₂ := by
  rcases h with ⟨⟨fresh', hleaves⟩, ⟨sts, hsts, htrees⟩, hsees, htaints⟩
  subst hb
  refine ⟨⟨fresh', ?_⟩, ⟨st :: sts, ?_, ?_⟩, hsees, ?_⟩
  · rw [hleaves, ← Builder.after_after b refs refs' fresh fresh']
    rfl
  · rw [hsts]
    simp [BlockContext.addStatement, Builder.after]
  · rw [List.map_cons, Statement.arg, hvar, NodePtr.toExecStmts, htree, htrees]
  · rw [htaints]
    cases tree with
    | none => rfl
    | some e => simp

section Statements

variable {mode : BuildMode} {source : String} {defs : Defs} {b : Builder}
  {stop : Option (Nat × Stop)}

/-- The outer block is current again after `LeaveBlock`. -/
theorem run_leaveBlock (b : Builder) (refs : List Ref) (fresh : Nat) (c : BlockContext)
    (stop : Option (Nat × Stop)) :
    leaveBlock.run ⟨{ b.enterBlock.after refs fresh with current := c }, stop⟩ =
      (.ok (.noOP fresh {} c.args false), ⟨b.after refs (fresh + 1), stop⟩) := rfl

/-- A block: its statements, in a block of their own. -/
theorem Sim.block {stmts : List Stmt}
    (h : ∀ stop, Sim (scanStmts mode defs.taints stmts) (buildStmts stmts) b.enterBlock stop
      fun tainted _ b' => Extended b.enterBlock (undefStmts defs.names stmts)
        (stmtsTree mode source defs stmts) (defsAfter mode source defs stmts) tainted b') :
    Sim (scanBlock (scanStmts mode defs.taints stmts)) (buildBlock (buildStmts stmts)) b stop
      fun tainted n b' => Built b (undefStmts defs.names stmts)
        ((stmtsTree mode source defs stmts).map (.noOP {} · false)) tainted n.toExecNode b' := by
  rw [scanBlock, buildBlock]
  refine Sim.tick.bind ?_
  rintro ⟨⟩ ⟨⟩ b₁ stop₁ rfl
  refine Sim.silent (run_modifyBuilder Builder.enterBlock b₁) ((h stop₁).bind ?_)
  rintro tainted ⟨⟩ b₂ stop₂ hb
  refine Sim.tick.bind ?_
  rintro ⟨⟩ ⟨⟩ b₃ stop₃ rfl
  rcases hb with ⟨⟨fresh, hleaves⟩, ⟨sts, hsts, htree⟩, -, htaint⟩
  rw [hleaves]
  refine Sim.last (run_leaveBlock b₁ _ fresh _) ⟨⟨fresh + 1, rfl⟩, ?_, ?_⟩
  · rw [← htree, NodePtr.toExecNode, BlockContext.args, hsts]
    rfl
  · rw [htaint, Option.isNone_map]

/-- A node, and the nodes after it. -/
theorem Sim.cons {r r' : Scan Bool} {m : M NodePtr} {m' : M (List NodePtr)} {refs refs' : List Ref}
    {tree : Option ExecNode} {trees : Option (List ExecNode)}
    (h : Sim r m b stop fun tainted n b' => Built b refs tree tainted n.toExecNode b')
    (h' : ∀ fresh stop', Sim r' m' (b.after refs fresh) stop' fun tainted l b' =>
      Built (b.after refs fresh) refs' trees tainted (NodePtr.toExecNodes l) b') :
    Sim (r >>= fun a => r' >>= fun c => Pure.pure (a || c))
      (m >>= fun n => m' >>= fun l => Pure.pure (n :: l)) b stop fun tainted l b' =>
        Built b (refs ++ refs') (tree.bind fun e => trees.map (e :: ·)) tainted
          (NodePtr.toExecNodes l) b' :=
  Sim.pair h h' fun _ _ => rfl

theorem run_checkWhen (keyword : Location) (h : b.buildMode ≠ .kExpression)
    (stop : Option (Nat × Stop)) : (checkWhen keyword).run ⟨b, stop⟩ = (.ok (), ⟨b, stop⟩) := by
  rw [checkWhen, Fallible.run_bind_ok (Fallible.run_get _)]
  simp only [if_neg h]
  rfl

theorem run_checkWhen_error (keyword : Location) (h : b.buildMode = .kExpression)
    (stop : Option (Nat × Stop)) : ∃ message p,
      (checkWhen keyword).run ⟨b, stop⟩ = (.error (.status (.parseError message)), p) := by
  rw [checkWhen, Fallible.run_bind_ok (Fallible.run_get _)]
  simp only [if_pos h]
  exact ⟨_, _, rfl⟩

/-- The action of a when-block, after its condition, its block and the rest of its chain. -/
theorem finishWhen_sim (hm : b.buildMode = mode) (hs : b.sourceCode = source)
    (keyword loc : Location) {refs : List Ref} {trees : Option (List ExecNode)}
    {args : List NodePtr} {tainted : Bool} {b₁ : Builder}
    (hb : Built b refs trees tainted (NodePtr.toExecNodes args) b₁) (stop : Option (Nat × Stop)) :
    Sim (scanTick >>= fun _ =>
        if mode = .kExpression then (throw .whenBlock : Scan Unit) >>= fun _ => Pure.pure tainted
        else Pure.pure tainted)
      (tick >>= fun _ => checkWhen keyword >>= fun _ =>
        (makeNode loc fun a info => .ifBlock a info args) >>= fun node =>
          Pure.pure ({ expression := node } : Statement))
      b₁ stop fun tainted st b' =>
        Built b refs (trees.map (.ifBlock { loc := loc.inSource source })) tainted
          st.expression.toExecNode b' ∧
        ({ name := st.varName, isConst := st.isConst } : VarInfo) = {} := by
  refine Sim.tick.bind ?_
  rintro ⟨⟩ ⟨⟩ b₂ stop₂ rfl
  rcases hb with ⟨⟨fresh, rfl⟩, hbuilds, htaints⟩
  by_cases hexpr : mode = .kExpression
  · rw [if_pos hexpr]
    rcases run_checkWhen_error (b := b.after refs fresh) keyword (hm.trans hexpr) stop₂ with
      ⟨message, p, hrun⟩
    exact ⟨_, p, Fallible.run_bind_error hrun, message, rfl⟩
  · rw [if_neg hexpr]
    refine Sim.silent (run_checkWhen keyword fun h => hexpr (hm.symm.trans h)) ?_
    refine Sim.last (fun stop => (Fallible.run_bind_ok (run_makeNode _ _ _ stop)).trans rfl)
      ⟨⟨⟨fresh + 1, rfl⟩, ?_, ?_⟩, rfl⟩
    · rw [NodePtr.toExecNode, hbuilds, ← hs]
      rfl
    · rw [htaints, Option.isNone_map]

mutual

theorem buildStmt_sim (stmt : Stmt) : ∀ {defs : Defs} {b : Builder} {stop : Option (Nat × Stop)},
    Sees defs b.blocks → b.buildMode = mode → b.sourceCode = source →
    Sim (scanStmt mode defs.taints stmt) (buildStmt stmt) b stop fun tainted st b' =>
      Built b (undefStmt defs.names stmt) (stmt.tree mode source defs) tainted
        st.expression.toExecNode b' ∧
      ({ name := st.varName, isConst := st.isConst } : VarInfo) = stmt.var := by
  intro defs b stop hd hm hs
  cases stmt with
  | assign name expr =>
    rw [scanStmt, buildStmt]
    refine (buildTerm_sim expr hd hm hs).andThen fun tainted n b' hb => ?_
    exact ⟨_, b', fun stop => rfl, hb, rfl⟩
  | let_ name expr =>
    rw [scanStmt, buildStmt]
    refine (buildTerm_sim expr hd hm hs).andThen fun tainted n b' hb => ?_
    exact ⟨_, b', fun stop => rfl, hb, rfl⟩
  | expr expr =>
    rw [scanStmt, buildStmt]
    refine (buildTerm_sim expr hd hm hs).andThen fun tainted n b' hb => ?_
    exact ⟨_, b', fun stop => rfl, hb, rfl⟩
  | when_ keyword loc cond block chain =>
    rw [scanStmt, buildStmt]
    have hcond : Sim _ _ b stop _ := buildTerm_sim cond hd hm hs
    have hargs := hcond.cons fun fresh stop' =>
      Sim.cons (Sim.block fun stop => buildStmts_sim block hd.enter hm hs) fun fresh stop' =>
        buildChain_sim chain hd hm hs
    have hall := hargs.bind fun tainted args b₁ stop₁ hb =>
      finishWhen_sim hm hs keyword loc hb stop₁
    simp only [bind_assoc, pure_bind] at hall
    refine hall.mono fun tainted st b' hb => ?_
    rw [undefStmt, Stmt.tree]
    refine ⟨?_, hb.2⟩
    simpa only [Option.map_bind, Option.bind_map, Option.map_map, Function.comp_def] using hb.1
termination_by structural stmt

theorem buildStmts_sim (stmts : List Stmt) : ∀ {defs : Defs} {b : Builder}
    {stop : Option (Nat × Stop)},
    Sees defs b.blocks → b.buildMode = mode → b.sourceCode = source →
    Sim (scanStmts mode defs.taints stmts) (buildStmts stmts) b stop fun tainted _ b' =>
      Extended b (undefStmts defs.names stmts) (stmtsTree mode source defs stmts)
        (defsAfter mode source defs stmts) tainted b' := by
  intro defs b stop hd hm hs
  cases stmts with
  | nil =>
    rw [scanStmts, buildStmts]
    exact Sim.pure ⟨⟨b.fresh, rfl⟩, ⟨[], by simp, rfl⟩, hd, rfl⟩
  | cons stmt stmts =>
    rw [scanStmts, buildStmts]
    refine (buildStmt_sim stmt hd hm hs).bind fun tainted st b₁ stop₁ hst => ?_
    rcases hst with ⟨⟨⟨fresh, hb₁⟩, htree, htaint⟩, hvar⟩
    refine Sim.tick.bind ?_
    rintro ⟨⟩ ⟨⟩ b₂ stop₂ rfl
    have hd₂ : Sees (stmt.addTo (stmt.tree mode source defs) defs)
        (b₂.current.addStatement st :: b₂.blockStack) := by
      rw [← htree, hb₁]
      exact hd.addStatement st stmt (congrArg VarInfo.name hvar)
    rw [htaint, ← stmt.addTo_taints]
    have hadd := run_modifyBuilder (fun b => { b with current := b.current.addStatement st }) b₂
    refine Sim.silent hadd ?_
    rw [← bind_pure (buildStmts stmts)]
    refine (buildStmts_sim stmts hd₂ ?_ ?_).bind ?_
    · rw [hb₁]
      exact hm
    · rw [hb₁]
      exact hs
    rintro tainted' ⟨⟩ b₃ stop₃ hext
    rw [stmt.addTo_names] at hext
    exact Sim.pure (hext.cons htree hvar hb₁)
termination_by structural stmts

theorem buildClause_sim (clause : Clause) : ∀ {defs : Defs} {b : Builder}
    {stop : Option (Nat × Stop)},
    Sees defs b.blocks → b.buildMode = mode → b.sourceCode = source →
    Sim (scanClause mode defs.taints clause) (buildClause clause) b stop fun tainted l b' =>
      Built b (undefClause defs.names clause) (clauseTree mode source defs clause) tainted
        (NodePtr.toExecNodes l) b' := by
  intro defs b stop hd hm hs
  cases clause with
  | elif cond block =>
    rw [scanClause, buildClause]
    refine Sim.mono (Sim.pair (buildTerm_sim cond hd hm hs) (fun fresh stop' =>
      Sim.block fun stop => buildStmts_sim block hd.enter hm hs) NodePtr.toExecNodes_two) ?_
    intro tainted l b' hb
    simpa [undefClause, clauseTree, Option.map_map, Function.comp_def] using hb
  | else_ block =>
    rw [scanClause, buildClause]
    refine Sim.andThen (Sim.block fun stop => buildStmts_sim block hd.enter hm hs) ?_
    intro tainted n b' hb
    rcases hb with ⟨hleaves, hbuilds, htaints⟩
    refine ⟨[n], b', fun stop => rfl, hleaves, ?_, ?_⟩
    · rw [NodePtr.toExecNodes, NodePtr.toExecNodes, hbuilds, clauseTree]
      cases stmtsTree mode source defs block <;> rfl
    · rw [htaints, clauseTree]
      simp
termination_by structural clause

theorem buildChain_sim (chain : List Clause) : ∀ {defs : Defs} {b : Builder}
    {stop : Option (Nat × Stop)},
    Sees defs b.blocks → b.buildMode = mode → b.sourceCode = source →
    Sim (scanChain mode defs.taints chain) (buildChain chain) b stop fun tainted l b' =>
      Built b (undefChain defs.names chain) (chainTree mode source defs chain) tainted
        (NodePtr.toExecNodes l) b' := by
  intro defs b stop hd hm hs
  cases chain with
  | nil =>
    rw [scanChain, buildChain]
    exact Sim.pure ⟨⟨b.fresh, rfl⟩, rfl, rfl⟩
  | cons clause chain =>
    rw [scanChain, buildChain]
    exact Sim.pair (buildClause_sim clause hd hm hs)
      (fun fresh stop' => buildChain_sim chain hd hm hs) NodePtr.toExecNodes_append
termination_by structural chain

end

end Statements

/-! ## 7. Readings that do not stop -/

def Taints.names (known : Taints) : List String := known.map Prod.fst

/-- How a reading ends: with a null pointer in a `dirty` text only, at a when-block in a text with
`blocks` only, and where the parser gives up only if it does. -/
def Ends (dirty blocks : Prop) (r : Scan Bool) : Prop :=
  ∀ stop, match r.run stop with
    | .ok (tainted, stop') => (tainted = true → dirty) ∧ stop'.map Prod.snd = stop.map Prod.snd
    | .error .derefs => dirty
    | .error (.stopped why) => stop.map Prod.snd = some why
    | .error .whenBlock => blocks

namespace Ends

variable {dirty blocks : Prop} {r r' : Scan Bool}

theorem pure {tainted : Bool} (h : tainted = true → dirty) :
    Ends dirty blocks (Pure.pure tainted : Scan Bool) := fun _ => ⟨h, rfl⟩

theorem derefs (h : dirty) : Ends dirty blocks (throw .derefs : Scan Bool) := fun _ => h

theorem whenBlock {α : Type} (h : blocks) {k : α → Scan Bool} :
    Ends dirty blocks ((throw .whenBlock : Scan α) >>= k) := fun _ => h

theorem bind (h : Ends dirty blocks r) {k : Bool → Scan Bool}
    (hk : ∀ tainted, (tainted = true → dirty) → Ends dirty blocks (k tainted)) :
    Ends dirty blocks (r >>= k) := by
  intro stop
  have hr := h stop
  rw [StateT.run_bind]
  cases hrun : r.run stop with
  | error v =>
    rw [hrun] at hr
    exact hr
  | ok p =>
    obtain ⟨tainted, stop'⟩ := p
    rw [hrun] at hr
    have hk' := hk tainted hr.1 stop'
    rw [hr.2] at hk'
    exact hk'

/-- Two things one after the other. -/
theorem or (h : Ends dirty blocks r) (h' : Ends dirty blocks r') :
    Ends dirty blocks (r >>= fun a => r' >>= fun c => Pure.pure (a || c)) := by
  refine h.bind fun a ha => h'.bind fun c hc => pure fun hac => ?_
  rcases Bool.or_eq_true _ _ |>.mp hac with h | h
  · exact ha h
  · exact hc h

/-- Counting an action. -/
theorem tick_bind {k : Unit → Scan Bool} (h : Ends dirty blocks (k ())) :
    Ends dirty blocks (scanTick >>= k) := by
  intro stop
  rcases stop with - | ⟨n, why⟩
  · exact h none
  · cases n with
    | zero => exact rfl
    | succ n => exact h (some (n, why))

end Ends

section Ends

variable {mode : BuildMode} {dirty blocks : Prop}

theorem Taints.not_mem_names {known : Taints} {name : String} (h : known.lookup name = none) :
    name ∉ known.names := by
  rw [List.lookup_eq_none_iff] at h
  intro hm
  rcases List.mem_map.mp hm with ⟨d, hd, rfl⟩
  simpa using h d hd

theorem Taints.mem_of_lookup {known : Taints} {name : String} {tainted : Bool}
    (h : known.lookup name = some tainted) : (name, tainted) ∈ known := by
  rcases List.lookup_eq_some_iff.mp h with ⟨l₁, l₂, rfl, -⟩
  simp

mutual

theorem scanTerm_ends {known : Taints} (hk : ∀ d ∈ known, d.2 = true → dirty) :
    ∀ t : Term, (undefTerm known.names t ≠ [] → dirty) → Ends dirty blocks (scanTerm mode known t)
  | .literal _ _, _ | .list _ _, _ | .entryArg _, _ | .execCtx _, _ | .output _, _ =>
    .pure fun h => nomatch h
  | .identifier loc name, hu => by
    rw [scanTerm]
    refine .tick_bind ?_
    cases hl : known.lookup name with
    | none =>
      refine .pure fun _ => hu ?_
      rw [undefTerm, if_neg (Taints.not_mem_names hl)]
      exact List.cons_ne_nil _ _
    | some tainted =>
      by_cases hp : mode = .kPipeline
      · simp only [if_pos hp]
        exact .pure fun h => nomatch h
      · simp only [if_neg hp]
        cases tainted with
        | true => exact .derefs (hk _ (Taints.mem_of_lookup hl) rfl)
        | false => exact .pure fun h => nomatch h
  | .paren term, hu => scanTerm_ends hk term hu
  | .unary _ _ term, hu => scanTerm_ends hk term hu
  | .binary _ _ left right, hu =>
    .or (scanTerm_ends hk left fun h => hu fun he => h (List.append_eq_nil_iff.mp he).1)
      (scanTerm_ends hk right fun h => hu fun he => h (List.append_eq_nil_iff.mp he).2)
  | .in_ _ left right, hu =>
    .or (scanTerm_ends hk left fun h => hu fun he => h (List.append_eq_nil_iff.mp he).1)
      (scanTerm_ends hk right fun h => hu fun he => h (List.append_eq_nil_iff.mp he).2)
  | .if_ _ args, hu => scanArgs_ends hk args hu
  | .call _ _ args, hu => scanArgs_ends hk args hu
  | .switch_ _ args, hu => scanArgs_ends hk args hu

theorem scanArgs_ends {known : Taints} (hk : ∀ d ∈ known, d.2 = true → dirty) :
    ∀ args : List Term, (undefArgs known.names args ≠ [] → dirty) →
      Ends dirty blocks (scanArgs mode known args)
  | [], _ => .pure fun h => nomatch h
  | arg :: args, hu =>
    .or (scanTerm_ends hk arg fun h => hu fun he => h (List.append_eq_nil_iff.mp he).1)
      (scanArgs_ends hk args fun h => hu fun he => h (List.append_eq_nil_iff.mp he).2)

end

/-- A block adds two actions to its statements. -/
theorem scanBlock_ends {stmts : Scan Bool} (h : Ends dirty blocks stmts) :
    Ends dirty blocks (scanBlock stmts) :=
  .tick_bind (h.bind fun _ ha => .tick_bind (.pure ha))

theorem Taints.names_append (stmt : Stmt) (tainted : Bool) (known : Taints) :
    Taints.names (stmt.defines.map (·, tainted) ++ known) = stmt.defines ++ known.names := by
  simp [Taints.names, Function.comp_def]

mutual

theorem scanStmt_ends : ∀ (stmt : Stmt) {known : Taints}, (∀ d ∈ known, d.2 = true → dirty) →
    (mode = .kExpression → stmt.isWhen = true → blocks) →
    (undefStmt known.names stmt ≠ [] → dirty) →
    Ends dirty blocks (scanStmt mode known stmt)
  | .assign _ expr, _, hk, _, hu => by
    rw [scanStmt]
    exact scanTerm_ends hk expr hu
  | .let_ _ expr, _, hk, _, hu => by
    rw [scanStmt]
    exact scanTerm_ends hk expr hu
  | .expr expr, _, hk, _, hu => by
    rw [scanStmt]
    exact scanTerm_ends hk expr hu
  | .when_ _ _ cond block chain, known, hk, hw, hu => by
    have hp : mode = .kExpression → blocks := fun h => hw h rfl
    rw [undefStmt] at hu
    have hc : Ends dirty blocks (scanTerm mode known cond) := scanTerm_ends hk cond fun h =>
      hu fun he => h (List.append_eq_nil_iff.mp he).1
    have hb := scanBlock_ends (scanStmts_ends block hk (fun h _ _ _ => hp h) fun h =>
      hu fun he => h (List.append_eq_nil_iff.mp (List.append_eq_nil_iff.mp he).2).1)
    have hr := scanChain_ends chain hk hp fun h =>
      hu fun he => h (List.append_eq_nil_iff.mp (List.append_eq_nil_iff.mp he).2).2
    rw [scanStmt]
    refine hc.bind fun a ha => hb.bind fun b hb => hr.bind fun c hc => .tick_bind ?_
    by_cases hexpr : mode = .kExpression
    · simp only [if_pos hexpr]
      exact .whenBlock (hp hexpr)
    simp only [if_neg hexpr]
    refine .pure fun h => ?_
    rcases Bool.or_eq_true _ _ |>.mp h with h | h
    · exact ha h
    · rcases Bool.or_eq_true _ _ |>.mp h with h | h
      · exact hb h
      · exact hc h

theorem scanStmts_ends : ∀ (stmts : List Stmt) {known : Taints},
    (∀ d ∈ known, d.2 = true → dirty) →
    (mode = .kExpression → ∀ stmt ∈ stmts, stmt.isWhen = true → blocks) →
    (undefStmts known.names stmts ≠ [] → dirty) → Ends dirty blocks (scanStmts mode known stmts)
  | [], _, _, _, _ => .pure fun h => nomatch h
  | stmt :: stmts, known, hk, hw, hu => by
    rw [scanStmts]
    refine (scanStmt_ends stmt hk (fun h => hw h stmt List.mem_cons_self) fun h =>
      hu fun he => h (List.append_eq_nil_iff.mp he).1).bind fun a ha => .tick_bind ?_
    have hk' : ∀ d ∈ stmt.defines.map (·, a) ++ known, d.2 = true → dirty := by
      intro d hd
      rcases List.mem_append.mp hd with hd | hd
      · rcases List.mem_map.mp hd with ⟨name, -, rfl⟩
        exact ha
      · exact hk d hd
    refine (scanStmts_ends stmts hk' (fun h stmt hm => hw h stmt (List.mem_cons_of_mem _ hm))
      fun h => hu fun he => h ?_).bind fun b hb => .pure fun h => ?_
    · rw [Taints.names_append]
      exact (List.append_eq_nil_iff.mp he).2
    · rcases Bool.or_eq_true _ _ |>.mp h with h | h
      · exact ha h
      · exact hb h

theorem scanClause_ends : ∀ (clause : Clause) {known : Taints},
    (∀ d ∈ known, d.2 = true → dirty) → (mode = .kExpression → blocks) →
    (undefClause known.names clause ≠ [] → dirty) → Ends dirty blocks (scanClause mode known clause)
  | .elif cond block, _, hk, hp, hu =>
    .or (scanTerm_ends hk cond fun h => hu fun he => h (List.append_eq_nil_iff.mp he).1)
      (scanBlock_ends (scanStmts_ends block hk (fun h _ _ _ => hp h) fun h =>
        hu fun he => h (List.append_eq_nil_iff.mp he).2))
  | .else_ block, _, hk, hp, hu =>
    scanBlock_ends (scanStmts_ends block hk (fun h _ _ _ => hp h) hu)

theorem scanChain_ends : ∀ (chain : List Clause) {known : Taints},
    (∀ d ∈ known, d.2 = true → dirty) → (mode = .kExpression → blocks) →
    (undefChain known.names chain ≠ [] → dirty) → Ends dirty blocks (scanChain mode known chain)
  | [], _, _, _, _ => .pure fun h => nomatch h
  | clause :: chain, _, hk, hp, hu =>
    .or (scanClause_ends clause hk hp fun h => hu fun he => h (List.append_eq_nil_iff.mp he).1)
      (scanChain_ends chain hk hp fun h => hu fun he => h (List.append_eq_nil_iff.mp he).2)

end

end Ends

end Athena

end JitFusion
