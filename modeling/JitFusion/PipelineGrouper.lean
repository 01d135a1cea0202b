/-
# The pipeline grouper

`PipelineGrouper` (`athena/pipeline_grouper.cc`) merges pipelines that share a leaf computation
into one isolated `NoOPNode`.  Its visitor computes heights and, at every subtree of height one,
unites the pipeline being visited with the hash of the subtree's text; a reference counts as of
height two, so that nothing with a variable below it has height one.

* `visit_measures` says what a visit does: it sets the height and unites, in the order of the
  traversal, the pipeline with the texts of height one.
* `eqvGen_unions_iff` turns connection through hashes into connection of pipelines.
* `group_partitions`: the groups partition the pipelines, keep their order, and are the
  components of the graph of shared texts.

`DSU` (`athena/dsu.cc`) is `Lib.UnionFind` at 64-bit keys.  The order in which the map of groups
is walked is a parameter.
-/
import JitFusion.Lib.UnionFind
import JitFusion.NodeText
import Mathlib.Data.List.FinRange
import Mathlib.Data.Set.Function

namespace JitFusion

/-! ## 1. The hash -/

/-- A `char` as a 64-bit number: it is signed. -/
def charToUInt64 (c : UInt8) : UInt64 := c.toInt8.toInt64.toUInt64

def stringHash (str : Bytes) : UInt64 :=
  str.foldl (fun hash c => hash * 131 + charToUInt64 c) 0

/-- The text a pipeline's id is the hash of. -/
def rootName (i : Nat) : Bytes := text ("root_" ++ Nat.repr i)

theorem rootName_injective {i j : Nat} (h : rootName i = rootName j) : i = j := by
  have hrepr : Nat.repr i = Nat.repr j := by
    simpa using text_injective h
  have hdigits : Nat.toDigits 10 i = Nat.toDigits 10 j := by
    rw [← Nat.toList_repr, ← Nat.toList_repr, hrepr]
  rw [← Nat.ofDigitChars_ten_toDigits (n := i), hdigits, Nat.ofDigitChars_ten_toDigits]

theorem rootName_ne_toString (i : Nat) (node : ExecNode) : rootName i ≠ node.toString := by
  rcases node.toString_head with ⟨rest, h⟩
  have hr : ∃ rest, rootName i = 0x72 :: rest := by
    rw [rootName, text_append]
    exact ⟨_, rfl⟩
  rcases hr with ⟨rest', hr⟩
  rw [h, hr]
  intro he
  exact absurd (List.cons.inj he).1 (by decide)

/-! ## 2. The visitor -/

structure PipelineGrouper where
  height : UInt32 := 0
  currentRootId : UInt64 := 0
  dsu : UnionFind UInt64 := {}

namespace PipelineGrouper

abbrev M (α : Type) := StateT PipelineGrouper Option α

def setHeight (height : UInt32) : M Unit := modify fun s => { s with height := height }

/-- `dsu_.Union`. -/
def unite (x y : UInt64) : M Unit :=
  fun s => (s.dsu.union x y).map fun d => ((), { s with dsu := d })

/-- `GetHeight` of a node, whose `Accept` is `accept`. -/
def getHeight (node : ExecNode) (accept : M Unit) : M UInt32 := do
  accept
  let s ← get
  if s.height = 1 then unite s.currentRootId (stringHash node.toString)
  return s.height

mutual

def visit : ExecNode → M Unit
  | .entryArgument _ | .execContext _ | .output _ | .constantValue _ _
  | .constantListValue _ _ => setHeight 0
  | .unaryOP _ _ child => do
    let height ← getHeight child (visit child)
    setHeight (height + 1)
  | .binaryOP _ _ left right => do
    let leftHeight ← getHeight left (visit left)
    let rightHeight ← getHeight right (visit right)
    setHeight (max leftHeight rightHeight + 1)
  | .function _ _ args | .ifNode _ args | .switchNode _ args | .ifBlock _ args => do
    let maxHeight ← visitArgs 0 args
    setHeight (maxHeight + 1)
  | .noOP _ args _ => do
    let maxHeight ← visitStatements 0 args
    setHeight (maxHeight + 1)
  | .ref _ _ => setHeight 2

/-- The loop over the children. -/
def visitArgs (maxHeight : UInt32) : List ExecNode → M UInt32
  | [] => pure maxHeight
  | arg :: args => do
    let height ← getHeight arg (visit arg)
    visitArgs (max maxHeight height) args

def visitStatements (maxHeight : UInt32) : List (VarInfo × ExecNode) → M UInt32
  | [] => pure maxHeight
  | (_, arg) :: args => do
    let height ← getHeight arg (visit arg)
    visitStatements (max maxHeight height) args

end

/-! ## 3. `Group` -/

/-- An order for the keys of an `unordered_map`. -/
structure IdOrder where
  order : List UInt64 → List UInt64
  perm : ∀ ids, (order ids).Perm ids

/-- The first loop: the ids of the pipelines from number `i` on, each visited. -/
def visitRoots : Nat → List ExecNode → M (List UInt64)
  | _, [] => pure []
  | i, node :: nodes => do
    let rootId := stringHash (rootName i)
    modify fun s => { s with currentRootId := rootId }
    let _ ← getHeight node (visit node)
    let rootIds ← visitRoots (i + 1) nodes
    return rootId :: rootIds

/-- `dsu_.Find`. -/
def findId (x : UInt64) : M UInt64 := fun s =>
  (s.dsu.find x).map fun (r, d) => (r, { s with dsu := d })

/-- `union_id_to_nodes[union_id].emplace_back(node)`. -/
def emplaceBack {V : Type} (unionIdToNodes : AList fun _ : UInt64 => List V) (unionId : UInt64)
    (node : V) : AList fun _ : UInt64 => List V :=
  unionIdToNodes.insert unionId ((unionIdToNodes.lookup unionId).getD [] ++ [node])

/-- The second loop. -/
def collect {V : Type} : List (UInt64 × V) → (AList fun _ : UInt64 => List V) →
    M (AList fun _ : UInt64 => List V)
  | [], unionIdToNodes => pure unionIdToNodes
  | (rootId, node) :: nodes, unionIdToNodes => do
    let unionId ← findId rootId
    collect nodes (emplaceBack unionIdToNodes unionId node)

/-- `NoOPNode(nodes, true)`. -/
def isolatedNoOP (nodes : List ExecNode) : ExecNode :=
  .noOP {} (nodes.map fun node => ({}, node)) true

def group (order : IdOrder) (nodes : List ExecNode) : M (List ExecNode) :=
  if nodes.isEmpty then pure []
  else do
    let rootIds ← visitRoots 0 nodes
    let unionIdToNodes ← collect (rootIds.zip nodes) ∅
    return (order.order unionIdToNodes.keys).map fun unionId =>
      isolatedNoOP ((unionIdToNodes.lookup unionId).getD [])

end PipelineGrouper

/-! ## 4. Heights and subtrees -/

namespace ExecNode

mutual

/-- The height the visitor computes. -/
def height : ExecNode → UInt32
  | entryArgument _ | execContext _ | output _ | constantValue _ _ | constantListValue _ _ => 0
  | unaryOP _ _ child => height child + 1
  | binaryOP _ _ left right => max (height left) (height right) + 1
  | function _ _ args | ifNode _ args | switchNode _ args | ifBlock _ args => argsHeight 0 args + 1
  | noOP _ args _ => statementsHeight 0 args + 1
  | ref _ _ => 2

def argsHeight (maxHeight : UInt32) : List ExecNode → UInt32
  | [] => maxHeight
  | arg :: args => argsHeight (max maxHeight (height arg)) args

def statementsHeight (maxHeight : UInt32) : List (VarInfo × ExecNode) → UInt32
  | [] => maxHeight
  | (_, arg) :: args => statementsHeight (max maxHeight (height arg)) args

end

mutual

/-- The proper subtrees, in the order the visitor leaves them. -/
def inner : ExecNode → List ExecNode
  | entryArgument _ | execContext _ | output _ | constantValue _ _ | constantListValue _ _
  | ref _ _ => []
  | unaryOP _ _ child => inner child ++ [child]
  | binaryOP _ _ left right => inner left ++ left :: (inner right ++ [right])
  | function _ _ args | ifNode _ args | switchNode _ args | ifBlock _ args => argsInner args
  | noOP _ args _ => statementsInner args

def argsInner : List ExecNode → List ExecNode
  | [] => []
  | arg :: args => inner arg ++ arg :: argsInner args

def statementsInner : List (VarInfo × ExecNode) → List ExecNode
  | [] => []
  | (_, arg) :: args => inner arg ++ arg :: statementsInner args

end

def subtrees (node : ExecNode) : List ExecNode := node.inner ++ [node]

/-- The texts of the subtrees of height one. -/
def leafTexts (node : ExecNode) : List Bytes :=
  (node.subtrees.filter fun sub => sub.height = 1).map toString

/-- The two trees have subtrees of height one with one text. -/
def SharesText (p q : ExecNode) : Prop :=
  ∃ a ∈ p.subtrees, ∃ b ∈ q.subtrees, a.height = 1 ∧ b.height = 1 ∧ a.toString = b.toString

theorem mem_leafTexts {node : ExecNode} {t : Bytes} :
    t ∈ node.leafTexts ↔ ∃ sub ∈ node.subtrees, sub.height = 1 ∧ sub.toString = t := by
  simp [leafTexts, and_assoc]

theorem sharesText_iff {p q : ExecNode} :
    SharesText p q ↔ ∃ t, t ∈ p.leafTexts ∧ t ∈ q.leafTexts := by
  simp only [mem_leafTexts]
  constructor
  · rintro ⟨a, ha, b, hb, hha, hhb, he⟩
    exact ⟨b.toString, ⟨a, ha, hha, he⟩, ⟨b, hb, hhb, rfl⟩⟩
  · rintro ⟨t, ⟨a, ha, hha, rfl⟩, ⟨b, hb, hhb, he⟩⟩
    exact ⟨a, ha, b, hb, hha, hhb, he.symm⟩

end ExecNode

/-! ## 5. What a visit does -/

namespace PipelineGrouper

/-- The unions made for the subtrees of height one among these. -/
def unions (rootId : UInt64) (nodes : List ExecNode) : List (UInt64 × UInt64) :=
  (nodes.filter fun node => node.height = 1).map fun node => (rootId, stringHash node.toString)

theorem unions_append (rootId : UInt64) (xs ys : List ExecNode) :
    unions rootId (xs ++ ys) = unions rootId xs ++ unions rootId ys := by
  simp [unions]

/-- The action answers `a` and makes the unions for the subtrees `nodes`. -/
def Unites {α : Type} (m : M α) (nodes : List ExecNode) (a : α) : Prop :=
  ∀ s : PipelineGrouper, ∃ height, m.run s =
    (s.dsu.unionAll (unions s.currentRootId nodes)).map fun d =>
      (a, ⟨height, s.currentRootId, d⟩)

/-- The action leaves `height` and makes the unions for the subtrees `nodes`. -/
def Measures (m : M Unit) (nodes : List ExecNode) (height : UInt32) : Prop :=
  ∀ s : PipelineGrouper, m.run s =
    (s.dsu.unionAll (unions s.currentRootId nodes)).map fun d =>
      ((), ⟨height, s.currentRootId, d⟩)

theorem Unites.pure {α : Type} (a : α) : Unites (pure a) [] a := fun s => ⟨s.height, rfl⟩

theorem Unites.bind {α β : Type} {m : M α} {f : α → M β} {xs ys : List ExecNode} {a : α} {b : β}
    (hm : Unites m xs a) (hf : Unites (f a) ys b) : Unites (m >>= f) (xs ++ ys) b := by
  intro s
  rcases hm s with ⟨h₁, hm⟩
  rw [StateT.run_bind, hm, unions_append, UnionFind.unionAll_append]
  cases hd : s.dsu.unionAll (unions s.currentRootId xs) with
  | none => exact ⟨h₁, rfl⟩
  | some d => exact hf ⟨h₁, s.currentRootId, d⟩

theorem Measures.leaf (height : UInt32) : Measures (setHeight height) [] height := fun _ => rfl

theorem Unites.measures {α : Type} {m : M α} {f : α → M Unit} {xs ys : List ExecNode} {a : α}
    {height : UInt32} (hm : Unites m xs a) (hf : Measures (f a) ys height) :
    Measures (m >>= f) (xs ++ ys) height := by
  intro s
  rcases hm s with ⟨h₁, hm⟩
  rw [StateT.run_bind, hm, unions_append, UnionFind.unionAll_append]
  cases hd : s.dsu.unionAll (unions s.currentRootId xs) with
  | none => rfl
  | some d => exact hf ⟨h₁, s.currentRootId, d⟩

theorem Unites.setHeight {m : M UInt32} {nodes : List ExecNode} {a : UInt32}
    (hm : Unites m nodes a) (f : UInt32 → UInt32) :
    Measures (m >>= fun h => PipelineGrouper.setHeight (f h)) nodes (f a) := by
  have h := hm.measures (f := fun h => PipelineGrouper.setHeight (f h)) (.leaf (f a))
  rw [List.append_nil] at h
  exact h

/-- The node itself is united when its height is one. -/
theorem getHeight_unites {node : ExecNode} {accept : M Unit} {nodes : List ExecNode}
    (h : Measures accept nodes node.height) :
    Unites (getHeight node accept) (nodes ++ [node]) node.height := by
  intro s
  refine ⟨node.height, ?_⟩
  rw [getHeight, StateT.run_bind, h, unions_append, UnionFind.unionAll_append]
  cases s.dsu.unionAll (unions s.currentRootId nodes) with
  | none => rfl
  | some d =>
    by_cases hone : node.height = 1
    · have hunions : unions s.currentRootId [node] =
          [(s.currentRootId, stringHash node.toString)] := by
        simp [unions, hone]
      rw [hunions, Option.map_some, Option.bind_some]
      simp only [hone, bind, StateT.bind, StateT.run, get, getThe, MonadStateOf.get, StateT.get,
        pure, Option.bind_some, if_true, unite, UnionFind.unionAll]
      cases d.union s.currentRootId (stringHash node.toString) with
      | none => rfl
      | some d => rfl
    · have hunions : unions s.currentRootId [node] = [] := by
        simp [unions, hone]
      rw [hunions, Option.map_some, Option.bind_some]
      simp only [hone, bind, StateT.bind, StateT.run, get, getThe, MonadStateOf.get, StateT.get,
        pure, Option.bind_some, if_false, UnionFind.unionAll]
      rfl

mutual

/-- **A visit**: the height, and the unions of the subtrees below. -/
theorem visit_measures : ∀ node : ExecNode, Measures (visit node) node.inner node.height
  | .entryArgument _ | .execContext _ | .output _ | .constantValue _ _
  | .constantListValue _ _ => .leaf 0
  | .ref _ _ => .leaf 2
  | .unaryOP _ _ child => (getHeight_unites (visit_measures child)).setHeight (· + 1)
  | .binaryOP _ _ left right => by
    have hleft := getHeight_unites (visit_measures left)
    have hright := getHeight_unites (visit_measures right)
    have h := hleft.measures
      (f := fun l => getHeight right (visit right) >>= fun r => setHeight (max l r + 1))
      (hright.setHeight (max left.height · + 1))
    rw [List.append_assoc] at h
    exact h
  | .function _ _ args | .ifNode _ args | .switchNode _ args | .ifBlock _ args =>
    (visitArgs_unites 0 args).setHeight (· + 1)
  | .noOP _ args _ => (visitStatements_unites 0 args).setHeight (· + 1)

theorem visitArgs_unites (maxHeight : UInt32) : ∀ args : List ExecNode,
    Unites (visitArgs maxHeight args) (ExecNode.argsInner args)
      (ExecNode.argsHeight maxHeight args)
  | [] => .pure maxHeight
  | arg :: args => by
    have harg := getHeight_unites (visit_measures arg)
    have hargs := visitArgs_unites (max maxHeight arg.height) args
    have h := harg.bind (f := fun height => visitArgs (max maxHeight height) args) hargs
    rw [List.append_assoc] at h
    exact h

theorem visitStatements_unites (maxHeight : UInt32) : ∀ args : List (VarInfo × ExecNode),
    Unites (visitStatements maxHeight args) (ExecNode.statementsInner args)
      (ExecNode.statementsHeight maxHeight args)
  | [] => .pure maxHeight
  | (_, arg) :: args => by
    have harg := getHeight_unites (visit_measures arg)
    have hargs := visitStatements_unites (max maxHeight arg.height) args
    have h := harg.bind (f := fun height => visitStatements (max maxHeight height) args) hargs
    rw [List.append_assoc] at h
    exact h

end

/-! ## 6. What the two loops do -/

/-- The unions of the first loop. -/
def rootUnions : Nat → List ExecNode → List (UInt64 × UInt64)
  | _, [] => []
  | i, node :: nodes =>
    unions (stringHash (rootName i)) node.subtrees ++ rootUnions (i + 1) nodes

theorem visitRoots_run : ∀ (nodes : List ExecNode) (i : Nat) (s : PipelineGrouper),
    ∃ height rootId, (visitRoots i nodes).run s =
      (s.dsu.unionAll (rootUnions i nodes)).map fun d =>
        ((List.range' i nodes.length).map fun k => stringHash (rootName k),
          ⟨height, rootId, d⟩) := by
  intro nodes
  induction nodes with
  | nil => exact fun i s => ⟨s.height, s.currentRootId, rfl⟩
  | cons node nodes ih =>
    intro i s
    rcases getHeight_unites (visit_measures node)
      ⟨s.height, stringHash (rootName i), s.dsu⟩ with ⟨h₁, hnode⟩
    have hrun : (visitRoots i (node :: nodes)).run s =
        (getHeight node (visit node)).run ⟨s.height, stringHash (rootName i), s.dsu⟩ >>=
          fun x => (visitRoots (i + 1) nodes).run x.2 >>= fun y =>
            some (stringHash (rootName i) :: y.1, y.2) := rfl
    rw [hrun, hnode, rootUnions, UnionFind.unionAll_append]
    change ∃ height rootId, ((s.dsu.unionAll (unions (stringHash (rootName i)) node.subtrees)).map
      _).bind _ = _
    cases s.dsu.unionAll (unions (stringHash (rootName i)) node.subtrees) with
    | none => exact ⟨0, 0, rfl⟩
    | some d =>
      rcases ih (i + 1) ⟨h₁, stringHash (rootName i), d⟩ with ⟨h₂, rootId, hnodes⟩
      refine ⟨h₂, rootId, ?_⟩
      rw [Option.map_some, Option.bind_some, hnodes, Option.bind_some]
      cases d.unionAll (rootUnions (i + 1) nodes) with
      | none => rfl
      | some d => rfl

theorem mem_rootUnions : ∀ (nodes : List ExecNode) (i : Nat) (a b : UInt64),
    (a, b) ∈ rootUnions i nodes ↔ ∃ k : Fin nodes.length, ∃ t ∈ (nodes.get k).leafTexts,
      a = stringHash (rootName (i + k)) ∧ b = stringHash t := by
  intro nodes
  induction nodes with
  | nil =>
    intro i a b
    simp [rootUnions]
  | cons node nodes ih =>
    intro i a b
    rw [rootUnions, List.mem_append, ih]
    constructor
    · rintro (h | ⟨k, t, ht, ha, hb⟩)
      · refine ⟨0, ?_⟩
        simp only [unions, List.mem_map, Prod.mk.injEq] at h
        rcases h with ⟨sub, hsub, ha, hb⟩
        exact ⟨sub.toString, List.mem_map_of_mem hsub, ha.symm, hb.symm⟩
      · refine ⟨k.succ, t, ht, ?_, hb⟩
        rw [ha, Fin.val_succ, Nat.add_right_comm, Nat.add_assoc]
    · rintro ⟨k, t, ht, ha, hb⟩
      cases k using Fin.cases with
      | zero =>
        left
        rcases List.mem_map.mp ht with ⟨sub, hsub, rfl⟩
        exact List.mem_map.mpr ⟨sub, hsub, by rw [ha, hb]; rfl⟩
      | succ k =>
        right
        refine ⟨k, t, ht, ?_, hb⟩
        rw [ha, Fin.val_succ, Nat.add_right_comm, Nat.add_assoc]

/-- The map the second loop builds, when `r` finds the roots. -/
def collected {V : Type} (r : UInt64 → UInt64) (pairs : List (UInt64 × V))
    (m : AList fun _ : UInt64 => List V) : AList fun _ : UInt64 => List V :=
  pairs.foldl (fun m p => emplaceBack m (r p.1) p.2) m

theorem collect_run {V : Type} (r : UInt64 → UInt64) : ∀ (pairs : List (UInt64 × V))
    (m : AList fun _ : UInt64 => List V) (s : PipelineGrouper), s.dsu.Forest →
    (∀ x, s.dsu.Root x (r x)) → ∃ s', (collect pairs m).run s = some (collected r pairs m, s') := by
  intro pairs
  induction pairs with
  | nil => exact fun m s _ _ => ⟨s, rfl⟩
  | cons p pairs ih =>
    intro m s hf hr
    rcases UnionFind.find_spec hf p.1 with ⟨root, d, hfind, h⟩
    have hroot : root = r p.1 := h.root.unique (hr p.1)
    rcases ih (emplaceBack m (r p.1) p.2) { s with dsu := d } h.forest
      (fun x => (h.sameRoots x (r x)).mpr (hr x)) with ⟨s', hs'⟩
    refine ⟨s', ?_⟩
    have hrun : (collect (p :: pairs) m).run s = (findId p.1).run s >>= fun x =>
        (collect pairs (emplaceBack m x.1 p.2)).run x.2 := rfl
    have hid : (findId p.1).run s = some (r p.1, { s with dsu := d }) := by
      rw [← hroot]
      exact congrArg (Option.map _) hfind
    rw [hrun, hid]
    exact hs'

theorem lookup_collected {V : Type} (r : UInt64 → UInt64) (k : UInt64) :
    ∀ (pairs : List (UInt64 × V)) (m : AList fun _ : UInt64 => List V),
      ((collected r pairs m).lookup k).getD [] =
        (m.lookup k).getD [] ++ (pairs.filter fun p => r p.1 = k).map (·.2) := by
  intro pairs
  induction pairs with
  | nil =>
    intro m
    simp [collected]
  | cons p pairs ih =>
    intro m
    have hstep : collected r (p :: pairs) m = collected r pairs (emplaceBack m (r p.1) p.2) := rfl
    rw [hstep, ih, emplaceBack]
    by_cases hk : r p.1 = k
    · subst hk
      rw [AList.lookup_insert, Option.getD_some, List.filter_cons_of_pos (by simp), List.map_cons,
        List.append_assoc, List.singleton_append]
    · rw [AList.lookup_insert_ne (Ne.symm hk), List.filter_cons_of_neg (by simpa using hk)]

theorem mem_collected {V : Type} (r : UInt64 → UInt64) (k : UInt64) :
    ∀ (pairs : List (UInt64 × V)) (m : AList fun _ : UInt64 => List V),
      k ∈ (collected r pairs m).keys ↔ k ∈ m.keys ∨ ∃ p ∈ pairs, r p.1 = k := by
  intro pairs
  induction pairs with
  | nil =>
    intro m
    simp [collected]
  | cons p pairs ih =>
    intro m
    have hstep : collected r (p :: pairs) m = collected r pairs (emplaceBack m (r p.1) p.2) := rfl
    rw [hstep, ih, emplaceBack, ← AList.mem_keys, AList.mem_insert, AList.mem_keys]
    simp only [List.mem_cons, exists_eq_or_imp]
    rw [eq_comm (a := k), or_assoc, or_left_comm]

/-! ## 7. Connection through hashes -/

/-- The texts hashed in a run. -/
def hashedTexts (nodes : List ExecNode) : List Bytes :=
  (List.range nodes.length).map rootName ++ nodes.flatMap ExecNode.leafTexts

/-- Connected in the graph whose edges join the pipelines that share a text. -/
def Linked (nodes : List ExecNode) : Fin nodes.length → Fin nodes.length → Prop :=
  Relation.EqvGen fun i j => (nodes.get i).SharesText (nodes.get j)

/-- The hash is the id of the pipeline or the hash of one of its texts. -/
def Meets (nodes : List ExecNode) (k : Fin nodes.length) (u : UInt64) : Prop :=
  u = stringHash (rootName k) ∨ ∃ t ∈ (nodes.get k).leafTexts, u = stringHash t

section Connection

variable {nodes : List ExecNode} (hinj : Set.InjOn stringHash {t | t ∈ hashedTexts nodes})

theorem rootName_mem_hashedTexts (k : Fin nodes.length) : rootName k ∈ hashedTexts nodes :=
  List.mem_append_left _ (List.mem_map_of_mem (List.mem_range.mpr k.isLt))

theorem leafText_mem_hashedTexts {k : Fin nodes.length} {t : Bytes}
    (ht : t ∈ (nodes.get k).leafTexts) : t ∈ hashedTexts nodes :=
  List.mem_append_right _ (List.mem_flatMap.mpr ⟨_, List.get_mem _ _, ht⟩)

include hinj

/-- Pipelines that meet a hash are linked. -/
theorem Meets.linked {k l : Fin nodes.length} {u : UInt64} (hk : Meets nodes k u)
    (hl : Meets nodes l u) : Linked nodes k l := by
  have hclash : ∀ {k l : Fin nodes.length} {t}, t ∈ (nodes.get l).leafTexts →
      stringHash (rootName k) ≠ stringHash t := by
    intro k l t ht he
    rcases ExecNode.mem_leafTexts.mp ht with ⟨sub, -, -, rfl⟩
    exact rootName_ne_toString _ _
      (hinj (rootName_mem_hashedTexts k) (leafText_mem_hashedTexts ht) he)
  rcases hk with rfl | ⟨t, ht, rfl⟩
  · rcases hl with h | ⟨t', ht', h⟩
    · have hkl := hinj (rootName_mem_hashedTexts k) (rootName_mem_hashedTexts l) h
      rw [Fin.ext (rootName_injective hkl)]
      exact .refl l
    · exact absurd h (hclash ht')
  · rcases hl with h | ⟨t', ht', h⟩
    · exact absurd h.symm (hclash ht)
    · have htt := hinj (leafText_mem_hashedTexts ht) (leafText_mem_hashedTexts ht') h
      exact .rel _ _ (ExecNode.sharesText_iff.mpr ⟨t, ht, htt ▸ ht'⟩)

/-- **Connection through hashes is connection through shared texts.** -/
theorem eqvGen_unions_iff (k l : Fin nodes.length) :
    Relation.EqvGen (fun a b => (a, b) ∈ rootUnions 0 nodes) (stringHash (rootName k))
      (stringHash (rootName l)) ↔ Linked nodes k l := by
  constructor
  · intro h
    -- a pipeline that meets one end is linked to every pipeline that meets the other
    have hclass : ∀ {u v}, Relation.EqvGen (fun a b => (a, b) ∈ rootUnions 0 nodes) u v →
        ((∃ i, Meets nodes i u) ↔ ∃ j, Meets nodes j v) ∧
          ∀ i j, Meets nodes i u → Meets nodes j v → Linked nodes i j := by
      intro u v h
      induction h with
      | rel a b h =>
        rcases (mem_rootUnions nodes 0 a b).mp h with ⟨m, t, ht, ha, hb⟩
        have hma : Meets nodes m a := .inl (by rw [ha, Nat.zero_add])
        have hmb : Meets nodes m b := .inr ⟨t, ht, hb⟩
        refine ⟨⟨fun _ => ⟨m, hmb⟩, fun _ => ⟨m, hma⟩⟩, fun i j hi hj => ?_⟩
        exact .trans _ _ _ (hi.linked hinj hma) (hmb.linked hinj hj)
      | refl a => exact ⟨Iff.rfl, fun i j hi hj => hi.linked hinj hj⟩
      | symm a b _ ih => exact ⟨ih.1.symm, fun i j hi hj => .symm _ _ (ih.2 j i hj hi)⟩
      | trans a b c _ _ ih₁ ih₂ =>
        refine ⟨ih₁.1.trans ih₂.1, fun i j hi hj => ?_⟩
        rcases ih₁.1.mp ⟨i, hi⟩ with ⟨m, hm⟩
        exact .trans _ _ _ (ih₁.2 i m hi hm) (ih₂.2 m j hm hj)
    exact (hclass h).2 k l (.inl rfl) (.inl rfl)
  · intro h
    induction h with
    | rel i j h =>
      rcases ExecNode.sharesText_iff.mp h with ⟨t, hi, hj⟩
      have hedge : ∀ m : Fin nodes.length, t ∈ (nodes.get m).leafTexts →
          (stringHash (rootName m), stringHash t) ∈ rootUnions 0 nodes := fun m hm =>
        (mem_rootUnions nodes 0 _ _).mpr ⟨m, t, hm, by rw [Nat.zero_add], rfl⟩
      exact .trans _ _ _ (.rel _ _ (hedge i hi)) (.symm _ _ (.rel _ _ (hedge j hj)))
    | refl i => exact .refl _
    | symm i j _ ih => exact .symm _ _ ih
    | trans i j m _ _ ih₁ ih₂ => exact .trans _ _ _ ih₁ ih₂

end Connection

/-! ## 8. The groups -/

/-- The groups a labelling of the pipelines makes, for the labels listed. -/
def fibers {n : Nat} (label : Fin n → UInt64) (labels : List UInt64) : List (List (Fin n)) :=
  labels.map fun k => (List.finRange n).filter fun i => label i = k

section Fibers

variable {n : Nat} {label : Fin n → UInt64} {labels : List UInt64}

theorem mem_fibers {g : List (Fin n)} :
    g ∈ fibers label labels ↔ ∃ k ∈ labels, g = (List.finRange n).filter fun i => label i = k := by
  simp [fibers, eq_comm]

theorem fibers_sorted {g : List (Fin n)} (hg : g ∈ fibers label labels) :
    g.Pairwise (· < ·) := by
  rcases mem_fibers.mp hg with ⟨k, -, rfl⟩
  exact (List.pairwise_lt_finRange n).filter _

/-- Labels listed once and all of them: each index is in one group. -/
theorem fibers_flatten (hnodup : labels.Nodup) (hall : ∀ i, label i ∈ labels) :
    (fibers label labels).flatten.Perm (List.finRange n) := by
  have hmem : ∀ i, i ∈ (fibers label labels).flatten := fun i =>
    List.mem_flatten.mpr ⟨_, mem_fibers.mpr ⟨label i, hall i, rfl⟩, by simp⟩
  have hflat : (fibers label labels).flatten.Nodup := by
    rw [List.nodup_flatten]
    refine ⟨fun g hg => ?_, ?_⟩
    · rcases mem_fibers.mp hg with ⟨k, -, rfl⟩
      exact (List.nodup_finRange n).filter _
    · rw [fibers, List.pairwise_map]
      refine hnodup.imp fun {k k'} hne => ?_
      intro i hi hi'
      simp only [List.mem_filter, decide_eq_true_eq] at hi hi'
      exact hne (hi.2.symm.trans hi'.2)
  refine (List.perm_ext_iff_of_nodup hflat (List.nodup_finRange n)).mpr fun i => ?_
  exact ⟨fun _ => List.mem_finRange i, fun _ => hmem i⟩

theorem fibers_together (hall : ∀ i, label i ∈ labels) (i j : Fin n) :
    (∃ g ∈ fibers label labels, i ∈ g ∧ j ∈ g) ↔ label i = label j := by
  constructor
  · rintro ⟨g, hg, hi, hj⟩
    rcases mem_fibers.mp hg with ⟨k, -, rfl⟩
    simp only [List.mem_filter, decide_eq_true_eq] at hi hj
    exact hi.2.trans hj.2.symm
  · intro h
    exact ⟨_, mem_fibers.mpr ⟨label i, hall i, rfl⟩, by simp, by simp [h]⟩

theorem fibers_ne_nil (hused : ∀ k ∈ labels, ∃ i, label i = k) {g : List (Fin n)}
    (hg : g ∈ fibers label labels) : g ≠ [] := by
  rcases mem_fibers.mp hg with ⟨k, hk, rfl⟩
  rcases hused k hk with ⟨i, hi⟩
  exact List.ne_nil_of_mem (a := i) (by simp [hi])

end Fibers

/-- `Group` on a fresh grouper: the nodes of the groups of the ids' roots. -/
theorem group_run (order : IdOrder) (nodes : List ExecNode) :
    ∃ (d : UnionFind UInt64) (r : UInt64 → UInt64) (labels : List UInt64) (s : PipelineGrouper),
      UnionFind.unionAll (rootUnions 0 nodes) {} = some d ∧ (∀ x, d.Root x (r x)) ∧
      labels.Nodup ∧
      (∀ k, k ∈ labels ↔ ∃ i : Fin nodes.length, r (stringHash (rootName i)) = k) ∧
      (group order nodes).run {} = some ((fibers (fun i : Fin nodes.length =>
        r (stringHash (rootName i))) labels).map (fun g => isolatedNoOP (g.map nodes.get)), s) := by
  rcases UnionFind.unionAll_same (rootUnions 0 nodes) with ⟨d, hd, hf, -⟩
  rcases Classical.axiomOfChoice (fun x => hf.exists_root x) with ⟨r, hr⟩
  rcases visitRoots_run nodes 0 {} with ⟨height, rootId, hroots⟩
  rw [hd, Option.map_some] at hroots
  let pairs : List (UInt64 × ExecNode) :=
    ((List.range' 0 nodes.length).map fun k => stringHash (rootName k)).zip nodes
  have hpairs : pairs = (List.finRange nodes.length).map fun i : Fin nodes.length =>
      (stringHash (rootName i), nodes.get i) := by
    refine List.ext_getElem (by simp [pairs]) fun i h₁ h₂ => ?_
    simp [pairs]
  rcases collect_run r pairs ∅ ⟨height, rootId, d⟩ hf hr with ⟨s, hcollect⟩
  have hmem : ∀ k, k ∈ (collected r pairs ∅).keys ↔
      ∃ i : Fin nodes.length, r (stringHash (rootName i)) = k := by
    intro k
    rw [mem_collected, hpairs]
    simp
  by_cases hnil : nodes = []
  · subst hnil
    exact ⟨d, r, [], {}, hd, hr, List.nodup_nil, fun k => by simp, rfl⟩
  · refine ⟨d, r, order.order (collected r pairs ∅).keys, s, hd, hr, ?_, ?_, ?_⟩
    · exact (order.perm _).nodup_iff.mpr (collected r pairs ∅).keys_nodup
    · intro k
      rw [(order.perm _).mem_iff]
      exact hmem k
    · have hempty : nodes.isEmpty = false := by
        cases nodes with
        | nil => exact absurd rfl hnil
        | cons _ _ => rfl
      have hrun : (group order nodes).run {} = (visitRoots 0 nodes).run {} >>= fun x =>
          (collect (x.1.zip nodes) ∅).run x.2 >>= fun y =>
            some ((order.order y.1.keys).map fun unionId =>
              isolatedNoOP ((y.1.lookup unionId).getD []), y.2) := by
        rw [group, hempty]
        rfl
      rw [hrun, hroots]
      change (collect pairs ∅).run ⟨height, rootId, d⟩ >>= _ = _
      rw [hcollect]
      change some (_, s) = _
      refine congrArg (fun l => some (l, s)) ?_
      rw [fibers, List.map_map]
      refine List.map_congr_left fun k _ => ?_
      refine congrArg isolatedNoOP ?_
      rw [lookup_collected, hpairs, List.filter_map, List.map_map]
      rfl

/-- **The groups partition the pipelines by shared leaf computations**: each pipeline is in one
of them, they keep the order of the list, and two pipelines are together if and only if they are
linked. -/
theorem group_partitions (order : IdOrder) (nodes : List ExecNode)
    (hinj : Set.InjOn stringHash {t | t ∈ hashedTexts nodes}) :
    ∃ groups : List (List (Fin nodes.length)),
      (group order nodes).run' {} =
        some (groups.map fun g => isolatedNoOP (g.map nodes.get)) ∧
      groups.flatten.Perm (List.finRange nodes.length) ∧
      (∀ g ∈ groups, g ≠ [] ∧ g.Pairwise (· < ·)) ∧
      ∀ i j, (∃ g ∈ groups, i ∈ g ∧ j ∈ g) ↔
        Relation.EqvGen (fun i j => (nodes.get i).SharesText (nodes.get j)) i j := by
  rcases group_run order nodes with ⟨d, r, labels, s, hd, hr, hnodup, hlabels, hrun⟩
  rcases UnionFind.unionAll_same (rootUnions 0 nodes) with ⟨d', hd', -, hsame⟩
  rw [hd, Option.some.injEq] at hd'
  subst hd'
  have hall : ∀ i : Fin nodes.length, r (stringHash (rootName i)) ∈ labels :=
    fun i => (hlabels _).mpr ⟨i, rfl⟩
  have hlabel : ∀ i j : Fin nodes.length, r (stringHash (rootName i)) =
      r (stringHash (rootName j)) ↔ Linked nodes i j := by
    intro i j
    rw [← eqvGen_unions_iff hinj, ← hsame]
    constructor
    · intro h
      exact ⟨_, hr _, h ▸ hr _⟩
    · rintro ⟨root, hi, hj⟩
      exact ((hr _).unique hi).trans (hj.unique (hr _))
  refine ⟨_, ?_, fibers_flatten hnodup hall, fun g hg => ⟨?_, fibers_sorted hg⟩, fun i j => ?_⟩
  · exact congrArg (Option.map (·.1)) hrun
  · exact fibers_ne_nil (fun k hk => (hlabels k).mp hk) hg
  · rw [fibers_together hall, hlabel]
    rfl

/-- Three pipelines that load an argument; the first two load the same one. -/
def sharedLoads : List ExecNode :=
  let load (name : String) (i : BitVec 32) : ExecNode :=
    .noOP {} [({ name := name }, .function {} "load" [.entryArgument {}, .constantValue {}
      (.u32 i)])]
      false
  [load "a" 0, load "b" 0, load "a" 1]

/-- The map walked in the order its keys are listed. -/
def listedOrder : IdOrder := ⟨id, fun _ => .refl _⟩

theorem sharedLoads_partitions :
    ∃ groups : List (List (Fin sharedLoads.length)),
      (group listedOrder sharedLoads).run' {} =
        some (groups.map fun g => isolatedNoOP (g.map sharedLoads.get)) ∧
      groups.flatten.Perm (List.finRange sharedLoads.length) ∧
      (∀ g ∈ groups, g ≠ [] ∧ g.Pairwise (· < ·)) ∧
      ∀ i j, (∃ g ∈ groups, i ∈ g ∧ j ∈ g) ↔ Relation.EqvGen
        (fun i j => (sharedLoads.get i).SharesText (sharedLoads.get j)) i j := by
  have hdec : ∀ s ∈ hashedTexts sharedLoads, ∀ t ∈ hashedTexts sharedLoads,
      stringHash s = stringHash t → s = t := by decide +kernel
  exact group_partitions listedOrder sharedLoads fun s hs t ht h => hdec s hs t ht h

end PipelineGrouper

end JitFusion
