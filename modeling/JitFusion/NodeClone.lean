/-
# Copies of nodes

`ExecNode::Clone` (`exec_node.cc`), by which a reference in an expression takes the tree of its
definition.  `clone_copies` says what a copy is: the same tree up to the recorded types, made of
new nodes only.
-/
import JitFusion.AstBuilder

namespace JitFusion

namespace Athena

/-! ## 1. Copies of a tree -/

mutual

/-- What `Clone` makes of a tree: only the two constant nodes keep their recorded type. -/
def cloned : ExecNode → ExecNode
  | .entryArgument info => .entryArgument { loc := info.loc }
  | .execContext info => .execContext { loc := info.loc }
  | .output info => .output { loc := info.loc }
  | .constantValue info v => .constantValue info v
  | .constantListValue info v => .constantListValue info v
  | .unaryOP info op child => .unaryOP { loc := info.loc } op (cloned child)
  | .binaryOP info op left right => .binaryOP { loc := info.loc } op (cloned left) (cloned right)
  | .function info name args => .function { loc := info.loc } name (clonedArgs args)
  | .noOP info args isolated => .noOP { loc := info.loc } (clonedStmts args) isolated
  | .ifNode info args => .ifNode { loc := info.loc } (clonedArgs args)
  | .switchNode info args => .switchNode { loc := info.loc } (clonedArgs args)
  | .ifBlock info args => .ifBlock { loc := info.loc } (clonedArgs args)
  | .ref info name => .ref { loc := info.loc } name

def clonedArgs : List ExecNode → List ExecNode
  | [] => []
  | arg :: args => cloned arg :: clonedArgs args

def clonedStmts : List (VarInfo × ExecNode) → List (VarInfo × ExecNode)
  | [] => []
  | (var, arg) :: args => (var, cloned arg) :: clonedStmts args

end

/-- `SetLocation`. -/
def setLocation (loc : SourceLocation) : ExecNode → ExecNode
  | .entryArgument info => .entryArgument { info with loc }
  | .execContext info => .execContext { info with loc }
  | .output info => .output { info with loc }
  | .constantValue info v => .constantValue { info with loc } v
  | .constantListValue info v => .constantListValue { info with loc } v
  | .unaryOP info op child => .unaryOP { info with loc } op child
  | .binaryOP info op left right => .binaryOP { info with loc } op left right
  | .function info name args => .function { info with loc } name args
  | .noOP info args isolated => .noOP { info with loc } args isolated
  | .ifNode info args => .ifNode { info with loc } args
  | .switchNode info args => .switchNode { info with loc } args
  | .ifBlock info args => .ifBlock { info with loc } args
  | .ref info name => .ref { info with loc } name

namespace NodePtr

theorem toExecNode_withLoc (loc : SourceLocation) (n : NodePtr) :
    (n.withLoc loc).toExecNode = n.toExecNode.map (setLocation loc) := by
  cases n with
  | null | entryArgument | execContext | output | constantValue | constantListValue | ref => rfl
  | unaryOP a info op child =>
    simp only [withLoc, toExecNode, Option.map_map]
    rfl
  | binaryOP a info op left right =>
    simp only [withLoc, toExecNode]
    cases left.toExecNode with
    | none => rfl
    | some l => cases right.toExecNode <;> rfl
  | function a info name args | ifNode a info args | switchNode a info args
  | ifBlock a info args =>
    simp only [withLoc, toExecNode, Option.map_map]
    rfl
  | noOP a info args isolated =>
    simp only [withLoc, toExecNode, Option.map_map]
    rfl

/-- The addresses of new nodes: at least `k`, below `k'`, and no two of them equal. -/
structure FreshAddrs (k k' : Nat) (l : List Nat) : Prop where
  le : k ≤ k'
  bounds : ∀ a ∈ l, k ≤ a ∧ a < k'
  nodup : l.Nodup

theorem FreshAddrs.nil (k : Nat) : FreshAddrs k k [] := ⟨Nat.le_refl k, by simp, by simp⟩

/-- New nodes, and then one more. -/
theorem FreshAddrs.cons {k k' : Nat} {l : List Nat} (h : FreshAddrs k k' l) :
    FreshAddrs k (k' + 1) (k' :: l) := by
  refine ⟨Nat.le_succ_of_le h.le, ?_, List.nodup_cons.mpr ⟨fun hm => ?_, h.nodup⟩⟩
  · intro a ha
    rcases List.mem_cons.mp ha with rfl | ha
    · exact ⟨h.le, Nat.lt_succ_self _⟩
    · have := h.bounds a ha
      omega
  · have := h.bounds k' hm
    omega

theorem FreshAddrs.append {k k' k'' : Nat} {l l' : List Nat} (h : FreshAddrs k k' l)
    (h' : FreshAddrs k' k'' l') : FreshAddrs k k'' (l ++ l') := by
  refine ⟨Nat.le_trans h.le h'.le, ?_, List.nodup_append.mpr ⟨h.nodup, h'.nodup, ?_⟩⟩
  · intro a ha
    have hle := h.le
    have hle' := h'.le
    rcases List.mem_append.mp ha with ha | ha
    · have := h.bounds a ha
      omega
    · have := h'.bounds a ha
      omega
  · intro a ha c hc
    have := h.bounds a ha
    have := h'.bounds c hc
    omega

/-- What a step that allocates does: it fails if its tree has a null pointer, and otherwise makes
new nodes for the tree `f` of it. -/
def Copies {α β : Type} (m : Alloc α) (old : Option β) (f : β → β) (new : α → Option β)
    (addrs : α → List Nat) : Prop :=
  ∀ k, match old with
    | none => m.run k = none
    | some e => ∃ a k', m.run k = some (a, k') ∧ new a = some (f e) ∧ FreshAddrs k k' (addrs a)

theorem run_bind_some {α β : Type} {m : Alloc α} {f : α → Alloc β} {k k' : Nat} {a : α}
    (h : m.run k = some (a, k')) : (m >>= f).run k = (f a).run k' := by
  rw [StateT.run_bind, h]
  rfl

theorem run_bind_none {α β : Type} {m : Alloc α} {f : α → Alloc β} {k : Nat}
    (h : m.run k = none) : (m >>= f).run k = none := by
  rw [StateT.run_bind, h]
  rfl

/-- A leaf is copied by allocating one node. -/
theorem copies_leaf {node : Nat → NodePtr} {e e' : ExecNode}
    (h : ∀ a, (node a).toExecNode = some e') (ha : ∀ a, (node a).addrs = [a])
    {f : ExecNode → ExecNode} (hf : f e = e') :
    Copies (makeUnique node) (some e) f toExecNode addrs := fun k =>
  ⟨node k, k + 1, rfl, by rw [h, hf], by rw [ha]; exact (FreshAddrs.nil k).cons⟩

/-- The children are copied first, then the node is allocated. -/
theorem copies_node {α β : Type} {m : Alloc α} {old : Option β} {g : β → β} {new : α → Option β}
    {addrsOf : α → List Nat} (hm : Copies m old g new addrsOf) {node : α → Nat → NodePtr}
    {tree tree' : β → ExecNode} {f : ExecNode → ExecNode}
    (h : ∀ v a, (node v a).toExecNode = (new v).map tree')
    (ha : ∀ v a, (node v a).addrs = a :: addrsOf v) (hf : ∀ e, f (tree e) = tree' (g e)) :
    Copies (m >>= fun v => makeUnique (node v)) (old.map tree) f toExecNode addrs := by
  intro k
  have hk := hm k
  cases old with
  | none => exact run_bind_none hk
  | some e =>
    rcases hk with ⟨v, k', hrun, hnew, hfresh⟩
    refine ⟨node v k', k' + 1, (run_bind_some hrun).trans rfl, ?_, ?_⟩
    · rw [h, hnew, Option.map_some, hf]
    · rw [ha]
      exact hfresh.cons

/-- A copy of the head, then of the tail. -/
theorem copies_cons {α β γ δ ε : Type} {m : Alloc α} {old : Option β} {g : β → β}
    {new : α → Option β} {addrsOf : α → List Nat} (hm : Copies m old g new addrsOf)
    {m' : Alloc γ} {old' : Option δ} {g' : δ → δ} {new' : γ → Option δ} {addrsOf' : γ → List Nat}
    (hm' : Copies m' old' g' new' addrsOf') {pair : α → γ → ε} {κ : Type} {newPair : ε → Option κ}
    {join : β → δ → κ} {f : κ → κ} {addrsPair : ε → List Nat}
    (h : ∀ a c, newPair (pair a c) = (new a).bind fun x => (new' c).map (join x))
    (ha : ∀ a c, addrsPair (pair a c) = addrsOf a ++ addrsOf' c)
    (hf : ∀ x y, f (join x y) = join (g x) (g' y)) :
    Copies (m >>= fun a => m' >>= fun c => pure (pair a c))
      (old.bind fun x => old'.map (join x)) f newPair addrsPair := by
  intro k
  have hk := hm k
  cases old with
  | none => exact run_bind_none hk
  | some x =>
    rcases hk with ⟨a, k₁, hrun, hnew, hfresh⟩
    have hk' := hm' k₁
    cases old' with
    | none =>
      have hnone : (m' >>= fun c => (pure (pair a c) : Alloc ε)).run k₁ = none := run_bind_none hk'
      exact (run_bind_some hrun).trans hnone
    | some y =>
      rcases hk' with ⟨c, k₂, hrun', hnew', hfresh'⟩
      refine ⟨pair a c, k₂, ?_, ?_, ?_⟩
      · rw [run_bind_some hrun, run_bind_some hrun']
        rfl
      · rw [h, hnew, hnew']
        simp [hf]
      · rw [ha]
        exact hfresh.append hfresh'

theorem copies_nil {α β : Type} {a : α} {e : β} {f : β → β} {new : α → Option β}
    {addrsOf : α → List Nat} (h : new a = some e) (hf : f e = e) (ha : addrsOf a = []) :
    Copies (pure a) (some e) f new addrsOf := fun k =>
  ⟨a, k, rfl, by rw [h, hf], by rw [ha]; exact .nil k⟩

mutual

/-- **`Clone` makes a tree of new nodes that is the old one up to recorded types**, and fails if
there is a null pointer in it. -/
theorem clone_copies : ∀ n : NodePtr, Copies (clone n) n.toExecNode cloned toExecNode addrs
  | .null => fun _ => rfl
  | .entryArgument _ _ | .execContext _ _ | .output _ _ | .constantValue _ _ _
  | .constantListValue _ _ _ | .ref _ _ _ =>
    copies_leaf (fun _ => rfl) (fun _ => by simp [addrs]) rfl
  | .unaryOP _ _ _ child =>
    copies_node (clone_copies child) (fun _ _ => rfl) (fun _ _ => by rw [addrs]) fun _ => rfl
  | .binaryOP _ info op left right => by
    intro k
    have hl := clone_copies left k
    rw [toExecNode]
    cases hle : left.toExecNode with
    | none =>
      rw [hle] at hl
      exact run_bind_none hl
    | some l =>
      rw [hle] at hl
      rcases hl with ⟨nl, k₁, hrun, hnew, hfresh⟩
      have hr := clone_copies right k₁
      cases hre : right.toExecNode with
      | none =>
        rw [hre] at hr
        exact (run_bind_some hrun).trans (run_bind_none hr)
      | some r =>
        rw [hre] at hr
        rcases hr with ⟨nr, k₂, hrun', hnew', hfresh'⟩
        refine ⟨_, k₂ + 1, (run_bind_some hrun).trans ((run_bind_some hrun').trans rfl), ?_, ?_⟩
        · simp [toExecNode, hnew, hnew', cloned]
        · rw [addrs]
          exact (hfresh.append hfresh').cons
  | .function _ _ _ args =>
    copies_node (cloneArgs_copies args) (fun _ _ => rfl) (fun _ _ => by rw [addrs]) fun _ => rfl
  | .noOP _ _ args _ =>
    copies_node (cloneStmts_copies args) (fun _ _ => rfl) (fun _ _ => by rw [addrs]) fun _ => rfl
  | .ifNode _ _ args | .switchNode _ _ args | .ifBlock _ _ args =>
    copies_node (cloneArgs_copies args) (fun _ _ => rfl) (fun _ _ => by rw [addrs]) fun _ => rfl

theorem cloneArgs_copies : ∀ args : List NodePtr,
    Copies (cloneArgs args) (toExecNodes args) clonedArgs toExecNodes addrsList
  | [] => copies_nil rfl rfl rfl
  | arg :: args =>
    copies_cons (clone_copies arg) (cloneArgs_copies args) (fun _ _ => rfl) (fun _ _ => rfl)
      fun _ _ => rfl

theorem cloneStmts_copies : ∀ args : List (VarInfo × NodePtr),
    Copies (cloneStmts args) (toExecStmts args) clonedStmts toExecStmts addrsStmts
  | [] => copies_nil rfl rfl rfl
  | (_, arg) :: args =>
    copies_cons (clone_copies arg) (cloneStmts_copies args) (fun _ _ => rfl) (fun _ _ => rfl)
      fun _ _ => rfl

end

end NodePtr

end Athena

end JitFusion
