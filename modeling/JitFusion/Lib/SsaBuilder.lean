/-
# Building a function block by block

An IR builder: a function under construction, the block new code goes to, and the next register.
Blocks are created empty and filled later, in any order.

A code generator that emits the code of a construct GROWS the function (`Grows`): it leaves every
block alone except the one it starts in, which it extends, and the blocks it creates; it leaves
exactly one block open, the one it stops in; and it branches only to blocks of its own.  `Frag`
is the same in the middle of the construct, when some blocks of its own are still open, and
there is one rule for each operation of the builder and one for a sub-construct.
-/
import JitFusion.Lib.SsaExpr

namespace Ssa

variable {O K L V W E : Type}

/-! ## 1. The builder -/

structure Builder (O K L : Type) where
  blocks : Cfg O K L
  insertPoint : Nat
  fresh : Nat := 0

namespace Builder

def size (b : Builder O K L) : Nat := b.blocks.length

/-- A new block at the end; its index is the old size. -/
def createBlock (b : Builder O K L) (label : L) : Builder O K L :=
  { b with blocks := b.blocks ++ [{ label }] }

def setInsertPoint (b : Builder O K L) (i : Nat) : Builder O K L := { b with insertPoint := i }

def modifyInsert (b : Builder O K L) (f : Block O K L → Block O K L) (fresh : Nat) :
    Builder O K L :=
  ⟨b.blocks.modify b.insertPoint f, b.insertPoint, fresh⟩

def append {α : Type} (b : Builder O K L) (c : Expr.Code O K α) : Builder O K L :=
  b.modifyInsert (fun blk => { blk with body := blk.body ++ c.instrs }) c.fresh

def terminate (b : Builder O K L) (t : Term K) : Builder O K L :=
  b.modifyInsert (fun blk => { blk with term := some t }) b.fresh

/-- A PHI node in the insertion block; its register is the old fresh one. -/
def createPhi (b : Builder O K L) (incoming : List (Operand K × Nat)) : Builder O K L :=
  b.modifyInsert (fun blk => { blk with phis := blk.phis ++ [⟨b.fresh, incoming⟩] }) (b.fresh + 1)

/-- A block that has no terminator yet. -/
def IsOpen (b : Builder O K L) (j : Nat) : Prop :=
  ∃ blk, b.blocks[j]? = some blk ∧ blk.term = none

/-! ## 2. What the operations do to a block -/

variable {b b' b₀ b₁ : Builder O K L} {j m : Nat}

@[simp] theorem size_createBlock (b : Builder O K L) (l : L) :
    (b.createBlock l).size = b.size + 1 := by
  simp [size, createBlock]

@[simp] theorem size_setInsertPoint (b : Builder O K L) (i : Nat) :
    (b.setInsertPoint i).size = b.size := rfl

@[simp] theorem size_modifyInsert (b : Builder O K L) (f : Block O K L → Block O K L)
    (fresh : Nat) : (b.modifyInsert f fresh).size = b.size := by
  simp [size, modifyInsert]

@[simp] theorem size_append {α : Type} (b : Builder O K L) (c : Expr.Code O K α) :
    (b.append c).size = b.size := size_modifyInsert b _ _

@[simp] theorem size_terminate (b : Builder O K L) (t : Term K) :
    (b.terminate t).size = b.size := size_modifyInsert b _ _

@[simp] theorem size_createPhi (b : Builder O K L) (incoming : List (Operand K × Nat)) :
    (b.createPhi incoming).size = b.size := size_modifyInsert b _ _

@[simp] theorem insertPoint_createBlock (b : Builder O K L) (l : L) :
    (b.createBlock l).insertPoint = b.insertPoint := rfl

@[simp] theorem insertPoint_setInsertPoint (b : Builder O K L) (i : Nat) :
    (b.setInsertPoint i).insertPoint = i := rfl

@[simp] theorem insertPoint_append {α : Type} (b : Builder O K L) (c : Expr.Code O K α) :
    (b.append c).insertPoint = b.insertPoint := rfl

@[simp] theorem insertPoint_terminate (b : Builder O K L) (t : Term K) :
    (b.terminate t).insertPoint = b.insertPoint := rfl

@[simp] theorem insertPoint_createPhi (b : Builder O K L) (incoming : List (Operand K × Nat)) :
    (b.createPhi incoming).insertPoint = b.insertPoint := rfl

theorem lt_size_of_isOpen (h : b.IsOpen j) : j < b.size := by
  obtain ⟨blk, hb, -⟩ := h
  exact (List.getElem?_eq_some_iff.mp hb).1

theorem block_createBlock (b : Builder O K L) (l : L) (j : Nat) :
    (b.createBlock l).blocks[j]? = if j = b.size then some { label := l } else b.blocks[j]? := by
  unfold createBlock size
  by_cases h : j = b.blocks.length
  · simp [h]
  · rw [if_neg h]
    rcases Nat.lt_or_gt_of_ne h with hlt | hgt
    · exact List.getElem?_append_left hlt
    · rw [List.getElem?_eq_none (by simp; omega), List.getElem?_eq_none (by omega)]

theorem block_modifyInsert (b : Builder O K L) (f : Block O K L → Block O K L) (fresh j : Nat) :
    (b.modifyInsert f fresh).blocks[j]? =
      if j = b.insertPoint then (b.blocks[j]?).map f else b.blocks[j]? := by
  simp only [modifyInsert, List.getElem?_modify]
  by_cases h : j = b.insertPoint
  · simp [h]
  · simp [h, Ne.symm h]

/-- A predecessor of a block is a block with a terminator. -/
theorem not_isPred_of_isOpen (h : b.IsOpen j) : ¬ IsPred b.blocks j m := by
  rintro ⟨blk, t, hb, ht, -⟩
  obtain ⟨blk', hb', ht'⟩ := h
  rw [hb] at hb'
  cases hb'
  rw [ht] at ht'
  cases ht'

theorem lt_size_of_isPred (h : IsPred b.blocks j m) : j < b.size := by
  obtain ⟨blk, t, hb, -⟩ := h
  exact (List.getElem?_eq_some_iff.mp hb).1

theorem isPred_congr (h : b'.blocks[j]? = b.blocks[j]?) :
    IsPred b'.blocks j m ↔ IsPred b.blocks j m := by
  simp only [IsPred, h]

theorem isOpen_congr (h : b'.blocks[j]? = b.blocks[j]?) : b'.IsOpen j ↔ b.IsOpen j := by
  simp only [IsOpen, h]

/-! ## 3. Growing a function -/

/-- `b` is `b₀` after some operations of one construct; the blocks that satisfy `pending` are
the ones of the construct that are still open. -/
structure Frag (b₀ b : Builder O K L) (pending : Nat → Prop) : Prop where
  size : b₀.size ≤ b.size
  fresh : b₀.fresh ≤ b.fresh
  old : ∀ j, j < b₀.size → j ≠ b₀.insertPoint → b.blocks[j]? = b₀.blocks[j]?
  start : ∃ blk₀ blk, b₀.blocks[b₀.insertPoint]? = some blk₀ ∧
    b.blocks[b₀.insertPoint]? = some blk ∧ blk.label = blk₀.label ∧ blk.phis = blk₀.phis ∧
    blk₀.body <+: blk.body
  isOpen : ∀ j, j = b₀.insertPoint ∨ b₀.size ≤ j → (b.IsOpen j ↔ pending j)
  own : ∀ j, pending j → j = b₀.insertPoint ∨ b₀.size ≤ j
  edges : ∀ j m, j = b₀.insertPoint ∨ b₀.size ≤ j → IsPred b.blocks j m →
    b₀.size ≤ m ∧ m < b.size

/-- **The code of one construct.** -/
def Grows (b₀ b : Builder O K L) : Prop := Frag b₀ b (· = b.insertPoint)

namespace Frag

variable {P P' : Nat → Prop}

theorem refl (h : b.IsOpen b.insertPoint) : Frag b b (· = b.insertPoint) := by
  have hlt := lt_size_of_isOpen h
  obtain ⟨blk, hb, ht⟩ := h
  refine ⟨Nat.le_refl _, Nat.le_refl _, fun _ _ _ => rfl,
    ⟨blk, blk, hb, hb, rfl, rfl, List.prefix_refl _⟩, ?_, fun j hj => .inl hj, ?_⟩
  · rintro j (rfl | hj)
    · exact ⟨fun _ => rfl, fun _ => ⟨blk, hb, ht⟩⟩
    · refine ⟨fun h => ?_, fun h => ?_⟩
      · have := lt_size_of_isOpen h
        omega
      · omega
  · rintro j m (rfl | hj) hp
    · exact absurd hp (not_isPred_of_isOpen ⟨blk, hb, ht⟩)
    · have := lt_size_of_isPred hp
      omega

theorem congr (h : Frag b₀ b P) (hP : ∀ j, P' j ↔ P j) : Frag b₀ b P' where
  size := h.size
  fresh := h.fresh
  old := h.old
  start := h.start
  isOpen j hj := (h.isOpen j hj).trans (hP j).symm
  own j hj := h.own j ((hP j).mp hj)
  edges := h.edges

theorem insert_lt (h : Frag b₀ b P) : b₀.insertPoint < b₀.size := by
  obtain ⟨blk₀, -, hb, -⟩ := h.start
  exact (List.getElem?_eq_some_iff.mp hb).1

theorem isOpen_of (h : Frag b₀ b P) (hj : P j) : b.IsOpen j := (h.isOpen j (h.own j hj)).mpr hj

theorem lt_size (h : Frag b₀ b P) (hj : P j) : j < b.size := lt_size_of_isOpen (h.isOpen_of hj)

/-- A sub-construct, started in an open block. -/
theorem child (h : Frag b₀ b P) (hi : P b.insertPoint) (hg : Grows b b₁) :
    Frag b₀ b₁ fun j => (P j ∧ j ≠ b.insertPoint) ∨ j = b₁.insertPoint := by
  have hown := h.own _ hi
  have hlt := h.insert_lt
  have hend := hg.own b₁.insertPoint rfl
  have hsize := h.size
  have hsize₁ := hg.size
  refine ⟨Nat.le_trans hsize hsize₁, Nat.le_trans h.fresh hg.fresh, ?_, ?_, ?_, ?_, ?_⟩
  · intro j hj hne
    rw [hg.old j (by omega) (by omega), h.old j hj hne]
  · obtain ⟨blk₀, blk, hb₀, hb, hl, hp, hbody⟩ := h.start
    by_cases heq : b₀.insertPoint = b.insertPoint
    · obtain ⟨blk', blk₁, hb', hb₁, hl₁, hp₁, hbody₁⟩ := hg.start
      rw [← heq, hb] at hb'
      cases hb'
      exact ⟨blk₀, blk₁, hb₀, heq ▸ hb₁, hl₁.trans hl, hp₁.trans hp, hbody.trans hbody₁⟩
    · refine ⟨blk₀, blk, hb₀, ?_, hl, hp, hbody⟩
      rw [hg.old _ (by omega) heq, hb]
  · intro j hj
    by_cases hstart : j = b.insertPoint
    · rw [hg.isOpen j (.inl hstart)]
      simp [hstart]
    · by_cases hnew : b.size ≤ j
      · rw [hg.isOpen j (.inr hnew)]
        refine ⟨.inr, ?_⟩
        rintro (⟨hPj, -⟩ | he)
        · have := h.lt_size hPj
          omega
        · exact he
      · rw [isOpen_congr (hg.old j (by omega) hstart), h.isOpen j hj]
        refine ⟨fun hPj => .inl ⟨hPj, hstart⟩, ?_⟩
        rintro (⟨hPj, -⟩ | he)
        · exact hPj
        · omega
  · rintro j (⟨hPj, -⟩ | rfl)
    · exact h.own j hPj
    · omega
  · intro j m hj hp
    by_cases hstart : j = b.insertPoint ∨ b.size ≤ j
    · have := hg.edges j m hstart hp
      omega
    · rw [isPred_congr (hg.old j (by omega) (by omega))] at hp
      have := h.edges j m hj hp
      omega

theorem createBlock (h : Frag b₀ b P) (l : L) :
    Frag b₀ (b.createBlock l) fun j => P j ∨ j = b.size := by
  have hsize := h.size
  have hlt := h.insert_lt
  have hblk := block_createBlock b l
  refine ⟨by rw [size_createBlock]; omega, h.fresh, ?_, ?_, ?_, ?_, ?_⟩
  · intro j hj hne
    rw [hblk, if_neg (by omega), h.old j hj hne]
  · obtain ⟨blk₀, blk, hb₀, hb, hrest⟩ := h.start
    exact ⟨blk₀, blk, hb₀, by rw [hblk, if_neg (by omega), hb], hrest⟩
  · intro j hj
    by_cases hnew : j = b.size
    · refine ⟨fun _ => .inr hnew, fun _ => ⟨{ label := l }, ?_, rfl⟩⟩
      rw [hblk, if_pos hnew]
    · have hsame : (b.createBlock l).blocks[j]? = b.blocks[j]? := by rw [hblk, if_neg hnew]
      rw [isOpen_congr hsame, h.isOpen j hj]
      simp [hnew]
  · rintro j (hPj | rfl)
    · exact h.own j hPj
    · exact .inr hsize
  · intro j m hj hp
    by_cases hnew : j = b.size
    · obtain ⟨blk, t, hb, ht, -⟩ := hp
      rw [hblk, if_pos hnew] at hb
      cases hb
      cases ht
    · have hsame : (b.createBlock l).blocks[j]? = b.blocks[j]? := by rw [hblk, if_neg hnew]
      have := h.edges j m hj ((isPred_congr hsame).mp hp)
      rw [size_createBlock]
      omega

theorem setInsertPoint (h : Frag b₀ b P) (i : Nat) : Frag b₀ (b.setInsertPoint i) P :=
  ⟨h.size, h.fresh, h.old, h.start, h.isOpen, h.own, h.edges⟩

/-- Changing the insertion block, which keeps its label and its code. -/
theorem modifyInsert {f : Block O K L → Block O K L} {fresh : Nat} (h : Frag b₀ b P)
    (hi : P b.insertPoint) (hfresh : b.fresh ≤ fresh)
    (hf : ∀ blk, (f blk).label = blk.label ∧
      (b.insertPoint = b₀.insertPoint → (f blk).phis = blk.phis) ∧ blk.body <+: (f blk).body)
    (hopen : ∀ j, P' j ↔ P j ∧ (j = b.insertPoint → ∀ blk, blk.term = none → (f blk).term = none))
    (hterm : ∀ blk, blk.term = none → (f blk).term = none ∨ ∃ t, (f blk).term = some t ∧
      ∀ m ∈ t.targets, b₀.size ≤ m ∧ m < b.size)
    (hterm' : (∀ blk : Block O K L, blk.term = none → (f blk).term = none) ∨
      ∀ blk, (f blk).term ≠ none) :
    Frag b₀ (b.modifyInsert f fresh) P' := by
  have hown := h.own _ hi
  have hlt := h.insert_lt
  have hblk := block_modifyInsert b f fresh
  have hsize := size_modifyInsert b f fresh
  obtain ⟨blki, hbi, hti⟩ := h.isOpen_of hi
  refine ⟨by rw [hsize]; exact h.size, Nat.le_trans h.fresh hfresh, ?_, ?_, ?_, ?_, ?_⟩
  · intro j hj hne
    rw [hblk, if_neg (by omega), h.old j hj hne]
  · obtain ⟨blk₀, blk, hb₀, hb, hl, hp, hbody⟩ := h.start
    by_cases heq : b₀.insertPoint = b.insertPoint
    · refine ⟨blk₀, f blk, hb₀, by rw [hblk, if_pos heq, hb]; rfl, ?_, ?_, ?_⟩
      · rw [(hf blk).1, hl]
      · rw [(hf blk).2.1 heq.symm, hp]
      · exact hbody.trans (hf blk).2.2
    · exact ⟨blk₀, blk, hb₀, by rw [hblk, if_neg heq, hb], hl, hp, hbody⟩
  · intro j hj
    rw [hopen]
    by_cases heq : j = b.insertPoint
    · subst heq
      have hiff : (b.modifyInsert f fresh).IsOpen b.insertPoint ↔ (f blki).term = none := by
        unfold IsOpen
        rw [hblk, if_pos rfl, hbi]
        simp
      rw [hiff]
      refine ⟨fun hn => ⟨hi, fun _ blk ht => ?_⟩, fun hn => hn.2 rfl blki hti⟩
      rcases hterm' with hkeep | hclose
      · exact hkeep blk ht
      · exact absurd hn (hclose blki)
    · have hsame : (b.modifyInsert f fresh).blocks[j]? = b.blocks[j]? := by rw [hblk, if_neg heq]
      rw [isOpen_congr hsame, h.isOpen j hj]
      simp [heq]
  · intro j hj
    exact h.own j ((hopen j).mp hj).1
  · intro j m hj hp
    rw [hsize]
    by_cases heq : j = b.insertPoint
    · subst heq
      obtain ⟨blk, t, hb, ht, hm⟩ := hp
      rw [hblk, if_pos rfl, hbi] at hb
      cases hb
      rcases hterm blki hti with hn | ⟨t', ht', htargets⟩
      · rw [hn] at ht
        cases ht
      · rw [ht'] at ht
        cases ht
        exact htargets m hm
    · have hsame : (b.modifyInsert f fresh).blocks[j]? = b.blocks[j]? := by rw [hblk, if_neg heq]
      exact h.edges j m hj ((isPred_congr hsame).mp hp)

theorem append {α : Type} {c : Expr.Code O K α} (h : Frag b₀ b P) (hi : P b.insertPoint)
    (hc : b.fresh ≤ c.fresh) : Frag b₀ (b.append c) P :=
  h.modifyInsert hi hc (fun _ => ⟨rfl, fun _ => rfl, List.prefix_append _ _⟩)
    (fun _ => ⟨fun hj => ⟨hj, fun _ _ ht => ht⟩, And.left⟩) (fun _ ht => .inl ht)
    (.inl fun _ ht => ht)

theorem terminate {t : Term K} (h : Frag b₀ b P) (hi : P b.insertPoint)
    (ht : ∀ m ∈ t.targets, b₀.size ≤ m ∧ m < b.size) :
    Frag b₀ (b.terminate t) fun j => P j ∧ j ≠ b.insertPoint := by
  refine h.modifyInsert hi (Nat.le_refl _) (fun _ => ⟨rfl, fun _ => rfl, List.prefix_refl _⟩)
    (fun _ => and_congr_right fun _ => ⟨fun hne he => absurd he hne, fun hall he => ?_⟩)
    (fun _ _ => .inr ⟨t, rfl, ht⟩) (.inr fun _ hn => by cases hn)
  obtain ⟨blk, hb, hopen⟩ := h.isOpen_of hi
  cases hall he blk hopen

theorem createPhi {incoming : List (Operand K × Nat)} (h : Frag b₀ b P) (hi : P b.insertPoint)
    (hne : b.insertPoint ≠ b₀.insertPoint) : Frag b₀ (b.createPhi incoming) P :=
  h.modifyInsert hi (Nat.le_succ _)
    (fun _ => ⟨rfl, fun he => absurd he hne, List.prefix_refl _⟩)
    (fun _ => ⟨fun hj => ⟨hj, fun _ _ ht => ht⟩, And.left⟩) (fun _ ht => .inl ht)
    (.inl fun _ ht => ht)

end Frag

theorem Grows.refl (h : b.IsOpen b.insertPoint) : Grows b b := Frag.refl h

theorem Grows.isOpen_insert (h : Grows b₀ b) : b.IsOpen b.insertPoint := Frag.isOpen_of h rfl

theorem Grows.trans (h : Grows b₀ b) (h' : Grows b b₁) : Grows b₀ b₁ :=
  (Frag.child h rfl h').congr fun j => by omega

/-- The block a construct stops in is the one it started in, or new. -/
theorem Grows.insertPoint (h : Grows b₀ b) :
    b.insertPoint = b₀.insertPoint ∨ b₀.size ≤ b.insertPoint := Frag.own h _ rfl

theorem Grows.insertPoint_lt (h : Grows b₀ b) : b.insertPoint < b.size :=
  lt_size_of_isOpen h.isOpen_insert

/-! ## 4. What stays as it is -/

/-- Block `m` has the same label, the same PHI nodes and the same predecessors. -/
structure Stable (b b' : Builder O K L) (m : Nat) : Prop where
  head : (b'.blocks[m]?).map (fun blk => (blk.label, blk.phis)) =
    (b.blocks[m]?).map fun blk => (blk.label, blk.phis)
  preds : ∀ j, IsPred b'.blocks j m ↔ IsPred b.blocks j m

namespace Stable

theorem refl (b : Builder O K L) (m : Nat) : Stable b b m := ⟨rfl, fun _ => Iff.rfl⟩

theorem trans (h : Stable b b' m) (h' : Stable b' b₁ m) : Stable b b₁ m :=
  ⟨h'.head.trans h.head, fun j => (h'.preds j).trans (h.preds j)⟩

theorem grows (h : Grows b b₁) (hopen : b.IsOpen b.insertPoint) (hm : m < b.size) :
    Stable b b₁ m := by
  refine ⟨?_, fun j => ?_⟩
  · by_cases heq : m = b.insertPoint
    · obtain ⟨blk, blk₁, hb, hb₁, hl, hp, -⟩ := h.start
      rw [heq, hb, hb₁]
      simp [hl, hp]
    · rw [h.old m hm heq]
  · by_cases hown : j = b.insertPoint ∨ b.size ≤ j
    · refine ⟨fun hp => ?_, fun hp => ?_⟩
      · have := h.edges j m hown hp
        omega
      · rcases hown with rfl | hj
        · exact absurd hp (not_isPred_of_isOpen hopen)
        · have := lt_size_of_isPred hp
          omega
    · exact isPred_congr (h.old j (by omega) (by omega))

theorem createBlock (l : L) (hm : m < b.size) : Stable b (b.createBlock l) m := by
  have hblk := block_createBlock b l
  refine ⟨by rw [hblk, if_neg (by omega)], fun j => ?_⟩
  by_cases hj : j = b.size
  · refine ⟨fun hp => ?_, fun hp => ?_⟩
    · obtain ⟨blk, t, hb, ht, -⟩ := hp
      rw [hblk, if_pos hj] at hb
      cases hb
      cases ht
    · have := lt_size_of_isPred hp
      omega
  · exact isPred_congr (by rw [hblk, if_neg hj])

theorem setInsertPoint (i : Nat) : Stable b (b.setInsertPoint i) m := ⟨rfl, fun _ => Iff.rfl⟩

theorem modifyInsert {f : Block O K L → Block O K L} {fresh : Nat}
    (hf : m ≠ b.insertPoint ∨ ∀ blk, (f blk).label = blk.label ∧ (f blk).phis = blk.phis)
    (ht : ∀ blk, (f blk).term = blk.term) :
    Stable b (b.modifyInsert f fresh) m := by
  have hblk := block_modifyInsert b f fresh
  refine ⟨?_, fun j => ?_⟩
  · rw [hblk]
    split
    · next heq =>
      rcases hf with hne | hf
      · exact absurd heq hne
      · cases b.blocks[m]? with
        | none => rfl
        | some blk => simp [hf]
    · rfl
  · unfold IsPred
    rw [hblk]
    split
    · cases b.blocks[j]? with
      | none => simp
      | some blk => simp [ht]
    · rfl

theorem append {α : Type} (c : Expr.Code O K α) : Stable b (b.append c) m :=
  modifyInsert (.inr fun _ => ⟨rfl, rfl⟩) fun _ => rfl

theorem createPhi {incoming : List (Operand K × Nat)} (hm : m ≠ b.insertPoint) :
    Stable b (b.createPhi incoming) m :=
  modifyInsert (.inl hm) fun _ => rfl

end Stable

/-- Ending the insertion block makes it a predecessor of its targets. -/
theorem isPred_terminate {t : Term K} (hopen : b.IsOpen b.insertPoint) :
    IsPred (b.terminate t).blocks j m ↔
      IsPred b.blocks j m ∨ (j = b.insertPoint ∧ m ∈ t.targets) := by
  have hblk := block_modifyInsert b (fun blk => { blk with term := some t }) b.fresh
  by_cases heq : j = b.insertPoint
  · subst heq
    have hno : ¬ IsPred b.blocks b.insertPoint m := not_isPred_of_isOpen hopen
    obtain ⟨blk, hb, -⟩ := hopen
    refine ⟨?_, ?_⟩
    · rintro ⟨blk', t', hb', ht', hm⟩
      rw [terminate, hblk, if_pos rfl, hb] at hb'
      cases hb'
      cases ht'
      exact .inr ⟨rfl, hm⟩
    · rintro (hp | ⟨-, hm⟩)
      · exact absurd hp hno
      · exact ⟨_, t, by rw [terminate, hblk, if_pos rfl, hb]; rfl, rfl, hm⟩
  · have hsame : (b.terminate t).blocks[j]? = b.blocks[j]? := by
      rw [terminate, hblk, if_neg heq]
    rw [isPred_congr hsame]
    simp [heq]

theorem Stable.terminate {t : Term K} (hopen : b.IsOpen b.insertPoint) (hm : m ∉ t.targets) :
    Stable b (b.terminate t) m := by
  refine ⟨?_, fun j => ?_⟩
  · unfold Builder.terminate
    rw [block_modifyInsert]
    split
    · cases b.blocks[m]? <;> rfl
    · rfl
  · rw [isPred_terminate hopen]
    simp [hm]

/-! ## 5. The finished function -/

/-- The finished function `F` still has the code of a builder: its blocks are extended at most,
and those with a terminator are as they were. -/
def Later (C F : Cfg O K L) : Prop :=
  ∀ (j : Nat) (blk : Block O K L), C[j]? = some blk →
    ∃ blk' : Block O K L, F[j]? = some blk' ∧ blk.body <+: blk'.body ∧
      (blk.term ≠ none → blk' = blk)

/-- Also, the insertion block gets no more PHI nodes. -/
structure Final (b : Builder O K L) (F : Cfg O K L) : Prop where
  later : Later b.blocks F
  phis : ∀ blk blk', b.blocks[b.insertPoint]? = some blk → F[b.insertPoint]? = some blk' →
    blk'.phis = blk.phis

variable {C D F : Cfg O K L}

namespace Later

theorem refl (C : Cfg O K L) : Later C C :=
  fun _ blk h => ⟨blk, h, List.prefix_refl _, fun _ => rfl⟩

theorem trans (h : Later C D) (h' : Later D F) : Later C F := by
  intro j blk hb
  obtain ⟨blk', hb', hp, heq⟩ := h j blk hb
  obtain ⟨blk'', hb'', hp', heq'⟩ := h' j blk' hb'
  refine ⟨blk'', hb'', hp.trans hp', fun ht => ?_⟩
  have h₁ := heq ht
  rw [heq' (h₁ ▸ ht), h₁]

theorem grows (h : Grows b b₁) (hopen : b.IsOpen b.insertPoint) :
    Later b.blocks b₁.blocks := by
  intro j blk hb
  have hj : j < b.size := (List.getElem?_eq_some_iff.mp hb).1
  by_cases heq : j = b.insertPoint
  · obtain ⟨blk₀, blk₁, hb₀, hb₁, -, -, hp⟩ := h.start
    obtain ⟨blk', hb', ht⟩ := hopen
    rw [heq] at hb ⊢
    rw [hb] at hb₀ hb'
    cases hb₀
    cases hb'
    exact ⟨blk₁, hb₁, hp, fun hne => absurd ht hne⟩
  · exact ⟨blk, by rw [h.old j hj heq, hb], List.prefix_refl _, fun _ => rfl⟩

theorem createBlock (l : L) : Later b.blocks (b.createBlock l).blocks := by
  intro j blk hb
  have hj : j < b.size := (List.getElem?_eq_some_iff.mp hb).1
  exact ⟨blk, by rw [block_createBlock, if_neg (by omega), hb], List.prefix_refl _, fun _ => rfl⟩

theorem modifyInsert {f : Block O K L → Block O K L} {fresh : Nat}
    (hopen : b.IsOpen b.insertPoint) (hf : ∀ blk : Block O K L, blk.body <+: (f blk).body) :
    Later b.blocks (b.modifyInsert f fresh).blocks := by
  intro j blk hb
  rw [block_modifyInsert]
  by_cases heq : j = b.insertPoint
  · obtain ⟨blk', hb', ht⟩ := hopen
    rw [heq] at hb ⊢
    rw [hb] at hb'
    cases hb'
    exact ⟨f blk, by rw [if_pos rfl, hb]; rfl, hf blk, fun hne => absurd ht hne⟩
  · exact ⟨blk, by rw [if_neg heq, hb], List.prefix_refl _, fun _ => rfl⟩

theorem append {α : Type} (c : Expr.Code O K α) (hopen : b.IsOpen b.insertPoint) :
    Later b.blocks (b.append c).blocks :=
  modifyInsert hopen fun _ => List.prefix_append _ _

theorem terminate (t : Term K) (hopen : b.IsOpen b.insertPoint) :
    Later b.blocks (b.terminate t).blocks :=
  modifyInsert hopen fun _ => List.prefix_refl _

theorem createPhi (incoming : List (Operand K × Nat)) (hopen : b.IsOpen b.insertPoint) :
    Later b.blocks (b.createPhi incoming).blocks :=
  modifyInsert hopen fun _ => List.prefix_refl _

end Later

namespace Final

/-- A block that has been ended is what it will be. -/
theorem of_terminate {t : Term K} (hopen : b.IsOpen b.insertPoint)
    (h : Later (b.terminate t).blocks F) : Final b F := by
  refine ⟨(Later.terminate t hopen).trans h, fun blk blk' hb hb' => ?_⟩
  have ht : (b.terminate t).blocks[b.insertPoint]? = some { blk with term := some t } := by
    unfold Builder.terminate
    rw [block_modifyInsert, if_pos rfl, hb]
    rfl
  obtain ⟨blk'', hb'', -, heq⟩ := h _ _ ht
  rw [hb'] at hb''
  cases hb''
  rw [heq (by simp)]

theorem of_append {α : Type} {c : Expr.Code O K α} (hopen : b.IsOpen b.insertPoint)
    (h : Final (b.append c) F) : Final b F := by
  refine ⟨(Later.append c hopen).trans h.later, fun blk blk' hb hb' => ?_⟩
  refine h.phis { blk with body := blk.body ++ c.instrs } blk' ?_ hb'
  rw [insertPoint_append]
  unfold Builder.append
  rw [block_modifyInsert, if_pos rfl, hb]
  rfl

theorem of_createBlock {l : L} (h : Final (b.createBlock l) F) : Final b F := by
  refine ⟨(Later.createBlock l).trans h.later, fun blk blk' hb hb' => ?_⟩
  have hlt : b.insertPoint < b.size := (List.getElem?_eq_some_iff.mp hb).1
  exact h.phis blk blk'
    (by rw [block_createBlock, insertPoint_createBlock, if_neg (by omega), hb]) hb'

theorem of_grows (hg : Grows b b₁) (hopen : b.IsOpen b.insertPoint) (h : Final b₁ F) :
    Final b F := by
  refine ⟨(Later.grows hg hopen).trans h.later, fun blk blk' hb hb' => ?_⟩
  obtain ⟨blk₀, blk₁, hb₀, hb₁, -, hp, -⟩ := hg.start
  rw [hb] at hb₀
  cases hb₀
  by_cases heq : b₁.insertPoint = b.insertPoint
  · rw [← hp]
    exact h.phis blk₁ blk' (heq ▸ hb₁) (heq ▸ hb')
  · -- the start block has been ended, so it is final
    have hclosed : blk₁.term ≠ none := by
      intro hn
      exact heq ((hg.isOpen b.insertPoint (.inl rfl)).mp ⟨blk₁, hb₁, hn⟩).symm
    obtain ⟨blk'', hb'', -, he⟩ := h.later _ _ hb₁
    rw [hb'] at hb''
    cases hb''
    rw [he hclosed, hp]

end Final

end Builder

end Ssa
