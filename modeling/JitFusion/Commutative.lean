/-
# Commutative kernels

`CommutativeCallCanonicalizerPass` (`src/jit_core.cc`) puts the first two operands of a call that
is marked commutative in the order of their addresses.  The calls it finds are those of the
functions registered by `RegisterCommutativeCFuncWithExecCtx`: the list forms of the arithmetic
and bitwise operators (`src/function/list_arithmetic.cc`) and of the two symmetric bitmap
generators (`src/function/list_comparison.cc`).

The swap never changes a result or whether there is an error.  It does change the text of the
error of a kernel that reports the two lengths, which then names each as the other's
(`swap_invisible_iff`).
-/
import JitFusion.Bitmap

namespace JitFusion

namespace Kernels

open Fill (Buffer)
open Fill.Buffer (sweep)

/-! ## 1. The kernels -/

section ListOp

variable {α : Type}

/-- What the operators on two lists have in common. -/
def listOp (name : String) (op : α → α → α) (memory : Nat → α) (a b : ListStruct α) : Call α :=
  if a.len ≠ b.len then
    .fail memory (name ++ ": lhs and rhs len mismatch, lhs len: " ++ Nat.repr a.len ++
      ", rhs len: " ++ Nat.repr b.len)
  else
    .done (sweep (fun i _ => op (a.data i) (b.data i)) a.len (.alloc memory a.len)) a.len a.len_lt

def listAddList [Add α] : (Nat → α) → ListStruct α → ListStruct α → Call α :=
  listOp "ListAddList" (· + ·)

def listMulList [Mul α] : (Nat → α) → ListStruct α → ListStruct α → Call α :=
  listOp "ListMulList" (· * ·)

def listBitwiseAndList [AndOp α] : (Nat → α) → ListStruct α → ListStruct α → Call α :=
  listOp "ListBitwiseAndList" (· &&& ·)

def listBitwiseOrList [OrOp α] : (Nat → α) → ListStruct α → ListStruct α → Call α :=
  listOp "ListBitwiseOrList" (· ||| ·)

def listBitwiseXorList [XorOp α] : (Nat → α) → ListStruct α → ListStruct α → Call α :=
  listOp "ListBitwiseXorList" (· ^^^ ·)

variable {name : String} {op : α → α → α} {memory memory' : Nat → α} {a b : ListStruct α}

variable (name op memory memory') in
theorem listOp_toList (h : a.len = b.len) :
    (listOp name op memory a b).result.toList =
        (List.range a.len).map (fun i => op (a.data i) (b.data i)) ∧
      (listOp name op memory a b).errors = [] := by
  rw [listOp, if_neg (not_not.mpr h)]
  refine ⟨List.map_congr_left fun i hi => ?_, rfl⟩
  have hslot := @Fill.Buffer.slot_sweep α (.alloc memory a.len)
    (fun i _ => op (a.data i) (b.data i)) (fun i _ => op (a.data i) (b.data i))
    (fun _ _ => rfl) a.len i
  exact hslot.trans (if_pos (List.mem_range.mp hi))

theorem listOp_errors_ne (h : a.len ≠ b.len) :
    (listOp name op memory a b).errors =
      [name ++ ": lhs and rhs len mismatch, lhs len: " ++ Nat.repr a.len ++ ", rhs len: " ++
        Nat.repr b.len] := by
  rw [listOp, if_pos h]
  rfl

variable (name memory memory' a b) in
/-- **Exchanging the operands** keeps the elements. -/
theorem listOp_swap (hop : ∀ x y, op x y = op y x) :
    (listOp name op memory a b).result.toList = (listOp name op memory' b a).result.toList ∧
      ((listOp name op memory a b).errors = [] ↔ (listOp name op memory' b a).errors = []) := by
  by_cases h : a.len = b.len
  · obtain ⟨hl, he⟩ := listOp_toList name op memory h
    obtain ⟨hl', he'⟩ := listOp_toList name op memory' h.symm
    refine ⟨?_, iff_of_true he he'⟩
    rw [hl, hl', h]
    exact List.map_congr_left fun i _ => hop _ _
  · rw [listOp, listOp, if_pos h, if_pos (Ne.symm h)]
    exact ⟨rfl, by simp [Call.fail]⟩

end ListOp

/-! ## 2. Two lengths in a message -/

theorem toList_repr_inj {m n : Nat} (h : (Nat.repr m).toList = (Nat.repr n).toList) : m = n := by
  have hof := congrArg (Nat.ofDigitChars 10 · 0) h
  simpa [Nat.toList_repr, Nat.ofDigitChars_toDigits] using hof

theorem comma_notMem_repr (n : Nat) : ∀ c ∈ (Nat.repr n).toList, (c != ',') = true := by
  intro c hc
  rw [Nat.toList_repr] at hc
  have hdigit := Nat.isDigit_of_mem_toDigits (by decide) (by decide) hc
  rw [bne_iff_ne]
  rintro rfl
  cases hdigit

/-- The two lengths can be read off. -/
theorem message_swap_iff (pre : String) (m n : Nat) :
    pre ++ Nat.repr m ++ ", rhs len: " ++ Nat.repr n =
      pre ++ Nat.repr n ++ ", rhs len: " ++ Nat.repr m ↔ m = n := by
  constructor
  · intro h
    have hlist := congrArg String.toList h
    simp only [String.toList_append, List.append_assoc, List.append_cancel_left_eq] at hlist
    have htake := congrArg (List.takeWhile (· != ',')) hlist
    rw [List.takeWhile_append_of_pos (comma_notMem_repr m),
      List.takeWhile_append_of_pos (comma_notMem_repr n)] at htake
    exact toList_repr_inj (by simpa using htake)
  · rintro rfl
    rfl

/-! ## 3. The bitmap generators -/

section Bitmaps

variable {bytes bytes' : Nat → UInt8} {len : Nat} {isTrue : Nat → Bool}

/-- The bytes of a bitmap do not depend on the memory it is made in. -/
theorem genBits_toList :
    (genBits bytes len isTrue).result.toList = (genBits bytes' len isTrue).result.toList := by
  refine ListStruct.toList_congr ?_ fun k hk => ?_
  · rw [genBits_result.2.1, genBits_result.2.1]
  · by_cases h : len = 0
    · subst h
      exact absurd hk (by simp [genBits_result.2.1, u32])
    · rw [genBits_result.2.1] at hk
      have hle : u32 (len + 7) ≤ len + 7 := Nat.mod_le _ _
      rw [genBits_result.1, genBits_result.1, genBits_buffer h, genBits_buffer h,
        (lastByte_spec _ _ _ _).2.1, (lastByte_spec _ _ _ _).2.1]
      by_cases hlast : k = len / 8
      · rw [hlast, Function.update_self, Function.update_self]
      · have hlt : k < len / 8 := by omega
        rw [Function.update_of_ne hlast, Function.update_of_ne hlast,
          Fill.Buffer.slot_sweep (g := fun k _ => packByte (fun j => isTrue (8 * k + j)) 8)
            (fun _ _ => rfl), if_pos hlt,
          Fill.Buffer.slot_sweep (g := fun k _ => packByte (fun j => isTrue (8 * k + j)) 8)
            (fun _ _ => rfl), if_pos hlt]

variable {t : IntegerType} {op : BinaryOPType} {a b : ListStruct t.Value}

variable (bytes bytes' a b) in
/-- **Exchanging the operands of a symmetric comparison** changes nothing. -/
theorem genBitmapList_swap (hop : ∀ x y : t.Value, Kernels.isTrue op x y = Kernels.isTrue op y x) :
    (genBitmapList op bytes a b).result.toList = (genBitmapList op bytes' b a).result.toList ∧
      (genBitmapList op bytes a b).errors = (genBitmapList op bytes' b a).errors := by
  by_cases h : a.len = b.len
  · rw [genBitmapList, genBitmapList, if_neg (not_not.mpr h), if_neg (not_not.mpr h.symm), h]
    have hcmp : (fun i => Kernels.isTrue op (a.data i) (b.data i)) =
        fun i => Kernels.isTrue op (b.data i) (a.data i) := funext fun i => hop _ _
    rw [hcmp]
    exact ⟨genBits_toList, by rw [genBits_result.2.2, genBits_result.2.2]⟩
  · rw [genBitmapList, genBitmapList, if_pos h, if_pos (Ne.symm h)]
    exact ⟨rfl, rfl⟩

end Bitmaps

/-! ## 4. The pass -/

/-- The kernels that are registered as commutative. -/
inductive CommutativeKernel
  | listAdd | listMul | listBitwiseAnd | listBitwiseOr | listBitwiseXor
  | genEqualBitmap | genNotEqualBitmap
  deriving DecidableEq, Repr

namespace CommutativeKernel

variable {t : IntegerType}

/-- The elements and the errors of a call. -/
def observe {α : Type} (number : α → Int) (c : Call α) : List Int × List String :=
  (c.result.toList.map number, c.errors)

/-- A call with the operands `a` and `b`, which finds `memory` or `bytes` in the arena. -/
def call (k : CommutativeKernel) (memory : Nat → t.Value) (bytes : Nat → UInt8)
    (a b : ListStruct t.Value) : List Int × List String :=
  match k with
  | listAdd => observe IntegerType.Value.toInt (listAddList memory a b)
  | listMul => observe IntegerType.Value.toInt (listMulList memory a b)
  | listBitwiseAnd => observe IntegerType.Value.toInt (listBitwiseAndList memory a b)
  | listBitwiseOr => observe IntegerType.Value.toInt (listBitwiseOrList memory a b)
  | listBitwiseXor => observe IntegerType.Value.toInt (listBitwiseXorList memory a b)
  | genEqualBitmap => observe (fun b => b.toNat) (genBitmapList .kEqual bytes a b)
  | genNotEqualBitmap => observe (fun b => b.toNat) (genBitmapList .kNotEqual bytes a b)

/-- The kernels whose error does not name the lengths. -/
def isBitmap : CommutativeKernel → Bool
  | genEqualBitmap | genNotEqualBitmap => true
  | _ => false

/-- The operands as the pass leaves them: `greater` says the first has the larger address. -/
def canonicalize {α : Type} (greater : Bool) (a b : α) : α × α := if greater then (b, a) else (a, b)

/-- A swap that changes neither the elements nor the decision, and the message just when the
lengths are the same. -/
structure Swapped (r r' : List Int × List String) (same : Prop) : Prop where
  elements : r.1 = r'.1
  decision : r.2 = [] ↔ r'.2 = []
  message : r.2 = r'.2 ↔ same

variable {memory memory' : Nat → t.Value} {bytes bytes' : Nat → UInt8} {a b : ListStruct t.Value}

theorem listOp_swapped {name : String} {op : t.Value → t.Value → t.Value}
    (hop : ∀ x y, op x y = op y x) :
    Swapped (observe IntegerType.Value.toInt (listOp name op memory a b))
      (observe IntegerType.Value.toInt (listOp name op memory' b a)) (a.len = b.len) := by
  obtain ⟨helements, hdecision⟩ :=
    listOp_swap name memory memory' a b hop
  refine ⟨congrArg (List.map IntegerType.Value.toInt) helements, hdecision, ?_⟩
  by_cases h : a.len = b.len
  · exact iff_of_true
      ((listOp_toList name op memory h).2.trans (listOp_toList name op memory' h.symm).2.symm) h
  · simp only [observe, listOp_errors_ne h, listOp_errors_ne (Ne.symm h), List.cons.injEq, and_true]
    exact message_swap_iff _ _ _

theorem bitmap_swapped {op : BinaryOPType}
    (hop : ∀ x y : t.Value, Kernels.isTrue op x y = Kernels.isTrue op y x) :
    Swapped (observe (fun b => b.toNat) (genBitmapList op bytes a b))
      (observe (fun b => b.toNat) (genBitmapList op bytes' b a)) True := by
  obtain ⟨helements, herrors⟩ :=
    genBitmapList_swap bytes bytes' a b hop
  exact ⟨congrArg (List.map _) helements, iff_of_eq (congrArg (· = []) herrors),
    iff_of_true herrors trivial⟩

variable (memory memory' bytes bytes' a b) in
theorem swapped (k : CommutativeKernel) :
    Swapped (k.call memory bytes a b) (k.call memory' bytes' b a)
      (k.isBitmap = true ∨ a.len = b.len) := by
  have hlist {r r' : List Int × List String} (h : Swapped r r' (a.len = b.len)) :
      Swapped r r' (false = true ∨ a.len = b.len) :=
    ⟨h.elements, h.decision, h.message.trans (by simp)⟩
  have hbitmap {r r' : List Int × List String} (h : Swapped r r' True) :
      Swapped r r' (true = true ∨ a.len = b.len) :=
    ⟨h.elements, h.decision, h.message.trans (by simp)⟩
  cases k with
  | listAdd => exact hlist (listOp_swapped fun x y =>
      congrArg t.wrap (Int.add_comm x.toInt y.toInt))
  | listMul => exact hlist (listOp_swapped fun x y =>
      congrArg t.wrap (Int.mul_comm x.toInt y.toInt))
  | listBitwiseAnd =>
    exact hlist (listOp_swapped fun x y =>
      congrArg IntegerType.ofBits (BitVec.and_comm x.bits y.bits))
  | listBitwiseOr =>
    exact hlist (listOp_swapped fun x y =>
      congrArg IntegerType.ofBits (BitVec.or_comm x.bits y.bits))
  | listBitwiseXor =>
    exact hlist (listOp_swapped fun x y =>
      congrArg IntegerType.ofBits (BitVec.xor_comm x.bits y.bits))
  | genEqualBitmap =>
    exact hbitmap (bitmap_swapped fun x y => decide_eq_decide.mpr eq_comm)
  | genNotEqualBitmap =>
    exact hbitmap (bitmap_swapped fun x y => decide_eq_decide.mpr ne_comm)

/-- The errors do not depend on the memory. -/
theorem errors_memory (k : CommutativeKernel) :
    (k.call memory bytes a b).2 = (k.call memory' bytes' a b).2 := by
  have hlist (name : String) (op : t.Value → t.Value → t.Value) :
      (listOp name op memory a b).errors = (listOp name op memory' a b).errors := by
    by_cases h : a.len = b.len
    · rw [(listOp_toList name op memory h).2, (listOp_toList name op memory' h).2]
    · rw [listOp_errors_ne h, listOp_errors_ne h]
  have hbitmap (op : BinaryOPType) :
      (genBitmapList op bytes a b).errors = (genBitmapList op bytes' a b).errors := by
    rw [genBitmapList, genBitmapList]
    split
    · rfl
    · rw [genBits_result.2.2, genBits_result.2.2]
  cases k with
  | listAdd | listMul | listBitwiseAnd | listBitwiseOr | listBitwiseXor => exact hlist _ _
  | genEqualBitmap | genNotEqualBitmap => exact hbitmap _

/-- **The pass is invisible in a call** exactly if the operands keep their order, the kernel is a
bitmap generator or the lists have the same length; the result and the decision whether there is
an error are the same in any case. -/
theorem swap_invisible_iff (k : CommutativeKernel) (greater : Bool)
    (memory memory' : Nat → t.Value) (bytes bytes' : Nat → UInt8) (a b : ListStruct t.Value) :
    let r := k.call memory bytes a b
    let r' := k.call memory' bytes' (canonicalize greater a b).1 (canonicalize greater a b).2
    r.1 = r'.1 ∧ (r.2 = [] ↔ r'.2 = []) ∧
      (r = r' ↔ greater = false ∨ k.isBitmap = true ∨ a.len = b.len) := by
  intro r r'
  cases greater with
  | false =>
    have herrors : r.2 = r'.2 := errors_memory k
    have helements : r.1 = r'.1 :=
      (swapped memory memory bytes bytes a b k).elements.trans
        (swapped memory memory' bytes bytes' b a k).elements
    exact ⟨helements, iff_of_eq (congrArg (· = []) herrors),
      iff_of_true (Prod.ext helements herrors) (.inl rfl)⟩
  | true =>
    have h : Swapped r r' (k.isBitmap = true ∨ a.len = b.len) :=
      swapped memory memory' bytes bytes' a b k
    refine ⟨h.elements, h.decision, ?_⟩
    rw [Prod.ext_iff, h.message]
    exact ⟨fun hs => .inr hs.2, fun hs => ⟨h.elements, hs.resolve_left Bool.noConfusion⟩⟩

/-- `ListAdd([1], [1, 2])` with the operands exchanged reports the lengths the other way round. -/
theorem swap_visible_listAdd :
    let a := ListStruct.ofList [(1 : IntegerType.int32.Value)] (by decide)
    let b := ListStruct.ofList [(1 : IntegerType.int32.Value), 1] (by decide)
    listAdd.call (fun _ => 0) (fun _ => 0) a b =
        ([], ["ListAddList: lhs and rhs len mismatch, lhs len: 1, rhs len: 2"]) ∧
      listAdd.call (fun _ => 0) (fun _ => 0) (canonicalize true a b).1 (canonicalize true a b).2 =
        ([], ["ListAddList: lhs and rhs len mismatch, lhs len: 2, rhs len: 1"]) := by
  decide +kernel

end CommutativeKernel

end Kernels

end JitFusion
