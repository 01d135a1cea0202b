/-
# Bitmaps

`GenBitmap` and `GenBitmapList` compare a list with a scalar or with another list and pack the
answers, eight to a byte; `IfByBitmapLLRB`, `IfByBitmapLBRL` and `IfByBitmapLLRL` choose between
two operands by the bits (`src/function/list_comparison.cc`).

* Where the length is a multiple of eight the generators clear a byte behind the last one, which
  is a byte they did not allocate (`writesInside_iff`).
* The bytes they did allocate are right, and the two loops of a consumer undo the two loops of a
  generator (`chooses`).
-/
import Mathlib.Data.Nat.Bitwise
import JitFusion.Kernels

namespace JitFusion

namespace Kernels

open Fill (Buffer loop loop_succ loop_inv loop_congr loop_blocks_rest)
open Fill.Buffer (sweep)

/-! ## 1. Bits of a byte -/

/-- `(mask >> j) & 1`. -/
def bitOf (mask : UInt8) (j : Nat) : Nat := (mask.toNat >>> j) &&& 1

/-- `mask |= (is_true << j)`. -/
def setBit (mask : UInt8) (isTrue : Bool) (j : Nat) : UInt8 :=
  UInt8.ofNat (mask.toNat ||| (isTrue.toNat <<< j))

/-- The bits `isTrue 0`, …, `isTrue (n - 1)`. -/
def packByte (isTrue : Nat → Bool) (n : Nat) : UInt8 :=
  loop (fun j mask => setBit mask (isTrue j) j) n 0

theorem bitOf_eq (mask : UInt8) (j : Nat) : bitOf mask j = (mask.toNat.testBit j).toNat := by
  rw [bitOf, Nat.and_one_is_mod, Nat.toNat_testBit, Nat.shiftRight_eq_div_pow]

theorem testBit_setBit (mask : UInt8) (isTrue : Bool) {i j : Nat} (hi : i < 8) :
    (setBit mask isTrue j).toNat.testBit i =
      (mask.toNat.testBit i || (isTrue && decide (i = j))) := by
  have h : (isTrue.toNat <<< j).testBit i = (isTrue && decide (i = j)) := by
    cases isTrue with
    | false => simp
    | true =>
      rw [Bool.toNat_true, Nat.one_shiftLeft, Nat.testBit_two_pow, Bool.true_and]
      exact decide_eq_decide.mpr eq_comm
  rw [setBit, UInt8.toNat_ofNat', Nat.testBit_mod_two_pow, decide_eq_true hi, Bool.true_and,
    Nat.testBit_or, h]

theorem testBit_packByte (isTrue : Nat → Bool) (n : Nat) {i : Nat} (hi : i < 8) :
    (packByte isTrue n).toNat.testBit i = (decide (i < n) && isTrue i) := by
  refine loop_inv (P := fun n (mask : UInt8) =>
    mask.toNat.testBit i = (decide (i < n) && isTrue i)) ?_ ?_
  · simp
  · intro j mask _ h
    rw [testBit_setBit mask (isTrue j) hi, h]
    by_cases hij : i = j
    · subst hij
      simp
    · have hlt : (i < j + 1) ↔ i < j := by omega
      simp [hij, hlt]

/-! ## 2. The generators -/

section Generators

variable {α : Type} [LT α] [DecidableLT α] [LE α] [DecidableLE α] [DecidableEq α]

/-- `is_true`; the templates are instantiated with the six relational operators only. -/
def isTrue (op : BinaryOPType) (x y : α) : Bool :=
  match op with
  | .kLarge => x > y
  | .kLargeEqual => x ≥ y
  | .kEqual => x = y
  | .kLess => x < y
  | .kLessEqual => x ≤ y
  | .kNotEqual => x ≠ y
  | _ => false

/-- The code the two generators share: `isTrue` is the comparison at an index. -/
def genBits (memory : Nat → UInt8) (len : Nat) (isTrue : Nat → Bool) : Call UInt8 :=
  let resultLen := u32 (len + 7) / 8
  have hlen : resultLen < 2 ^ 32 := lt_of_le_of_lt (Nat.div_le_self _ 8) (u32_lt _)
  let result := Buffer.alloc memory resultLen
  if len = 0 then .done result resultLen hlen
  else
    let vecLoopLen := len / 8 * 8
    let result := loop (fun k result =>
      let i := 8 * k
      result.write (i / 8) (packByte (fun j => isTrue (i + j)) 8)) (vecLoopLen / 8) result
    let lastIndex := vecLoopLen / 8
    let result := result.write lastIndex 0
    let result := loop (fun j result =>
      result.write lastIndex (setBit (result.slot lastIndex) (isTrue (vecLoopLen + j)) j))
      (len - vecLoopLen) result
    .done result resultLen hlen

def genBitmap (op : BinaryOPType) (memory : Nat → UInt8) (a : ListStruct α) (b : α) : Call UInt8 :=
  genBits memory a.len fun i => isTrue op (a.data i) b

def genBitmapList (op : BinaryOPType) (memory : Nat → UInt8) (a b : ListStruct α) : Call UInt8 :=
  if a.len ≠ b.len then .fail memory "GenBitmap: lhs and rhs len mismatch"
  else genBits memory a.len fun i => isTrue op (a.data i) (b.data i)

end Generators

/-! ## 3. What the generators write -/

section GenBits

variable {memory : Nat → UInt8} {len : Nat} {isTrue : Nat → Bool}

theorem mul_div_eight (n : Nat) : n / 8 * 8 / 8 = n / 8 := Nat.mul_div_cancel _ (by decide)

/-- The loop over the last, incomplete byte. -/
def lastByte (last : Nat) (isTrue : Nat → Bool) (n : Nat) (result : Buffer UInt8) :
    Buffer UInt8 :=
  loop (fun j result => result.write last (setBit (result.slot last) (isTrue j) j)) n
    (result.write last 0)

theorem lastByte_spec (last : Nat) (isTrue : Nat → Bool) (n : Nat) (b : Buffer UInt8) :
    (lastByte last isTrue n b).cap = b.cap ∧
      (lastByte last isTrue n b).slot = Function.update b.slot last (packByte isTrue n) ∧
      ∀ k, k ∈ (lastByte last isTrue n b).writes ↔ k = last ∨ k ∈ b.writes := by
  induction n with
  | zero => exact ⟨rfl, rfl, fun k => List.mem_cons⟩
  | succ n ih =>
    obtain ⟨hcap, hslot, hwrites⟩ := ih
    rw [lastByte, loop_succ, ← lastByte]
    refine ⟨hcap, ?_, fun k => ?_⟩
    · rw [Fill.Buffer.write, hslot, Function.update_self, Function.update_idem, packByte, packByte,
        loop_succ]
    · rw [Fill.Buffer.writes_write, List.mem_cons, hwrites]
      tauto

/-- The generator as two sweeps. -/
theorem genBits_buffer (h : len ≠ 0) :
    (genBits memory len isTrue).buffer =
      lastByte (len / 8) (fun j => isTrue (len / 8 * 8 + j)) (len % 8)
        (sweep (fun k _ => packByte (fun j => isTrue (8 * k + j)) 8) (len / 8)
          (.alloc memory (u32 (len + 7) / 8))) := by
  have hrest : len - len / 8 * 8 = len % 8 := by omega
  rw [genBits]
  simp only [h, if_false, Call.done, mul_div_eight, hrest]
  rw [lastByte, sweep]
  refine congrArg (loop _ _) (congrArg (Fill.Buffer.write · _ _) (loop_congr fun k b _ => ?_))
  rw [Nat.mul_div_cancel_left k (by decide)]

theorem genBits_zero : (genBits memory 0 isTrue).buffer = .alloc memory 0 := rfl

theorem genBits_cap : (genBits memory len isTrue).buffer.cap = u32 (len + 7) / 8 := by
  by_cases h : len = 0
  · rw [h]
    rfl
  · rw [genBits_buffer h, (lastByte_spec _ _ _ _).1, Fill.Buffer.cap_sweep, Fill.Buffer.cap_alloc]

theorem genBits_result :
    (genBits memory len isTrue).result.data = (genBits memory len isTrue).buffer.slot ∧
      (genBits memory len isTrue).result.len = u32 (len + 7) / 8 ∧
      (genBits memory len isTrue).errors = [] := by
  by_cases h : len = 0
  · rw [h]
    exact ⟨rfl, rfl, rfl⟩
  · rw [genBits]
    simp only [h, if_false]
    exact ⟨rfl, rfl, rfl⟩

/-- **The bytes that are written**: every whole one, and the one behind them even if it has no
bit. -/
theorem mem_writes_genBits {k : Nat} :
    k ∈ (genBits memory len isTrue).buffer.writes ↔ len ≠ 0 ∧ k ≤ len / 8 := by
  by_cases h : len = 0
  · rw [h, genBits_zero]
    simp
  · rw [genBits_buffer h, (lastByte_spec _ _ _ _).2.2, Fill.Buffer.mem_writes_sweep,
      Fill.Buffer.writes_alloc]
    simp only [List.not_mem_nil, or_false, ne_eq, h, not_false_iff, true_and]
    omega

/-- **The bits are the comparisons.** -/
theorem bitOf_genBits {i : Nat} (hi : i < len) :
    bitOf ((genBits memory len isTrue).result.data (i / 8)) (i % 8) = (isTrue i).toNat := by
  have hmod : i % 8 < 8 := Nat.mod_lt i (by decide)
  rw [genBits_result.1, genBits_buffer (by omega), (lastByte_spec _ _ _ _).2.1, bitOf_eq]
  refine congrArg Bool.toNat ?_
  by_cases hlast : i / 8 = len / 8
  · have hbit : i % 8 < len % 8 := by omega
    have hidx : len / 8 * 8 + i % 8 = i := by omega
    rw [hlast, Function.update_self, testBit_packByte _ _ hmod, decide_eq_true hbit, Bool.true_and,
      hidx]
  · have hlt : i / 8 < len / 8 := lt_of_le_of_ne (Nat.div_le_div_right hi.le) hlast
    have hidx : 8 * (i / 8) + i % 8 = i := Nat.div_add_mod i 8
    rw [Function.update_of_ne hlast,
      Fill.Buffer.slot_sweep (g := fun k _ => packByte (fun j => isTrue (8 * k + j)) 8)
        (fun _ _ => rfl), if_pos hlt, testBit_packByte _ _ hmod, decide_eq_true hmod,
      Bool.true_and, hidx]

end GenBits

/-! ## 4. Writes past the end -/

section Inside

variable {α : Type} [LT α] [DecidableLT α] [LE α] [DecidableLE α] [DecidableEq α]

/-- Every write is to one of the bytes that `n` bits take, and to one that was allocated. -/
def WritesInside (n : Nat) (c : Call UInt8) : Prop :=
  ∀ k ∈ c.buffer.writes, k < (n + 7) / 8 ∧ k < c.buffer.cap

/-- The lengths for which the last byte has bits and the rounding up does not wrap around. -/
def Fits (n : Nat) : Prop := n = 0 ∨ n % 8 ≠ 0 ∧ n ≤ 2 ^ 32 - 8

instance (n : Nat) : Decidable (Fits n) := inferInstanceAs (Decidable (_ ∨ _))

theorem genBits_writesInside_iff {memory : Nat → UInt8} {len : Nat} {isTrue : Nat → Bool}
    (hlen : len < 2 ^ 32) : WritesInside len (genBits memory len isTrue) ↔ Fits len := by
  simp only [WritesInside, mem_writes_genBits, genBits_cap, Fits]
  constructor
  · intro h
    by_cases h0 : len = 0
    · exact .inl h0
    · obtain ⟨h₁, h₂⟩ := h (len / 8) ⟨h0, le_rfl⟩
      refine .inr ⟨by omega, ?_⟩
      by_contra hbig
      -- the length rounded up is 2 ^ 32, so nothing was allocated
      have hwrap : u32 (len + 7) < 8 := by
        unfold u32
        omega
      rw [Nat.div_eq_of_lt hwrap] at h₂
      exact absurd h₂ (Nat.not_lt_zero _)
  · rintro (rfl | ⟨hmod, hsmall⟩) k ⟨h0, hk⟩
    · exact absurd rfl h0
    · rw [u32_of_lt (by omega)]
      omega

/-- **The generators write inside their buffers** exactly if there is nothing to compare, or the
last byte is an incomplete one and the length can be rounded up in 32 bits. -/
theorem writesInside_iff (op : BinaryOPType) (memory : Nat → UInt8) (a b : ListStruct α) (s : α) :
    (WritesInside a.len (genBitmap op memory a s) ↔ Fits a.len) ∧
      (WritesInside a.len (genBitmapList op memory a b) ↔ a.len ≠ b.len ∨ Fits a.len) := by
  refine ⟨genBits_writesInside_iff a.len_lt, ?_⟩
  rw [genBitmapList]
  split
  · next h =>
    refine iff_of_true (fun k hk => ?_) (.inl h)
    simp [Call.fail] at hk
  · next h =>
    rw [genBits_writesInside_iff a.len_lt, or_iff_right h]

/-- Eight elements take one byte, and the second one is written. -/
theorem writesInside_eight :
    ¬ WritesInside 8 (genBitmap .kLarge (fun _ => 0)
      (.ofList (α := IntegerType.int32.Value) (List.replicate 8 0) (by decide)) 0) := by
  intro h
  exact absurd (h 1 (by decide)).1 (by decide)

end Inside

/-! ## 5. The consumers -/

section Consumers

variable {α : Type} [Zero α] [One α]

/-- `(mask >> j) & 1` as an element. -/
def bitAs (α : Type) [Zero α] [One α] (mask : UInt8) (j : Nat) : α :=
  if bitOf mask j = 0 then 0 else 1

/-- The two loops over the bits are one sweep. -/
theorem unpack_eq (bitmap : ListStruct UInt8) (len : Nat) (b : Buffer α) :
    loop (fun j result => result.write (len / 8 * 8 + j) (bitAs α (bitmap.data (len / 8)) j))
      (len % 8)
      (loop (fun k result => loop (fun j result =>
        result.write (8 * k + j) (bitAs α (bitmap.data (8 * k / 8)) j)) 8 result) (len / 8) b) =
    sweep (fun i _ => bitAs α (bitmap.data (i / 8)) (i % 8)) len b := by
  rw [sweep, ← loop_blocks_rest 8 len]
  have hbody : ∀ k j, j < 8 → ∀ result : Buffer α,
      result.write (8 * k + j) (bitAs α (bitmap.data ((8 * k + j) / 8)) ((8 * k + j) % 8)) =
        result.write (8 * k + j) (bitAs α (bitmap.data k) j) := by
    intro k j hj result
    have hdiv : (8 * k + j) / 8 = k := by omega
    have hmod : (8 * k + j) % 8 = j := by omega
    rw [hdiv, hmod]
  have hblocks : loop (fun k result => loop (fun j result =>
      result.write (8 * k + j) (bitAs α (bitmap.data (8 * k / 8)) j)) 8 result) (len / 8) b =
      loop (fun k => loop (fun j result => result.write (8 * k + j)
        (bitAs α (bitmap.data ((8 * k + j) / 8)) ((8 * k + j) % 8))) 8) (len / 8) b := by
    refine loop_congr fun k result _ => loop_congr fun j result' hj => ?_
    rw [hbody k j hj, Nat.mul_div_cancel_left k (by decide)]
  rw [hblocks]
  refine loop_congr fun j result hj => ?_
  rw [hbody (len / 8) j (by omega), Nat.mul_comm]

variable [LT α] [DecidableLT α]

/-- The code the three consumers share: the bits are stored in the result, which is then
overwritten in place. -/
def ifByBitmap (memory : Nat → α) (bitmap : ListStruct UInt8) (len : Nat) (hlen : len < 2 ^ 32)
    (lhs rhs : Nat → α) : Call α :=
  let result := Buffer.alloc memory len
  let loopLen := len / 8 * 8
  let result := loop (fun k result =>
    let i := 8 * k
    let byteIndex := i / 8
    loop (fun j result => result.write (i + j) (bitAs α (bitmap.data byteIndex) j)) 8 result)
    (loopLen / 8) result
  let lastIndex := loopLen / 8
  let result := loop (fun j result =>
    result.write (loopLen + j) (bitAs α (bitmap.data lastIndex) j)) (len - loopLen) result
  let result := loop (fun j result =>
    result.write j (if result.slot j > 0 then lhs j else rhs j)) len result
  .done result len hlen

def ifByBitmapLLRB (memory : Nat → α) (bitmap : ListStruct UInt8) (lhs : ListStruct α) (rhs : α) :
    Call α :=
  if bitmap.len < u32 (lhs.len + 7) / 8 then
    .fail memory "IfByBitmapLLRB: bitmap len is too short"
  else ifByBitmap memory bitmap lhs.len lhs.len_lt lhs.data fun _ => rhs

def ifByBitmapLBRL (memory : Nat → α) (bitmap : ListStruct UInt8) (lhs : α) (rhs : ListStruct α) :
    Call α :=
  if bitmap.len < u32 (rhs.len + 7) / 8 then
    .fail memory "IfByBitmapLBRL: bitmap len is too short"
  else ifByBitmap memory bitmap rhs.len rhs.len_lt (fun _ => lhs) rhs.data

def ifByBitmapLLRL (memory : Nat → α) (bitmap : ListStruct UInt8) (lhs rhs : ListStruct α) :
    Call α :=
  if lhs.len ≠ rhs.len then .fail memory "IfByBitmapLLRL: lhs and rhs len mismatch"
  else if bitmap.len < u32 (lhs.len + 7) / 8 then
    .fail memory "IfByBitmapLLRL: bitmap len is too short"
  else ifByBitmap memory bitmap lhs.len lhs.len_lt lhs.data rhs.data

/-- **What a consumer leaves**: at each index the operand that the bit chooses. -/
theorem ifByBitmap_spec (h01 : (0 : α) < 1) (h00 : ¬ (0 : α) < 0) {memory : Nat → α}
    {bitmap : ListStruct UInt8} {len : Nat} {hlen : len < 2 ^ 32} {lhs rhs : Nat → α} :
    (ifByBitmap memory bitmap len hlen lhs rhs).errors = [] ∧
      (ifByBitmap memory bitmap len hlen lhs rhs).result.len = len ∧
      ∀ i < len, (ifByBitmap memory bitmap len hlen lhs rhs).result.data i =
        if bitOf (bitmap.data (i / 8)) (i % 8) = 0 then rhs i else lhs i := by
  refine ⟨rfl, rfl, fun i hi => ?_⟩
  have hrest : len - len / 8 * 8 = len % 8 := by omega
  have hresult : (ifByBitmap memory bitmap len hlen lhs rhs).result.data =
      (sweep (fun j b => if b.slot j > 0 then lhs j else rhs j) len
        (sweep (fun i _ => bitAs α (bitmap.data (i / 8)) (i % 8)) len
          (.alloc memory len))).slot := by
    rw [← unpack_eq, ifByBitmap]
    simp only [Call.done, mul_div_eight, hrest]
    rfl
  rw [hresult,
    Fill.Buffer.slot_sweep (g := fun j v => if v > 0 then lhs j else rhs j) (fun _ _ => rfl),
    if_pos hi,
    Fill.Buffer.slot_sweep (g := fun i _ => bitAs α (bitmap.data (i / 8)) (i % 8)) (fun _ _ => rfl),
    if_pos hi, bitAs]
  by_cases hbit : bitOf (bitmap.data (i / 8)) (i % 8) = 0
  · rw [if_pos hbit, if_pos hbit]
    exact if_neg h00
  · rw [if_neg hbit, if_neg hbit]
    exact if_pos h01

end Consumers

/-! ## 6. A consumer on a generated bitmap -/

section Select

variable {t : IntegerType}

/-- The call records no error and chooses, at each of the `n` indices, by `p`. -/
structure Selects {α : Type} (n : Nat) (p : Nat → Bool) (x y : Nat → α) (c : Call α) : Prop where
  errors : c.errors = []
  len : c.result.len = n
  data : ∀ i < n, c.result.data i = if p i then x i else y i

/-- `c` is a generated bitmap for `n` comparisons, which are `p`. -/
structure Generated (n : Nat) (p : Nat → Bool) (c : Call UInt8) : Prop where
  errors : c.errors = []
  len : c.result.len = (n + 7) / 8
  bits : ∀ i < n, bitOf (c.result.data (i / 8)) (i % 8) = (p i).toNat

theorem genBits_generated {memory : Nat → UInt8} {n : Nat} {p : Nat → Bool} (hn : n ≤ 2 ^ 32 - 8) :
    Generated n p (genBits memory n p) where
  errors := genBits_result.2.2
  len := by rw [genBits_result.2.1, u32_of_lt (by omega)]
  bits i hi := bitOf_genBits hi

theorem genBitmap_generated (op : BinaryOPType) (memory : Nat → UInt8) (a : ListStruct t.Value)
    (s : t.Value) (hn : a.len ≤ 2 ^ 32 - 8) :
    Generated a.len (fun i => isTrue op (a.data i) s) (genBitmap op memory a s) :=
  genBits_generated hn

theorem genBitmapList_generated (op : BinaryOPType) (memory : Nat → UInt8)
    (a b : ListStruct t.Value) (hn : a.len ≤ 2 ^ 32 - 8) (hb : b.len = a.len) :
    Generated a.len (fun i => isTrue op (a.data i) (b.data i)) (genBitmapList op memory a b) := by
  rw [genBitmapList, if_neg (not_not.mpr hb.symm)]
  exact genBits_generated hn

theorem ifByBitmap_selects {memory : Nat → t.Value} {n : Nat} {p : Nat → Bool} {c : Call UInt8}
    (h : Generated n p c) {hlen : n < 2 ^ 32} {x y : Nat → t.Value} :
    Selects n p x y (ifByBitmap memory c.result n hlen x y) := by
  have hspec := @ifByBitmap_spec t.Value _ _ _ _ IntegerType.zero_lt_one (lt_irrefl _) memory
    c.result n hlen x y
  refine ⟨hspec.1, hspec.2.1, fun i hi => ?_⟩
  rw [hspec.2.2 i hi, h.bits i hi]
  cases p i <;> simp

/-- All three consumers choose by `p` on the bitmap of `c`: between two lists, between a list and
the scalar `u`, and between the scalar `v` and a list. -/
structure Chooses (n : Nat) (p : Nat → Bool) (memory : Nat → t.Value) (c : Call UInt8)
    (x y : ListStruct t.Value) (u v : t.Value) : Prop where
  errors : c.errors = []
  lists : Selects n p x.data y.data (ifByBitmapLLRL memory c.result x y)
  scalarRight : Selects n p x.data (fun _ => u) (ifByBitmapLLRB memory c.result x u)
  scalarLeft : Selects n p (fun _ => v) y.data (ifByBitmapLBRL memory c.result v y)

theorem chooses {n : Nat} {p : Nat → Bool} {memory : Nat → t.Value} {c : Call UInt8}
    {x y : ListStruct t.Value} {u v : t.Value} (h : Generated n p c) (hn : n ≤ 2 ^ 32 - 8)
    (hx : x.len = n) (hy : y.len = n) : Chooses n p memory c x y u v := by
  have hlong : ¬ c.result.len < u32 (n + 7) / 8 := by
    rw [h.len, u32_of_lt (by omega)]
    exact lt_irrefl _
  subst hx
  refine ⟨h.errors, ?_, ?_, ?_⟩
  · rw [ifByBitmapLLRL, if_neg (not_not.mpr hy.symm), if_neg hlong]
    exact ifByBitmap_selects h
  · rw [ifByBitmapLLRB, if_neg hlong]
    exact ifByBitmap_selects h
  · rw [← hy] at h hlong ⊢
    rw [ifByBitmapLBRL, if_neg hlong]
    exact ifByBitmap_selects h

/-- **Generating a bitmap and choosing by it** is the element-wise `if`; what is compared and what
is chosen may be of different types. -/
theorem chooses_generated {r : IntegerType} (op : BinaryOPType) (bytes : Nat → UInt8)
    (memory : Nat → t.Value) (a b : ListStruct r.Value) (s : r.Value) (x y : ListStruct t.Value)
    (u v : t.Value) (hn : a.len ≤ 2 ^ 32 - 8) (hb : b.len = a.len) (hx : x.len = a.len)
    (hy : y.len = a.len) :
    Chooses a.len (fun i => isTrue op (a.data i) s) memory (genBitmap op bytes a s) x y u v ∧
      Chooses a.len (fun i => isTrue op (a.data i) (b.data i)) memory (genBitmapList op bytes a b)
        x y u v :=
  ⟨chooses (genBitmap_generated op bytes a s hn) hn hx hy,
    chooses (genBitmapList_generated op bytes a b hn hb) hn hx hy⟩

/-- Nine elements, one whole byte and one bit: bytes are compared, and `int64` values chosen. -/
theorem chooses_generated_nine :
    let a := ListStruct.ofList (List.replicate 9 (1 : IntegerType.int8.Value)) (by decide)
    let x := ListStruct.ofList (List.replicate 9 IntegerType.int64.maxValue) (by decide)
    let y := ListStruct.ofList (List.replicate 9 IntegerType.int64.lowestValue) (by decide)
    Chooses 9 (fun i => isTrue .kLess (a.data i) IntegerType.int8.maxValue) (fun _ => 0)
        (genBitmap .kLess (fun _ => 7) a IntegerType.int8.maxValue) x y 0 1 ∧
      Chooses 9 (fun i => isTrue .kLess (a.data i) (a.data i)) (fun _ => 0)
        (genBitmapList .kLess (fun _ => 7) a a) x y 0 1 := by
  intro a x y
  exact chooses_generated .kLess (fun _ => 7) (fun _ => 0) a a IntegerType.int8.maxValue x y 0 1
    (by decide) rfl rfl rfl

end Select

end Kernels

end JitFusion
