/-
# Vectorised kernels

`ListAddList`, `ListMin` and `ListMax` (`src/function/list_arithmetic.cc`) and the three functions
`IfByBitmap` (`src/function/list_comparison.cc`) as they are compiled with `HAS_XSIMD`: a loop over
whole batches and a scalar one over the rest.  What is compiled without it are `listAddList`,
`listMin`, `listMax`, `ifByBitmapLLRB`, `ifByBitmapLBRL` and `ifByBitmapLLRL`.

Of a batch it is known that its operations act on the lanes one by one (`Xsimd`).  The two variants
then leave the same call (`simd_eq_scalar`), the buffer with the log of its writes included.  In
`IfByBitmap` a batch loads the bits from the result and overwrites them with its answer, so a lane
must not be written before it is read (`Fill.copy_in_place`).
-/
import JitFusion.Commutative
import JitFusion.Lib.Batch

namespace JitFusion

namespace Kernels

open Fill (Access Buffer Lanewise batchLoop copy loop writes_sweep)
open Fill.Buffer (sweep)

/-! ## 1. Batches -/

/-- `xs::batch<T, xs::default_arch>`: `size` lanes, on which the operations act one by one. -/
structure Xsimd (t : IntegerType) where
  Batch : Type
  Mask : Type
  size : Nat
  size_pos : 0 < size
  /-- `load_unaligned` of what is at a pointer. -/
  load : (Nat → t.Value) → Batch
  /-- `batch_type(x)`. -/
  broadcast : t.Value → Batch
  /-- What `store_unaligned` stores. -/
  lane : Batch → Nat → t.Value
  add : Batch → Batch → Batch
  min : Batch → Batch → Batch
  max : Batch → Batch → Batch
  gt : Batch → Batch → Mask
  select : Mask → Batch → Batch → Batch
  lane_load : ∀ data, ∀ l < size, lane (load data) l = data l
  lane_broadcast : ∀ x, ∀ l < size, lane (broadcast x) l = x
  lane_add : ∀ x y, ∀ l < size, lane (add x y) l = lane x l + lane y l
  lane_min : ∀ x y, ∀ l < size, lane (min x y) l = Min.min (lane x l) (lane y l)
  lane_max : ∀ x y, ∀ l < size, lane (max x y) l = Max.max (lane x l) (lane y l)
  lane_select : ∀ x y u v, ∀ l < size, lane (select (gt x y) u v) l =
    if lane x l > lane y l then lane u l else lane v l

/-- The batches that are their lanes. -/
def Xsimd.lanes (t : IntegerType) (size : Nat) (h : 0 < size) : Xsimd t where
  Batch := Nat → t.Value
  Mask := Nat → Bool
  size := size
  size_pos := h
  load data := data
  broadcast x _ := x
  lane x := x
  add x y l := x l + y l
  min x y l := Min.min (x l) (y l)
  max x y l := Max.max (x l) (y l)
  gt x y l := decide (x l > y l)
  select m u v l := if m l then u l else v l
  lane_load _ _ _ := rfl
  lane_broadcast _ _ _ := rfl
  lane_add _ _ _ _ := rfl
  lane_min _ _ _ _ := rfl
  lane_max _ _ _ _ := rfl
  lane_select x y u v l _ := by simp

/-! ## 2. The kernels -/

/-- A call and the indices at which it read a list of elements, one of its own or the result. -/
structure Accessed (α : Type) where
  call : Call α
  reads : List Nat

def Accessed.fail {α : Type} (memory : Nat → α) (msg : String) : Accessed α :=
  ⟨.fail memory msg, []⟩

section Scalar

variable {t : IntegerType}

/-- What `ListMin` and `ListMax` have in common. -/
def listWith (op : t.Value → t.Value → t.Value) (memory : Nat → t.Value) (a : ListStruct t.Value)
    (b : t.Value) : Call t.Value :=
  .done (sweep (fun i _ => op (a.data i) b) a.len (.alloc memory a.len)) a.len a.len_lt

def listMin : (Nat → t.Value) → ListStruct t.Value → t.Value → Call t.Value := listWith min

def listMax : (Nat → t.Value) → ListStruct t.Value → t.Value → Call t.Value := listWith max

end Scalar

section Vector

variable {t : IntegerType} (xs : Xsimd t)

def listAddListBatch (a b : ListStruct t.Value) (i : Nat) (s : Access t.Value) :
    Access t.Value :=
  let aVec := xs.load fun l => a.data (i + l)
  let bVec := xs.load fun l => b.data (i + l)
  let addVec := xs.add aVec bVec
  ((s.load xs.size i).load xs.size i).store xs.size i (xs.lane addVec)

def listAddListScalar (a b : ListStruct t.Value) (i : Nat) (s : Access t.Value) :
    Access t.Value :=
  ((s.read i).read i).write i (a.data i + b.data i)

def listAddListXsimd (memory : Nat → t.Value) (a b : ListStruct t.Value) : Accessed t.Value :=
  if a.len ≠ b.len then
    .fail memory ("ListAddList: lhs and rhs len mismatch, lhs len: " ++ Nat.repr a.len ++
      ", rhs len: " ++ Nat.repr b.len)
  else
    let s := batchLoop xs.size (listAddListBatch xs a b) (listAddListScalar a b) a.len
      { result := .alloc memory a.len }
    ⟨.done s.result a.len a.len_lt, s.reads⟩

def listWithBatch (vecOp : xs.Batch → xs.Batch → xs.Batch) (a : ListStruct t.Value) (b : t.Value)
    (i : Nat) (s : Access t.Value) : Access t.Value :=
  let bVec := xs.broadcast b
  let aVec := xs.load fun l => a.data (i + l)
  (s.load xs.size i).store xs.size i (xs.lane (vecOp aVec bVec))

def listWithScalar (op : t.Value → t.Value → t.Value) (a : ListStruct t.Value) (b : t.Value)
    (i : Nat) (s : Access t.Value) : Access t.Value :=
  (s.read i).write i (op (a.data i) b)

/-- What `ListMin` and `ListMax` have in common: `vecOp` is `op` on batches. -/
def listWithXsimd (vecOp : xs.Batch → xs.Batch → xs.Batch) (op : t.Value → t.Value → t.Value)
    (memory : Nat → t.Value) (a : ListStruct t.Value) (b : t.Value) : Accessed t.Value :=
  let s := batchLoop xs.size (listWithBatch xs vecOp a b) (listWithScalar op a b) a.len
    { result := .alloc memory a.len }
  ⟨.done s.result a.len a.len_lt, s.reads⟩

def listMinXsimd : (Nat → t.Value) → ListStruct t.Value → t.Value → Accessed t.Value :=
  listWithXsimd xs xs.min min

def listMaxXsimd : (Nat → t.Value) → ListStruct t.Value → t.Value → Accessed t.Value :=
  listWithXsimd xs xs.max max

/-- An operand of `IfByBitmap`. -/
inductive Operand (t : IntegerType)
  | list (data : Nat → t.Value)
  | scalar (x : t.Value)

namespace Operand

def get : Operand t → Nat → t.Value
  | list data => data
  | scalar x => fun _ => x

/-- `load_unaligned(data + i)`, or the batch made before the loop. -/
def vec : Operand t → Nat → xs.Batch
  | list data, i => xs.load fun l => data (i + l)
  | scalar x, _ => xs.broadcast x

/-- The reads of the indices from `i` on. -/
def load : Operand t → Nat → Nat → Access t.Value → Access t.Value
  | list _, size, i, s => s.load size i
  | scalar _, _, _, s => s

end Operand

def ifByBitmapBatch (lhs rhs : Operand t) (j : Nat) (s : Access t.Value) : Access t.Value :=
  let maskVec := xs.load fun l => s.result.slot (j + l)
  let cond := xs.gt maskVec (xs.broadcast 0)
  let out := xs.select cond (lhs.vec xs j) (rhs.vec xs j)
  (rhs.load xs.size j (lhs.load xs.size j (s.load xs.size j))).store xs.size j (xs.lane out)

/-- The scalar body reads the operand it chooses. -/
def ifByBitmapScalar (lhs rhs : Operand t) (j : Nat) (s : Access t.Value) : Access t.Value :=
  if s.result.slot j > 0 then (lhs.load 1 j (s.read j)).write j (lhs.get j)
  else (rhs.load 1 j (s.read j)).write j (rhs.get j)

/-- The bits of the bitmap as elements, which both variants of `IfByBitmap` begin with. -/
def unpackBits (memory : Nat → t.Value) (bitmap : ListStruct UInt8) (len : Nat) :
    Buffer t.Value :=
  let result := Buffer.alloc memory len
  let loopLen := len / 8 * 8
  let result := loop (fun k result =>
    let i := 8 * k
    let byteIndex := i / 8
    loop (fun j result => result.write (i + j) (bitAs t.Value (bitmap.data byteIndex) j)) 8 result)
    (loopLen / 8) result
  let lastIndex := loopLen / 8
  loop (fun j result =>
    result.write (loopLen + j) (bitAs t.Value (bitmap.data lastIndex) j)) (len - loopLen) result

/-- The code the three functions share. -/
def ifByBitmapXsimd (memory : Nat → t.Value) (bitmap : ListStruct UInt8) (len : Nat)
    (hlen : len < 2 ^ 32) (lhs rhs : Operand t) : Accessed t.Value :=
  let s := batchLoop xs.size (ifByBitmapBatch xs lhs rhs) (ifByBitmapScalar lhs rhs) len
    { result := unpackBits memory bitmap len }
  ⟨.done s.result len hlen, s.reads⟩

def ifByBitmapLLRBXsimd (memory : Nat → t.Value) (bitmap : ListStruct UInt8)
    (lhs : ListStruct t.Value) (rhs : t.Value) : Accessed t.Value :=
  if bitmap.len < u32 (lhs.len + 7) / 8 then
    .fail memory "IfByBitmapLLRB: bitmap len is too short"
  else ifByBitmapXsimd xs memory bitmap lhs.len lhs.len_lt (.list lhs.data) (.scalar rhs)

def ifByBitmapLBRLXsimd (memory : Nat → t.Value) (bitmap : ListStruct UInt8) (lhs : t.Value)
    (rhs : ListStruct t.Value) : Accessed t.Value :=
  if bitmap.len < u32 (rhs.len + 7) / 8 then
    .fail memory "IfByBitmapLBRL: bitmap len is too short"
  else ifByBitmapXsimd xs memory bitmap rhs.len rhs.len_lt (.scalar lhs) (.list rhs.data)

def ifByBitmapLLRLXsimd (memory : Nat → t.Value) (bitmap : ListStruct UInt8)
    (lhs rhs : ListStruct t.Value) : Accessed t.Value :=
  if lhs.len ≠ rhs.len then .fail memory "IfByBitmapLLRL: lhs and rhs len mismatch"
  else if bitmap.len < u32 (lhs.len + 7) / 8 then
    .fail memory "IfByBitmapLLRL: bitmap len is too short"
  else ifByBitmapXsimd xs memory bitmap lhs.len lhs.len_lt (.list lhs.data) (.list rhs.data)

end Vector

/-! ## 3. The variants agree -/

section Agree

variable {t : IntegerType} {xs : Xsimd t} {memory : Nat → t.Value}

/-- The vectorised call `v` leaves what the scalar call `c` does, reads below `n` only, and writes
each of the `n` indices once, after the writes `first`. -/
structure Agrees (n : Nat) (first : List Nat) (v : Accessed t.Value) (c : Call t.Value) : Prop where
  same : v.call = c
  result : v.call.result.toList = c.result.toList
  reads : ∀ i ∈ v.reads, i < n
  writes : ∀ i ∈ v.call.buffer.writes, i < n
  once : v.call.errors = [] → v.call.buffer.writes = (List.range n).reverse ++ first

theorem agrees_fail (n : Nat) (first : List Nat) (msg : String) :
    Agrees n first (.fail memory msg) (.fail memory msg) where
  same := rfl
  result := rfl
  reads := by simp [Accessed.fail]
  writes := by simp [Accessed.fail, Call.fail]
  once h := by simp [Accessed.fail, Call.fail] at h

/-- **Lane-wise batches** make the same call. -/
theorem agrees_batchLoop {value : Nat → t.Value → t.Value}
    {batch scalar : Nat → Access t.Value → Access t.Value} {size n : Nat}
    (h : Lanewise size value batch scalar) (hn : n < 2 ^ 32) {b : Buffer t.Value}
    (hb : ∀ i ∈ b.writes, i < n) {c : Call t.Value}
    (hc : c = .done (sweep (fun i b => value i (b.slot i)) n b) n hn) :
    Agrees n b.writes ⟨.done (batchLoop size batch scalar n { result := b }).result n hn,
      (batchLoop size batch scalar n { result := b }).reads⟩ c := by
  have hresult := h.result_batchLoop n { result := b }
  subst hc
  simp only [hresult]
  refine ⟨rfl, rfl, h.reads_batchLoop (by simp), fun i hi => ?_, fun _ => writes_sweep _ n b⟩
  obtain hlt | hb' := (Fill.Buffer.mem_writes_sweep _ n i).mp hi
  · exact hlt
  · exact hb i hb'

theorem listAddList_lanewise (a b : ListStruct t.Value) :
    Lanewise xs.size (fun i _ => a.data i + b.data i) (listAddListBatch xs a b)
      (listAddListScalar a b) where
  batchResult i s := by
    simp only [listAddListBatch, Fill.Access.result_store, Fill.Access.result_load]
    refine Fill.loop_congr fun l c hl => ?_
    rw [xs.lane_add _ _ l hl, xs.lane_load _ l hl, xs.lane_load _ l hl]
  scalarResult i s := rfl
  batchReads i s r hr := by simpa [listAddListBatch] using hr
  scalarReads i s r hr := by simpa [listAddListScalar] using hr

theorem listWith_lanewise {vecOp : xs.Batch → xs.Batch → xs.Batch}
    {op : t.Value → t.Value → t.Value}
    (h : ∀ x y, ∀ l < xs.size, xs.lane (vecOp x y) l = op (xs.lane x l) (xs.lane y l))
    (a : ListStruct t.Value) (b : t.Value) :
    Lanewise xs.size (fun i _ => op (a.data i) b) (listWithBatch xs vecOp a b)
      (listWithScalar op a b) where
  batchResult i s := by
    simp only [listWithBatch, Fill.Access.result_store, Fill.Access.result_load]
    refine Fill.loop_congr fun l c hl => ?_
    rw [h _ _ l hl, xs.lane_load _ l hl, xs.lane_broadcast _ l hl]
  scalarResult i s := rfl
  batchReads i s r hr := by simpa [listWithBatch] using hr
  scalarReads i s r hr := by simpa [listWithScalar] using hr

theorem listWith_agrees {vecOp : xs.Batch → xs.Batch → xs.Batch}
    {op : t.Value → t.Value → t.Value}
    (h : ∀ x y, ∀ l < xs.size, xs.lane (vecOp x y) l = op (xs.lane x l) (xs.lane y l))
    (a : ListStruct t.Value) (b : t.Value) :
    Agrees a.len [] (listWithXsimd xs vecOp op memory a b) (listWith op memory a b) :=
  agrees_batchLoop (b := .alloc memory a.len) (listWith_lanewise h a b) a.len_lt (by simp) rfl

theorem Operand.lane_vec (o : Operand t) (i : Nat) {l : Nat} (hl : l < xs.size) :
    xs.lane (o.vec xs i) l = o.get (i + l) := by
  cases o with
  | list data => exact xs.lane_load _ l hl
  | scalar x => exact xs.lane_broadcast x l hl

@[simp] theorem Operand.result_load (o : Operand t) (size i : Nat) (s : Access t.Value) :
    (o.load size i s).result = s.result := by
  cases o with
  | list data => rfl
  | scalar x => rfl

theorem Operand.mem_reads_load (o : Operand t) {size i r : Nat} {s : Access t.Value}
    (h : r ∈ (o.load size i s).reads) : (i ≤ r ∧ r < i + size) ∨ r ∈ s.reads := by
  cases o with
  | list data => exact Fill.Access.mem_reads_load.mp h
  | scalar x => exact .inr h

/-- What `IfByBitmap` stores for the bit `v`. -/
def chosen (lhs rhs : Operand t) (i : Nat) (v : t.Value) : t.Value :=
  if v > 0 then lhs.get i else rhs.get i

theorem ifByBitmap_lanewise (lhs rhs : Operand t) :
    Lanewise xs.size (chosen lhs rhs) (ifByBitmapBatch xs lhs rhs) (ifByBitmapScalar lhs rhs) where
  batchResult i s := by
    simp only [ifByBitmapBatch, Fill.Access.result_store, Operand.result_load,
      Fill.Access.result_load]
    refine Fill.loop_congr fun l c hl => ?_
    rw [xs.lane_select _ _ _ _ l hl, xs.lane_load _ l hl, xs.lane_broadcast _ l hl,
      lhs.lane_vec i hl, rhs.lane_vec i hl]
    rfl
  scalarResult i s := by
    rw [ifByBitmapScalar, chosen]
    split
    · simp
    · simp
  batchReads i s r hr := by
    obtain hin | hr := rhs.mem_reads_load hr
    · exact .inl hin
    · obtain hin | hr := lhs.mem_reads_load hr
      · exact .inl hin
      · simpa using hr
  scalarReads i s r hr := by
    have hload : ∀ o : Operand t, r ∈ (o.load 1 i (s.read i)).reads → r = i ∨ r ∈ s.reads := by
      intro o hr
      obtain hin | hr := o.mem_reads_load hr
      · exact .inl (by omega)
      · simpa using hr
    rw [ifByBitmapScalar] at hr
    split at hr
    · exact hload lhs hr
    · exact hload rhs hr

variable (memory) in
theorem unpackBits_writes (bitmap : ListStruct UInt8) (n : Nat) :
    (unpackBits memory bitmap n).writes = (List.range n).reverse := by
  have hrest : n - n / 8 * 8 = n % 8 := by omega
  have h := unpack_eq bitmap n (.alloc memory n)
  rw [unpackBits]
  simp only [mul_div_eight, hrest]
  rw [h, writes_sweep]
  simp

/-- The code the three functions share. -/
theorem ifByBitmap_agrees (bitmap : ListStruct UInt8) (n : Nat) (hn : n < 2 ^ 32)
    (lhs rhs : Operand t) :
    Agrees n (List.range n).reverse (ifByBitmapXsimd xs memory bitmap n hn lhs rhs)
      (ifByBitmap memory bitmap n hn lhs.get rhs.get) := by
  rw [← unpackBits_writes memory bitmap n]
  refine agrees_batchLoop (ifByBitmap_lanewise lhs rhs) hn ?_ rfl
  simp [unpackBits_writes]

end Agree

/-- **The vectorised kernels are the scalar ones**, for batches of any size. -/
theorem simd_eq_scalar {t : IntegerType} (xs : Xsimd t) (memory : Nat → t.Value) :
    (∀ a b, Agrees a.len [] (listAddListXsimd xs memory a b) (listAddList memory a b)) ∧
    (∀ a b, Agrees a.len [] (listMinXsimd xs memory a b) (listMin memory a b)) ∧
    (∀ a b, Agrees a.len [] (listMaxXsimd xs memory a b) (listMax memory a b)) ∧
    (∀ bitmap lhs rhs, Agrees lhs.len (List.range lhs.len).reverse
      (ifByBitmapLLRBXsimd xs memory bitmap lhs rhs) (ifByBitmapLLRB memory bitmap lhs rhs)) ∧
    (∀ bitmap lhs rhs, Agrees rhs.len (List.range rhs.len).reverse
      (ifByBitmapLBRLXsimd xs memory bitmap lhs rhs) (ifByBitmapLBRL memory bitmap lhs rhs)) ∧
    ∀ bitmap lhs rhs, Agrees lhs.len (List.range lhs.len).reverse
      (ifByBitmapLLRLXsimd xs memory bitmap lhs rhs) (ifByBitmapLLRL memory bitmap lhs rhs) := by
  refine ⟨fun a b => ?_, fun a b => listWith_agrees xs.lane_min a b,
    fun a b => listWith_agrees xs.lane_max a b, fun bitmap lhs rhs => ?_, fun bitmap lhs rhs => ?_,
    fun bitmap lhs rhs => ?_⟩
  · rw [listAddListXsimd, listAddList, listOp]
    split
    · exact agrees_fail _ _ _
    · exact agrees_batchLoop (b := .alloc memory a.len) (listAddList_lanewise a b) a.len_lt
        (by simp) rfl
  · rw [ifByBitmapLLRBXsimd, ifByBitmapLLRB]
    split
    · exact agrees_fail _ _ _
    · exact ifByBitmap_agrees bitmap _ _ _ _
  · rw [ifByBitmapLBRLXsimd, ifByBitmapLBRL]
    split
    · exact agrees_fail _ _ _
    · exact ifByBitmap_agrees bitmap _ _ _ _
  · rw [ifByBitmapLLRLXsimd, ifByBitmapLLRL]
    split
    · exact agrees_fail _ _ _
    · split
      · exact agrees_fail _ _ _
      · exact ifByBitmap_agrees bitmap _ _ _ _

/-- Five elements in batches of four. -/
theorem simd_eq_scalar_lanes :
    let a := ListStruct.ofList ([1, 2, 3, 4, 5].map (IntegerType.wrap .int32)) (by decide)
    let b := ListStruct.ofList ([5, 4, 3, 2, 1].map (IntegerType.wrap .int32)) (by decide)
    let bitmap : ListStruct UInt8 := .ofList [0x15] (by decide)
    let xs := Xsimd.lanes .int32 4 (by decide)
    Agrees 5 [] (listAddListXsimd xs (fun _ => 0) a b) (listAddList (fun _ => 0) a b) ∧
      Agrees 5 [4, 3, 2, 1, 0] (ifByBitmapLLRLXsimd xs (fun _ => 0) bitmap a b)
        (ifByBitmapLLRL (fun _ => 0) bitmap a b) := by
  intro a b bitmap xs
  have h := simd_eq_scalar xs fun _ => 0
  exact ⟨h.1 a b, h.2.2.2.2.2 bitmap a b⟩

end Kernels

end JitFusion
