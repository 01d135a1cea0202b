/-
# The group-by functions of two arguments

`GroupSum`, `GroupMax`, `GroupMin`, `GroupAvg` and `GroupKeys` without a number of groups are
lowered to a call of `GroupCount` and one of the function with three arguments
(`EmitGroup*Sugar` in `src/function/list_group.cc`).

The number of groups is the largest index plus one, in 32 bits.  It is above every index unless one
of them is `u32max`, which is what `ListLookupIndex` answers for a miss: then it is 0, and every
access is outside (`accessesInside_iff`).
-/
import JitFusion.CodeGen
import JitFusion.Group
import JitFusion.ListIndexing

namespace JitFusion

namespace Kernels

open Fill (Buffer loop loop_inv)
open Fill.Buffer (sweep)
open Numbering (scatter mem_writes_scatter)

/-! ## 1. The functions -/

section Kernels

variable {α β D : Type}

/-- A call of `GroupAvg`, with its local buffer. -/
structure AvgCall (D : Type) where
  call : Call D
  localCounts : Buffer UInt32

/-- The arithmetic of `double` that `GroupAvg` needs. -/
structure Averages (α D : Type) where
  zero : D
  add : D → α → D
  divide : D → UInt32 → D

def groupAvg (ops : Averages α D) (memory : Nat → D) (values : ListStruct α)
    (groupIndex : ListStruct UInt32) (distinct : UInt32) : AvgCall D :=
  if values.len ≠ groupIndex.len then
    ⟨.fail memory ("GroupAvg: values and group_index len mismatch, values len: " ++
      Nat.repr values.len ++ ", group_index len: " ++ Nat.repr groupIndex.len),
      .alloc (fun _ => 0) 0⟩
  else
    let gid := fun i => (groupIndex.data i).toNat
    let result := sweep (fun _ _ => ops.zero) distinct.toNat (.alloc memory distinct.toNat)
    let result := scatter gid (fun acc i => ops.add acc (values.data i)) values.len result
    let localCounts := scatter gid (fun count _ => count + 1) values.len
      (.alloc (fun _ => 0) distinct.toNat)
    let result :=
      sweep (fun g b => ops.divide (b.slot g) (localCounts.slot g)) distinct.toNat result
    ⟨.done result distinct.toNat distinct.toNat_lt, localCounts⟩

end Kernels

/-! ## 2. The lowering -/

section Lowering

open CodeGen (valueTypeToLLVMType)

/-- What the five emitters have in common. -/
def emitGroupSugar (kernelName : String) (sign : FunctionSignature) (type : LLVMType) : IRExpr 2 :=
  let groupCountSign : FunctionSignature := ⟨"GroupCount", [.kU32List], .kU32⟩
  let distinct := .op (.call groupCountSign.toString (.int 32)) [.input 1]
  let kernelSign : FunctionSignature :=
    ⟨kernelName, [sign.paramTypes.headD .kUnknown, .kU32List, .kU32, .kPtr], sign.retType⟩
  .op (.call kernelSign.toString type) [.input 0, .input 1, distinct, .arg 1]

/-- The type of the accumulators, null if there is none. -/
def accType (sign : FunctionSignature) : LLVMType :=
  match valueTypeToLLVMType sign.retType with
  | .ok type => type
  | .error _ => .void

def emitGroupSumSugar (sign : FunctionSignature) (_types : Fin 2 → LLVMType) : IRExpr 2 :=
  emitGroupSugar "GroupSum" sign (accType sign)

def emitGroupMaxSugar (sign : FunctionSignature) (types : Fin 2 → LLVMType) : IRExpr 2 :=
  emitGroupSugar "GroupMax" sign (types 0)

def emitGroupMinSugar (sign : FunctionSignature) (types : Fin 2 → LLVMType) : IRExpr 2 :=
  emitGroupSugar "GroupMin" sign (types 0)

def emitGroupAvgSugar (sign : FunctionSignature) (_types : Fin 2 → LLVMType) : IRExpr 2 :=
  emitGroupSugar "GroupAvg" sign (accType sign)

def emitGroupKeysSugar (sign : FunctionSignature) (types : Fin 2 → LLVMType) : IRExpr 2 :=
  emitGroupSugar "GroupKeys" sign (types 0)

/-- **The emitted calls** pass the number of groups, on any machine on which the two symbols are
`GroupCount` and `kernel`. -/
theorem emitGroupSugar_eval {α γ V W E : Type} {sem : Ssa.Semantics Opcode Literal V W E}
    {list : ListStruct α → V} {u32List : ListStruct UInt32 → V} {number : UInt32 → V} {out : γ → V}
    {kernel : ListStruct α → ListStruct UInt32 → UInt32 → γ} {kernelName : String}
    {sign : FunctionSignature} {type : LLVMType}
    (hcount : ∀ gi, sem.op (.call (FunctionSignature.toString ⟨"GroupCount", [.kU32List], .kU32⟩)
      (.int 32)) [u32List gi] = pure (number (groupCount gi)))
    (hkernel : ∀ v gi d, sem.op (.call (FunctionSignature.toString
        ⟨kernelName, [sign.paramTypes.headD .kUnknown, .kU32List, .kU32, .kPtr],
          sign.retType⟩) type)
      [list v, u32List gi, number d, sem.arg 1] = pure (out (kernel v gi d)))
    (v : ListStruct α) (gi : ListStruct UInt32) :
    (emitGroupSugar kernelName sign type).eval sem ![list v, u32List gi] =
      pure (out (kernel v gi (groupCount gi))) := by
  rw [emitGroupSugar]
  generalize sign.paramTypes.headD .kUnknown = vt at hkernel ⊢
  simp [Ssa.Expr.eval, Ssa.Expr.evalArgs, hcount, hkernel]

end Lowering

/-! ## 3. The accesses -/

section Access

variable {α β D : Type} {gi : ListStruct UInt32}

/-- No index is the sentinel of a miss. -/
def NoMiss (gi : ListStruct UInt32) : Prop := ∀ i < gi.len, gi.data i ≠ kLookupMiss

/-- Every slot accessed is below the number of groups. -/
def Below {β : Type} (gi : ListStruct UInt32) (b : Buffer β) : Prop :=
  ∀ w ∈ b.writes, w < (groupCount gi).toNat

theorem toNat_add_one_of_ne {x : UInt32} (h : x ≠ kLookupMiss) : (x + 1).toNat = x.toNat + 1 := by
  have hne : x.toNat ≠ 2 ^ 32 - 1 := by
    intro heq
    exact h (UInt32.toNat_inj.mp heq)
  have hlt := x.toNat_lt
  rw [UInt32.toNat_add, UInt32.toNat_one]
  omega

/-- A miss makes the number of groups 0. -/
theorem groupCount_of_miss {i : Nat} (hi : i < gi.len) (hmiss : gi.data i = kLookupMiss) :
    groupCount gi = 0 := by
  have hmax : groupCount.maxId gi = kLookupMiss := by
    have hge := UInt32.le_iff_toNat_le.mp ((groupCount.maxId_spec gi).1 i hi)
    have hlt := (groupCount.maxId gi).toNat_lt
    rw [hmiss] at hge
    rw [← UInt32.toNat_inj]
    simp only [show kLookupMiss.toNat = 2 ^ 32 - 1 from rfl] at hge ⊢
    omega
  rw [groupCount, if_neg (by omega), hmax]
  rfl

theorem lt_groupCount_of_noMiss (h : NoMiss gi) {i : Nat} (hi : i < gi.len) :
    (gi.data i).toNat < (groupCount gi).toNat := by
  obtain ⟨hle, hmem⟩ := groupCount.maxId_spec gi
  have hmax : groupCount.maxId gi ≠ kLookupMiss := by
    obtain hzero | ⟨j, hj, heq⟩ := hmem
    · rw [hzero]
      decide
    · rw [← heq]
      exact h j hj
  have hge := UInt32.le_iff_toNat_le.mp (hle i hi)
  rw [groupCount, if_neg (by omega), toNat_add_one_of_ne hmax]
  omega

/-- **The number of groups is above the indices** exactly if none is a miss. -/
theorem lt_groupCount_iff :
    (∀ i < gi.len, (gi.data i).toNat < (groupCount gi).toNat) ↔ NoMiss gi := by
  refine ⟨fun h i hi hmiss => ?_, fun h i hi => lt_groupCount_of_noMiss h hi⟩
  have hlt := h i hi
  rw [groupCount_of_miss hi hmiss] at hlt
  exact absurd hlt (Nat.not_lt_zero _)

/-- A loop that combines into the slots of the indices, after one over the groups. -/
theorem below_scatter_iff {n : Nat} (hn : n = gi.len) (op : β → Nat → β) {b : Buffer β}
    (hb : Below gi b) : Below gi (scatter (fun i => (gi.data i).toNat) op n b) ↔ NoMiss gi := by
  subst hn
  rw [← lt_groupCount_iff]
  constructor
  · exact fun h i hi => h _ ((mem_writes_scatter _ _ _ _ _).mpr (.inl ⟨i, hi, rfl⟩))
  · intro h w hw
    obtain ⟨i, hi, rfl⟩ | hw := (mem_writes_scatter _ _ _ _ _).mp hw
    · exact h i hi
    · exact hb w hw

variable (gi) in
/-- A loop over the groups. -/
theorem below_sweep_iff (value : Nat → Buffer β → β) (b : Buffer β) :
    Below gi (sweep value (groupCount gi).toNat b) ↔ Below gi b := by
  constructor
  · exact fun h w hw => h w ((Fill.Buffer.mem_writes_sweep value _ w).mpr (.inr hw))
  · intro h w hw
    obtain hlt | hw := (Fill.Buffer.mem_writes_sweep value _ w).mp hw
    · exact hlt
    · exact h w hw

variable (gi) in
theorem below_alloc (memory : Nat → β) (cap : Nat) : Below gi (.alloc memory cap) := by
  simp [Below]

variable {values : ListStruct α}

/-- `GroupSum`, `GroupMax` and `GroupMin`. -/
theorem below_groupFold_iff (hlen : values.len = gi.len) (name : String) (seed : β)
    (op : β → α → β) (memory : Nat → β) :
    Below gi (groupFold name seed op memory values gi (groupCount gi)).buffer ↔ NoMiss gi := by
  rw [groupFold, if_neg (not_not.mpr hlen)]
  exact below_scatter_iff hlen _ ((below_sweep_iff gi _ _).mpr (below_alloc gi memory _))

/-- `GroupAvg`, on both buffers. -/
theorem below_groupAvg_iff (hlen : values.len = gi.len) (ops : Averages α D) (memory : Nat → D) :
    Below gi (groupAvg ops memory values gi (groupCount gi)).call.buffer ∧
      Below gi (groupAvg ops memory values gi (groupCount gi)).localCounts ↔ NoMiss gi := by
  rw [groupAvg, if_neg (not_not.mpr hlen)]
  have hcounts := below_scatter_iff hlen (fun (count : UInt32) _ => count + 1)
    (below_alloc gi (fun _ => 0) (groupCount gi).toNat)
  have hresult := below_scatter_iff hlen (fun acc i => ops.add acc (values.data i))
    ((below_sweep_iff gi (fun _ _ => ops.zero) _).mpr
      (below_alloc gi memory (groupCount gi).toNat))
  exact (and_congr ((below_sweep_iff gi _ _).trans hresult) hcounts).trans (and_self_iff)

/-- `GroupKeys` writes slot 0 for the first index 0, and nothing without one. -/
theorem groupKeys_writes [DecidableEq α] (keys : ListStruct α) (gi : ListStruct UInt32)
    (memory : Nat → α) (cap n : Nat) :
    let s := loop (groupKeys.step keys gi) n ⟨0, .alloc memory cap⟩
    (∀ w ∈ s.result.writes, ∃ i < n, (gi.data i).toNat = w) ∧
      (s.filled = 0 ∧ s.result.writes = [] ∧ (∀ i < n, gi.data i ≠ 0) ∨ 0 ∈ s.result.writes) := by
  refine loop_inv (P := fun n (s : Filling α) =>
    (∀ w ∈ s.result.writes, ∃ i < n, (gi.data i).toNat = w) ∧
      (s.filled = 0 ∧ s.result.writes = [] ∧ (∀ i < n, gi.data i ≠ 0) ∨ 0 ∈ s.result.writes))
    ⟨by simp, .inl ⟨rfl, rfl, fun i hi => absurd hi (Nat.not_lt_zero i)⟩⟩ ?_
  rintro n s _ ⟨hfrom, hzero⟩
  have hlater : ∀ w ∈ s.result.writes, ∃ i < n + 1, (gi.data i).toNat = w := by
    intro w hw
    obtain ⟨i, hi, heq⟩ := hfrom w hw
    exact ⟨i, Nat.lt_succ_of_lt hi, heq⟩
  rw [groupKeys.step]
  split
  · next heq =>
    refine ⟨fun w hw => ?_, ?_⟩
    · obtain rfl | hw := List.mem_cons.mp hw
      · exact ⟨n, Nat.lt_succ_self n, by rw [heq]⟩
      · exact hlater w hw
    · obtain ⟨hfilled, -, -⟩ | hzero := hzero
      · exact .inr (by simp [hfilled])
      · exact .inr (List.mem_cons_of_mem _ hzero)
  · next hne =>
    refine ⟨hlater, hzero.imp_left ?_⟩
    rintro ⟨hfilled, hwrites, hnone⟩
    refine ⟨hfilled, hwrites, fun i hi => ?_⟩
    obtain hi | rfl := Nat.lt_succ_iff_lt_or_eq.mp hi
    · exact hnone i hi
    · rwa [hfilled] at hne

/-- `GroupKeys` is inside also if there is a miss and no group 0. -/
theorem below_groupKeys_iff [DecidableEq α] {keys : ListStruct α} (hlen : keys.len = gi.len)
    (memory : Nat → α) :
    Below gi (groupKeys memory keys gi (groupCount gi)).buffer ↔
      NoMiss gi ∨ ∀ i < gi.len, gi.data i ≠ 0 := by
  obtain ⟨hfrom, hzero⟩ := groupKeys_writes keys gi memory (groupCount gi).toNat keys.len
  rw [groupKeys, if_neg (not_not.mpr hlen)]
  constructor
  · intro h
    obtain ⟨-, -, hnone⟩ | hmem := hzero
    · exact .inr (hlen ▸ hnone)
    · -- a slot was written, so there are groups, and no miss
      refine .inl fun i hi hmiss => ?_
      have hlt := h 0 hmem
      rw [groupCount_of_miss hi hmiss] at hlt
      exact absurd hlt (Nat.not_lt_zero _)
  · rintro (hno | hnone) w hw
    · obtain ⟨i, hi, rfl⟩ := hfrom w hw
      exact lt_groupCount_of_noMiss hno (hlen ▸ hi)
    · obtain ⟨-, hwrites, -⟩ | hmem := hzero
      · exact absurd hw (by simp [Call.done, hwrites])
      · obtain ⟨i, hi, heq⟩ := hfrom 0 hmem
        exact absurd (UInt32.toNat_inj.mp heq) (hnone i (hlen ▸ hi))

end Access

/-- The aggregates of values in `α`: what `GroupSum`, `GroupMax` and `GroupMin` start a slot with,
and how they combine a value into it. -/
structure Aggregates (α β : Type) where
  sumSeed : β
  addTo : β → α → β
  lowest : α
  max : α → α → α
  highest : α
  min : α → α → α

/-- The functions of two arguments access slots of the result, and counters, below the number of
groups only. -/
structure AccessesInside {α β D : Type} [DecidableEq α] (ops : Aggregates α β)
    (avg : Averages α D) (v : ListStruct α) (gi : ListStruct UInt32) : Prop where
  sum : ∀ memory, Below gi
    (groupFold "GroupSum" ops.sumSeed ops.addTo memory v gi (groupCount gi)).buffer
  max : ∀ memory, Below gi
    (groupFold "GroupMax" ops.lowest ops.max memory v gi (groupCount gi)).buffer
  min : ∀ memory, Below gi
    (groupFold "GroupMin" ops.highest ops.min memory v gi (groupCount gi)).buffer
  avg : ∀ memory, Below gi (groupAvg avg memory v gi (groupCount gi)).call.buffer ∧
    Below gi (groupAvg avg memory v gi (groupCount gi)).localCounts
  keys : ∀ memory, Below gi (groupKeys memory v gi (groupCount gi)).buffer

/-- **The accesses are inside** exactly if no index is the sentinel of a miss, whatever the
elements are. -/
theorem accessesInside_iff {α β D : Type} [DecidableEq α] (ops : Aggregates α β)
    (avg : Averages α D) (v : ListStruct α) (gi : ListStruct UInt32) (hlen : v.len = gi.len) :
    AccessesInside ops avg v gi ↔ ∀ i < gi.len, gi.data i ≠ kLookupMiss := by
  constructor
  · exact fun h => (below_groupFold_iff hlen _ _ _ _).mp (h.sum fun _ => ops.sumSeed)
  · intro h
    exact ⟨fun memory => (below_groupFold_iff hlen _ _ _ memory).mpr h,
      fun memory => (below_groupFold_iff hlen _ _ _ memory).mpr h,
      fun memory => (below_groupFold_iff hlen _ _ _ memory).mpr h,
      fun memory => (below_groupAvg_iff hlen avg memory).mpr h,
      fun memory => (below_groupKeys_iff hlen memory).mpr (.inl h)⟩

/-- The integers of type `t`, with averages in any type. -/
def integerAggregates (t : IntegerType) : Aggregates t.Value t.acc.Value where
  sumSeed := 0
  addTo := addTo
  lowest := t.lowestValue
  max := max
  highest := t.maxValue
  min := min

/-- Averages that are sums. -/
def sums : Averages IntegerType.int32.Value Int := ⟨0, fun acc v => acc + v.toInt, fun acc _ => acc⟩

/-- Two groups. -/
theorem accessesInside_two :
    let v := ListStruct.ofList [1, (1 : IntegerType.int32.Value)] (by decide)
    AccessesInside (integerAggregates .int32) sums v (.ofList [1, 0] (by decide)) := by
  intro v
  exact (accessesInside_iff _ _ v _ rfl).mpr (by decide)

/-- A miss is the only index. -/
theorem accessesInside_miss :
    let v := ListStruct.ofList [(1 : IntegerType.int32.Value)] (by decide)
    let gi := ListStruct.ofList [kLookupMiss] (by decide)
    v.len = gi.len ∧ ¬ AccessesInside (integerAggregates .int32) sums v gi := by
  intro v gi
  refine ⟨rfl, fun h => ?_⟩
  have hlen : v.len = gi.len := rfl
  have hsum := (below_groupFold_iff hlen _ _ _ _).mp (h.sum fun _ => 0)
  exact hsum 0 (by decide) rfl

end Kernels

end JitFusion
