/-
# Grouping

The group-by functions (`src/function/list_group.cc`).  `GroupIndex` numbers the keys of a list,
`GroupCount` counts the groups, `GroupKeys` lists a key of each group and `GroupSum`, `GroupMax`
and `GroupMin` aggregate a list of values by group.  They share nothing but the numbers, which are
those of the first occurrences (`Numbering.number`), and so do `Unique` and `CountDistinct`
(`list_basic.cc`, `list_aggregation.cc`).

`groupBy_spec` puts them together.
-/
import Mathlib.Algebra.BigOperators.Group.Finset.Sigma
import Mathlib.Data.Int.ModEq
import JitFusion.Kernels
import JitFusion.Lib.Numbering

namespace JitFusion

namespace Kernels

open Fill (Buffer loop)
open Fill.Buffer (sweep)
open Numbering

/-! ## 1. The kernels -/

section Keys

variable {α : Type} [DecidableEq α]

/-- The locals `table`, `next_id` and `result` of `GroupIndex`. -/
structure Indexing (α : Type) where
  table : α → Option UInt32
  nextId : UInt32
  result : Buffer UInt32

/-- An iteration: `try_emplace` keeps an entry that is there. -/
def groupIndex.step (keys : ListStruct α) (i : Nat) (s : Indexing α) : Indexing α :=
  match s.table (keys.data i) with
  | some id => { s with result := s.result.write i id }
  | none =>
    { table := Function.update s.table (keys.data i) (some s.nextId)
      nextId := s.nextId + 1
      result := s.result.write i s.nextId }

def groupIndex (memory : Nat → UInt32) (keys : ListStruct α) : Call UInt32 :=
  .done (loop (groupIndex.step keys) keys.len ⟨fun _ => none, 0, .alloc memory keys.len⟩).result
    keys.len keys.len_lt

def groupCount.maxId (groupIndex : ListStruct UInt32) : UInt32 :=
  loop (fun i maxId => max (groupIndex.data i) maxId) groupIndex.len 0

def groupCount (groupIndex : ListStruct UInt32) : UInt32 :=
  if groupIndex.len = 0 then 0 else groupCount.maxId groupIndex + 1

/-- The locals `filled` and `result` of `GroupKeys`. -/
structure Filling (α : Type) where
  filled : UInt32
  result : Buffer α

def groupKeys.step (keys : ListStruct α) (groupIndex : ListStruct UInt32) (i : Nat)
    (s : Filling α) : Filling α :=
  if groupIndex.data i = s.filled then
    ⟨s.filled + 1, s.result.write s.filled.toNat (keys.data i)⟩
  else s

def groupKeys (memory : Nat → α) (keys : ListStruct α) (groupIndex : ListStruct UInt32)
    (distinct : UInt32) : Call α :=
  if keys.len ≠ groupIndex.len then
    .fail memory ("GroupKeys: keys and group_index len mismatch, keys len: " ++
      Nat.repr keys.len ++ ", group_index len: " ++ Nat.repr groupIndex.len)
  else
    let s := loop (groupKeys.step keys groupIndex) keys.len ⟨0, .alloc memory distinct.toNat⟩
    .done s.result s.filled.toNat s.filled.toNat_lt

/-- The locals `seen`, `idx` and `result` of `Unique`. -/
structure Collecting (α : Type) where
  seen : Finset α
  idx : UInt32
  result : Buffer α

def unique.step (a : ListStruct α) (i : Nat) (s : Collecting α) : Collecting α :=
  if a.data i ∈ s.seen then s
  else ⟨insert (a.data i) s.seen, s.idx + 1, s.result.write s.idx.toNat (a.data i)⟩

def unique (memory : Nat → α) (a : ListStruct α) : Call α :=
  let s := loop (unique.step a) a.len ⟨∅, 0, .alloc memory a.len⟩
  .done s.result s.idx.toNat s.idx.toNat_lt

def countDistinct (a : ListStruct α) : UInt32 := UInt32.ofNat a.toList.toFinset.card

end Keys

section Aggregates

variable {α β : Type}

/-- What the aggregates have in common: each slot starts with `seed`, and each value is combined
into the slot of its group. -/
def groupFold (name : String) (seed : β) (op : β → α → β) (memory : Nat → β)
    (values : ListStruct α) (groupIndex : ListStruct UInt32) (distinct : UInt32) : Call β :=
  if values.len ≠ groupIndex.len then
    .fail memory (name ++ ": values and group_index len mismatch, values len: " ++
      Nat.repr values.len ++ ", group_index len: " ++ Nat.repr groupIndex.len)
  else
    .done
      (scatter (fun i => (groupIndex.data i).toNat) (fun acc i => op acc (values.data i))
        values.len (sweep (fun _ _ => seed) distinct.toNat (.alloc memory distinct.toNat)))
      distinct.toNat distinct.toNat_lt

variable {t : IntegerType}

/-- `AccList::CElementType`, which is also the `RetType` of `Sum`. -/
def IntegerType.acc (t : IntegerType) : IntegerType := if t.isSigned then .int64 else .uint64

/-- `acc += v`. -/
def addTo (acc : t.acc.Value) (v : t.Value) : t.acc.Value := t.acc.wrap (acc.toInt + v.toInt)

def groupSum : (Nat → t.acc.Value) → ListStruct t.Value → ListStruct UInt32 → UInt32 →
    Call t.acc.Value :=
  groupFold "GroupSum" 0 addTo

def groupMax : (Nat → t.Value) → ListStruct t.Value → ListStruct UInt32 → UInt32 → Call t.Value :=
  groupFold "GroupMax" t.lowestValue max

def groupMin : (Nat → t.Value) → ListStruct t.Value → ListStruct UInt32 → UInt32 → Call t.Value :=
  groupFold "GroupMin" t.maxValue min

def sum (a : ListStruct t.Value) : t.acc.Value := loop (fun i s => addTo s (a.data i)) a.len 0

end Aggregates

/-! ## 2. The numbers -/

section Index

variable {α : Type} [DecidableEq α]

/-- What `GroupIndex` knows after the first `n` keys. -/
structure Indexed (k : Nat → α) (n : Nat) (s : Indexing α) : Prop where
  met : ∀ j < n, s.table (k j) = some (UInt32.ofNat (number k j))
  unmet : ∀ x, x ∉ keys k n → s.table x = none
  nextId : s.nextId = UInt32.ofNat (distinct k n)
  result : ∀ j < n, s.result.slot j = UInt32.ofNat (number k j)

variable {keys : ListStruct α}

theorem Indexed.step {n : Nat} {s : Indexing α} (h : Indexed keys.data n s) :
    Indexed keys.data (n + 1) (groupIndex.step keys n s) := by
  rw [groupIndex.step]
  by_cases hmem : keys.data n ∈ Numbering.keys keys.data n
  · -- the key was met at `j`
    obtain ⟨j, hj, hkey⟩ := mem_keys.mp hmem
    have hnumber : number keys.data j = number keys.data n := number_eq_iff.mpr hkey
    have htable : s.table (keys.data n) = some (UInt32.ofNat (number keys.data n)) := by
      rw [← hkey, h.met j hj, hnumber]
    have hfirst : isFirst keys.data n = false :=
      Bool.eq_false_iff.mpr fun hf => isFirst_iff_notMem_keys.mp hf hmem
    rw [htable]
    refine ⟨fun i hi => ?_, fun x hx => h.unmet x fun hm => hx ?_, ?_, fun i hi => ?_⟩
    · rcases Nat.lt_succ_iff_lt_or_eq.mp hi with hlt | rfl
      · exact h.met i hlt
      · exact htable
    · rw [keys_succ]
      exact Finset.mem_insert_of_mem hm
    · rw [distinct_succ_of_not_first hfirst]
      exact h.nextId
    · rw [Buffer.slot_write]
      split
      · next heq => rw [heq]
      · next hne => exact h.result i (Nat.lt_of_le_of_ne (Nat.le_of_lt_succ hi) hne)
  · -- the key is new
    have hfirst : isFirst keys.data n = true := isFirst_iff_notMem_keys.mpr hmem
    have hnumber : number keys.data n = distinct keys.data n := number_of_first hfirst
    rw [h.unmet _ hmem]
    refine ⟨fun i hi => ?_, fun x hx => ?_, ?_, fun i hi => ?_⟩
    · rcases Nat.lt_succ_iff_lt_or_eq.mp hi with hlt | rfl
      · have hne : keys.data i ≠ keys.data n := fun heq => hmem (mem_keys.mpr ⟨i, hlt, heq⟩)
        simp [hne, h.met i hlt]
      · simp [h.nextId, hnumber]
    · rw [keys_succ, Finset.mem_insert, not_or] at hx
      simp [hx.1, h.unmet x hx.2]
    · rw [distinct_succ_of_first hfirst, UInt32.ofNat_add, ← h.nextId]
      rfl
    · rw [Buffer.slot_write]
      split
      · next heq => rw [heq, h.nextId, hnumber]
      · next hne => exact h.result i (Nat.lt_of_le_of_ne (Nat.le_of_lt_succ hi) hne)

variable (memory : Nat → UInt32)

theorem groupIndex_data {i : Nat} (hi : i < keys.len) :
    (groupIndex memory keys).result.data i = UInt32.ofNat (number keys.data i) := by
  have h : Indexed keys.data keys.len
      (loop (groupIndex.step keys) keys.len ⟨fun _ => none, 0, .alloc memory keys.len⟩) :=
    Fill.loop_inv ⟨by simp, fun _ _ => rfl, rfl, by simp⟩ fun i s _ hs => hs.step
  exact h.result i hi

@[simp] theorem groupIndex_len : (groupIndex memory keys).result.len = keys.len := rfl

end Index

/-! ## 3. The number of groups -/

theorem max_eq (a b : UInt32) : max a b = if a ≤ b then b else a := rfl

/-- **The maximum** bounds every element and is one of them. -/
theorem groupCount.maxId_spec (gi : ListStruct UInt32) :
    (∀ i < gi.len, gi.data i ≤ groupCount.maxId gi) ∧
      (groupCount.maxId gi = 0 ∨ ∃ i < gi.len, gi.data i = groupCount.maxId gi) := by
  rw [groupCount.maxId]
  refine Fill.loop_inv (P := fun n (m : UInt32) =>
    (∀ i < n, gi.data i ≤ m) ∧ (m = 0 ∨ ∃ i < n, gi.data i = m)) ⟨by simp, .inl rfl⟩ ?_
  intro n m _ ⟨hle, hmem⟩
  rw [max_eq]
  split
  · next hlt =>
    refine ⟨fun i hi => ?_, hmem.imp_right fun ⟨i, hi, heq⟩ => ⟨i, Nat.lt_succ_of_lt hi, heq⟩⟩
    rcases Nat.lt_succ_iff_lt_or_eq.mp hi with hi | rfl
    · exact hle i hi
    · exact hlt
  · next hnot =>
    refine ⟨fun i hi => ?_, .inr ⟨n, Nat.lt_succ_self n, rfl⟩⟩
    rcases Nat.lt_succ_iff_lt_or_eq.mp hi with hi | rfl
    · exact UInt32.le_trans (hle i hi) (UInt32.le_of_lt (UInt32.not_le.mp hnot))
    · exact UInt32.le_refl _

section Numbered

variable {α : Type} [DecidableEq α] {k : Nat → α}

/-- The element `i` is the number of the key of `i`. -/
structure Numbered (k : Nat → α) (gi : ListStruct UInt32) : Prop where
  number : ∀ i < gi.len, (gi.data i).toNat = number k i

theorem distinct_le (k : Nat → α) (n : Nat) : distinct k n ≤ n := Fill.rank_le n

theorem groupIndex_numbered (memory : Nat → UInt32) (keys : ListStruct α) :
    Numbered keys.data (groupIndex memory keys).result := by
  refine ⟨fun i hi => ?_⟩
  rw [groupIndex_len] at hi
  rw [groupIndex_data memory hi, UInt32.toNat_ofNat_of_lt']
  have hlt : Numbering.number keys.data i < distinct keys.data keys.len := number_lt hi
  exact hlt.trans_le ((distinct_le keys.data keys.len).trans keys.len_lt.le)

variable {gi : ListStruct UInt32} (h : Numbered k gi)

include h

theorem Numbered.groupCount : (groupCount gi).toNat = distinct k gi.len := by
  rw [Kernels.groupCount]
  split
  · next hlen => rw [hlen]; rfl
  · next hlen =>
    obtain ⟨hle, hmem⟩ := groupCount.maxId_spec gi
    have hpos : 0 < distinct k gi.len := Nat.zero_lt_of_lt (number_lt (Nat.pos_of_ne_zero hlen))
    have hbound := distinct_le k gi.len
    have hlt := gi.len_lt
    -- the last number is there, and it is the largest
    obtain ⟨i, hi, -, hnum⟩ := exists_number (Nat.sub_one_lt_of_lt hpos)
    have hge : distinct k gi.len - 1 ≤ (groupCount.maxId gi).toNat := by
      rw [← hnum, ← h.number i hi]
      exact UInt32.le_iff_toNat_le.mp (hle i hi)
    have hmax : (groupCount.maxId gi).toNat < distinct k gi.len := by
      rcases hmem with hzero | ⟨j, hj, heq⟩
      · rw [hzero]
        exact hpos
      · rw [← heq, h.number j hj]
        exact number_lt hj
    rw [UInt32.toNat_add, UInt32.toNat_one]
    omega

theorem Numbered.lt {i : Nat} (hi : i < gi.len) :
    (gi.data i).toNat < (Kernels.groupCount gi).toNat := by
  rw [h.groupCount, h.number i hi]
  exact number_lt hi

theorem Numbered.eq_iff {i j : Nat} (hi : i < gi.len) (hj : j < gi.len) :
    gi.data i = gi.data j ↔ k i = k j := by
  rw [← UInt32.toNat_inj, h.number i hi, h.number j hj]
  exact number_eq_iff

end Numbered

theorem countDistinct_toNat {α : Type} [DecidableEq α] (a : ListStruct α) :
    (countDistinct a).toNat = distinct a.data a.len := by
  have hcard : a.toList.toFinset.card = distinct a.data a.len := card_keys a.len
  have hle := distinct_le a.data a.len
  have hlen := a.len_lt
  rw [countDistinct, hcard]
  exact UInt32.toNat_ofNat_of_lt' (Nat.lt_of_le_of_lt hle hlen)

/-! ## 4. A key of each group -/

section Firsts

variable {α : Type} [DecidableEq α] {keys : ListStruct α} {gi : ListStruct UInt32}

/-- The first occurrences among the first `n` keys are where their numbers say. -/
structure Firsts (k : Nat → α) (n : Nat) (count : UInt32) (result : Buffer α) : Prop where
  count : count.toNat = distinct k n
  placed : Fill.Placed (isFirst k) k n result.slot

variable {n : Nat} {count : UInt32} {result : Buffer α}

theorem Firsts.alloc (k : Nat → α) (memory : Nat → α) (cap : Nat) :
    Firsts k 0 0 (.alloc memory cap) := ⟨rfl, .zero _⟩

theorem Firsts.skip {k : Nat → α} (h : Firsts k n count result) (hf : isFirst k n = false) :
    Firsts k (n + 1) count result :=
  ⟨h.count.trans (distinct_succ_of_not_first hf).symm, h.placed.skip hf⟩

theorem Firsts.place {k : Nat → α} (h : Firsts k n count result) (hn : n < 2 ^ 32 - 1)
    (hf : isFirst k n = true) :
    Firsts k (n + 1) (count + 1) (result.write count.toNat (k n)) := by
  have hle := distinct_le k n
  refine ⟨?_, ?_⟩
  · rw [UInt32.toNat_add, UInt32.toNat_one, h.count, distinct_succ_of_first hf]
    omega
  · rw [h.count]
    exact h.placed.place

/-- The result of a kernel that keeps the first occurrences. -/
theorem Firsts.toList {a : ListStruct α} (h : Firsts a.data a.len count result) :
    (Call.done result count.toNat count.toNat_lt).result.toList =
      ((List.range a.len).filter (isFirst a.data)).map a.data := by
  rw [← h.placed.map_range]
  exact congrArg (fun n => (List.range n).map result.slot) h.count

theorem unique_firsts (memory : Nat → α) (a : ListStruct α) :
    Firsts a.data a.len (loop (unique.step a) a.len ⟨∅, 0, .alloc memory a.len⟩).idx
      (loop (unique.step a) a.len ⟨∅, 0, .alloc memory a.len⟩).result := by
  have h := Fill.loop_inv (f := unique.step a) (n := a.len) (s := ⟨∅, 0, .alloc memory a.len⟩)
    (P := fun n (s : Collecting α) =>
      s.seen = Numbering.keys a.data n ∧ Firsts a.data n s.idx s.result)
    ⟨rfl, Firsts.alloc a.data memory a.len⟩ fun n s hn ⟨hseen, hs⟩ => ?_
  · exact h.2
  · have hlen := a.len_lt
    rw [unique.step, hseen, keys_succ]
    split
    · next hmem =>
      have hf : isFirst a.data n = false :=
        Bool.eq_false_iff.mpr fun hf => isFirst_iff_notMem_keys.mp hf hmem
      exact ⟨hseen.trans (Finset.insert_eq_of_mem hmem).symm, hs.skip hf⟩
    · next hmem =>
      exact ⟨rfl, hs.place (by omega) (isFirst_iff_notMem_keys.mpr hmem)⟩

theorem groupKeys_firsts (h : Numbered keys.data gi) (hlen : gi.len = keys.len)
    (memory : Nat → α) (cap : Nat) :
    Firsts keys.data keys.len
      (loop (groupKeys.step keys gi) keys.len ⟨0, .alloc memory cap⟩).filled
      (loop (groupKeys.step keys gi) keys.len ⟨0, .alloc memory cap⟩).result := by
  refine Fill.loop_inv (P := fun n (s : Filling α) => Firsts keys.data n s.filled s.result)
    (Firsts.alloc keys.data memory cap) fun n s hn hs => ?_
  have hlt := keys.len_lt
  have hnum := h.number n (hlen ▸ hn)
  rw [groupKeys.step]
  cases hf : isFirst keys.data n with
  | true =>
    have heq : gi.data n = s.filled := by
      rw [← UInt32.toNat_inj, hnum, hs.count, number_of_first hf]
    rw [if_pos heq]
    exact hs.place (by omega) hf
  | false =>
    have hne : gi.data n ≠ s.filled := by
      rw [Ne, ← UInt32.toNat_inj, hnum, hs.count]
      exact Nat.ne_of_lt (number_lt_of_not_first hf)
    rw [if_neg hne]
    exact hs.skip hf

/-- **The keys of the groups.** -/
theorem groupKeys_spec (h : Numbered keys.data gi) (hlen : gi.len = keys.len) (memory : Nat → α)
    (d : UInt32) :
    (groupKeys memory keys gi d).errors = [] ∧
      (groupKeys memory keys gi d).result.len = distinct keys.data keys.len ∧
      (groupKeys memory keys gi d).result.toList =
        ((List.range keys.len).filter (isFirst keys.data)).map keys.data ∧
      ∀ i < keys.len, (groupKeys memory keys gi d).result.data (gi.data i).toNat = keys.data i := by
  have hfirsts := groupKeys_firsts h hlen memory d.toNat
  rw [groupKeys, if_neg (not_not.mpr hlen.symm)]
  refine ⟨rfl, hfirsts.count, hfirsts.toList, fun i hi => ?_⟩
  have hplaced := hfirsts.placed _ ((first_le keys.data i).trans_lt hi) (isFirst_first _ i)
  rw [h.number i (hlen ▸ hi), ← key_first keys.data i]
  exact hplaced

end Firsts

/-! ## 5. Aggregates -/

section Fold

variable {α β : Type} {name : String} {seed : β} {op : β → α → β} {values : ListStruct α}
  {gi : ListStruct UInt32}

/-- The indices of the group `g`. -/
def group (gi : ListStruct UInt32) (g : Nat) : Finset Nat :=
  (Finset.range gi.len).filter fun i => (gi.data i).toNat = g

theorem mem_group {g i : Nat} : i ∈ group gi g ↔ i < gi.len ∧ (gi.data i).toNat = g := by
  rw [group, Finset.mem_filter, Finset.mem_range]

/-- The members of the group `g`, in order. -/
def groupList (gi : ListStruct UInt32) (g : Nat) : List Nat :=
  members (fun i => (gi.data i).toNat) gi.len g

theorem groupList_toFinset (g : Nat) : (groupList gi g).toFinset = group gi g := by
  ext i
  rw [List.mem_toFinset, mem_group]
  exact mem_members

theorem groupList_nodup (g : Nat) : (groupList gi g).Nodup := List.nodup_range.filter _

variable (name seed op) in
/-- **A slot** of an aggregate. -/
theorem groupFold_spec (memory : Nat → β) (hlen : values.len = gi.len) (distinct : UInt32) :
    (groupFold name seed op memory values gi distinct).errors = [] ∧
      (groupFold name seed op memory values gi distinct).result.len = distinct.toNat ∧
      ∀ g < distinct.toNat, (groupFold name seed op memory values gi distinct).result.data g =
        (groupList gi g).foldl (fun acc i => op acc (values.data i)) seed := by
  rw [groupFold, if_neg (not_not.mpr hlen)]
  refine ⟨rfl, rfl, fun g hg => ?_⟩
  refine (slot_scatter _ _ _ _ g).trans ?_
  rw [groupList, ← hlen, Buffer.slot_sweep (g := fun _ _ => seed) (fun _ _ => rfl), if_pos hg]

end Fold

section Sums

variable {t : IntegerType}

theorem foldl_addTo (f : Nat → t.Value) (l : List Nat) (acc : t.acc.Value) :
    l.foldl (fun acc i => addTo acc (f i)) acc =
      t.acc.wrap (acc.toInt + (l.map fun i => (f i).toInt).sum) := by
  induction l generalizing acc with
  | nil => simp [IntegerType.wrap_toInt]
  | cons i l ih =>
    rw [List.foldl_cons, ih, List.map_cons, List.sum_cons, ← add_assoc]
    exact IntegerType.wrap_congr _ ((IntegerType.wrap_modEq _ _).add_right _)

theorem loop_eq_foldl {σ : Type} (f : Nat → σ → σ) (n : Nat) (s : σ) :
    loop f n s = (List.range n).foldl (fun s i => f i s) s := by
  induction n with
  | zero => rfl
  | succ n ih => rw [Fill.loop_succ, List.range_succ, List.foldl_append, ih]; rfl

theorem sum_eq (a : ListStruct t.Value) :
    sum a = t.acc.wrap (∑ i ∈ Finset.range a.len, (a.data i).toInt) := by
  have hrange : (List.range a.len).toFinset = Finset.range a.len := by
    ext i
    simp
  rw [sum, loop_eq_foldl, foldl_addTo, ← List.sum_toFinset _ List.nodup_range, hrange]
  exact congrArg t.acc.wrap (zero_add _)

theorem sum_groupList (f : Nat → t.Value) (gi : ListStruct UInt32) (g : Nat) :
    (groupList gi g).foldl (fun acc i => addTo acc (f i)) 0 =
      t.acc.wrap (∑ i ∈ group gi g, (f i).toInt) := by
  rw [foldl_addTo, ← List.sum_toFinset _ (groupList_nodup g), groupList_toFinset]
  exact congrArg t.acc.wrap (zero_add _)

@[simp] theorem width_acc : t.acc.width = 64 := by
  cases t <;> rfl

theorem sum_modEq {f g : Nat → Int} {m : Int} {s : Finset Nat} (h : ∀ i ∈ s, f i ≡ g i [ZMOD m]) :
    ∑ i ∈ s, f i ≡ ∑ i ∈ s, g i [ZMOD m] := by
  rw [Int.ModEq, Finset.sum_int_mod, Finset.sum_int_mod (f := g)]
  exact congrArg (· % m) (Finset.sum_congr rfl h)

end Sums

/-! ## 6. Group-by -/

variable {α : Type} [DecidableEq α] {t : IntegerType}

/-- The laws of grouping the values `v` by the keys `k`, where `gi` are the numbers, `d` is the
number of groups, `distinct` that of the keys, `keys` and `uniq` are the keys of the groups and
without repetition, `sums`, `maxs` and `mins` are the aggregates and `total` is the sum. -/
structure GroupBy (k : ListStruct α) (v : ListStruct t.Value) (gi : ListStruct UInt32)
    (d distinct : UInt32) (keys uniq : Call α) (sums : Call t.acc.Value) (maxs mins : Call t.Value)
    (total : t.acc.Value) : Prop where
  len : gi.len = k.len
  index : ∀ i < k.len, ∀ j < k.len, gi.data i = gi.data j ↔ k.data i = k.data j
  /-- The numbers of the first occurrences, in order, are `0`, …, `d - 1`. -/
  order : ((List.range k.len).filter (isFirst k.data)).map (fun i => (gi.data i).toNat) =
    List.range d.toNat
  lt : ∀ i < k.len, gi.data i < d
  count : d = distinct
  errors : keys.errors = [] ∧ uniq.errors = [] ∧ sums.errors = [] ∧ maxs.errors = [] ∧
    mins.errors = []
  lens : keys.result.len = d.toNat ∧ sums.result.len = d.toNat ∧ maxs.result.len = d.toNat ∧
    mins.result.len = d.toNat
  unique : keys.result.toList = uniq.result.toList
  key : ∀ i < k.len, keys.result.data (gi.data i).toNat = k.data i
  sum : ∀ g < d.toNat,
    (sums.result.data g).toInt ≡ ∑ i ∈ group gi g, (v.data i).toInt [ZMOD 2 ^ 64]
  max : ∀ g < d.toNat, IsGreatest {x | ∃ i ∈ group gi g, v.data i = x} (maxs.result.data g)
  min : ∀ g < d.toNat, IsLeast {x | ∃ i ∈ group gi g, v.data i = x} (mins.result.data g)
  total : ∑ g ∈ Finset.range d.toNat, (sums.result.data g).toInt ≡ total.toInt [ZMOD 2 ^ 64]

section Spec

variable {k : ListStruct α} {v : ListStruct t.Value} {gi : ListStruct UInt32} {d : UInt32}

theorem groupSum_spec (memory : Nat → t.acc.Value) (hlen : v.len = gi.len) {g : Nat}
    (hg : g < d.toNat) :
    ((groupSum memory v gi d).result.data g).toInt ≡
      ∑ i ∈ group gi g, (v.data i).toInt [ZMOD 2 ^ 64] := by
  have hslot := (groupFold_spec "GroupSum" 0 addTo memory hlen d).2.2 g hg
  rw [groupSum, hslot, sum_groupList]
  have hwrap := t.acc.wrap_modEq (∑ i ∈ group gi g, (v.data i).toInt)
  rwa [width_acc] at hwrap

/-- The group sums add up. -/
theorem groupSum_total (memory : Nat → t.acc.Value) (hlen : v.len = gi.len)
    (hlt : ∀ i < gi.len, (gi.data i).toNat < d.toNat) :
    ∑ g ∈ Finset.range d.toNat, ((groupSum memory v gi d).result.data g).toInt ≡
      (sum v).toInt [ZMOD 2 ^ 64] := by
  have hgroups : ∑ g ∈ Finset.range d.toNat, ∑ i ∈ group gi g, (v.data i).toInt =
      ∑ i ∈ Finset.range gi.len, (v.data i).toInt :=
    Finset.sum_fiberwise_of_maps_to
      (fun i hi => Finset.mem_range.mpr (hlt i (Finset.mem_range.mp hi))) _
  have htotal := t.acc.wrap_modEq (∑ i ∈ Finset.range v.len, (v.data i).toInt)
  rw [width_acc, ← sum_eq, hlen, ← hgroups] at htotal
  exact (sum_modEq fun g hg => groupSum_spec memory hlen (Finset.mem_range.mp hg)).trans htotal.symm

theorem groupMax_spec (memory : Nat → t.Value) (hlen : v.len = gi.len) {g : Nat}
    (hg : g < d.toNat) (hne : ∃ i, i ∈ group gi g) :
    IsGreatest {x | ∃ i ∈ group gi g, v.data i = x} ((groupMax memory v gi d).result.data g) := by
  rw [groupMax, (groupFold_spec _ _ _ memory hlen d).2.2 g hg]
  simp only [← groupList_toFinset, List.mem_toFinset] at hne ⊢
  obtain ⟨i, hi⟩ := hne
  exact isGreatest_foldl_max v.data IntegerType.lowestValue_le (List.ne_nil_of_mem hi)

theorem groupMin_spec (memory : Nat → t.Value) (hlen : v.len = gi.len) {g : Nat}
    (hg : g < d.toNat) (hne : ∃ i, i ∈ group gi g) :
    IsLeast {x | ∃ i ∈ group gi g, v.data i = x} ((groupMin memory v gi d).result.data g) := by
  rw [groupMin, (groupFold_spec _ _ _ memory hlen d).2.2 g hg]
  simp only [← groupList_toFinset, List.mem_toFinset] at hne ⊢
  obtain ⟨i, hi⟩ := hne
  exact isLeast_foldl_min v.data IntegerType.le_maxValue (List.ne_nil_of_mem hi)

end Spec

/-- **Group-by.**  The kernels agree on the groups. -/
theorem groupBy_spec (ids : Nat → UInt32) (memory memory' : Nat → α)
    (sums : Nat → t.acc.Value) (maxs mins : Nat → t.Value) (k : ListStruct α)
    (v : ListStruct t.Value) (hv : v.len = k.len) :
    let gi := (groupIndex ids k).result
    let d := groupCount gi
    GroupBy k v gi d (countDistinct k) (groupKeys memory k gi d) (unique memory' k)
      (groupSum sums v gi d) (groupMax maxs v gi d) (groupMin mins v gi d) (sum v) := by
  intro gi d
  have hlen : v.len = gi.len := hv
  have hnum : Numbered k.data gi := groupIndex_numbered ids k
  have hcount : d.toNat = distinct k.data k.len := hnum.groupCount
  have hlt : ∀ i < gi.len, (gi.data i).toNat < d.toNat := fun i hi => hnum.lt hi
  have hgroup : ∀ g < d.toNat, ∃ i, i ∈ group gi g := by
    intro g hg
    rw [hcount] at hg
    obtain ⟨i, hi, -, heq⟩ := exists_number hg
    exact ⟨i, mem_group.mpr ⟨hi, (hnum.number i hi).trans heq⟩⟩
  obtain ⟨hkeysErrors, hkeysLen, hkeysList, hkey⟩ := groupKeys_spec hnum rfl memory d
  have hsums := groupFold_spec "GroupSum" 0 addTo sums hlen d
  have hmaxs := groupFold_spec "GroupMax" t.lowestValue max maxs hlen d
  have hmins := groupFold_spec "GroupMin" t.maxValue min mins hlen d
  exact {
    len := rfl
    index := fun i hi j hj => hnum.eq_iff hi hj
    order := by
      rw [hcount, ← map_number_first]
      exact List.map_congr_left fun i hi =>
        hnum.number i (List.mem_range.mp (List.mem_filter.mp hi).1)
    lt := fun i hi => UInt32.lt_iff_toNat_lt.mpr (hlt i hi)
    count := by rw [← UInt32.toNat_inj, hcount, countDistinct_toNat]
    errors := ⟨hkeysErrors, rfl, hsums.1, hmaxs.1, hmins.1⟩
    lens := ⟨hkeysLen.trans hcount.symm, hsums.2.1, hmaxs.2.1, hmins.2.1⟩
    unique := hkeysList.trans (unique_firsts memory' k).toList.symm
    key := hkey
    sum := fun g hg => groupSum_spec sums hlen hg
    max := fun g hg => groupMax_spec maxs hlen hg (hgroup g hg)
    min := fun g hg => groupMin_spec mins hlen hg (hgroup g hg)
    total := groupSum_total sums hlen hlt }

/-- Three keys, two of them equal. -/
theorem groupBy_spec_three :
    let k := ListStruct.ofList [(1 : IntegerType.int32.Value), 0, 1] (by decide)
    let v := ListStruct.ofList [(1 : IntegerType.uint8.Value), 1, 0] (by decide)
    let gi := (groupIndex (fun _ => 0) k).result
    let d := groupCount gi
    gi.toList = [0, 1, 0] ∧ d = 2 ∧
      GroupBy k v gi d (countDistinct k) (groupKeys (fun _ => 0) k gi d) (unique (fun _ => 0) k)
        (groupSum (fun _ => 0) v gi d) (groupMax (fun _ => 0) v gi d)
        (groupMin (fun _ => 0) v gi d) (sum v) :=
  ⟨by decide, by decide, groupBy_spec _ _ _ _ _ _ _ _ rfl⟩

end Kernels

end JitFusion
