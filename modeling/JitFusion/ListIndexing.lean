/-
# Indexing lists

`ListLookupIndex`, `Find`, `ListCompactPositions`, `ListCompactIndex` and `ListGather`
(`src/function/list_indexing.cc`).  `ListLookupIndex` is lowered to two calls: one builds a hash
table over its second list, the other looks the elements of the first one up in it.

The functions on integers compare the elements, those on strings the bytes the elements are made
of.  Here they are one definition with a parameter, the `key` of an element, which is the element
itself or its bytes.

* `listLookupIndex_eq_find`: looking up in the table is the same as searching from the front.
* `join_law`: the positions and the indices of the hits select the same values.
-/
import Mathlib.Order.Bounds.Basic
import JitFusion.FunctionRegistry
import JitFusion.Kernels
import JitFusion.Lib.Search
import JitFusion.LlvmIr

namespace JitFusion

namespace Kernels

open Fill (Buffer loop loop_inv rank rank_lt rank_succ Placed)
open Fill.Buffer (sweep)
open Search (first first_spec first_succ)

/-! ## 1. The kernels -/

/-- `std::numeric_limits<uint32_t>::max()`. -/
def kLookupMiss : UInt32 := 4294967295

section Lookup

variable {α κ : Type} [DecidableEq κ] (key : α → κ)

/-- `try_emplace` keeps an entry that is there. -/
def tryEmplace (table : κ → Option UInt32) (k : κ) (j : UInt32) : κ → Option UInt32 :=
  if (table k).isSome then table else Function.update table k (some j)

def buildLookupTable (b : ListStruct α) : κ → Option UInt32 :=
  loop (fun j seed => tryEmplace seed (key (b.data j)) (UInt32.ofNat j)) b.len fun _ => none

def lookupTable (memory : Nat → UInt32) (a : ListStruct α) (table : κ → Option UInt32) :
    Call UInt32 :=
  .done (sweep (fun i _ => (table (key (a.data i))).getD kLookupMiss) a.len (.alloc memory a.len))
    a.len a.len_lt

/-- What the lowering of `ListLookupIndex` calls. -/
def lookupIndex (memory : Nat → UInt32) (a b : ListStruct α) : Call UInt32 :=
  lookupTable key memory a (buildLookupTable key b)

/-- The loop stops at the first element with the key `value`. -/
def findKey (a : ListStruct α) (value : κ) : UInt32 :=
  let i := first (fun i => decide (key (a.data i) = value)) a.len
  if i < a.len then UInt32.ofNat i else kLookupMiss

end Lookup

/-- The locals `out` and `result` of the compactions. -/
structure Hits where
  out : UInt32
  result : Buffer UInt32

/-- An iteration of the second pass: `value i` is what is stored for a hit. -/
def compact.step (raw : ListStruct UInt32) (value : Nat → UInt32) (i : Nat) (s : Hits) : Hits :=
  if raw.data i ≠ kLookupMiss then ⟨s.out + 1, s.result.write s.out.toNat (value i)⟩ else s

/-- What the two compactions have in common. -/
def compact (value : Nat → UInt32) (memory : Nat → UInt32) (raw : ListStruct UInt32) :
    Call UInt32 :=
  let hits : UInt32 := loop (fun i hits => hits + if raw.data i ≠ kLookupMiss then 1 else 0)
    raw.len 0
  let s := loop (compact.step raw value) raw.len ⟨0, .alloc memory hits.toNat⟩
  .done s.result hits.toNat hits.toNat_lt

def listCompactPositions (memory : Nat → UInt32) (raw : ListStruct UInt32) : Call UInt32 :=
  compact UInt32.ofNat memory raw

def listCompactIndex (memory : Nat → UInt32) (raw : ListStruct UInt32) : Call UInt32 :=
  compact raw.data memory raw

def listGather {α : Type} (memory : Nat → α) (values : ListStruct α) (idx : ListStruct UInt32)
    (defaultValue : α) : Call α :=
  .done (sweep (fun k _ =>
    let j := (idx.data k).toNat
    if j < values.len then values.data j else defaultValue) idx.len (.alloc memory idx.len))
    idx.len idx.len_lt

section Instances

variable {t : IntegerType}

def buildLookupTableInt : ListStruct t.Value → t.Value → Option UInt32 := buildLookupTable id

def lookupTableInt : (Nat → UInt32) → ListStruct t.Value → (t.Value → Option UInt32) →
    Call UInt32 := lookupTable id

def listLookupIndexInt : (Nat → UInt32) → ListStruct t.Value → ListStruct t.Value → Call UInt32 :=
  lookupIndex id

def find : ListStruct t.Value → t.Value → UInt32 := findKey id

def buildLookupTableString : ListStruct StringStruct → List UInt8 → Option UInt32 :=
  buildLookupTable StringStruct.view

def lookupTableString : (Nat → UInt32) → ListStruct StringStruct → (List UInt8 → Option UInt32) →
    Call UInt32 := lookupTable StringStruct.view

def listLookupIndexString : (Nat → UInt32) → ListStruct StringStruct → ListStruct StringStruct →
    Call UInt32 := lookupIndex StringStruct.view

def findString (a : ListStruct StringStruct) (value : StringStruct) : UInt32 :=
  findKey StringStruct.view a value.view

end Instances

/-! ## 2. The lowering -/

def kBuildIntName : String := "__BuildLookupTableInt"
def kBuildStringName : String := "__BuildLookupTableString"
def kLookupIntName : String := "__LookupTableInt"
def kLookupStringName : String := "__LookupTableString"

def lookupBuildSign (listVt : ValueType) : FunctionSignature :=
  ⟨if listVt = .kStringList then kBuildStringName else kBuildIntName, [listVt, .kPtr], .kPtr⟩

def lookupProbeSign (listVt : ValueType) : FunctionSignature :=
  ⟨if listVt = .kStringList then kLookupStringName else kLookupIntName, [listVt, .kPtr, .kPtr],
    .kU32List⟩

/-- `CodegenListLookupIndex`: the calls get the execution context as their last argument. -/
def codegenListLookupIndex (sign : FunctionSignature) : IRExpr 2 :=
  let listVt := sign.paramTypes.headD .kUnknown
  let tablePtr := .op (.call (lookupBuildSign listVt).toString .ptr) [.input 1, .arg 1]
  .op (.call (lookupProbeSign listVt).toString (.struct .u32list_type)) [.input 0, tablePtr, .arg 1]

section Lowering

variable {α κ V W E : Type} [DecidableEq κ]

/-- A machine on which the symbols of the two helpers are the two functions, for lists of type
`listVt`. -/
structure LookupHelpers (sem : Ssa.Semantics Opcode Literal V W E) (key : α → κ)
    (memory : Nat → UInt32) (listVt : ValueType) where
  list : ListStruct α → V
  tablePtr : (κ → Option UInt32) → V
  u32List : ListStruct UInt32 → V
  build : ∀ b, sem.op (.call (lookupBuildSign listVt).toString .ptr) [list b, sem.arg 1] =
    pure (tablePtr (buildLookupTable key b))
  lookup : ∀ a table, sem.op (.call (lookupProbeSign listVt).toString (.struct .u32list_type))
    [list a, tablePtr table, sem.arg 1] = pure (u32List (lookupTable key memory a table).result)

/-- **The emitted calls** look the first list up in the table over the second. -/
theorem codegenListLookupIndex_eval {sem : Ssa.Semantics Opcode Literal V W E} {key : α → κ}
    {memory : Nat → UInt32} {sign : FunctionSignature} {listVt : ValueType}
    (hsign : sign.paramTypes.headD .kUnknown = listVt) (h : LookupHelpers sem key memory listVt)
    (a b : ListStruct α) :
    (codegenListLookupIndex sign).eval sem ![h.list a, h.list b] =
      pure (h.u32List (lookupIndex key memory a b).result) := by
  rw [codegenListLookupIndex, hsign]
  simp [Ssa.Expr.eval, Ssa.Expr.evalArgs, h.build, h.lookup, lookupIndex]

/-- The values of a machine with nothing but the two helpers. -/
inductive LookupValue (α κ : Type)
  | list (l : ListStruct α)
  | table (t : κ → Option UInt32)
  | u32List (l : ListStruct UInt32)
  | context

def lookupMachine (key : α → κ) (memory : Nat → UInt32) (listVt : ValueType) :
    Ssa.Semantics Opcode Literal (LookupValue α κ) Unit Unit where
  const _ := .context
  arg _ := .context
  truthy _ := false
  op
    | .call symbol _, [.list b, .context] =>
      if symbol = (lookupBuildSign listVt).toString then pure (.table (buildLookupTable key b))
      else throw ()
    | .call symbol _, [.list a, .table t, .context] =>
      if symbol = (lookupProbeSign listVt).toString then
        pure (.u32List (lookupTable key memory a t).result)
      else throw ()
    | _, _ => throw ()

/-- There is such a machine. -/
def lookupMachine_helpers (key : α → κ) (memory : Nat → UInt32) (listVt : ValueType) :
    LookupHelpers (lookupMachine key memory listVt) key memory listVt where
  list := .list
  tablePtr := .table
  u32List := .u32List
  build b := by simp [lookupMachine]
  lookup a table := by simp [lookupMachine]

end Lowering

/-! ## 3. Looking up is searching -/

section Agree

variable {α κ : Type} [DecidableEq κ] {key : α → κ} {memory : Nat → UInt32}

theorem ofNat_ne_kLookupMiss {i n : Nat} (hi : i < n) (hn : n < 2 ^ 32) :
    UInt32.ofNat i ≠ kLookupMiss := by
  intro h
  have htoNat := congrArg UInt32.toNat h
  rw [UInt32.toNat_ofNat_of_lt' (by simp [UInt32.size]; omega)] at htoNat
  rw [htoNat, show kLookupMiss.toNat = 2 ^ 32 - 1 from rfl] at hi
  omega

theorem tryEmplace_of_some {table : κ → Option UInt32} {k : κ} {i : UInt32} (j : UInt32)
    (h : table k = some i) : tryEmplace table k j = table := by
  simp [tryEmplace, h]

theorem tryEmplace_of_none {table : κ → Option UInt32} {k : κ} (j : UInt32) (h : table k = none) :
    tryEmplace table k j = Function.update table k (some j) := by
  simp [tryEmplace, h]

/-- The first of the first `n` elements with the key `k`, or `n`. -/
def firstWith (key : α → κ) (b : ListStruct α) (n : Nat) (k : κ) : Nat :=
  first (fun i => decide (key (b.data i) = k)) n

theorem firstWith_succ (b : ListStruct α) (n : Nat) (k : κ) : firstWith key b (n + 1) k =
    if firstWith key b n k < n then firstWith key b n k
    else if key (b.data n) = k then n else n + 1 := by
  refine first_succ.trans (if_congr Iff.rfl rfl ?_)
  exact if_congr decide_eq_true_iff rfl rfl

/-- **The table after `n` elements** holds the first index of each key. -/
theorem buildLookupTable_loop (b : ListStruct α) (n : Nat) (k : κ) :
    loop (fun j seed => tryEmplace seed (key (b.data j)) (UInt32.ofNat j)) n (fun _ => none) k =
      if firstWith key b n k < n then some (UInt32.ofNat (firstWith key b n k)) else none := by
  induction n generalizing k with
  | zero => rfl
  | succ n ih =>
    rw [Fill.loop_succ, firstWith_succ]
    by_cases hmet : firstWith key b n (key (b.data n)) < n
    · -- the key was met before, so its entry stays
      rw [tryEmplace_of_some _ (by rw [ih, if_pos hmet]), ih k]
      by_cases hk : firstWith key b n k < n
      · simp [hk, Nat.lt_succ_of_lt hk]
      · have hne : key (b.data n) ≠ k := by
          rintro rfl
          exact hk hmet
        simp [hk, hne]
    · rw [tryEmplace_of_none _ (by rw [ih, if_neg hmet])]
      by_cases hk : k = key (b.data n)
      · subst hk
        simp [hmet]
      · rw [Function.update_of_ne hk, ih k]
        by_cases hlt : firstWith key b n k < n
        · simp [hlt, Nat.lt_succ_of_lt hlt]
        · simp [hlt, Ne.symm hk]

/-- Both algorithms give the first index, or the sentinel. -/
theorem lookupIndex_data (a b : ListStruct α) {i : Nat} (hi : i < a.len) :
    (lookupIndex key memory a b).result.data i = findKey key b (key (a.data i)) := by
  have hslot := @Fill.Buffer.slot_sweep UInt32 (.alloc memory a.len)
    (fun i _ => (buildLookupTable key b (key (a.data i))).getD kLookupMiss)
    (fun i _ => (buildLookupTable key b (key (a.data i))).getD kLookupMiss) (fun _ _ => rfl) a.len i
  refine (hslot.trans (if_pos hi)).trans ?_
  rw [buildLookupTable, buildLookupTable_loop, findKey]
  change _ = if firstWith key b b.len _ < b.len then UInt32.ofNat (firstWith key b b.len _) else _
  split
  · rfl
  · rfl

/-- What `r` has to be when the first index below `n` that satisfies `P` is asked for. -/
def IsFirstIndex (n : Nat) (P : Nat → Prop) (r : UInt32) : Prop :=
  r = kLookupMiss ∧ (∀ j < n, ¬ P j) ∨ r ≠ kLookupMiss ∧ IsLeast {j | j < n ∧ P j} r.toNat

variable (key) in
theorem findKey_isFirstIndex (b : ListStruct α) (k : κ) :
    IsFirstIndex b.len (fun j => key (b.data j) = k) (findKey key b k) := by
  obtain ⟨hle, hbefore, hfirst⟩ := @first_spec (fun i => decide (key (b.data i) = k)) b.len
  rw [findKey]
  split
  · next hlt =>
    refine .inr ⟨ofNat_ne_kLookupMiss hlt b.len_lt, ?_⟩
    rw [UInt32.toNat_ofNat_of_lt' (hlt.trans b.len_lt)]
    refine ⟨⟨hlt, by simpa using hfirst hlt⟩, fun j hj => ?_⟩
    exact Search.first_le_of (by simpa using hj.2)
  · next hnot =>
    refine .inl ⟨rfl, fun j hj => ?_⟩
    simpa using hbefore j (by omega)

end Agree

/-- **Hash lookup is linear search.**  For integers and for strings, each entry is what `Find`
answers: the least index of an equal element, or the sentinel.  The calls emitted for
`ListLookupIndex` compute it, for every type of list. -/
theorem listLookupIndex_eq_find :
    (∀ (t : IntegerType) memory (a b : ListStruct t.Value),
      (listLookupIndexInt memory a b).result.len = a.len ∧ ∀ i < a.len,
        (listLookupIndexInt memory a b).result.data i = find b (a.data i) ∧
          IsFirstIndex b.len (fun j => b.data j = a.data i) (find b (a.data i))) ∧
    (∀ memory (a b : ListStruct StringStruct),
      (listLookupIndexString memory a b).result.len = a.len ∧ ∀ i < a.len,
        (listLookupIndexString memory a b).result.data i = findString b (a.data i) ∧
          IsFirstIndex b.len (fun j => (b.data j).view = (a.data i).view)
            (findString b (a.data i))) ∧
    ∀ (V W E : Type) (sem : Ssa.Semantics Opcode Literal V W E) memory listVt,
      let code := codegenListLookupIndex ⟨"ListLookupIndex", [listVt, listVt], .kU32List⟩
      (∀ (t : IntegerType) (h : LookupHelpers sem (id : t.Value → t.Value) memory listVt) a b,
        code.eval sem ![h.list a, h.list b] =
          pure (h.u32List (listLookupIndexInt memory a b).result)) ∧
      ∀ (h : LookupHelpers sem StringStruct.view memory listVt) a b,
        code.eval sem ![h.list a, h.list b] =
          pure (h.u32List (listLookupIndexString memory a b).result) := by
  refine ⟨fun t memory a b => ⟨rfl, fun i hi => ⟨lookupIndex_data a b hi, ?_⟩⟩,
    fun memory a b => ⟨rfl, fun i hi => ⟨lookupIndex_data a b hi, ?_⟩⟩,
    fun V W E sem memory listVt => ⟨fun t h a b => ?_, fun h a b => ?_⟩⟩
  · exact findKey_isFirstIndex id b (a.data i)
  · exact findKey_isFirstIndex StringStruct.view b (a.data i).view
  · rw [listLookupIndexInt]
    exact codegenListLookupIndex_eval (by rfl) h a b
  · rw [listLookupIndexString]
    exact codegenListLookupIndex_eval (by rfl) h a b

/-- On the machine of the helpers: 5 is at the index 1, and 9 is nowhere. -/
theorem listLookupIndex_eq_find_two :
    let a := ListStruct.ofList ([5, 9].map (IntegerType.wrap .int32)) (by decide)
    let b := ListStruct.ofList ([7, 5, 5].map (IntegerType.wrap .int32)) (by decide)
    (codegenListLookupIndex ⟨"ListLookupIndex", [.kI32List, .kI32List], .kU32List⟩).eval
        (lookupMachine id (fun _ => 0) .kI32List) ![.list a, .list b] =
      pure (.u32List (listLookupIndexInt (fun _ => 0) a b).result) ∧
    (listLookupIndexInt (fun _ => 0) a b).result.data 0 = 1 ∧
    (listLookupIndexInt (fun _ => 0) a b).result.data 1 = kLookupMiss := by
  intro a b
  have h := listLookupIndex_eq_find
  refine ⟨(h.2.2 _ _ _ _ _ _).1 .int32 (lookupMachine_helpers id _ _) a b, ?_, ?_⟩
  · rw [((h.1 .int32 (fun _ => 0) a b).2 0 (by decide)).1]
    decide
  · rw [((h.1 .int32 (fun _ => 0) a b).2 1 (by decide)).1]
    decide

/-! ## 4. Compacting -/

section Compact

variable {raw : ListStruct UInt32} {value : Nat → UInt32}

/-- Entry `i` is an index. -/
def hit (raw : ListStruct UInt32) (i : Nat) : Bool := decide (raw.data i ≠ kLookupMiss)

theorem rank_hit_lt (raw : ListStruct UInt32) : rank (hit raw) raw.len < 2 ^ 32 :=
  (Fill.rank_le raw.len).trans_lt raw.len_lt

variable (raw) in
theorem ofNat_rank_succ (n : Nat) : UInt32.ofNat (rank (hit raw) (n + 1)) =
    UInt32.ofNat (rank (hit raw) n) + if raw.data n ≠ kLookupMiss then 1 else 0 := by
  rw [rank_succ, UInt32.ofNat_add, hit]
  by_cases h : raw.data n = kLookupMiss
  · simp [h]
  · simp [h]

/-- The first pass. -/
theorem hits_eq (n : Nat) :
    loop (fun i hits => hits + if raw.data i ≠ kLookupMiss then 1 else 0) n 0 =
      UInt32.ofNat (rank (hit raw) n) := by
  refine loop_inv (P := fun n hits => hits = UInt32.ofNat (rank (hit raw) n)) rfl ?_
  rintro i hits - rfl
  exact (ofNat_rank_succ raw i).symm

/-- **The state after `n` entries**: the cursor is the rank of the next hit, and what is stored for
the hits so far is where it belongs. -/
structure Compacting (raw : ListStruct UInt32) (value : Nat → UInt32) (cap n : Nat) (s : Hits) :
    Prop where
  out : s.out = UInt32.ofNat (rank (hit raw) n)
  placed : Placed (hit raw) value n s.result.slot
  cap : s.result.cap = cap
  writes : ∀ w ∈ s.result.writes, w < rank (hit raw) n

theorem Compacting.step {cap n : Nat} {s : Hits} (hn : n < raw.len)
    (h : Compacting raw value cap n s) :
    Compacting raw value cap (n + 1) (compact.step raw value n s) := by
  rw [compact.step]
  have hout := ofNat_rank_succ raw n
  by_cases hmiss : raw.data n = kLookupMiss
  · have hk : hit raw n = false := by simp [hit, hmiss]
    rw [if_neg (not_not.mpr hmiss)]
    refine ⟨?_, h.placed.skip hk, h.cap, fun w hw => ?_⟩
    · rw [h.out, hout]
      simp [hmiss]
    · exact (h.writes w hw).trans_le (Fill.rank_mono (Nat.le_succ n))
  · have hk : hit raw n = true := by simp [hit, hmiss]
    have hlt : rank (hit raw) n < 2 ^ 32 :=
      (Fill.rank_mono hn.le).trans_lt (rank_hit_lt raw)
    have hslot : s.out.toNat = rank (hit raw) n := by
      rw [h.out, UInt32.toNat_ofNat_of_lt' hlt]
    rw [if_pos hmiss, hslot]
    refine ⟨?_, h.placed.place, h.cap, fun w hw => ?_⟩
    · rw [h.out, hout]
      simp [hmiss]
    · have hstep : rank (hit raw) n < rank (hit raw) (n + 1) := rank_lt (Nat.lt_succ_self n) hk
      obtain rfl | hw := List.mem_cons.mp hw
      · exact hstep
      · exact (h.writes w hw).trans hstep

/-- **Compacting keeps the hits**, in order, and stays in the buffer it allocated. -/
theorem compact_spec (value memory : Nat → UInt32) (raw : ListStruct UInt32) :
    (compact value memory raw).result.toList =
        ((List.range raw.len).filter (hit raw)).map value ∧
      (compact value memory raw).buffer.InBounds := by
  have hhits : (UInt32.ofNat (rank (hit raw) raw.len)).toNat = rank (hit raw) raw.len :=
    UInt32.toNat_ofNat_of_lt' (rank_hit_lt raw)
  have hs := loop_inv (n := raw.len) (f := compact.step raw value)
    (s := ⟨0, .alloc memory (rank (hit raw) raw.len)⟩)
    (P := Compacting raw value (rank (hit raw) raw.len)) ⟨rfl, .zero _, rfl, by simp⟩
    fun i s hi h => h.step hi
  simp only [compact, hits_eq, hhits, Call.done, ListStruct.toList]
  refine ⟨hs.placed.map_range, fun w hw => ?_⟩
  rw [hs.cap]
  exact hs.writes w hw

theorem listGather_toList {α : Type} (memory : Nat → α) (values : ListStruct α)
    (idx : ListStruct UInt32) (d : α) :
    (listGather memory values idx d).result.toList = idx.toList.map fun j =>
      if j.toNat < values.len then values.data j.toNat else d := by
  rw [ListStruct.toList, ListStruct.toList, List.map_map]
  refine List.map_congr_left fun k hk => ?_
  exact (Fill.Buffer.slot_sweep (g := fun k _ => if (idx.data k).toNat < values.len then
    values.data (idx.data k).toNat else d) (fun _ _ => rfl) idx.len k).trans
    (if_pos (List.mem_range.mp hk))

end Compact

/-! ## 5. The join -/

section Join

variable {α κ : Type} [DecidableEq κ] {key : α → κ}

/-- The elements of `a` that occur in `b`. -/
def common (key : α → κ) (a b : ListStruct α) : List α :=
  a.toList.filter fun x => decide (key x ∈ b.toList.map key)

/-- What `p` and `q` are for `a` and `b`: where the common elements are in each. -/
structure Joins (key : α → κ) (a b : ListStruct α) (p q : ListStruct UInt32) : Prop where
  lenPositions : p.len = (common key a b).length
  lenIndex : q.len = (common key a b).length
  increasing : ∀ i j, i < j → j < p.len → p.data i < p.data j
  positions : ∀ k < p.len, (p.data k).toNat < a.len
  index : ∀ k < q.len, (q.data k).toNat < b.len
  gatherLeft : ∀ memory d, (listGather memory a p d).result.toList = common key a b
  gatherRight : ∀ memory d,
    (listGather memory b q d).result.toList.map key = (common key a b).map key

variable (key) in
/-- An entry of the lookup is an index of an equal element, or there is none. -/
theorem hit_lookupIndex (memory : Nat → UInt32) (a b : ListStruct α) {i : Nat} (hi : i < a.len) :
    hit (lookupIndex key memory a b).result i = decide (key (a.data i) ∈ b.toList.map key) ∧
      (hit (lookupIndex key memory a b).result i = true →
        ((lookupIndex key memory a b).result.data i).toNat < b.len ∧
        key (b.data ((lookupIndex key memory a b).result.data i).toNat) = key (a.data i)) := by
  have hmem : key (a.data i) ∈ b.toList.map key ↔ ∃ j < b.len, key (b.data j) = key (a.data i) := by
    simp [ListStruct.toList]
  rw [hit, lookupIndex_data a b hi, decide_eq_decide, hmem, decide_eq_true_iff]
  obtain ⟨hmiss, hnone⟩ | ⟨hne, hleast⟩ := findKey_isFirstIndex key b (key (a.data i))
  · refine ⟨iff_of_false (not_not.mpr hmiss) ?_, fun h => absurd hmiss h⟩
    rintro ⟨j, hj, heq⟩
    exact hnone j hj heq
  · exact ⟨iff_of_true hne ⟨_, hleast.1⟩, fun _ => hleast.1⟩

variable (key) in
theorem common_eq (memory : Nat → UInt32) (a b : ListStruct α) : common key a b =
    ((List.range a.len).filter (hit (lookupIndex key memory a b).result)).map a.data := by
  rw [common, show a.toList = (List.range a.len).map a.data from rfl, List.filter_map]
  refine congrArg (List.map a.data) (List.filter_congr fun i hi => ?_)
  exact (hit_lookupIndex key memory a b (List.mem_range.mp hi)).1.symm

theorem forall_toList {β : Type} {l : ListStruct β} {P : β → Prop} (h : ∀ x ∈ l.toList, P x) :
    ∀ k < l.len, P (l.data k) := by
  intro k hk
  exact h _ (List.mem_map.mpr ⟨k, List.mem_range.mpr hk, rfl⟩)

/-- The join, on keys. -/
theorem joins (m₁ m₂ m₃ : Nat → UInt32) (a b : ListStruct α) :
    Joins key a b (listCompactPositions m₂ (lookupIndex key m₁ a b).result).result
      (listCompactIndex m₃ (lookupIndex key m₁ a b).result).result := by
  have hhit := fun i (hi : i < a.len) => hit_lookupIndex key m₁ a b hi
  have hcommon := common_eq key m₁ a b
  have hp := (compact_spec UInt32.ofNat m₂ (lookupIndex key m₁ a b).result).1
  have hq := (compact_spec (lookupIndex key m₁ a b).result.data m₃
    (lookupIndex key m₁ a b).result).1
  have hlen : (lookupIndex key m₁ a b).result.len = a.len := rfl
  rw [listCompactPositions, listCompactIndex]
  rw [hlen] at hp hq
  generalize (lookupIndex key m₁ a b).result = r at *
  generalize (compact UInt32.ofNat m₂ r).result = p at *
  generalize (compact r.data m₃ r).result = q at *
  have hof : ∀ i ∈ (List.range a.len).filter (hit r), (UInt32.ofNat i).toNat = i ∧ i < a.len := by
    intro i hi
    have hlt : i < a.len := List.mem_range.mp (List.mem_filter.mp hi).1
    exact ⟨UInt32.toNat_ofNat_of_lt' (hlt.trans a.len_lt), hlt⟩
  refine ⟨?_, ?_, ?_, ?_, ?_, fun memory d => ?_, fun memory d => ?_⟩
  · rw [← p.length_toList, hp, hcommon, List.length_map, List.length_map]
  · rw [← q.length_toList, hq, hcommon, List.length_map, List.length_map]
  · -- the positions are those of a range
    have hsorted : (p.toList).Pairwise (· < ·) := by
      rw [hp, List.pairwise_map]
      refine (List.pairwise_lt_range.filter _).imp_of_mem fun hi hj hij => ?_
      rw [UInt32.lt_iff_toNat_lt, (hof _ hi).1, (hof _ hj).1]
      exact hij
    intro i j hij hj
    have h := List.pairwise_iff_getElem.mp hsorted i j (by simpa using hij.trans hj)
      (by simpa using hj) hij
    rwa [ListStruct.getElem_toList, ListStruct.getElem_toList] at h
  · refine forall_toList (P := fun x : UInt32 => x.toNat < a.len) ?_
    rw [hp]
    intro x hx
    obtain ⟨i, hi, rfl⟩ := List.mem_map.mp hx
    rw [(hof i hi).1]
    exact (hof i hi).2
  · refine forall_toList (P := fun x : UInt32 => x.toNat < b.len) ?_
    rw [hq]
    intro x hx
    obtain ⟨i, hi, rfl⟩ := List.mem_map.mp hx
    exact ((hhit i (hof i hi).2).2 (List.mem_filter.mp hi).2).1
  · rw [listGather_toList, hp, hcommon, List.map_map]
    refine List.map_congr_left fun i hi => ?_
    simp [(hof i hi).1, (hof i hi).2]
  · rw [listGather_toList, hq, hcommon, List.map_map, List.map_map, List.map_map]
    refine List.map_congr_left fun i hi => ?_
    obtain ⟨hlt, hkey⟩ := (hhit i (hof i hi).2).2 (List.mem_filter.mp hi).2
    simp [hlt, hkey]

end Join

/-- **The join law**, for integers and for strings. -/
theorem join_law :
    (∀ (t : IntegerType) m₁ m₂ m₃ (a b : ListStruct t.Value),
      let r := (listLookupIndexInt m₁ a b).result
      Joins id a b (listCompactPositions m₂ r).result (listCompactIndex m₃ r).result) ∧
    ∀ m₁ m₂ m₃ (a b : ListStruct StringStruct),
      let r := (listLookupIndexString m₁ a b).result
      Joins StringStruct.view a b (listCompactPositions m₂ r).result
        (listCompactIndex m₃ r).result :=
  ⟨fun _ m₁ m₂ m₃ a b => joins m₁ m₂ m₃ a b, fun m₁ m₂ m₃ a b => joins m₁ m₂ m₃ a b⟩

end Kernels

end JitFusion
