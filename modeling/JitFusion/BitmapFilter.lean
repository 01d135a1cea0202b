/-
# Selecting by a bitmap

`FilterByBitmap` (`src/function/list_comparison.cc`) moves the elements whose bits are set to the
front of a buffer.  It stores every element it looks at where the next kept one belongs, so it
writes one slot ahead; it skips a byte without bits and copies a byte full of them at once.  The
form with two arguments takes the count from `CountBits` (`src/function/list_aggregation.cc`).

The invariant of the loop is that the cursor is the rank of the position, the number of bits
before it, and that the kept elements are where they belong (`Compacted`).
-/
import JitFusion.Bitmap

namespace JitFusion

namespace Kernels

open Fill (Buffer loop loop_succ loop_inv loop_congr rank rank_add rank_succ rank_zero rank_mono
  rank_lt rank_le rank_congr Placed place)

/-! ## 1. Counting bits -/

/-- `__builtin_popcountll` and `__builtin_popcount`, of a value of `width` bits. -/
def popcount (width value : Nat) : Nat := (List.range width).countP value.testBit

/-- `memcpy(&val, data + i, 8)`: the first byte is the lowest. -/
def loadWord (data : Nat → UInt8) (i : Nat) : Nat :=
  loop (fun k val => val ||| (data (i + k)).toNat <<< (8 * k)) 8 0

def countBits (a : ListStruct UInt8) : Nat :=
  let batchEnd := a.len / 8 * 8
  let cnt := loop (fun k cnt =>
    let i := 8 * k
    u32 (cnt + popcount 64 (loadWord a.data i))) (batchEnd / 8) 0
  loop (fun j cnt => u32 (cnt + popcount 32 (a.data (batchEnd + j)).toNat)) (a.len - batchEnd) cnt

/-- The bit of position `p`. -/
def bitAt (data : Nat → UInt8) (p : Nat) : Bool := (data (p / 8)).toNat.testBit (p % 8)

theorem testBit_byte_ge (b : UInt8) {i : Nat} (hi : 8 ≤ i) : b.toNat.testBit i = false :=
  Nat.testBit_lt_two_pow (lt_of_lt_of_le b.toNat_lt (Nat.pow_le_pow_right (by decide) hi))

theorem testBit_loadWord (data : Nat → UInt8) (i p : Nat) (hp : p < 64) :
    (loadWord data i).testBit p = bitAt data (8 * i + p) := by
  have h := loop_inv (n := 8) (s := 0)
    (f := fun k val => val ||| (data (i + k)).toNat <<< (8 * k))
    (P := fun k val => val.testBit p = (decide (p < 8 * k) && bitAt data (8 * i + p)))
    (by simp) fun k val _ hval => ?_
  · rw [loadWord, h, decide_eq_true (by omega), Bool.true_and]
  · rw [Nat.testBit_or, Nat.testBit_shiftLeft, hval]
    have hdiv : (8 * i + p) / 8 = i + p / 8 := by omega
    have hmod : (8 * i + p) % 8 = p % 8 := by omega
    rw [bitAt, hdiv, hmod]
    by_cases hlt : p < 8 * k
    · have hge : ¬ p ≥ 8 * k := by omega
      simp [hlt, hge, show p < 8 * (k + 1) by omega]
    · have hge : p ≥ 8 * k := by omega
      by_cases hnext : p < 8 * (k + 1)
      · have hk : p / 8 = k := by omega
        have hbit : p - 8 * k = p % 8 := by omega
        simp [hlt, hge, hnext, hk, hbit]
      · simp [hlt, hge, hnext, testBit_byte_ge _ (show 8 ≤ p - 8 * k by omega)]

theorem popcount_loadWord (data : Nat → UInt8) (k : Nat) :
    popcount 64 (loadWord data (8 * k)) = rank (fun p => bitAt data (64 * k + p)) 64 := by
  change rank (loadWord data (8 * k)).testBit 64 = _
  refine rank_congr fun p hp => ?_
  rw [testBit_loadWord data (8 * k) p hp]
  congr 1
  omega

theorem popcount_byte (data : Nat → UInt8) (k : Nat) :
    popcount 32 (data k).toNat = rank (fun p => bitAt data (8 * k + p)) 8 := by
  have hsplit : popcount 32 (data k).toNat =
      rank (data k).toNat.testBit 8 + rank (fun p => (data k).toNat.testBit (8 + p)) 24 :=
    rank_add 8 24
  rw [hsplit, Fill.rank_of_none fun p _ => testBit_byte_ge (data k) (Nat.le_add_right 8 p),
    Nat.add_zero]
  refine rank_congr fun p hp => ?_
  have hdiv : (8 * k + p) / 8 = k := by omega
  have hmod : (8 * k + p) % 8 = p := by omega
  rw [bitAt, hdiv, hmod]

theorem u32_add_left (m n : Nat) : u32 (u32 m + n) = u32 (m + n) := Nat.mod_add_mod m _ n

/-- **The bits of all bytes** are counted, modulo 2 ^ 32. -/
theorem countBits_eq (a : ListStruct UInt8) :
    countBits a = u32 (rank (bitAt a.data) (8 * a.len)) := by
  have hrest : a.len - a.len / 8 * 8 = a.len % 8 := by omega
  have hwords :
      loop (fun k cnt => u32 (cnt + popcount 64 (loadWord a.data (8 * k)))) (a.len / 8) 0 =
      u32 (rank (bitAt a.data) (64 * (a.len / 8))) := by
    refine loop_inv (P := fun k cnt => cnt = u32 (rank (bitAt a.data) (64 * k))) rfl ?_
    rintro k cnt - rfl
    rw [u32_add_left, popcount_loadWord, Nat.mul_succ, rank_add]
  rw [countBits]
  simp only [mul_div_eight, hrest, hwords]
  have h := loop_inv (n := a.len % 8) (s := u32 (rank (bitAt a.data) (64 * (a.len / 8))))
    (f := fun j cnt => u32 (cnt + popcount 32 (a.data (a.len / 8 * 8 + j)).toNat))
    (P := fun j cnt => cnt = u32 (rank (bitAt a.data) (8 * (a.len / 8 * 8 + j)))) ?_ ?_
  · rw [h]
    congr 2
    omega
  · congr 2
    omega
  · rintro j cnt - rfl
    rw [u32_add_left, popcount_byte, ← rank_add, ← Nat.mul_succ]
    rfl

/-! ## 2. `FilterByBitmap` -/

section Filter

variable {α : Type}

/-- The result buffer and `cur`. -/
structure Compaction (α : Type) where
  result : Buffer α
  cur : Nat

/-- `result.data[cur] = base[k]; cur += b;`. -/
def keepBit (mask : UInt8) (base : Nat → α) (k : Nat) (s : Compaction α) : Compaction α :=
  let b := bitOf mask k
  ⟨s.result.write s.cur (base k), s.cur + b⟩

/-- The body of the loop over the whole bytes. -/
def filterByte (a : ListStruct α) (bitmap : ListStruct UInt8) (i : Nat) (s : Compaction α) :
    Compaction α :=
  let mask := bitmap.data i
  if mask = 0 then s
  else if mask = 0xFF then
    ⟨loop (fun k result => result.write (s.cur + k) (a.data (i * 8 + k))) 8 s.result, s.cur + 8⟩
  else loop (keepBit mask fun k => a.data (i * 8 + k)) 8 s

/-- `room` is the number of elements there is memory for behind the pointer from the arena. -/
def filterByBitmap (room : Nat) (memory : Nat → α) (a : ListStruct α) (bitmap : ListStruct UInt8)
    (bitsCnt : Nat) (hcnt : bitsCnt < 2 ^ 32) : Call α :=
  if u32 (a.len + 7) / 8 ≠ bitmap.len then
    .fail memory "FilterByBitmap: bitmap len is not corresponding to list len"
  else
    let fullBytes := a.len / 8
    let s := loop (filterByte a bitmap) fullBytes
      ⟨.request room memory (u32 (bitsCnt + 1)), 0⟩
    if fullBytes < bitmap.len then
      let mask := bitmap.data fullBytes
      let baseIdx := fullBytes * 8
      let valid := a.len - baseIdx
      if mask.toNat >>> valid ≠ 0 then
        ⟨.null memory, s.result, ["FilterByBitmap: bitmap len is too long"]⟩
      else finish (loop (keepBit mask fun k => a.data (baseIdx + k)) valid s)
    else finish s
where
  finish (s : Compaction α) : Call α :=
    if s.cur ≠ bitsCnt then
      ⟨.null memory, s.result, ["FilterByBitmap: bitmap len is not corresponding to bits_cnt"]⟩
    else .done s.result bitsCnt hcnt

theorem countBits_lt (a : ListStruct UInt8) : countBits a < 2 ^ 32 := by
  rw [countBits_eq]
  exact u32_lt _

/-- `EmitFilterByBitmapSugar`: the form with two arguments, whose request is bounded by the length
of the list and taken to be met. -/
def filterByBitmapSugar (memory : Nat → α) (a : ListStruct α) (bitmap : ListStruct UInt8) :
    Call α :=
  filterByBitmap (2 ^ 32) memory a bitmap (countBits bitmap) (countBits_lt bitmap)

/-! ## 3. The invariant of the loops -/

variable {a : ListStruct α} {bitmap : ListStruct UInt8} {s : Compaction α} {cap n : Nat}

/-- The loop stops at position `p`: it is in the incomplete byte, or in one that has a bit. -/
def Visited (a : ListStruct α) (bitmap : ListStruct UInt8) (p : Nat) : Prop :=
  p / 8 = a.len / 8 ∨ bitmap.data (p / 8) ≠ 0

/-- **The state after `n` positions**: the cursor is the rank of the next one, and what was written
is the ranks of the positions visited. -/
structure Compacted (a : ListStruct α) (bitmap : ListStruct UInt8) (cap n : Nat)
    (s : Compaction α) : Prop where
  cur : s.cur = rank (bitAt bitmap.data) n
  placed : Placed (bitAt bitmap.data) a.data n s.result.slot
  cap : s.result.cap = cap
  writes : ∀ w, w ∈ s.result.writes ↔
    ∃ p < n, Visited a bitmap p ∧ w = rank (bitAt bitmap.data) p

theorem Compacted.start (memory : Nat → α) : Compacted a bitmap cap 0 ⟨.alloc memory cap, 0⟩ where
  cur := rfl
  placed := .zero memory
  cap := rfl
  writes w := by simp

/-- One position. -/
theorem Compacted.keepBit (h : Compacted a bitmap cap n s) (hv : Visited a bitmap n) {mask : UInt8}
    {base : Nat → α} {k : Nat} (hbit : bitOf mask k = (bitAt bitmap.data n).toNat)
    (hbase : base k = a.data n) : Compacted a bitmap cap (n + 1) (keepBit mask base k s) := by
  have hstep : Kernels.keepBit mask base k s =
      ⟨place (bitAt bitmap.data) a.data n s.result, s.cur + (bitAt bitmap.data n).toNat⟩ := by
    rw [Kernels.keepBit, place, ← h.cur, hbit, hbase]
  rw [hstep]
  refine ⟨by rw [h.cur, rank_succ], h.placed.place, h.cap, fun w => ?_⟩
  rw [place, Fill.Buffer.writes_write, List.mem_cons, h.writes]
  constructor
  · rintro (rfl | ⟨p, hp, hvp, rfl⟩)
    · exact ⟨n, Nat.lt_succ_self n, hv, rfl⟩
    · exact ⟨p, Nat.lt_succ_of_lt hp, hvp, rfl⟩
  · rintro ⟨p, hp, hvp, rfl⟩
    rcases Nat.lt_succ_iff_lt_or_eq.mp hp with hlt | rfl
    · exact .inr ⟨p, hlt, hvp, rfl⟩
    · exact .inl rfl

/-- The first `m` bits of byte `i`. -/
theorem Compacted.keepBits {i m : Nat} (h : Compacted a bitmap cap (8 * i) s) (hm : m ≤ 8)
    (hv : i = a.len / 8 ∨ bitmap.data i ≠ 0) :
    Compacted a bitmap cap (8 * i + m)
      (loop (Kernels.keepBit (bitmap.data i) fun k => a.data (i * 8 + k)) m s) := by
  refine loop_inv (P := fun k s => Compacted a bitmap cap (8 * i + k) s) h fun k s hk hs => ?_
  have hdiv : (8 * i + k) / 8 = i := by omega
  have hmod : (8 * i + k) % 8 = k := by omega
  refine hs.keepBit ?_ ?_ (congrArg a.data (by omega))
  · rw [Visited, hdiv]
    exact hv
  · rw [bitOf_eq, bitAt, hdiv, hmod]

theorem bitOf_full {k : Nat} (hk : k < 8) : bitOf 0xFF k = 1 := by
  revert k
  decide

/-- Copying a byte full of bits is keeping each of them. -/
theorem copy_eq (base : Nat → α) {m : Nat} (hm : m ≤ 8) :
    loop (Kernels.keepBit 0xFF base) m s =
      ⟨loop (fun k result => result.write (s.cur + k) (base k)) m s.result, s.cur + m⟩ := by
  induction m with
  | zero => rfl
  | succ m ih => rw [loop_succ, ih (by omega), Kernels.keepBit, bitOf_full (by omega), loop_succ,
      Nat.add_assoc]

theorem filterByte_eq (i : Nat) :
    filterByte a bitmap i s = if bitmap.data i = 0 then s
      else loop (Kernels.keepBit (bitmap.data i) fun k => a.data (i * 8 + k)) 8 s := by
  rw [filterByte]
  split
  · rfl
  · split
    · next hfull => rw [hfull, copy_eq _ le_rfl]
    · rfl

/-- A whole byte. -/
theorem Compacted.byte {i : Nat} (h : Compacted a bitmap cap (8 * i) s) (hi : i < a.len / 8) :
    Compacted a bitmap cap (8 * (i + 1)) (filterByte a bitmap i s) := by
  rw [filterByte_eq]
  split
  · next hzero =>
    -- no bit is set, and no position of the byte is visited
    have hnone : ∀ k < 8, bitAt bitmap.data (8 * i + k) = false := by
      intro k hk
      have hdiv : (8 * i + k) / 8 = i := by omega
      rw [bitAt, hdiv, hzero]
      exact Nat.zero_testBit _
    refine ⟨?_, ?_, h.cap, fun w => ?_⟩
    · rw [h.cur, Nat.mul_succ, rank_add, Fill.rank_of_none hnone, Nat.add_zero]
    · intro p hp hkp
      by_cases hlt : p < 8 * i
      · exact h.placed p hlt hkp
      · have hp' := hnone (p - 8 * i) (by omega)
        rw [show 8 * i + (p - 8 * i) = p by omega, hkp] at hp'
        cases hp'
    · rw [h.writes]
      constructor
      · rintro ⟨p, hp, hv, rfl⟩
        exact ⟨p, by omega, hv, rfl⟩
      · rintro ⟨p, hp, hv, rfl⟩
        refine ⟨p, ?_, hv, rfl⟩
        by_contra hge
        have hdiv : p / 8 = i := by omega
        rw [Visited, hdiv] at hv
        rcases hv with hv | hv
        · omega
        · exact hv hzero
  · next hne => exact h.keepBits le_rfl (.inr hne)

theorem Compacted.bytes (memory : Nat → α) :
    Compacted a bitmap cap (8 * (a.len / 8))
      (loop (filterByte a bitmap) (a.len / 8) ⟨.alloc memory cap, 0⟩) :=
  loop_inv (P := fun i s => Compacted a bitmap cap (8 * i) s) (.start memory)
    fun _ _ hi hs => hs.byte hi

/-! ## 4. The end of the bitmap -/

/-- A bit is set behind the last element. -/
def Stray (a : ListStruct α) (bitmap : ListStruct UInt8) : Prop :=
  ∃ p, a.len ≤ p ∧ p < 8 * bitmap.len ∧ bitAt bitmap.data p = true

/-- Without an incomplete byte there is no such bit. -/
theorem not_stray_of_whole (hlen : bitmap.len = (a.len + 7) / 8)
    (hwhole : ¬ a.len / 8 < bitmap.len) : ¬ Stray a bitmap := by
  rintro ⟨p, hp, hlt, -⟩
  omega

/-- The check of the incomplete byte. -/
theorem shiftRight_eq_zero_iff (hlen : bitmap.len = (a.len + 7) / 8)
    (htail : a.len / 8 < bitmap.len) :
    (bitmap.data (a.len / 8)).toNat >>> (a.len - a.len / 8 * 8) = 0 ↔ ¬ Stray a bitmap := by
  have hbit : ∀ j, a.len % 8 + j < 8 →
      ((bitmap.data (a.len / 8)).toNat >>> (a.len - a.len / 8 * 8)).testBit j =
        bitAt bitmap.data (a.len + j) := by
    intro j hj
    have hdiv : (a.len + j) / 8 = a.len / 8 := by omega
    have hmod : (a.len + j) % 8 = a.len - a.len / 8 * 8 + j := by omega
    rw [Nat.testBit_shiftRight, bitAt, hdiv, hmod]
  constructor
  · rintro hzero ⟨p, hp, hlt, hset⟩
    have h := hbit (p - a.len) (by omega)
    rw [hzero, Nat.zero_testBit, Nat.add_sub_cancel' hp, hset] at h
    cases h
  · intro hstray
    refine Nat.eq_of_testBit_eq fun j => ?_
    rw [Nat.zero_testBit]
    by_cases hj : a.len % 8 + j < 8
    · rw [hbit j hj]
      by_contra hset
      exact hstray ⟨a.len + j, by omega, by omega, by simpa using hset⟩
    · rw [Nat.testBit_shiftRight]
      exact testBit_byte_ge _ (by omega)

/-- **What a call does** with a bitmap of the right length: it stops at the last byte, or has
visited every position. -/
theorem filterByBitmap_cases (room : Nat) (memory : Nat → α) (bitsCnt : Nat)
    (hcnt : bitsCnt < 2 ^ 32) (hn : a.len ≤ 2 ^ 32 - 8) (hlen : bitmap.len = (a.len + 7) / 8) :
    (Stray a bitmap ∧
      ∃ s, Compacted a bitmap (min (u32 (bitsCnt + 1)) room) (8 * (a.len / 8)) s ∧
        filterByBitmap room memory a bitmap bitsCnt hcnt =
          ⟨.null memory, s.result, ["FilterByBitmap: bitmap len is too long"]⟩) ∨
    (¬ Stray a bitmap ∧ ∃ s, Compacted a bitmap (min (u32 (bitsCnt + 1)) room) a.len s ∧
      filterByBitmap room memory a bitmap bitsCnt hcnt =
        filterByBitmap.finish memory bitsCnt hcnt s) := by
  have hbytes := @Compacted.bytes _ a bitmap (min (u32 (bitsCnt + 1)) room) memory
  have hcheck : ¬ u32 (a.len + 7) / 8 ≠ bitmap.len := by
    rw [u32_of_lt (by omega), hlen]
    exact fun h => h rfl
  rw [filterByBitmap, if_neg hcheck, Fill.Buffer.request]
  by_cases htail : a.len / 8 < bitmap.len
  · have hiff := shiftRight_eq_zero_iff hlen htail
    simp only [if_pos htail]
    by_cases hzero : (bitmap.data (a.len / 8)).toNat >>> (a.len - a.len / 8 * 8) = 0
    · refine .inr ⟨hiff.mp hzero, _, ?_, if_neg (not_not.mpr hzero)⟩
      have hrest : a.len - a.len / 8 * 8 = a.len % 8 := by omega
      have h := hbytes.keepBits (m := a.len % 8) (by omega) (.inl rfl)
      rw [Nat.div_add_mod] at h
      rw [hrest]
      exact h
    · refine .inl ⟨not_not.mp fun h => hzero (hiff.mpr h), _, hbytes, if_pos hzero⟩
  · simp only [if_neg htail]
    refine .inr ⟨not_stray_of_whole hlen htail, _, ?_, rfl⟩
    have hwhole : 8 * (a.len / 8) = a.len := by omega
    rw [hwhole] at hbytes
    exact hbytes

/-- The elements whose bit is set, in order. -/
def selected (a : ListStruct α) (bitmap : ListStruct UInt8) : List α :=
  ((List.range a.len).filter (bitAt bitmap.data)).map a.data

theorem length_selected : (selected a bitmap).length = rank (bitAt bitmap.data) a.len := by
  rw [selected, List.length_map, rank, List.countP_eq_length_filter]

/-- The end of a call that has visited every position. -/
theorem Compacted.finish (h : Compacted a bitmap cap a.len s) (memory : Nat → α) {bitsCnt : Nat}
    (hcnt : bitsCnt < 2 ^ 32) :
    (filterByBitmap.finish memory bitsCnt hcnt s).buffer = s.result ∧
      ((filterByBitmap.finish memory bitsCnt hcnt s).errors = [] ↔
        bitsCnt = (selected a bitmap).length) ∧
      (bitsCnt = (selected a bitmap).length →
        (filterByBitmap.finish memory bitsCnt hcnt s).result.toList = selected a bitmap) := by
  rw [length_selected, ← h.cur, filterByBitmap.finish]
  split
  · next hne => exact ⟨rfl, iff_of_false (by simp) (Ne.symm hne), fun heq => absurd heq.symm hne⟩
  · next heq =>
    obtain rfl := not_not.mp heq
    refine ⟨rfl, iff_of_true rfl rfl, fun _ => ?_⟩
    have hmap := h.placed.map_range
    rw [← h.cur] at hmap
    exact hmap

/-! ## 5. Two arguments -/

/-- What is wrong with a bitmap for a list. -/
def Unfit (a : ListStruct α) (bitmap : ListStruct UInt8) : Prop :=
  bitmap.len ≠ (a.len + 7) / 8 ∨ Stray a bitmap

/-- The call selects exactly, and writes inside the elements it allocated. -/
structure SelectsExactly (a : ListStruct α) (bitmap : ListStruct UInt8) (c : Call α) : Prop where
  rejects : c.errors ≠ [] ∧ c.result.len = 0 ↔ Unfit a bitmap
  errors : ¬ Unfit a bitmap → c.errors = []
  elements : ¬ Unfit a bitmap → c.result.toList = selected a bitmap
  length : ¬ Unfit a bitmap → c.result.len = countBits bitmap
  inside : ∀ k ∈ c.buffer.writes, k < countBits bitmap + 1 ∧ k < c.buffer.cap

theorem filterByBitmap_short (room : Nat) (memory : Nat → α) (bitsCnt : Nat)
    (hcnt : bitsCnt < 2 ^ 32) (h : u32 (a.len + 7) / 8 ≠ bitmap.len) :
    filterByBitmap room memory a bitmap bitsCnt hcnt =
      .fail memory "FilterByBitmap: bitmap len is not corresponding to list len" := by
  rw [filterByBitmap, if_pos h]

/-- Behind the last element there is nothing to count. -/
theorem rank_all (hlen : bitmap.len = (a.len + 7) / 8) (hstray : ¬ Stray a bitmap) :
    rank (bitAt bitmap.data) (8 * bitmap.len) = rank (bitAt bitmap.data) a.len := by
  obtain ⟨d, hd⟩ := Nat.exists_eq_add_of_le (show a.len ≤ 8 * bitmap.len by omega)
  have hnone : ∀ i < d, bitAt bitmap.data (a.len + i) = false := by
    intro i hi
    by_contra hset
    exact hstray ⟨a.len + i, by omega, by omega, by simpa using hset⟩
  rw [hd, rank_add, Fill.rank_of_none hnone, Nat.add_zero]

/-- **`FilterByBitmap` of two arguments is exact selection.** -/
theorem filterByBitmapSugar_exact (memory : Nat → α) (a : ListStruct α) (bitmap : ListStruct UInt8)
    (hn : a.len ≤ 2 ^ 32 - 8) :
    SelectsExactly a bitmap (filterByBitmapSugar memory a bitmap) := by
  by_cases hlen : bitmap.len = (a.len + 7) / 8
  · -- all bits fit in 32 bits, so the count is exact and there is room for one more
    have hall : rank (bitAt bitmap.data) (8 * bitmap.len) ≤ 2 ^ 32 - 8 :=
      (rank_le _).trans (by omega)
    have hcount : countBits bitmap = rank (bitAt bitmap.data) (8 * bitmap.len) := by
      rw [countBits_eq, u32_of_lt (by omega)]
    have hinside : ∀ {n : Nat} {s : Compaction α}, n ≤ 8 * bitmap.len →
        Compacted a bitmap (min (u32 (countBits bitmap + 1)) (2 ^ 32)) n s →
        ∀ k ∈ s.result.writes, k < countBits bitmap + 1 ∧ k < s.result.cap := by
      intro n s hle h k hk
      obtain ⟨p, hp, -, rfl⟩ := (h.writes k).mp hk
      have hrank : rank (bitAt bitmap.data) p ≤ rank (bitAt bitmap.data) (8 * bitmap.len) :=
        rank_mono (hp.le.trans hle)
      rw [h.cap, u32_of_lt (by omega)]
      omega
    rcases filterByBitmap_cases (2 ^ 32) memory (countBits bitmap) (countBits_lt bitmap) hn hlen
      with ⟨hstray, s, hs, hcall⟩ | ⟨hstray, s, hs, hcall⟩
    · rw [filterByBitmapSugar, hcall]
      have hunfit : Unfit a bitmap := .inr hstray
      exact ⟨iff_of_true ⟨by simp, rfl⟩ hunfit, (absurd hunfit ·), (absurd hunfit ·),
        (absurd hunfit ·), hinside (by omega) hs⟩
    · obtain ⟨hbuffer, herrors, helements⟩ := hs.finish memory (countBits_lt bitmap)
      have heq : countBits bitmap = (selected a bitmap).length := by
        rw [hcount, rank_all hlen hstray, length_selected]
      have hfit : ¬ Unfit a bitmap := fun h => h.elim (absurd hlen) hstray
      rw [filterByBitmapSugar, hcall]
      refine ⟨iff_of_false (fun h => h.1 (herrors.mpr heq)) hfit, fun _ => herrors.mpr heq,
        fun _ => helements heq, fun _ => ?_, ?_⟩
      · rw [← ListStruct.length_toList, helements heq, heq]
      · rw [hbuffer]
        exact hinside (by omega) hs
  · have hunfit : Unfit a bitmap := .inl hlen
    have hcheck : u32 (a.len + 7) / 8 ≠ bitmap.len := by
      rw [u32_of_lt (by omega)]
      exact Ne.symm hlen
    rw [filterByBitmapSugar, filterByBitmap_short _ memory _ _ hcheck]
    refine ⟨iff_of_true ⟨by simp [Call.fail], rfl⟩ hunfit, (absurd hunfit ·), (absurd hunfit ·),
      (absurd hunfit ·), fun k hk => ?_⟩
    simp [Call.fail] at hk

/-- Ten elements of which three are kept. -/
theorem filterByBitmapSugar_exact_ten :
    let a := ListStruct.ofList (α := IntegerType.int32.Value) (List.replicate 10 1) (by decide)
    let bitmap := ListStruct.ofList [0x11, 0x02] (by decide)
    SelectsExactly a bitmap (filterByBitmapSugar (fun _ => 0) a bitmap) := by
  intro a bitmap
  exact filterByBitmapSugar_exact (fun _ => 0) a bitmap (by decide)

/-! ## 6. Three arguments -/

/-- Element `p` is stored: the position is visited, and not behind a check that failed. -/
def Stored (a : ListStruct α) (bitmap : ListStruct UInt8) (p : Nat) : Prop :=
  a.len ≤ 2 ^ 32 - 8 ∧ p < a.len ∧ Visited a bitmap p ∧ (Stray a bitmap → p < 8 * (a.len / 8))

theorem mem_writes_filterByBitmap (room : Nat) (memory : Nat → α) (bitsCnt : Nat)
    (hcnt : bitsCnt < 2 ^ 32) (hlen : bitmap.len = (a.len + 7) / 8) (w : Nat) :
    w ∈ (filterByBitmap room memory a bitmap bitsCnt hcnt).buffer.writes ↔
      ∃ p, Stored a bitmap p ∧ w = rank (bitAt bitmap.data) p := by
  by_cases hn : a.len ≤ 2 ^ 32 - 8
  · rcases filterByBitmap_cases room memory bitsCnt hcnt hn hlen with
      ⟨hstray, s, hs, hcall⟩ | ⟨hstray, s, hs, hcall⟩
    · rw [hcall, hs.writes]
      constructor
      · rintro ⟨p, hp, hv, rfl⟩
        exact ⟨p, ⟨hn, by omega, hv, fun _ => hp⟩, rfl⟩
      · rintro ⟨p, ⟨-, -, hv, hp⟩, rfl⟩
        exact ⟨p, hp hstray, hv, rfl⟩
    · rw [hcall, (hs.finish memory hcnt).1, hs.writes]
      constructor
      · rintro ⟨p, hp, hv, rfl⟩
        exact ⟨p, ⟨hn, hp, hv, fun h => absurd h hstray⟩, rfl⟩
      · rintro ⟨p, ⟨-, hp, hv, -⟩, rfl⟩
        exact ⟨p, hp, hv, rfl⟩
  · have hwrap : u32 (a.len + 7) / 8 ≠ bitmap.len := by
      have hlt := a.len_lt
      unfold u32
      omega
    rw [filterByBitmap_short room memory _ _ hwrap]
    refine iff_of_false (by simp [Call.fail]) ?_
    rintro ⟨p, ⟨hsmall, -⟩, -⟩
    exact hn hsmall

theorem cap_filterByBitmap (room : Nat) (memory : Nat → α) (bitsCnt : Nat) (hcnt : bitsCnt < 2 ^ 32)
    (hn : a.len ≤ 2 ^ 32 - 8) (hlen : bitmap.len = (a.len + 7) / 8) :
    (filterByBitmap room memory a bitmap bitsCnt hcnt).buffer.cap =
      min (u32 (bitsCnt + 1)) room := by
  rcases filterByBitmap_cases room memory bitsCnt hcnt hn hlen with
    ⟨-, s, hs, hcall⟩ | ⟨-, s, hs, hcall⟩
  · rw [hcall, hs.cap]
  · rw [hcall, (hs.finish memory hcnt).1, hs.cap]

/-- Every write is inside, and a count that is not the number of selected elements is an error. -/
structure Safe (a : ListStruct α) (bitmap : ListStruct UInt8) (bitsCnt : Nat) (c : Call α) :
    Prop where
  inside : c.buffer.InBounds
  checked : bitsCnt ≠ (selected a bitmap).length → c.errors ≠ []

/-- The check of the count. -/
theorem filterByBitmap_checked (room : Nat) (memory : Nat → α) {bitsCnt : Nat}
    (hcnt : bitsCnt < 2 ^ 32) (hlen : bitmap.len = (a.len + 7) / 8)
    (hne : bitsCnt ≠ (selected a bitmap).length) :
    (filterByBitmap room memory a bitmap bitsCnt hcnt).errors ≠ [] := by
  by_cases hn : a.len ≤ 2 ^ 32 - 8
  · rcases filterByBitmap_cases room memory bitsCnt hcnt hn hlen with
      ⟨-, s, -, hcall⟩ | ⟨-, s, hs, hcall⟩
    · rw [hcall]
      simp
    · rw [hcall]
      exact fun h => hne ((hs.finish memory hcnt).2.1.mp h)
  · have hwrap : u32 (a.len + 7) / 8 ≠ bitmap.len := by
      have hlt := a.len_lt
      unfold u32
      omega
    rw [filterByBitmap_short room memory _ _ hwrap]
    simp [Call.fail]

/-- Where fewer bits are set than there are elements, the element has a slot. -/
theorem safe_of_rank_lt (room : Nat) (memory : Nat → α) {bitsCnt : Nat} (hcnt : bitsCnt < 2 ^ 32)
    (hlen : bitmap.len = (a.len + 7) / 8)
    (h : ∀ p, Stored a bitmap p →
      rank (bitAt bitmap.data) p < u32 (bitsCnt + 1) ∧ rank (bitAt bitmap.data) p < room) :
    Safe a bitmap bitsCnt (filterByBitmap room memory a bitmap bitsCnt hcnt) := by
  refine ⟨fun w hw => ?_, filterByBitmap_checked room memory hcnt hlen⟩
  obtain ⟨p, hp, rfl⟩ := (mem_writes_filterByBitmap room memory bitsCnt hcnt hlen w).mp hw
  rw [cap_filterByBitmap room memory bitsCnt hcnt hp.1 hlen]
  exact lt_min (h p hp).1 (h p hp).2

/-- **A call with three arguments is safe** exactly if for each element that is stored fewer bits
are set before it than there are elements allocated: the arena was asked for that many, and gave
them. -/
theorem filterByBitmap_safe_iff (room : Nat) (memory : Nat → α) (a : ListStruct α)
    (bitmap : ListStruct UInt8) (bitsCnt : Nat) (hcnt : bitsCnt < 2 ^ 32)
    (hlen : bitmap.len = (a.len + 7) / 8) :
    Safe a bitmap bitsCnt (filterByBitmap room memory a bitmap bitsCnt hcnt) ↔
      ∀ p, Stored a bitmap p →
        rank (bitAt bitmap.data) p < u32 (bitsCnt + 1) ∧ rank (bitAt bitmap.data) p < room := by
  constructor
  · intro h p hp
    have hin := h.inside _
      ((mem_writes_filterByBitmap room memory bitsCnt hcnt hlen _).mpr ⟨p, hp, rfl⟩)
    rw [cap_filterByBitmap room memory bitsCnt hcnt hp.1 hlen] at hin
    exact lt_min_iff.mp hin
  · exact safe_of_rank_lt room memory hcnt hlen

/-- It is enough that the arena gives the memory, that the count is large enough and that its
successor has 32 bits. -/
theorem filterByBitmap_safe {room : Nat} (memory : Nat → α) {bitsCnt : Nat}
    (hcnt : bitsCnt < 2 ^ 32 - 1) (hlen : bitmap.len = (a.len + 7) / 8)
    (hroom : bitsCnt + 1 ≤ room) (hle : (selected a bitmap).length ≤ bitsCnt) :
    Safe a bitmap bitsCnt (filterByBitmap room memory a bitmap bitsCnt (by omega)) := by
  refine safe_of_rank_lt room memory _ hlen fun p hp => ?_
  have hrank : rank (bitAt bitmap.data) p ≤ rank (bitAt bitmap.data) a.len := rank_mono hp.2.1.le
  rw [length_selected] at hle
  rw [u32_of_lt (by omega)]
  omega

end Filter

/-- Two elements are selected, and there is room for the one that was announced plus one. -/
theorem filterByBitmap_unsafe :
    ¬ Safe (ListStruct.ofList (α := IntegerType.int32.Value) [1, 1] (by decide))
      (.ofList [0x03] (by decide)) 0
      (filterByBitmap 1 (fun _ => 0) (.ofList [1, 1] (by decide)) (.ofList [0x03] (by decide)) 0
        (by decide)) := by
  intro h
  exact absurd h.inside (by decide)

/-- The count announces 2 ^ 32 - 2 elements, and the arena has no memory for them. -/
example : ¬ (filterByBitmap 0 (fun _ => 0)
    (ListStruct.ofList (α := IntegerType.int32.Value) [1] (by decide)) (.ofList [0x01] (by decide))
    4294967294 (by decide)).buffer.InBounds := by
  decide

/-- The general statement at the call before. -/
theorem filterByBitmap_safe_iff_two :
    Safe (ListStruct.ofList (α := IntegerType.int32.Value) [1, 1] (by decide))
        (.ofList [0x03] (by decide)) 0
        (filterByBitmap 1 (fun _ => 0) (.ofList [1, 1] (by decide)) (.ofList [0x03] (by decide)) 0
          (by decide)) ↔
      ∀ p, Stored (ListStruct.ofList (α := IntegerType.int32.Value) [1, 1] (by decide))
          (.ofList [0x03] (by decide)) p →
        rank (bitAt (ListStruct.ofList [(0x03 : UInt8)] (by decide)).data) p < u32 (0 + 1) ∧
          rank (bitAt (ListStruct.ofList [(0x03 : UInt8)] (by decide)).data) p < 1 :=
  filterByBitmap_safe_iff 1 _ _ _ 0 (by decide) rfl

end Kernels

end JitFusion
