/-
# Concatenating lists and strings

`ListConcat`, `CrossJoin` and `ZipConcat` (`src/function/list_basic.cc`) and `StringConcat`
(`src/function/string_function_init.cc`), which is `ListConcat` on bytes.

The joins build all strings of their result in one buffer, whose size they compute first.  A cursor
goes through the buffer: each string is up to three pieces behind it (`joinStep`), and the list they
make so far is the invariant (`Joining`).

* `joins_fill_iff`: the size is that of what is written, so what is written is inside if the arena
  gave that much.
* `lengths_exact_iff`: lengths are exact, and the writes inside, as far as 32 and 64 bits and the
  arena go.
-/
import Mathlib.Algebra.BigOperators.Intervals
import Mathlib.Algebra.BigOperators.Ring.Finset
import Mathlib.Tactic.Ring
import JitFusion.Kernels
import JitFusion.Lib.Append

namespace JitFusion

namespace Kernels

open Fill (Buffer Cursor Holds copy loop loop_blocks loop_congr loop_inv)
open Finset (range)

/-! ## 1. The kernels -/

/-- A `uint64_t` or a `size_t`. -/
def u64 (n : Nat) : Nat := n % 2 ^ 64

theorem u64_of_lt {n : Nat} (h : n < 2 ^ 64) : u64 n = n := Nat.mod_eq_of_lt h

/-- What `ListConcat` and `StringConcat` do. -/
def concat {α : Type} (room : Nat) (memory : Nat → α) (a b : ListStruct α) : Call α :=
  let len := u32 (a.len + b.len)
  .done (copy b.data b.len a.len (copy a.data a.len 0 (.request room memory len))) len (u32_lt _)

def listConcat {α : Type} : Nat → (Nat → α) → ListStruct α → ListStruct α → Call α := concat

def stringConcat : Nat → (Nat → UInt8) → StringStruct → StringStruct → Call UInt8 := concat

/-- A `StringStruct` that points into the buffer of a join. -/
structure StringView where
  start : Nat
  len : Nat
  len_lt : len < 2 ^ 32

/-- The arena's answers to a join: how many strings, and how many bytes of them, there is memory
for. -/
structure JoinRoom where
  views : Nat
  bytes : Nat

/-- What a join leaves: the strings and the buffer they point into. -/
structure JoinCall where
  len : Nat
  len_lt : len < 2 ^ 32
  views : Buffer StringView
  payload : Buffer UInt8
  errors : List String := []

/-- The list returned. -/
def JoinCall.result (c : JoinCall) : ListStruct StringStruct where
  data k := ⟨fun i => c.payload.slot ((c.views.slot k).start + i), (c.views.slot k).len,
    (c.views.slot k).len_lt⟩
  len := c.len
  len_lt := c.len_lt

/-- `result.data`, `buf` and `cursor`. -/
structure JoinState where
  views : Buffer StringView
  payload : Cursor UInt8

/-- `if (v.len > 0) { memcpy(cursor, v.data, v.len); cursor += v.len; }`. -/
def appendString (v : StringStruct) (s : Cursor UInt8) : Cursor UInt8 :=
  if v.len > 0 then s.append v.data v.len else s

/-- The body of the loops: the string `out` is `av`, `sep` and `bv`. -/
def joinStep (av sep bv : StringStruct) (out : Nat) (s : JoinState) : JoinState :=
  let start := s.payload.pos
  let payload := appendString bv (appendString sep (appendString av s.payload))
  ⟨s.views.write out ⟨start, u32 (payload.pos - start), u32_lt _⟩, payload⟩

/-- The bytes of the strings of a list. -/
def sumBytes (a : ListStruct StringStruct) : Nat :=
  loop (fun i bytes => u64 (bytes + (a.data i).len)) a.len 0

/-- The state of `CrossJoin`, with `out_idx`. -/
structure CrossState where
  join : JoinState
  outIdx : UInt32

def crossStep (a b : ListStruct StringStruct) (sep : StringStruct) (i j : Nat) (s : CrossState) :
    CrossState :=
  ⟨joinStep (a.data i) sep (b.data j) s.outIdx.toNat s.join, s.outIdx + 1⟩

def crossJoinString (room : JoinRoom) (memory : Nat → StringView) (bytes : Nat → UInt8)
    (a b : ListStruct StringStruct) (sep : StringStruct) : JoinCall :=
  let totalElems := u64 (a.len * b.len)
  if totalElems = 0 then ⟨u32 totalElems, u32_lt _, .alloc memory 0, .alloc bytes 0, []⟩
  else
    let totalBytes := u64 (u64 (u64 (sumBytes a * b.len) + u64 (sumBytes b * a.len)) +
      u64 (totalElems * sep.len))
    -- a `StringStruct` has 16 bytes
    let s := loop (fun i s => loop (crossStep a b sep i) b.len s) a.len
      ⟨⟨.request room.views memory (u64 (totalElems * 16) / 16),
        ⟨.request room.bytes bytes totalBytes, 0⟩⟩, 0⟩
    ⟨u32 totalElems, u32_lt _, s.join.views, s.join.payload.buf, []⟩

def zipConcatString (room : JoinRoom) (memory : Nat → StringView) (bytes : Nat → UInt8)
    (a b : ListStruct StringStruct) (sep : StringStruct) : JoinCall :=
  if a.len ≠ b.len then
    ⟨0, zero_lt_u32, .alloc memory 0, .alloc bytes 0,
      ["ZipConcat: lhs and rhs len mismatch, lhs len: " ++ toString a.len ++ ", rhs len: " ++
        toString b.len]⟩
  else if a.len = 0 then ⟨a.len, a.len_lt, .alloc memory 0, .alloc bytes 0, []⟩
  else
    let pairs := loop (fun i bytes => u64 (u64 (bytes + (a.data i).len) + (b.data i).len)) a.len 0
    let totalBytes := u64 (pairs + u64 (a.len * sep.len))
    let s := loop (fun i => joinStep (a.data i) sep (b.data i) i) a.len
      ⟨.request room.views memory a.len, ⟨.request room.bytes bytes totalBytes, 0⟩⟩
    ⟨a.len, a.len_lt, s.views, s.payload.buf, []⟩

/-! ## 2. The cursor -/

section Cursor

variable {piece : Nat → List UInt8} {n : Nat} {s : JoinState}

/-- The first `n` strings, one behind the other. -/
def text (piece : Nat → List UInt8) (n : Nat) : List UInt8 := (List.range n).flatMap piece

theorem text_succ : text piece (n + 1) = text piece n ++ piece n := by
  rw [text, List.range_succ, List.flatMap_append, ← text]
  simp

theorem length_text : (text piece n).length = ∑ k ∈ range n, (piece k).length := by
  induction n with
  | zero => rfl
  | succ n ih => rw [text_succ, List.length_append, ih, Finset.sum_range_succ]

variable (piece) in
theorem text_mono {m : Nat} (h : m ≤ n) : ∃ rest, text piece n = text piece m ++ rest := by
  obtain ⟨d, rfl⟩ := Nat.exists_eq_add_of_le h
  induction d with
  | zero => exact ⟨[], by simp⟩
  | succ d ih =>
    obtain ⟨rest, hrest⟩ := ih (Nat.le_add_right m d)
    exact ⟨rest ++ piece (m + d), by rw [← Nat.add_assoc, text_succ, hrest, List.append_assoc]⟩

theorem appendString_eq (v : StringStruct) (s : Cursor UInt8) :
    appendString v s = s.append v.data v.len := by
  rw [appendString]
  split
  · rfl
  · next h =>
    obtain hzero : v.len = 0 := by omega
    rw [hzero]
    rfl

theorem holds_appendString {l : List UInt8} {c : Cursor UInt8} (h : Holds l c) (v : StringStruct) :
    Holds (l ++ v.view) (appendString v c) := by
  rw [appendString_eq]
  exact h.append v.data v.len

/-- **The state after `n` strings**. -/
structure Joining (piece : Nat → List UInt8) (slots bytes n : Nat) (s : JoinState) : Prop where
  holds : Holds (text piece n) s.payload
  written : s.views.writes = (List.range n).reverse
  starts : ∀ k < n, (s.views.slot k).start = (text piece k).length
  lens : ∀ k < n, (s.views.slot k).len = u32 (piece k).length
  capViews : s.views.cap = slots
  capPayload : s.payload.buf.cap = bytes

theorem Joining.start (memory : Nat → StringView) (fresh : Nat → UInt8) (slots bytes : Nat) :
    Joining piece slots bytes 0 ⟨.alloc memory slots, ⟨.alloc fresh bytes, 0⟩⟩ where
  holds := .nil fresh bytes
  written := rfl
  starts k hk := absurd hk (Nat.not_lt_zero k)
  lens k hk := absurd hk (Nat.not_lt_zero k)
  capViews := rfl
  capPayload := rfl

/-- One string. -/
theorem Joining.step {slots bytes : Nat} (h : Joining piece slots bytes n s)
    {av sep bv : StringStruct} (hpiece : piece n = av.view ++ sep.view ++ bv.view) :
    Joining piece slots bytes (n + 1) (joinStep av sep bv n s) := by
  have hholds := holds_appendString (holds_appendString (holds_appendString h.holds av) sep) bv
  rw [List.append_assoc, List.append_assoc, ← List.append_assoc av.view, ← hpiece,
    ← text_succ] at hholds
  have hlen : (appendString bv (appendString sep (appendString av s.payload))).pos -
      s.payload.pos = (piece n).length := by
    rw [hholds.pos, h.holds.pos, text_succ, List.length_append, Nat.add_sub_cancel_left]
  refine ⟨hholds, ?_, fun k hk => ?_, fun k hk => ?_, h.capViews, ?_⟩
  · rw [joinStep, Fill.Buffer.writes_write, h.written, List.range_succ]
    simp
  · obtain hlt | rfl := Nat.lt_succ_iff_lt_or_eq.mp hk
    · rw [joinStep, Fill.Buffer.slot_write_ne _ _ hlt.ne, h.starts k hlt]
    · rw [joinStep, Fill.Buffer.slot_write_self]
      exact h.holds.pos
  · obtain hlt | rfl := Nat.lt_succ_iff_lt_or_eq.mp hk
    · rw [joinStep, Fill.Buffer.slot_write_ne _ _ hlt.ne, h.lens k hlt]
    · rw [joinStep, Fill.Buffer.slot_write_self]
      exact congrArg u32 hlen
  · rw [joinStep, ← h.capPayload]
    simp [appendString_eq, Cursor.append]

end Cursor

/-! ## 3. What the joins build -/

section Joins

variable {a b : ListStruct StringStruct} {sep : StringStruct}

def crossPiece (a b : ListStruct StringStruct) (sep : StringStruct) (k : Nat) : List UInt8 :=
  (a.data (k / b.len)).view ++ sep.view ++ (b.data (k % b.len)).view

def zipPiece (a b : ListStruct StringStruct) (sep : StringStruct) (i : Nat) : List UInt8 :=
  (a.data i).view ++ sep.view ++ (b.data i).view

theorem length_view (s : StringStruct) : s.view.length = s.len := ListStruct.length_toList s

/-- The two loops of `CrossJoin` are one. -/
theorem crossStep_loops (s : CrossState) :
    loop (fun i s => loop (crossStep a b sep i) b.len s) a.len s =
      loop (fun k => crossStep a b sep (k / b.len) (k % b.len)) (b.len * a.len) s := by
  rw [← loop_blocks]
  refine loop_congr fun i s _ => loop_congr fun j s hj => ?_
  rw [Nat.mul_add_div (by omega), Nat.mul_add_mod, Nat.div_eq_of_lt hj, Nat.mod_eq_of_lt hj,
    Nat.add_zero]

/-- As long as the index has 32 bits, it is the number of strings. -/
theorem joining_cross (slots bytes : Nat) (memory : Nat → StringView) (fresh : Nat → UInt8)
    (hfit : b.len * a.len < 2 ^ 32) :
    Joining (crossPiece a b sep) slots bytes (b.len * a.len)
      (loop (fun i s => loop (crossStep a b sep i) b.len s) a.len
        ⟨⟨.alloc memory slots, ⟨.alloc fresh bytes, 0⟩⟩, 0⟩).join := by
  rw [crossStep_loops]
  refine (loop_inv (P := fun k (s : CrossState) =>
    Joining (crossPiece a b sep) slots bytes k s.join ∧
    s.outIdx = UInt32.ofNat k) ⟨.start memory fresh slots bytes, rfl⟩ ?_).1
  rintro k s hk ⟨hjoin, hout⟩
  have hindex : s.outIdx.toNat = k := by
    rw [hout, UInt32.toNat_ofNat_of_lt' (hk.trans hfit)]
  rw [crossStep, hindex]
  refine ⟨hjoin.step rfl, ?_⟩
  rw [hout, UInt32.ofNat_add]
  rfl

theorem joining_zip (slots bytes : Nat) (memory : Nat → StringView) (fresh : Nat → UInt8) :
    Joining (zipPiece a b sep) slots bytes a.len
      (loop (fun i => joinStep (a.data i) sep (b.data i) i) a.len
        ⟨.alloc memory slots, ⟨.alloc fresh bytes, 0⟩⟩) :=
  loop_inv (P := Joining (zipPiece a b sep) slots bytes) (.start memory fresh slots bytes)
    fun _ _ _ h => h.step rfl

/-! ### Sizes -/

/-- The bytes of all strings of a list. -/
def bytesOf (a : ListStruct StringStruct) : Nat := ∑ i ∈ range a.len, (a.data i).len

theorem u64_congr {m n : Nat} (h : m ≡ n [MOD 2 ^ 64]) : u64 m = u64 n := h

theorem u64_modEq (n : Nat) : u64 n ≡ n [MOD 2 ^ 64] := Nat.mod_modEq n (2 ^ 64)

theorem sumBytes_eq (a : ListStruct StringStruct) : sumBytes a = u64 (bytesOf a) := by
  refine loop_inv (P := fun n bytes => bytes = u64 (∑ i ∈ range n, (a.data i).len)) rfl ?_
  rintro n bytes - rfl
  rw [Finset.sum_range_succ]
  exact u64_congr ((u64_modEq _).add_right _)

/-- The bytes of all strings of a `CrossJoin`. -/
def crossBytes (a b : ListStruct StringStruct) (sep : StringStruct) : Nat :=
  ∑ i ∈ range a.len, ∑ j ∈ range b.len, ((a.data i).len + sep.len + (b.data j).len)

/-- The same from the sizes of the lists. -/
theorem crossBytes_eq : crossBytes a b sep =
    bytesOf a * b.len + bytesOf b * a.len + a.len * b.len * sep.len := by
  simp only [crossBytes, bytesOf, Finset.sum_add_distrib, Finset.sum_const, Finset.card_range,
    nsmul_eq_mul, Nat.cast_id, ← Finset.mul_sum]
  ring

theorem length_crossText : (text (crossPiece a b sep) (b.len * a.len)).length =
    crossBytes a b sep := by
  rw [length_text, crossBytes]
  generalize a.len = n
  induction n with
  | zero => rfl
  | succ n ih =>
    rw [Nat.mul_succ, Finset.sum_range_add, ih, Finset.sum_range_succ]
    refine congrArg _ (Finset.sum_congr rfl fun j hj => ?_)
    have hj := Finset.mem_range.mp hj
    rw [crossPiece, Nat.mul_add_div (by omega), Nat.mul_add_mod, Nat.div_eq_of_lt hj,
      Nat.mod_eq_of_lt hj, Nat.add_zero]
    simp [length_view, Nat.add_assoc]

/-- The bytes of all strings of a `ZipConcat`. -/
def zipBytes (a b : ListStruct StringStruct) (sep : StringStruct) : Nat :=
  ∑ i ∈ range a.len, ((a.data i).len + sep.len + (b.data i).len)

theorem length_zipText : (text (zipPiece a b sep) a.len).length = zipBytes a b sep := by
  rw [length_text, zipBytes]
  refine Finset.sum_congr rfl fun i _ => ?_
  simp [zipPiece, length_view, Nat.add_assoc]

/-- The size that `ZipConcat` computes. -/
theorem zipBytes_eq : u64 (loop (fun i bytes =>
      u64 (u64 (bytes + (a.data i).len) + (b.data i).len)) a.len 0 + u64 (a.len * sep.len)) =
    u64 (zipBytes a b sep) := by
  have hpairs := loop_inv (n := a.len) (s := 0)
    (f := fun i bytes => u64 (u64 (bytes + (a.data i).len) + (b.data i).len))
    (P := fun n bytes => bytes = u64 (∑ i ∈ range n, ((a.data i).len + (b.data i).len))) rfl ?_
  · have hsum : zipBytes a b sep =
        ∑ i ∈ range a.len, ((a.data i).len + (b.data i).len) + a.len * sep.len := by
      simp only [zipBytes, Finset.sum_add_distrib, Finset.sum_const, Finset.card_range,
        nsmul_eq_mul, Nat.cast_id]
      ring
    rw [hpairs, hsum]
    exact u64_congr ((u64_modEq _).add (u64_modEq _))
  · rintro n bytes - rfl
    rw [Finset.sum_range_succ, ← Nat.add_assoc]
    exact u64_congr (((u64_modEq _).trans ((u64_modEq _).add_right _)).add_right _)

variable (a b sep) in
/-- The size that `CrossJoin` computes. -/
theorem crossSize_eq : u64 (u64 (u64 (sumBytes a * b.len) + u64 (sumBytes b * a.len)) +
      u64 (a.len * b.len * sep.len)) = u64 (crossBytes a b sep) := by
  rw [crossBytes_eq, sumBytes_eq, sumBytes_eq]
  refine u64_congr (((u64_modEq _).trans (.add ?_ ?_)).add (u64_modEq _))
  · exact (u64_modEq _).trans ((u64_modEq _).mul_right _)
  · exact (u64_modEq _).trans ((u64_modEq _).mul_right _)

end Joins

/-! ## 4. The buffers are filled exactly -/

/-- The buffer is written from one end to the other, and cut into the strings. -/
structure FillsExactly (c : JoinCall) : Prop where
  errors : c.errors = []
  total : c.payload.writes.length = c.payload.cap
  once : c.payload.writes.Nodup
  payload : c.payload.InBounds
  views : c.views.InBounds
  inside : ∀ k < c.len, (c.views.slot k).start + (c.views.slot k).len ≤ c.payload.cap
  disjoint : ∀ k < c.len, ∀ l < k, ∀ p,
    ¬ (((c.views.slot k).start ≤ p ∧ p < (c.views.slot k).start + (c.views.slot k).len) ∧
      (c.views.slot l).start ≤ p ∧ p < (c.views.slot l).start + (c.views.slot l).len)

/-- All indices below `n` are below `cap`. -/
theorem inBounds_range (n cap : Nat) : (∀ i ∈ (List.range n).reverse, i < cap) ↔ n ≤ cap := by
  simp only [List.mem_reverse, List.mem_range]
  constructor
  · intro h
    by_contra hlt
    exact hlt (by have := h (n - 1) (by omega); omega)
  · exact fun h i hi => hi.trans_le h

section Fill

variable {piece : Nat → List UInt8} {n : Nat} {s : JoinState}

/-- **The end of the loops**, with a buffer of the size of the strings. -/
theorem Joining.fills (h : Joining piece n (text piece n).length n s) (hn : n < 2 ^ 32)
    (hlen : ∀ k < n, (piece k).length < 2 ^ 32) :
    FillsExactly ⟨n, hn, s.views, s.payload.buf, []⟩ ∧
      ∀ k < n, ((JoinCall.result ⟨n, hn, s.views, s.payload.buf, []⟩).data k).view = piece k := by
  have hlens : ∀ k < n, (s.views.slot k).len = (piece k).length :=
    fun k hk => (h.lens k hk).trans (u32_of_lt (hlen k hk))
  have hend : ∀ k, (text piece k).length + (piece k).length = (text piece (k + 1)).length := by
    intro k
    rw [text_succ, List.length_append]
  have hmono : ∀ {k l}, k ≤ l → (text piece k).length ≤ (text piece l).length := by
    intro k l hkl
    obtain ⟨rest, hrest⟩ := text_mono piece hkl
    rw [hrest, List.length_append]
    exact Nat.le_add_right _ _
  have hwrites := h.holds.writes
  refine ⟨⟨rfl, ?_, ?_, fun i hi => ?_, fun i hi => ?_, fun k hk => ?_, fun k hk l hl p => ?_⟩,
    fun k hk => ?_⟩
  · simp [hwrites, h.capPayload]
  · simp [hwrites, List.nodup_range]
  · simpa [hwrites, h.capPayload] using hi
  · simpa [h.written, h.capViews] using hi
  · simp only [h.capPayload, h.starts k hk, hlens k hk, hend]
    exact hmono hk
  · have hstep := hmono (show l + 1 ≤ k from hl)
    have hend' := hend l
    simp only [h.starts k hk, h.starts l (hl.trans hk), hlens k hk, hlens l (hl.trans hk)]
    rintro ⟨⟨hp, -⟩, -, hp'⟩
    omega
  · -- the text is what comes before, the string and the rest
    obtain ⟨rest, hrest⟩ := text_mono piece (Nat.succ_le_of_lt hk)
    rw [text_succ] at hrest
    have hread := h.holds.read hrest
    rwa [← h.starts k hk, ← hlens k hk] at hread

/-- What is written is all strings, whatever was allocated. -/
theorem Joining.inBounds_iff {slots bytes : Nat} (h : Joining piece slots bytes n s) :
    s.views.InBounds ∧ s.payload.buf.InBounds ↔ n ≤ slots ∧ (text piece n).length ≤ bytes := by
  have hviews : s.views.InBounds ↔ n ≤ slots := by
    rw [Fill.Buffer.InBounds, h.written, h.capViews]
    exact inBounds_range n slots
  have hpayload : s.payload.buf.InBounds ↔ (text piece n).length ≤ bytes := by
    rw [Fill.Buffer.InBounds, h.holds.writes, h.capPayload]
    exact inBounds_range _ bytes
  rw [hviews, hpayload]

variable {a b : ListStruct StringStruct} {sep : StringStruct} (room : JoinRoom)
  (memory : Nat → StringView) (bytes : Nat → UInt8)

variable (sep) in
/-- A `CrossJoin` whose length has 32 bits. -/
theorem crossJoinString_joining (hfit : b.len * a.len < 2 ^ 32) :
    ∃ s, Joining (crossPiece a b sep) (min (b.len * a.len) room.views)
        (min (u64 (crossBytes a b sep)) room.bytes) (b.len * a.len) s ∧
      crossJoinString room memory bytes a b sep =
        ⟨b.len * a.len, hfit, s.views, s.payload.buf, []⟩ := by
  have helems : u64 (a.len * b.len) = b.len * a.len := by
    rw [Nat.mul_comm, u64_of_lt (by omega)]
  simp only [crossJoinString, helems, u32_of_lt hfit]
  split
  · next hzero =>
    have hbytes : crossBytes a b sep = 0 := by
      rw [← length_crossText, hzero]
      rfl
    refine ⟨⟨.alloc memory 0, ⟨.alloc bytes 0, 0⟩⟩, ?_, rfl⟩
    have hnone : u64 0 = 0 := rfl
    rw [hzero, hbytes, hnone, Nat.zero_min, Nat.zero_min]
    exact .start memory bytes 0 0
  · have hcap : u64 (b.len * a.len * 16) / 16 = b.len * a.len := by
      rw [u64_of_lt (by omega), Nat.mul_div_cancel _ (by decide)]
    have hsize := crossSize_eq a b sep
    rw [Nat.mul_comm a.len] at hsize
    refine ⟨_, joining_cross _ _ memory bytes hfit, ?_⟩
    simp only [hcap, hsize, Fill.Buffer.request]

variable (sep) in
/-- A `ZipConcat` of lists of one length. -/
theorem zipConcatString_joining (hlen : a.len = b.len) :
    ∃ s, Joining (zipPiece a b sep) (min a.len room.views)
        (min (u64 (zipBytes a b sep)) room.bytes) a.len s ∧
      zipConcatString room memory bytes a b sep =
        ⟨a.len, a.len_lt, s.views, s.payload.buf, []⟩ := by
  rw [zipConcatString, if_neg (not_not.mpr hlen)]
  split
  · next hzero =>
    have hbytes : zipBytes a b sep = 0 := by
      rw [zipBytes, hzero]
      rfl
    refine ⟨⟨.alloc memory 0, ⟨.alloc bytes 0, 0⟩⟩, ?_, rfl⟩
    have hnone : u64 0 = 0 := rfl
    rw [hzero, hbytes, hnone, Nat.zero_min, Nat.zero_min]
    exact .start memory bytes 0 0
  · refine ⟨_, joining_zip _ _ memory bytes, ?_⟩
    simp only [zipBytes_eq, Fill.Buffer.request]

end Fill

/-- `CrossJoin` with its length, its size and its strings. -/
structure CrossFilled (a b : ListStruct StringStruct) (sep : StringStruct) (c : JoinCall) :
    Prop where
  fills : FillsExactly c
  total : c.payload.cap = crossBytes a b sep
  length : c.result.len = a.len * b.len
  strings : ∀ i < a.len, ∀ j < b.len, (c.result.data (i * b.len + j)).view =
    (a.data i).view ++ sep.view ++ (b.data j).view

/-- `ZipConcat` with its length, its size and its strings. -/
structure ZipFilled (a b : ListStruct StringStruct) (sep : StringStruct) (c : JoinCall) : Prop where
  fills : FillsExactly c
  total : c.payload.cap = zipBytes a b sep
  length : c.result.len = a.len
  strings : ∀ i < a.len, (c.result.data i).view = (a.data i).view ++ sep.view ++ (b.data i).view

/-- **When `CrossJoin` writes inside its buffers**, if its length has 32 bits. -/
theorem crossJoinString_inBounds_iff (room : JoinRoom) (memory : Nat → StringView)
    (bytes : Nat → UInt8) {a b : ListStruct StringStruct} (sep : StringStruct)
    (hfit : a.len * b.len < 2 ^ 32) :
    (crossJoinString room memory bytes a b sep).views.InBounds ∧
        (crossJoinString room memory bytes a b sep).payload.InBounds ↔
      a.len * b.len ≤ room.views ∧ crossBytes a b sep < 2 ^ 64 ∧
        crossBytes a b sep ≤ room.bytes := by
  rw [Nat.mul_comm] at hfit ⊢
  obtain ⟨s, hjoin, hcall⟩ := crossJoinString_joining sep room memory bytes hfit
  have hsize : crossBytes a b sep ≤ u64 (crossBytes a b sep) ↔ crossBytes a b sep < 2 ^ 64 := by
    unfold u64
    omega
  rw [hcall, hjoin.inBounds_iff, length_crossText, le_min_iff, le_min_iff, hsize]
  exact and_congr_left' (and_iff_right le_rfl)

/-- The same for `ZipConcat` of lists of one length. -/
theorem zipConcatString_inBounds_iff (room : JoinRoom) (memory : Nat → StringView)
    (bytes : Nat → UInt8) {a b : ListStruct StringStruct} (sep : StringStruct)
    (hlen : a.len = b.len) :
    (zipConcatString room memory bytes a b sep).views.InBounds ∧
        (zipConcatString room memory bytes a b sep).payload.InBounds ↔
      a.len ≤ room.views ∧ zipBytes a b sep < 2 ^ 64 ∧ zipBytes a b sep ≤ room.bytes := by
  obtain ⟨s, hjoin, hcall⟩ := zipConcatString_joining sep room memory bytes hlen
  have hsize : zipBytes a b sep ≤ u64 (zipBytes a b sep) ↔ zipBytes a b sep < 2 ^ 64 := by
    unfold u64
    omega
  rw [hcall, hjoin.inBounds_iff, length_zipText, le_min_iff, le_min_iff, hsize]
  exact and_congr_left' (and_iff_right le_rfl)

/-- **`CrossJoin` with enough memory.** -/
theorem crossJoinString_filled {room : JoinRoom} (memory : Nat → StringView) (bytes : Nat → UInt8)
    {a b : ListStruct StringStruct} {sep : StringStruct} (hfit : a.len * b.len < 2 ^ 32)
    (hlen : ∀ i < a.len, ∀ j < b.len, (a.data i).len + sep.len + (b.data j).len < 2 ^ 32)
    (hbytes : crossBytes a b sep < 2 ^ 64) (hviews : a.len * b.len ≤ room.views)
    (hpayload : crossBytes a b sep ≤ room.bytes) :
    CrossFilled a b sep (crossJoinString room memory bytes a b sep) := by
  rw [Nat.mul_comm] at hfit hviews
  obtain ⟨s, hjoin, hcall⟩ := crossJoinString_joining sep room memory bytes hfit
  rw [u64_of_lt hbytes, Nat.min_eq_left hviews, Nat.min_eq_left hpayload,
    ← length_crossText] at hjoin
  have hlens : ∀ k < b.len * a.len, (crossPiece a b sep k).length < 2 ^ 32 := by
    intro k hk
    have hb : 0 < b.len := Nat.pos_of_mul_pos_right (Nat.zero_lt_of_lt hk)
    have h := hlen (k / b.len) (Nat.div_lt_of_lt_mul hk) (k % b.len) (Nat.mod_lt k hb)
    simpa [crossPiece, length_view, Nat.add_assoc] using h
  obtain ⟨hfills, hstrings⟩ := hjoin.fills hfit hlens
  rw [hcall]
  refine ⟨hfills, ?_, Nat.mul_comm _ _, fun i hi j hj => ?_⟩
  · rw [hjoin.capPayload, length_crossText]
  · have hk : i * b.len + j < b.len * a.len := by
      have hle : (i + 1) * b.len ≤ a.len * b.len := Nat.mul_le_mul_right b.len hi
      rw [Nat.succ_mul] at hle
      rw [Nat.mul_comm b.len]
      omega
    rw [hstrings _ hk, crossPiece, Nat.mul_comm i, Nat.mul_add_div (by omega), Nat.mul_add_mod,
      Nat.div_eq_of_lt hj, Nat.mod_eq_of_lt hj, Nat.add_zero]

/-- **`ZipConcat` with enough memory.** -/
theorem zipConcatString_filled {room : JoinRoom} (memory : Nat → StringView) (bytes : Nat → UInt8)
    {a b : ListStruct StringStruct} {sep : StringStruct} (hsame : a.len = b.len)
    (hlen : ∀ i < a.len, (a.data i).len + sep.len + (b.data i).len < 2 ^ 32)
    (hbytes : zipBytes a b sep < 2 ^ 64) (hviews : a.len ≤ room.views)
    (hpayload : zipBytes a b sep ≤ room.bytes) :
    ZipFilled a b sep (zipConcatString room memory bytes a b sep) := by
  obtain ⟨s, hjoin, hcall⟩ := zipConcatString_joining sep room memory bytes hsame
  rw [u64_of_lt hbytes, Nat.min_eq_left hviews, Nat.min_eq_left hpayload,
    ← length_zipText] at hjoin
  have hlens : ∀ k < a.len, (zipPiece a b sep k).length < 2 ^ 32 := by
    intro k hk
    simpa [zipPiece, length_view, Nat.add_assoc] using hlen k hk
  obtain ⟨hfills, hstrings⟩ := hjoin.fills a.len_lt hlens
  rw [hcall]
  exact ⟨hfills, by rw [hjoin.capPayload, length_zipText], rfl, hstrings⟩

/-- **The joins fill their buffers exactly** if and only if the arena gives the memory they ask
for. -/
theorem joins_fill_iff (room : JoinRoom) (memory : Nat → StringView) (bytes : Nat → UInt8)
    (a b : ListStruct StringStruct) (sep : StringStruct) :
    (a.len * b.len < 2 ^ 32 →
      (∀ i < a.len, ∀ j < b.len, (a.data i).len + sep.len + (b.data j).len < 2 ^ 32) →
      crossBytes a b sep < 2 ^ 64 →
      (CrossFilled a b sep (crossJoinString room memory bytes a b sep) ↔
        a.len * b.len ≤ room.views ∧ crossBytes a b sep ≤ room.bytes)) ∧
    ((zipConcatString room memory bytes a b sep).errors ≠ [] ↔ a.len ≠ b.len) ∧
    (a.len = b.len →
      (∀ i < a.len, (a.data i).len + sep.len + (b.data i).len < 2 ^ 32) →
      zipBytes a b sep < 2 ^ 64 →
      (ZipFilled a b sep (zipConcatString room memory bytes a b sep) ↔
        a.len ≤ room.views ∧ zipBytes a b sep ≤ room.bytes)) := by
  refine ⟨fun hfit hlen hbytes => ⟨fun h => ?_, fun h => ?_⟩,
    ⟨fun herrors hlen => ?_, fun hne => ?_⟩,
    fun hsame hlen hbytes => ⟨fun h => ?_, fun h => ?_⟩⟩
  · have hin := (crossJoinString_inBounds_iff room memory bytes sep hfit).mp
      ⟨h.fills.views, h.fills.payload⟩
    exact ⟨hin.1, hin.2.2⟩
  · exact crossJoinString_filled memory bytes hfit hlen hbytes h.1 h.2
  · obtain ⟨s, -, hcall⟩ := zipConcatString_joining sep room memory bytes hlen
    rw [hcall] at herrors
    exact herrors rfl
  · rw [zipConcatString, if_pos hne]
    simp
  · have hin := (zipConcatString_inBounds_iff room memory bytes sep hsame).mp
      ⟨h.fills.views, h.fills.payload⟩
    exact ⟨hin.1, hin.2.2⟩
  · exact zipConcatString_filled memory bytes hsame hlen hbytes h.1 h.2

/-- Two lists of a string and an empty one, four strings and two. -/
theorem joins_fill_iff_two :
    let a : ListStruct StringStruct :=
      ⟨fun i => if i = 0 then .ofList [0x61] (by decide) else .ofList [] (by decide), 2, by decide⟩
    let sep : StringStruct := .ofList [0x2C] (by decide)
    let memory : Nat → StringView := fun _ => ⟨0, 0, by decide⟩
    CrossFilled a a sep (crossJoinString ⟨4, 8⟩ memory (fun _ => 0) a a sep) ∧
      ZipFilled a a sep (zipConcatString ⟨2, 4⟩ memory (fun _ => 0) a a sep) := by
  intro a sep memory
  obtain ⟨hcross, -, -⟩ := joins_fill_iff ⟨4, 8⟩ memory (fun _ => 0) a a sep
  obtain ⟨-, -, hzip⟩ := joins_fill_iff ⟨2, 4⟩ memory (fun _ => 0) a a sep
  exact ⟨(hcross (by decide) (by decide) (by decide)).mpr (by decide),
    (hzip rfl (by decide) (by decide)).mpr (by decide)⟩

/-- A list of 4096 strings of 16 MiB and one of as many empty strings: there is memory for the
2 ^ 24 strings of the result, and none for their 2 ^ 48 bytes. -/
theorem crossJoinString_refused :
    let a : ListStruct StringStruct :=
      ⟨fun _ => ⟨fun _ => 0x61, 2 ^ 24, by decide⟩, 2 ^ 12, by decide⟩
    let b : ListStruct StringStruct := ⟨fun _ => .ofList [] (by decide), 2 ^ 12, by decide⟩
    let sep : StringStruct := .ofList [] (by decide)
    a.len * b.len < 2 ^ 32 ∧
      (∀ i < a.len, ∀ j < b.len, (a.data i).len + sep.len + (b.data j).len < 2 ^ 32) ∧
      crossBytes a b sep < 2 ^ 64 ∧
      ¬ CrossFilled a b sep
        (crossJoinString ⟨2 ^ 24, 0⟩ (fun _ => ⟨0, 0, by decide⟩) (fun _ => 0) a b sep) := by
  intro a b sep
  have hfit : a.len * b.len < 2 ^ 32 := by decide
  have hbytes : crossBytes a b sep = 2 ^ 48 := by
    have halen : a.len = 2 ^ 12 := rfl
    have hblen : b.len = 2 ^ 12 := rfl
    have hsep : sep.len = 0 := rfl
    have ha : bytesOf a = 2 ^ 12 * 2 ^ 24 := by
      rw [bytesOf, Finset.sum_const, Finset.card_range, nsmul_eq_mul, Nat.cast_id, halen]
    have hb : bytesOf b = 0 := Finset.sum_eq_zero fun _ _ => rfl
    rw [crossBytes_eq, ha, hb, hsep, hblen, Nat.zero_mul, Nat.mul_zero]
    norm_num
  refine ⟨hfit, fun i _ j _ => ?_, by rw [hbytes]; decide, fun h => ?_⟩
  · change 2 ^ 24 + 0 + 0 < 2 ^ 32
    decide
  · have hin := (crossJoinString_inBounds_iff _ _ _ sep hfit).mp ⟨h.fills.views, h.fills.payload⟩
    have hpayload := hin.2.2
    rw [hbytes] at hpayload
    exact absurd hpayload (by decide)

/-! ## 5. Lengths -/

/-- What a result of length `exact` needs: all writes are inside what was allocated, and the length
is exact, or there is an error if it has more than 32 bits. -/
structure ExactLength (exact len : Nat) (inside : Prop) (errors : List String) : Prop where
  inside : inside
  fits : exact < 2 ^ 32 → len = exact
  error : 2 ^ 32 ≤ exact → errors ≠ []

/-- All of the result is written, whatever was allocated. -/
theorem concat_inBounds_iff {α : Type} (room : Nat) (memory : Nat → α) {a b : ListStruct α}
    (h : a.len + b.len < 2 ^ 32) :
    (concat room memory a b).buffer.InBounds ↔ a.len + b.len ≤ room := by
  have hcap : (concat room memory a b).buffer.cap = min (a.len + b.len) room := by
    simp only [concat, Call.done, Fill.cap_copy, Fill.Buffer.request, Fill.Buffer.cap_alloc,
      u32_of_lt h]
  have hwrites : ∀ w, w ∈ (concat room memory a b).buffer.writes ↔ w < a.len + b.len := by
    intro w
    simp only [concat, Call.done, Fill.writes_copy, Fill.Buffer.request, Fill.Buffer.writes_alloc]
    simp only [List.mem_append, List.mem_reverse, List.mem_map, List.mem_range, List.append_nil,
      Nat.zero_add, exists_eq_right]
    constructor
    · rintro (⟨i, hi, rfl⟩ | hw)
      · omega
      · omega
    · intro hw
      by_cases hlt : w < a.len
      · exact .inr hlt
      · exact .inl ⟨w - a.len, by omega, by omega⟩
  rw [Fill.Buffer.InBounds, hcap]
  simp only [hwrites]
  constructor
  · intro hin
    by_contra hlt
    have hlast := hin (a.len + b.len - 1) (by omega)
    omega
  · intro hle w hw
    omega

theorem exactLength_concat_iff {α : Type} (room : Nat) (memory : Nat → α) (a b : ListStruct α) :
    ExactLength (a.len + b.len) (concat room memory a b).result.len
        (concat room memory a b).buffer.InBounds (concat room memory a b).errors ↔
      a.len + b.len < 2 ^ 32 ∧ a.len + b.len ≤ room := by
  constructor
  · intro h
    have hfit : a.len + b.len < 2 ^ 32 := by
      by_contra hwraps
      exact h.error (not_lt.mp hwraps) rfl
    exact ⟨hfit, (concat_inBounds_iff room memory hfit).mp h.inside⟩
  · rintro ⟨hfit, hroom⟩
    exact ⟨(concat_inBounds_iff room memory hfit).mpr hroom, fun _ => u32_of_lt hfit,
      fun hge => absurd hfit hge.not_gt⟩

/-- No error is recorded by `CrossJoin`. -/
theorem crossJoinString_errors (room : JoinRoom) (memory : Nat → StringView) (bytes : Nat → UInt8)
    (a b : ListStruct StringStruct) (sep : StringStruct) :
    (crossJoinString room memory bytes a b sep).errors = [] := by
  rw [crossJoinString]
  split
  · rfl
  · rfl

/-- **When lengths are exact**: they have 32 bits, the strings of a join have less than 2 ^ 64
bytes, and the arena gives the memory. -/
theorem lengths_exact_iff {α : Type} (room : Nat) (memory : Nat → α) (a b : ListStruct α)
    (bytes : Nat → UInt8) (s t : StringStruct) (joinRoom : JoinRoom) (views : Nat → StringView)
    (as bs : ListStruct StringStruct) (sep : StringStruct) :
    (ExactLength (a.len + b.len) (listConcat room memory a b).result.len
        (listConcat room memory a b).buffer.InBounds (listConcat room memory a b).errors ↔
          a.len + b.len < 2 ^ 32 ∧ a.len + b.len ≤ room) ∧
    (ExactLength (s.len + t.len) (stringConcat room bytes s t).result.len
        (stringConcat room bytes s t).buffer.InBounds (stringConcat room bytes s t).errors ↔
          s.len + t.len < 2 ^ 32 ∧ s.len + t.len ≤ room) ∧
    let c := crossJoinString joinRoom views bytes as bs sep
    (ExactLength (as.len * bs.len) c.len (c.views.InBounds ∧ c.payload.InBounds) c.errors ↔
      as.len * bs.len < 2 ^ 32 ∧ as.len * bs.len ≤ joinRoom.views ∧
        crossBytes as bs sep < 2 ^ 64 ∧ crossBytes as bs sep ≤ joinRoom.bytes) := by
  refine ⟨exactLength_concat_iff room memory a b, exactLength_concat_iff room bytes s t, ?_, ?_⟩
  · intro h
    have hfit : as.len * bs.len < 2 ^ 32 := by
      by_contra hwraps
      exact h.error (not_lt.mp hwraps) (crossJoinString_errors joinRoom views bytes as bs sep)
    exact ⟨hfit, (crossJoinString_inBounds_iff joinRoom views bytes sep hfit).mp h.inside⟩
  · rintro ⟨hfit, hroom⟩
    refine ⟨(crossJoinString_inBounds_iff joinRoom views bytes sep hfit).mpr hroom, fun _ => ?_,
      fun hge => absurd hfit hge.not_gt⟩
    rw [Nat.mul_comm] at hfit
    obtain ⟨state, -, hcall⟩ := crossJoinString_joining sep joinRoom views bytes hfit
    rw [hcall]
    exact Nat.mul_comm _ _

/-- One byte more than 32 bits can count. -/
theorem stringConcat_wraps :
    let a : StringStruct := ⟨fun _ => 0x61, 2 ^ 32 - 1, by decide⟩
    let b : StringStruct := .ofList [0x62] (by decide)
    ¬ ExactLength (a.len + b.len) (stringConcat (2 ^ 32) (fun _ => 0) a b).result.len
      (stringConcat (2 ^ 32) (fun _ => 0) a b).buffer.InBounds
      (stringConcat (2 ^ 32) (fun _ => 0) a b).errors := by
  intro a b h
  exact absurd ((exactLength_concat_iff _ _ a b).mp h).1 (by decide)

end Kernels

end JitFusion
