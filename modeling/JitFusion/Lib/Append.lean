/-
# Appending to a buffer

`copy` moves a block of elements into a buffer, and a `Cursor` knows where the next block goes.
What was written from the front on is a list (`Holds`), so one more block is one more list behind
it, and a part of the buffer reads as a part of the list (`Holds.read`).
-/
import JitFusion.Lib.Buffer

namespace Fill

variable {α : Type}

/-- The `len` elements from slot `start` on. -/
def read (slot : Nat → α) (start len : Nat) : List α :=
  (List.range len).map fun i => slot (start + i)

/-- `len` elements of `src` go to the slots from `start` on. -/
def copy (src : Nat → α) (len start : Nat) (b : Buffer α) : Buffer α :=
  loop (fun i b => b.write (start + i) (src i)) len b

section Copy

variable (src : Nat → α) (len start : Nat) (b : Buffer α)

@[simp] theorem copy_zero : copy src 0 start b = b := rfl

@[simp] theorem cap_copy : (copy src len start b).cap = b.cap := by
  rw [copy]
  exact Buffer.cap_loop (fun i b => Buffer.cap_write b (start + i) (src i)) len

theorem slot_copy (j : Nat) : (copy src len start b).slot j =
    if start ≤ j ∧ j < start + len then src (j - start) else b.slot j := by
  induction len with
  | zero =>
    rw [if_neg (by omega)]
    rfl
  | succ len ih =>
    rw [copy, loop_succ, Buffer.slot_write, ← copy, ih]
    by_cases hj : j = start + len
    · subst hj
      rw [if_pos rfl, if_pos (by omega), Nat.add_sub_cancel_left]
    · rw [if_neg hj]
      exact if_congr (by omega) rfl rfl

theorem writes_copy : (copy src len start b).writes =
    ((List.range len).map (start + ·)).reverse ++ b.writes := by
  induction len with
  | zero => rfl
  | succ len ih =>
    rw [copy, loop_succ, Buffer.writes_write, ← copy, ih, List.range_succ]
    simp

end Copy

/-- A buffer and the next slot to be written. -/
structure Cursor (α : Type) where
  buf : Buffer α
  pos : Nat

def Cursor.append (src : Nat → α) (len : Nat) (s : Cursor α) : Cursor α :=
  ⟨copy src len s.pos s.buf, s.pos + len⟩

/-- The buffer was written once from the front on, and holds `text`. -/
structure Holds (text : List α) (s : Cursor α) : Prop where
  pos : s.pos = text.length
  writes : s.buf.writes = (List.range text.length).reverse
  slots : (List.range text.length).map s.buf.slot = text

namespace Holds

variable {text : List α} {s : Cursor α}

theorem nil (fresh : Nat → α) (cap : Nat) : Holds [] ⟨.alloc fresh cap, 0⟩ := ⟨rfl, rfl, rfl⟩

/-- **One more block.** -/
theorem append (h : Holds text s) (src : Nat → α) (len : Nat) :
    Holds (text ++ (List.range len).map src) (s.append src len) := by
  have hlen : (text ++ (List.range len).map src).length = text.length + len := by simp
  refine ⟨?_, ?_, ?_⟩
  · rw [hlen, Cursor.append, h.pos]
  · rw [hlen, Cursor.append, writes_copy, h.writes, h.pos, List.range_add, List.reverse_append]
  · rw [hlen, Cursor.append, h.pos, List.range_add, List.map_append, List.map_map]
    refine congrArg₂ _ ?_ (List.map_congr_left fun i hi => ?_)
    · conv_rhs => rw [← h.slots]
      refine List.map_congr_left fun i hi => ?_
      have hlt := List.mem_range.mp hi
      rw [slot_copy, if_neg (by omega)]
    · have hlt := List.mem_range.mp hi
      rw [Function.comp, slot_copy, if_pos (by omega), Nat.add_sub_cancel_left]

/-- **A part of the buffer** is a part of what it holds. -/
theorem read (h : Holds text s) {l m r : List α} (htext : text = l ++ m ++ r) :
    read s.buf.slot l.length m.length = m := by
  refine List.ext_getElem (by simp [Fill.read]) fun i h₁ h₂ => ?_
  have hi : l.length + i < text.length := by
    rw [htext, List.length_append, List.length_append]
    omega
  have hslot : s.buf.slot (l.length + i) = text[l.length + i] := by
    have hget := List.getElem_of_eq h.slots (i := l.length + i) (by simpa using hi)
    simpa using hget
  have hpart : text[l.length + i] = m[i] := by
    subst htext
    rw [List.getElem_append_left (by simp; omega), List.getElem_append_right (by omega)]
    simp
  rw [← hpart, ← hslot]
  simp [Fill.read]

end Holds

end Fill
