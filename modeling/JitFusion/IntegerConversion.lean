/-
# Integer conversions

`CodeGen::NumericTypeConvert` (`src/codegen/codegen.cc`) between two integer types, beside the
`static_cast` that `ListCastNumericToNumeric` (`src/function/list_basic.cc`) applies to every
element of a list.

The cast takes the value modulo `2 ^ width`.  The conversion extends with the sign if the *target*
is signed, so a value that gets wider keeps its residue only if source and target have one
signedness or its top bit is clear (`converted_eq_iff`).
-/
import JitFusion.Interpreter
import JitFusion.Kernels
import JitFusion.PowExponent

namespace JitFusion

open TypeHelper

namespace Kernels

namespace IntegerType

/-! ## 1. The integer types among the value types -/

def valueType : IntegerType → ValueType
  | uint8 => .kU8
  | uint16 => .kU16
  | uint32 => .kU32
  | uint64 => .kU64
  | int8 => .kI8
  | int16 => .kI16
  | int32 => .kI32
  | int64 => .kI64

variable (t : IntegerType)

@[simp] theorem isIntegerType_valueType : isIntegerType t.valueType = true := by cases t <;> rfl

@[simp] theorem isNumericType_valueType : isNumericType t.valueType = true := by cases t <;> rfl

@[simp] theorem isSignedType_valueType : isSignedType t.valueType = t.isSigned := by
  cases t <;> rfl

@[simp] theorem intWidth_valueType : CodeGen.intWidth t.valueType = t.width := by cases t <;> rfl

@[simp] theorem valueTypeToLLVMType_valueType :
    CodeGen.valueTypeToLLVMType t.valueType = .ok (.int t.width) := by
  cases t <;> rfl

theorem valueType_injective {t u : IntegerType} (h : t.valueType = u.valueType) : t = u := by
  cases t <;> cases u <;> simp_all [valueType]

/-! ## 2. Bits and values -/

variable {t : IntegerType}

theorem wrap_eq_iff {x y : Int} : t.wrap x = t.wrap y ↔ x ≡ y [ZMOD 2 ^ t.width] := by
  constructor
  · intro h
    have hx := (t.wrap_modEq x).symm
    rw [h] at hx
    exact hx.trans (t.wrap_modEq y)
  · exact t.wrap_congr

/-- What a bit vector reads as, modulo `2 ^ width`. -/
theorem toInt_modEq_toNat {w : Nat} (b : BitVec w) : b.toInt ≡ b.toNat [ZMOD 2 ^ w] := by
  rw [BitVec.toInt_eq_toNat_bmod]
  have h := Int.bmod_emod (x := b.toNat) (m := 2 ^ w)
  exact_mod_cast h

theorem toInt_bits (v : t.Value) : v.bits.toInt ≡ v.toInt [ZMOD 2 ^ t.width] := by
  rw [Value.bits, BitVec.toInt_ofInt]
  have h := Int.bmod_emod (x := v.toInt) (m := 2 ^ t.width)
  exact_mod_cast h

theorem toNat_bits (v : t.Value) : (v.bits.toNat : Int) = v.toInt % 2 ^ t.width := by
  have hpos : (0 : Int) ≤ v.toInt % 2 ^ t.width :=
    Int.emod_nonneg _ t.two_pow_width_pos.ne'
  rw [Value.bits, BitVec.toNat_ofInt]
  push_cast
  exact Int.toNat_of_nonneg hpos

@[simp] theorem ofBits_bits (v : t.Value) : ofBits v.bits = v := by
  rw [ofBits, wrap_congr t (toInt_bits v), wrap_toInt]

@[simp] theorem bits_ofBits (b : BitVec t.width) : (ofBits b).bits = b := by
  have h : (t.wrap b.toInt).toInt % (2 ^ t.width : Nat) = b.toInt % (2 ^ t.width : Nat) := by
    exact_mod_cast t.wrap_modEq b.toInt
  rw [ofBits, Value.bits, ← BitVec.ofInt_toInt (x := b)]
  refine BitVec.eq_of_toNat_eq ?_
  rw [BitVec.toNat_ofInt, BitVec.toNat_ofInt]
  simp only [BitVec.ofInt_toInt]
  rw [h]

/-! ## 3. The two conversions -/

/-- `static_cast`: the value modulo `2 ^ width`. -/
def staticCast (u : IntegerType) (v : t.Value) : u.Value := u.wrap v.toInt

/-- What `NumericTypeConvert` makes of a value. -/
def converted (u : IntegerType) (v : t.Value) : u.Value :=
  ofBits (CodeGen.intCast u.width u.isSigned v.bits)

/-- The top bit of the value is set. -/
def Value.TopBit (v : t.Value) : Prop := v.toInt < 0 ∨ 2 ^ (t.width - 1) ≤ v.toInt

/-- **A value that is lost**: it gets wider and changes its signedness, and its top bit is set. -/
def Lost (u : IntegerType) (v : t.Value) : Prop :=
  t.width < u.width ∧ t.isSigned ≠ u.isSigned ∧ v.TopBit

theorem two_pow_width (t : IntegerType) : (2 : Int) ^ t.width = 2 * 2 ^ (t.width - 1) := by
  cases t <;> rfl

/-- The values of a signed and of an unsigned type. -/
theorem Value.range (v : t.Value) :
    if t.isSigned then -2 ^ (t.width - 1) ≤ v.toInt ∧ v.toInt < 2 ^ (t.width - 1)
      else 0 ≤ v.toInt ∧ v.toInt < 2 ^ t.width := by
  have hlow : t.lowest ≤ v.toInt := v.2.1
  have hmax : v.toInt ≤ t.lowest + 2 ^ t.width - 1 := v.2.2
  have hpow := t.two_pow_width
  unfold lowest at hlow hmax
  split
  · next h =>
    rw [if_pos h] at hlow hmax
    omega
  · next h =>
    rw [if_neg h] at hlow hmax
    omega

/-- To fewer bits every conversion keeps the residue. -/
theorem intCast_modEq_of_le {u : IntegerType} (h : u.width ≤ t.width) (s : Bool) (v : t.Value) :
    (CodeGen.intCast u.width s v.bits).toInt ≡ v.toInt [ZMOD 2 ^ u.width] := by
  have hdvd : (2 : Int) ^ u.width ∣ 2 ^ t.width := pow_dvd_pow 2 h
  have htrunc : CodeGen.intCast u.width s v.bits = v.bits.setWidth u.width := by
    cases s with
    | true => exact BitVec.signExtend_eq_setWidth_of_le v.bits h
    | false => rfl
  have hnat : ((v.bits.setWidth u.width).toNat : Int) ≡ v.bits.toNat [ZMOD 2 ^ u.width] := by
    rw [BitVec.toNat_setWidth]
    push_cast
    exact Int.mod_modEq _ _
  have hbits : (v.bits.toNat : Int) ≡ v.toInt [ZMOD 2 ^ u.width] := by
    rw [toNat_bits]
    exact (Int.mod_modEq _ _).of_dvd hdvd
  rw [htrunc]
  exact ((toInt_modEq_toNat _).trans hnat).trans hbits

/-- To more bits with the sign. -/
theorem toInt_signExtend_bits {w : Nat} (h : t.width < w) (v : t.Value) :
    (v.bits.signExtend w).toInt =
      if 2 ^ (t.width - 1) ≤ v.toInt then v.toInt - 2 ^ t.width else v.toInt := by
  have hrange := v.range
  have hpow := t.two_pow_width
  have hcast : ((2 ^ t.width : Nat) : Int) = 2 ^ t.width := by push_cast; rfl
  rw [BitVec.toInt_signExtend_of_le h.le, Value.bits, BitVec.toInt_ofInt]
  split
  · next hle =>
    have hlt : v.toInt < 2 ^ t.width := by
      split at hrange
      · omega
      · exact hrange.2
    rw [← Int.sub_bmod_right, Int.bmod_eq_of_le_mul_two (by omega) (by omega), hcast]
  · next hlt =>
    have hge : -2 ^ (t.width - 1) ≤ v.toInt := by
      split at hrange
      · exact hrange.1
      · omega
    exact Int.bmod_eq_of_le_mul_two (by omega) (by omega)

/-- To more bits with zeros. -/
theorem toNat_setWidth_bits {w : Nat} (h : t.width < w) (v : t.Value) :
    ((v.bits.setWidth w).toNat : Int) =
      if v.toInt < 0 then v.toInt + 2 ^ t.width else v.toInt := by
  have hrange := v.range
  have hpow := t.two_pow_width
  rw [BitVec.toNat_setWidth_of_le h.le, toNat_bits]
  split
  · next hneg =>
    have hge : -2 ^ t.width ≤ v.toInt := by
      split at hrange
      · omega
      · omega
    rw [← Int.add_emod_right, Int.emod_eq_of_lt (by omega) (by omega)]
  · next hpos =>
    have hlt : v.toInt < 2 ^ t.width := by
      split at hrange
      · omega
      · exact hrange.2
    exact Int.emod_eq_of_lt (by omega) hlt

/-- A value that gets wider is lost if it is too large for the sign bit or negative. -/
theorem lost_iff_of_lt {u : IntegerType} (h : t.width < u.width) (v : t.Value) :
    Lost u v ↔ if u.isSigned then 2 ^ (t.width - 1) ≤ v.toInt else v.toInt < 0 := by
  have hrange := v.range
  have hpos : (0 : Int) < 2 ^ (t.width - 1) := Int.pow_pos (by decide)
  unfold Lost Value.TopBit
  cases ht : t.isSigned with
  | true =>
    rw [ht, if_pos rfl] at hrange
    cases u.isSigned with
    | true => simpa using hrange.2
    | false => simpa [h] using fun hle => absurd hrange.2 (not_lt.mpr hle)
  | false =>
    rw [ht, if_neg Bool.false_ne_true] at hrange
    cases u.isSigned with
    | true => simpa [h] using fun hneg => absurd hrange.1 (not_le.mpr hneg)
    | false => simpa using hrange.1

/-- A residue of more bits tells a value from the one `2 ^ w` further. -/
theorem not_add_modEq {w w' : Nat} (h : w < w') (x : Int) : ¬ x + 2 ^ w ≡ x [ZMOD 2 ^ w'] := by
  intro hmod
  have hdvd : (2 : Int) ^ w' ∣ 2 ^ w := by
    have hsub := hmod.symm.dvd
    rwa [add_sub_cancel_left] at hsub
  have hle : (2 : Int) ^ w' ≤ 2 ^ w := Int.le_of_dvd (Int.pow_pos (by decide)) hdvd
  exact absurd hle (not_le.mpr (Int.pow_lt_pow_of_lt (by decide) h))

/-- **When the conversion is the cast**: exactly if the value is not lost. -/
theorem converted_eq_iff (u : IntegerType) (v : t.Value) :
    converted u v = staticCast u v ↔ ¬ Lost u v := by
  rw [converted, ofBits, staticCast, wrap_eq_iff]
  by_cases hle : u.width ≤ t.width
  · exact iff_of_true (intCast_modEq_of_le hle _ v) fun h => absurd h.1 hle.not_gt
  · have hlt : t.width < u.width := not_le.mp hle
    rw [lost_iff_of_lt hlt]
    cases u.isSigned with
    | true =>
      rw [CodeGen.intCast, if_pos rfl, if_pos rfl, toInt_signExtend_bits hlt]
      split
      · next h =>
        refine iff_of_false (fun hmod => ?_) (not_not.mpr h)
        exact not_add_modEq hlt (v.toInt - 2 ^ t.width) (by rw [sub_add_cancel]; exact hmod.symm)
      · next h => exact iff_of_true rfl h
    | false =>
      rw [CodeGen.intCast, if_neg Bool.false_ne_true, if_neg Bool.false_ne_true]
      have hnat := toInt_modEq_toNat (v.bits.setWidth u.width)
      rw [toNat_setWidth_bits hlt] at hnat
      split at hnat
      · next h =>
        exact iff_of_false (fun hmod => not_add_modEq hlt v.toInt (hnat.symm.trans hmod))
          (not_not.mpr h)
      · next h => exact iff_of_true hnat h

/-- The target type has the value. -/
def Representable (u : IntegerType) (v : t.Value) : Prop := u.lowest ≤ v.toInt ∧ v.toInt ≤ u.max

/-- A cast keeps a value the target type has. -/
theorem toInt_staticCast {u : IntegerType} {v : t.Value} (h : Representable u v) :
    (staticCast u v).toInt = v.toInt :=
  congrArg Value.toInt (wrap_toInt u ⟨v.toInt, h⟩)

/-- **When a representable value is kept**: exactly if it is not lost. -/
theorem toInt_converted_iff {u : IntegerType} {v : t.Value} (h : Representable u v) :
    (converted u v).toInt = v.toInt ↔ ¬ Lost u v := by
  rw [← converted_eq_iff, ← toInt_staticCast h]
  exact ⟨Subtype.ext, congrArg Value.toInt⟩

@[simp] theorem converted_self (v : t.Value) : converted t v = v := by
  rw [(converted_eq_iff t v).mpr fun h => absurd h.1 (lt_irrefl _), staticCast, wrap_toInt]

end IntegerType

/-- The list whose elements are computed from those of `a`. -/
def mapList {α β : Type} (f : α → β) (memory : Nat → β) (a : ListStruct α) : Call β :=
  .done (Fill.Buffer.sweep (fun i _ => f (a.data i)) a.len (.alloc memory a.len)) a.len a.len_lt

/-- `ListCastNumericToNumeric`, between integer types. -/
def listCastNumericToNumeric {t u : IntegerType} (memory : Nat → u.Value)
    (a : ListStruct t.Value) : Call u.Value :=
  mapList (IntegerType.staticCast u) memory a

/-- Every element is cast. -/
theorem listCastNumericToNumeric_toList {t u : IntegerType} (memory : Nat → u.Value)
    (a : ListStruct t.Value) :
    (listCastNumericToNumeric memory a).result.toList =
      a.toList.map (IntegerType.staticCast u) := by
  rw [ListStruct.toList, ListStruct.toList, List.map_map]
  refine List.map_congr_left fun i hi => ?_
  exact (Fill.Buffer.slot_sweep (g := fun i _ => IntegerType.staticCast u (a.data i))
    (fun _ _ => rfl) a.len i).trans (if_pos (List.mem_range.mp hi))

end Kernels

namespace CodeGen

open Kernels IntegerType Interpreter

/-! ## 4. The code of a conversion -/

section

variable {V W E : Type} {sem : Ssa.Semantics Opcode Literal V W E} {h : IntegerSemantics sem}
  {n : Nat} {inputs : Fin n → Datum V} {x y : IRExpr n} {t u : IntegerType}

/-- An integer at run time. -/
def IntegerSemantics.datum (h : IntegerSemantics sem) (v : t.Value) : Datum V :=
  ⟨h.int v.bits, .int t.width⟩

/-- The code gives the integer. -/
def Yields (h : IntegerSemantics sem) (inputs : Fin n → Datum V) (x : IRExpr n) (v : t.Value) :
    Prop :=
  x.type (fun i => (inputs i).type) = .int t.width ∧
    x.eval sem (fun i => (inputs i).val) = pure (h.int v.bits)

theorem yields_input (inputs : Fin n → Datum V) (i : Fin n) {v : t.Value}
    (hi : inputs i = h.datum v) : Yields h inputs (.input i) v := by
  unfold Yields
  rw [IRExpr.type, Ssa.Expr.eval, hi]
  exact ⟨rfl, rfl⟩

/-- Code gives one integer. -/
theorem Yields.unique [Inhabited W] {v w : t.Value} (hv : Yields h inputs x v)
    (hw : Yields h inputs x w) : v = w := by
  have hbits : v.bits = w.bits := h.int_injective (pure_injective (hv.2.symm.trans hw.2))
  rw [← ofBits_bits v, hbits, ofBits_bits]

/-- **`NumericTypeConvert` converts.** -/
theorem numericTypeConvert_yields {v : t.Value} (hx : Yields h inputs x v) (u : IntegerType) :
    ∃ y, numericTypeConvert t.valueType u.valueType x = .ok y ∧
      Yields h inputs y (converted u v) := by
  by_cases htu : t = u
  · subst htu
    rw [converted_self]
    exact ⟨x, if_pos rfl, hx⟩
  · have hne : t.valueType ≠ u.valueType := fun heq => htu (valueType_injective heq)
    refine ⟨.op₁ (.intCast u.width u.isSigned) x, ?_, rfl, ?_⟩
    · rw [numericTypeConvert, if_neg hne]
      simp
    · simp only [IRExpr.op₁, Ssa.Expr.eval, Ssa.Expr.evalArgs, hx.2, pure_bind, h.intCast,
        converted,
        bits_ofBits]

/-- **When the code casts**: exactly if the value is not lost. -/
theorem numericTypeConvert_casts_iff [Inhabited W] {v : t.Value} (hx : Yields h inputs x v)
    (u : IntegerType) :
    (∃ y, numericTypeConvert t.valueType u.valueType x = .ok y ∧
      Yields h inputs y (staticCast u v)) ↔
      ¬ Lost u v := by
  obtain ⟨y, hy, hyields⟩ := numericTypeConvert_yields hx u
  rw [← converted_eq_iff]
  constructor
  · rintro ⟨y', hy', hcast⟩
    obtain rfl : y = y' := Except.ok.inj (hy.symm.trans hy')
    exact hyields.unique hcast
  · intro heq
    exact ⟨y, hy, heq ▸ hyields⟩

end

end CodeGen

end JitFusion
