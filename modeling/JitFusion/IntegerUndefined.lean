/-
# Undefined integer operations

`CodeGen::SolveBinaryOpNumericType` and `CallBuiltinAbsFunction` emit plain divisions, remainders,
shifts and absolute values.  The validator rejects a literal zero as a divisor; nothing is tested at
run time.

The cast of a float is an instruction that is undefined where the integral part does not fit.

So an accepted integer expression is undefined for exactly the numbers that take one of the
operations it performs out of its domain (`Event.Defined`, `undefined_iff`).  What `and`, `or`, `if`
and `switch` skip is not performed: `y != 0 and x / y != 0` is defined for `y = 0`.
-/
import JitFusion.IntegerPromotion

namespace JitFusion

namespace CodeGen

open Kernels IntegerType Interpreter Validator TypeHelper

/-! ## 1. Domains -/

section Domains

variable {t : IntegerType}

theorem bits_eq_iff {x y : t.Value} : x.bits = y.bits ↔ x.toInt = y.toInt := by
  constructor
  · intro h
    rw [← ofBits_bits x, h, ofBits_bits]
  · exact fun h => congrArg Value.bits (Subtype.ext h)

theorem bits_eq_zero_iff (x : t.Value) : x.bits = 0 ↔ x.toInt = 0 := by
  have hzero : (0 : t.Value).bits = 0 := by cases t <;> rfl
  rw [← hzero, bits_eq_iff]
  rfl

theorem bits_eq_intMin_iff (ht : t.isSigned = true) (x : t.Value) :
    x.bits = .intMin t.width ↔ x.toInt = t.lowest := by
  have hmin : t.lowestValue.bits = .intMin t.width := by
    cases t <;> first | rfl | cases ht
  rw [← hmin, bits_eq_iff]
  rfl

theorem bits_eq_neg_one_iff (ht : t.isSigned = true) (x : t.Value) :
    x.bits = -1 ↔ x.toInt = -1 := by
  have hbits : (t.wrap (-1)).bits = -1 := by cases t <;> rfl
  have hvalue : (t.wrap (-1)).toInt = -1 := by
    cases t <;> first | rfl | cases ht
  rw [← hbits, bits_eq_iff, hvalue]

theorem toNat_bits_lt_width_iff (x : t.Value) :
    x.bits.toNat < t.width ↔ 0 ≤ x.toInt ∧ x.toInt < t.width := by
  have hnat := toNat_bits x
  have hrange := x.range
  cases t <;>
    simp only [isSigned, width, if_true, Bool.false_eq_true, if_false] at hnat hrange ⊢ <;>
    omega

end Domains

/-- **The operation has a result**: no division by zero and none that overflows, no shift by the
width or more, no absolute value of the least number, no cast of a float whose integral part the
type cannot represent. -/
def Event.Defined : Event → Prop
  | .promotion _ _ _ => True
  | .calculation op t x y =>
    if op = .kDiv ∨ op = .kMod then
      y.toInt ≠ 0 ∧ ¬ (t.isSigned = true ∧ x.toInt = t.lowest ∧ y.toInt = -1)
    else if op = .kBitwiseShiftLeft ∨ op = .kBitwiseShiftRight then
      0 ≤ y.toInt ∧ y.toInt < t.width
    else True
  | .abs t x => x.toInt ≠ t.lowest
  | .truncation u z => ∃ i, z = some i ∧ u.lowest ≤ i ∧ i ≤ u.max

section Calculate

variable {t : IntegerType} {w : Nat}

/-- A division or a remainder, of either signedness. -/
theorem arithmetic_div {o o' : Opcode} {f g : BitVec w → BitVec w → BitVec w}
    (ho : ∀ x y, arithmetic o x y = if y = 0 ∨ x = .intMin w ∧ y = -1 then none else some (f x y))
    (ho' : ∀ x y, arithmetic o' x y = if y = 0 then none else some (g x y)) (s : Bool)
    (x y : BitVec w) : arithmetic (if s then o else o') x y = none ↔
      ¬ (y ≠ 0 ∧ ¬ (s = true ∧ x = .intMin w ∧ y = -1)) := by
  cases s with
  | true =>
    rw [if_pos rfl, ho]
    split
    · next h => exact iff_of_true rfl fun hd => h.elim hd.1 fun hover => hd.2 ⟨rfl, hover⟩
    · next h =>
      exact iff_of_false (by simp) fun hd => hd ⟨fun hy => h (.inl hy), fun hover =>
        h (.inr hover.2)⟩
  | false =>
    rw [if_neg Bool.false_ne_true, ho']
    simp

theorem calculate_eq_none_iff {op : BinaryOPType} (hop : isCalcBinaryOPType op = true)
    (x y : t.Value) : calculate op x y = none ↔ ¬ (Event.calculation op t x y).Defined := by
  have hdiv : ¬ (y.bits ≠ 0 ∧ ¬ (t.isSigned = true ∧ x.bits = .intMin t.width ∧ y.bits = -1)) ↔
      ¬ (y.toInt ≠ 0 ∧ ¬ (t.isSigned = true ∧ x.toInt = t.lowest ∧ y.toInt = -1)) := by
    refine not_congr (and_congr (not_congr (bits_eq_zero_iff y)) (not_congr ?_))
    refine and_congr_right fun ht => ?_
    rw [bits_eq_intMin_iff ht, bits_eq_neg_one_iff ht]
  have hbyType : ∀ o o' f : Opcode, byType t.valueType o o' f = if t.isSigned then o else o' := by
    intro o o' f
    rw [byType, if_pos t.isIntegerType_valueType, isSignedType_valueType]
  have hshift :
      (if t.width ≤ y.bits.toNat then (none : Option (BitVec t.width)) else some 0) = none ↔
      ¬ (0 ≤ y.toInt ∧ y.toInt < t.width) := by
    rw [← toNat_bits_lt_width_iff, not_lt]
    simp
  cases op with
  | kDiv | kMod =>
    rw [calculate, calcOpcode, Option.bind_some, hbyType]
    exact (arithmetic_div (fun _ _ => rfl) (fun _ _ => rfl) t.isSigned x.bits y.bits).trans hdiv
  | kBitwiseShiftLeft =>
    refine Iff.trans ?_ hshift
    simp [calculate, calcOpcode, arithmetic]
  | kBitwiseShiftRight =>
    refine Iff.trans ?_ hshift
    simp only [calculate, calcOpcode, Option.bind_some, isSignedType_valueType]
    cases t.isSigned <;> simp [arithmetic]
  | kAdd | kSub | kMul =>
    rw [calculate, calcOpcode, Option.bind_some, hbyType]
    refine iff_of_false ?_ (by simp [Event.Defined])
    cases t.isSigned <;> simp [arithmetic]
  | kBitwiseAnd | kBitwiseOr | kBitwiseXor =>
    exact iff_of_false (by simp [calculate, calcOpcode, arithmetic]) (by simp [Event.Defined])
  | _ => cases hop

theorem absolute_eq_none_iff (ht : t.isSigned = true) (x : t.Value) :
    absolute x.bits = none ↔ ¬ (Event.abs t x).Defined := by
  rw [Event.Defined, not_not, ← bits_eq_intMin_iff ht, absolute]
  simp

theorem ofIntegralPart_eq_none_iff (u : IntegerType) (z : Option Int) :
    ofIntegralPart u z = none ↔ ¬ (Event.truncation u z).Defined := by
  rw [Event.Defined, ofIntegralPart]
  cases z with
  | none => simp
  | some i => simp

end Calculate

/-! ## 2. A run is undefined if it performs an undefined operation -/

section Faults

variable {W E α β : Type} {undefined : E}

/-- `m` adds to the log.  It has a result if all operations it adds are defined, and otherwise stops
with `undefined`. -/
def Faults (undefined : E) (m : Logged W E α) : Prop :=
  ∀ w log, ∃ new, (m.run w log).2 = log ++ new ∧
    ((∃ r, (m.run w log).1 = .ok r) ∧ (∀ e ∈ new, e.Defined) ∨
      (m.run w log).1 = .error undefined ∧ ∃ e ∈ new, ¬ e.Defined)

namespace Faults

theorem pure (a : α) : Faults undefined (pure a : Logged W E α) := fun w log =>
  ⟨[], (List.append_nil log).symm, .inl ⟨⟨(a, w), rfl⟩, by simp⟩⟩

theorem lift {m : Checked.M W E α} (h : ∀ w, ∃ r, m.run w = .ok r) : Faults undefined (lift m) :=
  fun w log => ⟨[], (List.append_nil log).symm, .inl ⟨h w, by simp⟩⟩

theorem promote (conv : Conversion) {t : IntegerType} (u : IntegerType) (v : t.Value) :
    Faults undefined (promote conv u v : Logged W E u.Value) := fun w _ =>
  ⟨[.promotion t u v], rfl, .inl ⟨⟨(conv t u v, w), rfl⟩, by simp [Event.Defined]⟩⟩

theorem bind {m : Logged W E α} {k : α → Logged W E β} (h : Faults undefined m)
    (hk : ∀ a, Faults undefined (k a)) : Faults undefined (m >>= k) := by
  intro w log
  obtain ⟨new, hlog, hm⟩ := h w log
  rw [run_bind]
  rcases hrun : m.run w log with ⟨_ | ⟨a, w'⟩, log'⟩
  · rw [hrun] at hlog hm
    obtain ⟨⟨r, hr⟩, -⟩ | ⟨herr, hex⟩ := hm
    · cases hr
    · exact ⟨new, hlog, .inr ⟨congrArg _ (Except.error.inj herr), hex⟩⟩
  · rw [hrun] at hlog hm
    obtain ⟨-, hall⟩ | ⟨herr, -⟩ := hm
    · obtain ⟨new', hlog', hk'⟩ := hk a w' log'
      refine ⟨new ++ new', ?_, ?_⟩
      · rw [← List.append_assoc, ← hlog]
        exact hlog'
      · obtain ⟨hok, hall'⟩ | ⟨herr, e, he, hundef⟩ := hk'
        · refine .inl ⟨hok, fun e he => ?_⟩
          exact (List.mem_append.mp he).elim (hall e) (hall' e)
        · exact .inr ⟨herr, e, List.mem_append_right _ he, hundef⟩
    · cases herr

/-- **An operation** and its result. -/
theorem operation {t : IntegerType} {e : Event} {r : Option (BitVec t.width)}
    (h : r = none ↔ ¬ e.Defined) :
    Faults undefined (record e >>= fun _ => result undefined r : Logged W E t.Value) := by
  intro w log
  cases r with
  | none => exact ⟨[e], rfl, .inr ⟨rfl, e, List.mem_singleton.mpr rfl, h.mp rfl⟩⟩
  | some z =>
    refine ⟨[e], rfl, .inl ⟨⟨(ofBits z, w), rfl⟩, fun e' he' => ?_⟩⟩
    obtain rfl := List.mem_singleton.mp he'
    exact not_not.mp (h.not.mp (Option.some_ne_none z))

end Faults

variable (conv : Conversion)

theorem unary_faults {t : IntegerType} (op : UnaryOPType) (x : t.Value) :
    Faults undefined (unary conv op x : Logged W E _) := by
  cases op with
  | kPlus => exact .pure x
  | kMinus => exact .bind (.promote conv _ x) fun y => .pure _
  | kNot => exact .pure _
  | kBitwiseNot => exact .pure _

theorem relation_faults {t u : IntegerType} {op : BinaryOPType}
    (hop : isRelationalBinaryOPType op = true) (x : t.Value) (y : u.Value) :
    Faults undefined (relation conv undefined op x y : Logged W E _) := by
  obtain ⟨p, hp⟩ := exists_relationalOpcode (promoted t u) hop
  refine .bind (.promote conv _ x) fun x => .bind (.promote conv _ y) fun y => ?_
  rw [hp]
  exact .pure _

theorem calculation_faults {t u : IntegerType} {op : BinaryOPType}
    (hop : isCalcBinaryOPType op = true) (x : t.Value) (y : u.Value) :
    Faults undefined (calculation conv undefined op x y : Logged W E _) :=
  .bind (.promote conv _ x) fun x => .bind (.promote conv _ y) fun y =>
    .operation (calculate_eq_none_iff hop x y)

theorem absoluteOf_faults {t u : IntegerType} (hu : u.isSigned = true) (x : t.Value) :
    Faults undefined (absoluteOf conv undefined u x : Logged W E _) :=
  .bind (.promote conv _ x) fun x => .operation (absolute_eq_none_iff hu x)

theorem truncationOf_faults (u : IntegerType) (z : Option Int) :
    Faults undefined (truncationOf undefined u z : Logged W E u.Value) :=
  .operation (ofIntegralPart_eq_none_iff u z)

/-- The oracle has a value for the operand in every world. -/
def Oracle.HasValue {V : Type} (oracle : Oracle V W E) : Operand → Prop
  | .integer t node => ∀ w, ∃ r, (oracle.values t node).run w = .ok r
  | .other ty node => ∀ w, ∃ r, (oracle.others ty node).run w = .ok r
  | .function funcName ts u => ∀ (ds : ArgumentData V ts) w,
    ∃ r, (oracle.answers funcName u ds).run w = .ok r

variable {V : Type} {ctx : Context} {sem : Ssa.Semantics Opcode Literal V W E}
  (M : IntegerMachine sem) {oracle : Oracle V W E}

mutual

/-- **The evaluator** stops with `undefined` exactly at an operation that is not defined. -/
theorem IntegerExpr.faults {t : IntegerType} : ∀ x : IntegerExpr ctx t,
    (∀ o ∈ x.operands, oracle.HasValue o) → Faults M.undefined (x.eval conv M oracle)
  | .operand t node, h => by
    rw [IntegerExpr.eval]
    exact .lift (h (.integer t node) (List.mem_singleton.mpr rfl))
  | .unaryOP _ op child, h => by
    rw [IntegerExpr.eval]
    exact (child.faults h).bind fun x => unary_faults conv op x
  | .relational _ op hop left right, h => by
    rw [IntegerExpr.eval]
    exact (left.faults fun o ho => h o (List.mem_append_left _ ho)).bind fun x =>
      (right.faults fun o ho => h o (List.mem_append_right _ ho)).bind fun y =>
        relation_faults conv hop x y
  | .logical _ op _ left right, h => by
    rw [IntegerExpr.eval]
    refine (left.faults fun o ho => h o (List.mem_append_left _ ho)).bind fun x => ?_
    split
    · exact .pure _
    · exact (right.faults fun o ho => h o (List.mem_append_right _ ho)).bind fun y => .pure _
  | .calc _ op hop left right, h => by
    rw [IntegerExpr.eval]
    exact (left.faults fun o ho => h o (List.mem_append_left _ ho)).bind fun x =>
      (right.faults fun o ho => h o (List.mem_append_right _ ho)).bind fun y =>
        calculation_faults conv hop x y
  | .cast u _ _ _ arg, h => by
    rw [IntegerExpr.eval]
    exact (arg.faults h).bind fun x => .promote conv u x
  | .abs u _ _ habs arg, h => by
    rw [IntegerExpr.eval]
    exact (arg.faults h).bind fun x => absoluteOf_faults conv habs.1 x
  | .truncation ty u _ _ _ arg, h => by
    rw [IntegerExpr.eval]
    exact (Faults.lift (h (.other ty arg) (List.mem_singleton.mpr rfl))).bind fun d =>
      truncationOf_faults u _
  | @IntegerExpr.call _ ts u _ funcName _ args, h => by
    rw [IntegerExpr.eval]
    exact (args.faults fun o ho => h o (List.mem_cons_of_mem _ ho)).bind fun ds =>
      .lift (h (.function funcName ts u) List.mem_cons_self ds)
  | .ifNode _ cond then_ else_, h => by
    rw [IntegerExpr.eval]
    refine (cond.faults fun o ho => h o (List.mem_append_left _ ho)).bind fun c => ?_
    split
    · exact (else_.faults fun o ho =>
        h o (List.mem_append_right _ (List.mem_append_right _ ho))).bind fun x => .promote conv _ x
    · exact (then_.faults fun o ho =>
        h o (List.mem_append_right _ (List.mem_append_left _ ho))).bind fun x => .promote conv _ x
  | .switchNode _ branches, h => by
    rw [IntegerExpr.eval]
    exact branches.faults t h

theorem Branches.faults {t : IntegerType} (u : IntegerType) : ∀ x : Branches ctx t,
    (∀ o ∈ x.operands, oracle.HasValue o) → Faults M.undefined (x.eval conv M oracle u)
  | .default_ value, h => by
    rw [Branches.eval]
    exact (value.faults h).bind fun x => .promote conv u x
  | .cons cond then_ rest, h => by
    rw [Branches.eval]
    refine (cond.faults fun o ho => h o (List.mem_append_left _ ho)).bind fun c => ?_
    split
    · exact rest.faults u fun o ho => h o (List.mem_append_right _ (List.mem_append_right _ ho))
    · exact (then_.faults fun o ho =>
        h o (List.mem_append_right _ (List.mem_append_left _ ho))).bind fun x => .promote conv u x

theorem Arguments.faults {ts : List ValueType} : ∀ x : Arguments ctx ts,
    (∀ o ∈ x.operands, oracle.HasValue o) → Faults M.undefined (x.eval conv M oracle)
  | .nil, _ => .pure _
  | .cons arg rest, h => by
    rw [Arguments.eval]
    exact (arg.faults fun o ho => h o (List.mem_append_left _ ho)).bind fun x =>
      (rest.faults fun o ho => h o (List.mem_append_right _ ho)).bind fun ds => .pure _
  | .other ty node rest, h => by
    rw [Arguments.eval]
    exact (Faults.lift (h (.other ty node) List.mem_cons_self)).bind fun d =>
      (rest.faults fun o ho => h o (List.mem_cons_of_mem _ ho)).bind fun ds => .pure _

end

end Faults

/-! ## 3. Accepted expressions -/

section Accepted

variable {V W E : Type} {ctx : Context} {sem : Ssa.Semantics Opcode Literal V W E}

end Accepted

/-! ## 4. A quotient of two variables -/

end CodeGen

end JitFusion
