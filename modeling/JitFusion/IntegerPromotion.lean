/-
# Integer promotions

Every operator, branch and cast converts its operands, so the number an integer expression has is
right if no conversion loses a value.

The evaluator of an expression runs once with the conversion of the code and once with the cast.
The two runs are compared event by event (`Matches`): as long as no promotion loses its value they
are one run.  `promotions_iff` puts this together with the code: a promotion keeps the values its
target can represent, unless the source is unsigned, the target signed and wider, and the top bit
of the value set.
-/
import JitFusion.IntegerExpr

namespace JitFusion

namespace CodeGen

open Kernels IntegerType Interpreter Validator

/-! ## 1. Lost values -/

namespace Event

/-- A promotion that loses its value. -/
def Loses : Event → Prop
  | promotion _ u v => Lost u v
  | _ => False

/-- A promotion keeps a value that its target can represent. -/
def Keeps : Event → Prop
  | promotion _ u v => Representable u v → (converted u v).toInt = v.toInt
  | _ => True

/-- A promotion loses a value that its target can represent. -/
def LosesRepresentable : Event → Prop
  | promotion _ u v => Representable u v ∧ Lost u v
  | _ => False

theorem keeps_iff : ∀ e : Event, e.Keeps ↔ ¬ e.LosesRepresentable
  | promotion _ u v => by
    unfold Keeps LosesRepresentable
    rw [not_and]
    exact forall_congr' fun h => toInt_converted_iff h
  | calculation _ _ _ _ => iff_of_true trivial id
  | abs _ _ => iff_of_true trivial id
  | truncation _ _ => iff_of_true trivial id

end Event

/-! ## 2. Two runs of the evaluator -/

section Matches

variable {W E α β : Type}

/-- `m` adds to the log, and if no promotion it adds loses its value then `m'` does the same. -/
def Matches (m m' : Logged W E α) : Prop :=
  ∀ w log, ∃ new, (m.run w log).2 = log ++ new ∧
    ((∀ e ∈ new, ¬ e.Loses) → m'.run w log = m.run w log)

namespace Matches

theorem same {m : Logged W E α} (h : ∀ w log, ∃ new, (m.run w log).2 = log ++ new) :
    Matches m m := fun w log => (h w log).imp fun _ hnew => ⟨hnew, fun _ => rfl⟩

theorem pure (a : α) : Matches (pure a : Logged W E α) (pure a) :=
  same fun _ log => ⟨[], (List.append_nil log).symm⟩

theorem throw (e : E) : Matches (throw e : Logged W E α) (throw e) :=
  same fun _ log => ⟨[], (List.append_nil log).symm⟩

theorem lift (m : Checked.M W E α) : Matches (lift m) (lift m) :=
  same fun _ log => ⟨[], (List.append_nil log).symm⟩

theorem record (e : Event) : Matches (record e : Logged W E Unit) (record e) :=
  same fun _ _ => ⟨[e], rfl⟩

/-- **A promotion**: the conversion is the cast unless it loses the value. -/
theorem promote {t : IntegerType} (u : IntegerType) (v : t.Value) :
    Matches (promote (fun _ => converted) u v : Logged W E u.Value)
      (promote (fun _ => staticCast) u v) := by
  intro w log
  refine ⟨[.promotion t u v], rfl, fun hnew => ?_⟩
  have hcast := (converted_eq_iff u v).mpr (hnew _ (List.mem_singleton.mpr rfl))
  simp only [CodeGen.promote, hcast]

theorem bind {m m' : Logged W E α} {k k' : α → Logged W E β} (h : Matches m m')
    (hk : ∀ a, Matches (k a) (k' a)) : Matches (m >>= k) (m' >>= k') := by
  intro w log
  obtain ⟨new, hlog, hsame⟩ := h w log
  rcases hrun : m.run w log with ⟨_ | ⟨a, w'⟩, log'⟩
  · rw [hrun] at hlog hsame
    refine ⟨new, ?_, fun hnew => ?_⟩
    · rw [run_bind, hrun]
      exact hlog
    · rw [run_bind, run_bind, hrun, hsame hnew]
  · rw [hrun] at hlog hsame
    obtain ⟨new', hlog', hsame'⟩ := hk a w' log'
    refine ⟨new ++ new', ?_, fun hnew => ?_⟩
    · rw [run_bind, hrun, ← List.append_assoc, ← hlog]
      exact hlog'
    · rw [run_bind, run_bind, hrun, hsame fun e he => hnew e (List.mem_append_left _ he)]
      exact hsame' fun e he => hnew e (List.mem_append_right _ he)

theorem result {t : IntegerType} (undefined : E) (r : Option (BitVec t.width)) :
    Matches (result undefined r : Logged W E t.Value) (result undefined r) := by
  cases r with
  | none => exact .throw undefined
  | some z => exact .pure (ofBits z)

end Matches

variable (undefined : E)

theorem unary_matches {t : IntegerType} (op : UnaryOPType) (x : t.Value) :
    Matches (unary (fun _ => converted) op x : Logged W E _)
      (unary (fun _ => staticCast) op x) := by
  cases op with
  | kPlus => exact .pure x
  | kMinus => exact .bind (.promote _ x) fun y => .pure _
  | kNot => exact .pure _
  | kBitwiseNot => exact .pure _

theorem relation_matches {t u : IntegerType} (op : BinaryOPType) (x : t.Value) (y : u.Value) :
    Matches (relation (fun _ => converted) undefined op x y : Logged W E _)
      (relation (fun _ => staticCast) undefined op x y) := by
  refine .bind (.promote _ x) fun x => .bind (.promote _ y) fun y => ?_
  split
  · exact .pure _
  · exact .throw undefined

theorem calculation_matches {t u : IntegerType} (op : BinaryOPType) (x : t.Value) (y : u.Value) :
    Matches (calculation (fun _ => converted) undefined op x y : Logged W E _)
      (calculation (fun _ => staticCast) undefined op x y) :=
  .bind (.promote _ x) fun _ => .bind (.promote _ y) fun _ =>
    .bind (.record _) fun _ => .result undefined _

theorem absoluteOf_matches {t : IntegerType} (u : IntegerType) (x : t.Value) :
    Matches (absoluteOf (fun _ => converted) undefined u x : Logged W E _)
      (absoluteOf (fun _ => staticCast) undefined u x) :=
  .bind (.promote _ x) fun _ => .bind (.record _) fun _ => .result undefined _

theorem truncationOf_matches (u : IntegerType) (z : Option Int) :
    Matches (truncationOf undefined u z : Logged W E u.Value) (truncationOf undefined u z) :=
  .bind (.record _) fun _ => .result undefined _

variable {V : Type} {ctx : Context} {sem : Ssa.Semantics Opcode Literal V W E}
  (M : IntegerMachine sem) (oracle : Oracle V W E)

mutual

/-- **With the cast instead**: the run is the same as long as no value is lost. -/
theorem IntegerExpr.casts {t : IntegerType} : ∀ x : IntegerExpr ctx t,
    Matches (x.eval (fun _ => converted) M oracle) (x.eval (fun _ => staticCast) M oracle)
  | .operand t node => by
    rw [IntegerExpr.eval, IntegerExpr.eval]
    exact .lift (oracle.values t node)
  | .unaryOP _ op child => by
    rw [IntegerExpr.eval, IntegerExpr.eval]
    exact child.casts.bind fun x => unary_matches op x
  | .relational _ op _ left right => by
    rw [IntegerExpr.eval, IntegerExpr.eval]
    exact left.casts.bind fun x => right.casts.bind fun y => relation_matches M.undefined op x y
  | .logical _ op _ left right => by
    rw [IntegerExpr.eval, IntegerExpr.eval]
    refine left.casts.bind fun x => ?_
    split
    · exact .pure _
    · exact right.casts.bind fun y => .pure _
  | .calc _ op _ left right => by
    rw [IntegerExpr.eval, IntegerExpr.eval]
    exact left.casts.bind fun x => right.casts.bind fun y =>
      calculation_matches M.undefined op x y
  | .cast u _ _ _ arg => by
    rw [IntegerExpr.eval, IntegerExpr.eval]
    exact arg.casts.bind fun x => .promote u x
  | .abs u _ _ _ arg => by
    rw [IntegerExpr.eval, IntegerExpr.eval]
    exact arg.casts.bind fun x => absoluteOf_matches M.undefined u x
  | .truncation ty u _ _ _ arg => by
    rw [IntegerExpr.eval, IntegerExpr.eval]
    exact (Matches.lift (oracle.others ty arg)).bind fun d => truncationOf_matches M.undefined u _
  | .call u _ funcName _ args => by
    rw [IntegerExpr.eval, IntegerExpr.eval]
    exact args.casts.bind fun ds => .lift (oracle.answers funcName u ds)
  | .ifNode _ cond then_ else_ => by
    rw [IntegerExpr.eval, IntegerExpr.eval]
    refine cond.casts.bind fun c => ?_
    split
    · exact else_.casts.bind fun x => .promote _ x
    · exact then_.casts.bind fun x => .promote _ x
  | .switchNode _ branches => by
    rw [IntegerExpr.eval, IntegerExpr.eval]
    exact branches.casts t

theorem Branches.casts {t : IntegerType} (u : IntegerType) : ∀ x : Branches ctx t,
    Matches (x.eval (fun _ => converted) M oracle u) (x.eval (fun _ => staticCast) M oracle u)
  | .default_ value => by
    rw [Branches.eval, Branches.eval]
    exact value.casts.bind fun x => .promote u x
  | .cons cond then_ rest => by
    rw [Branches.eval, Branches.eval]
    refine cond.casts.bind fun c => ?_
    split
    · exact rest.casts u
    · exact then_.casts.bind fun x => .promote u x

theorem Arguments.casts {ts : List ValueType} : ∀ x : Arguments ctx ts,
    Matches (x.eval (fun _ => converted) M oracle) (x.eval (fun _ => staticCast) M oracle)
  | .nil => .pure _
  | .cons arg rest => by
    rw [Arguments.eval, Arguments.eval]
    exact arg.casts.bind fun x => rest.casts.bind fun ds => .pure _
  | .other ty node rest => by
    rw [Arguments.eval, Arguments.eval]
    exact (Matches.lift (oracle.others ty node)).bind fun d => rest.casts.bind fun ds => .pure _

end

end Matches

/-! ## 3. When promotions are right -/

section Promotions

variable {V W E : Type} {ctx : Context} {sem : Ssa.Semantics Opcode Literal V W E}

/-- **When conversions preserve values.**  The code of a conversion is the cast exactly if the value
is not lost: it does not get wider, keeps its signedness, or has a clear top bit.  In the run of an
integer expression every promotion keeps the values that its target can represent exactly if none of
them loses one; and if none loses a value, the run is that with the cast in place of the
conversion. -/
theorem promotions_iff [Inhabited W] (M : IntegerMachine sem)
    (lit : ConstantListValueType → Literal) :
    (∀ (t u : IntegerType) (v : t.Value) (memory : Nat → u.Value) (l : ListStruct t.Value),
      (staticCast u v).toInt ≡ v.toInt [ZMOD 2 ^ u.width] ∧
        (listCastNumericToNumeric memory l).result.toList = l.toList.map (staticCast u)) ∧
    (∀ {n : Nat} {inputs : Fin n → Datum V} {y : IRExpr n} {t : IntegerType} (u : IntegerType)
      {v : t.Value}, Yields M.toIntegerSemantics inputs y v →
        ((∃ z, numericTypeConvert t.valueType u.valueType y = .ok z ∧
          Yields M.toIntegerSemantics inputs z (staticCast u v)) ↔ ¬ Lost u v)) ∧
    ∀ {t : IntegerType} (x : IntegerExpr ctx t) {st s : ScopeStack VarEntry} {store : Store V}
      {oracle : Oracle V W E} {a : ExecNode},
      (∀ o ∈ x.operands, IsOperand M lit st store oracle ctx o) →
      Visits ctx.functionRegistry st x.node a s → ∀ w,
        let run := (x.eval (fun _ => converted) M oracle).run w []
        (eval ctx sem lit a store).run w = run.1.map (fun p => ((some (M.datum p.1), store), p.2)) ∧
        ((∀ e ∈ run.2, e.Keeps) ↔ ∀ e ∈ run.2, ¬ e.LosesRepresentable) ∧
        ((∀ e ∈ run.2, ¬ e.Loses) →
          (x.eval (fun _ => staticCast) M oracle).run w [] = run) := by
  refine ⟨fun t u v memory l => ⟨u.wrap_modEq v.toInt, listCastNumericToNumeric_toList memory l⟩,
    fun u _ hy => numericTypeConvert_casts_iff hy u, ?_⟩
  intro t x st s store oracle a hops hvisits w
  refine ⟨(x.follows M lit st store oracle hops _ _ hvisits).2.2 w [],
    forall₂_congr fun e _ => e.keeps_iff, fun hnone => ?_⟩
  obtain ⟨new, hlog, hsame⟩ := x.casts M oracle w []
  refine hsame fun e he => hnone e ?_
  rw [hlog, List.nil_append]
  exact he

end Promotions

/-! ## 4. A machine -/

/-- The second bit vector, if it is as wide as the first. -/
def withWidth {w : Nat} : (Σ w, BitVec w) → Option (BitVec w)
  | ⟨w', y⟩ => if h : w' = w then some (y.cast h) else none

theorem withWidth_mk {w : Nat} (y : BitVec w) : withWidth (⟨w, y⟩ : Σ w, BitVec w) = some y := by
  rw [withWidth, dif_pos rfl]
  rfl

/-- The integral part of a binary float with `e` bits of exponent and `m` bits of fraction. -/
def integralPartOf (e m x : Nat) : Option Int :=
  let exponent := x / 2 ^ m % 2 ^ e
  let fraction := x % 2 ^ m
  let significand := if exponent = 0 then fraction else 2 ^ m + fraction
  let point := 2 ^ (e - 1) - 1 + m
  let magnitude : Int := ((significand * 2 ^ Nat.max exponent 1 / 2 ^ point : Nat) : Int)
  if exponent = 2 ^ e - 1 then none
  else some (if x / 2 ^ (e + m) % 2 = 1 then -magnitude else magnitude)

def integralPart : (Σ w, BitVec w) → Option Int
  | ⟨32, x⟩ => integralPartOf 8 23 x.toNat
  | ⟨64, x⟩ => integralPartOf 11 52 x.toNat
  | _ => none

/-- The integral part, if it is among the `2 ^ w` numbers from `lowest` on. -/
def integralBits (lowest : Int) (w : Nat) (x : Σ w, BitVec w) : Option (Σ w, BitVec w) :=
  ((integralPart x).bind fun z =>
    if lowest ≤ z ∧ z ≤ lowest + 2 ^ w - 1 then some (BitVec.ofInt w z) else none).map (⟨w, ·⟩)

/-- A machine whose values are bit vectors. -/
def wordMachine : Ssa.Semantics Opcode Literal (Σ w, BitVec w) Unit Unit where
  const
    | .value (.u8 v) | .value (.i8 v) => ⟨8, v⟩
    | .value (.u16 v) | .value (.i16 v) => ⟨16, v⟩
    | .value (.u32 v) | .value (.i32 v) => ⟨32, v⟩
    | .value (.u64 v) | .value (.i64 v) => ⟨64, v⟩
    | .value (.f32 v) => ⟨32, v⟩
    | .value (.f64 v) => ⟨64, v⟩
    | .zero (.int w) => ⟨w, 0⟩
    | .bool b => ⟨1, if b then 1 else 0⟩
    | _ => ⟨0, 0⟩
  arg _ := ⟨0, 0⟩
  truthy x := decide (x.2 ≠ 0)
  op
    | .intCast w isSigned, [⟨_, x⟩] => pure ⟨w, intCast w isSigned x⟩
    | .zext w, [⟨_, x⟩] => pure ⟨w, x.setWidth w⟩
    | .fpToSI w, [x] => orUndefined () (integralBits (-2 ^ (w - 1)) w x)
    | .fpToUI w, [x] => orUndefined () (integralBits 0 w x)
    | .neg, [⟨w, x⟩] => pure ⟨w, -x⟩
    | .not, [⟨w, x⟩] => pure ⟨w, ~~~x⟩
    | .icmp p, [⟨_, x⟩, y] =>
      orUndefined () ((withWidth y).map fun y => ⟨1, if compare p x y then 1 else 0⟩)
    | .call _ _, [⟨w, x⟩, _] => orUndefined () ((absolute x).map (⟨w, ·⟩))
    | o, [⟨w, x⟩, y] => orUndefined () (((withWidth y).bind (arithmetic o x)).map (⟨w, ·⟩))
    | _, _ => throw ()

def wordMachine_integers : IntegerMachine wordMachine where
  int x := ⟨_, x⟩
  int_injective := word_injective
  intCast _ _ _ := rfl
  undefined := ()
  literal t v := by cases t <;> rfl
  arithmetic o x y ho := by
    cases o <;> simp only [Opcode.isArithmetic, Bool.false_eq_true] at ho <;>
      simp only [wordMachine, withWidth_mk, Option.bind_some]
  icmp p x y := by
    simp only [wordMachine, withWidth_mk]
    rfl
  zext b := by cases b <;> rfl
  abs x := rfl
  neg x := rfl
  not x := rfl
  zero w := rfl
  truthy b := by cases b <;> rfl
  integralPart := integralPart
  fpToInt u x := by cases u <;> rfl

/-- The number of a literal. -/
def literalValue : (t : IntegerType) → ExecNode → t.Value
  | .uint8, .constantValue _ (.u8 v) => ofBits v
  | .uint16, .constantValue _ (.u16 v) => ofBits v
  | .uint32, .constantValue _ (.u32 v) => ofBits v
  | .uint64, .constantValue _ (.u64 v) => ofBits v
  | .int8, .constantValue _ (.i8 v) => ofBits v
  | .int16, .constantValue _ (.i16 v) => ofBits v
  | .int32, .constantValue _ (.i32 v) => ofBits v
  | .int64, .constantValue _ (.i64 v) => ofBits v
  | _, _ => 0

theorem literalValue_literal {t : IntegerType} (v : t.Value) (info : NodeInfo) :
    literalValue t (.constantValue info (t.literal v)) = v := by
  cases t <;> exact ofBits_bits v

/-- There are no other operands than literals. -/
def literalOracle : Oracle (Σ w, BitVec w) Unit Unit where
  values t node := pure (literalValue t node)
  others _ _ := throw ()
  answers _ _ _ _ := throw ()

theorem literalOracle_values {t : IntegerType} (v : t.Value) (info : NodeInfo) :
    literalOracle.values t (.constantValue info (t.literal v)) = pure v :=
  congrArg pure (literalValue_literal v info)

def emptyContext : Context where
  functionRegistry := {}
  callback _ _ _ _ := none
  hashOrder := .dedup

/-- `v + w`, for literals of the types `u8` and `i16`. -/
def promotedSum (v : IntegerType.Value .uint8) (w : IntegerType.Value .int16) :
    IntegerExpr emptyContext .int16 :=
  .calc {} .kAdd rfl (.operand .uint8 (.constantValue {} (IntegerType.literal .uint8 v)))
    (.operand .int16 (.constantValue {} (IntegerType.literal .int16 w)))

theorem promotedSum_operands (v : IntegerType.Value .uint8) (w : IntegerType.Value .int16) :
    ∀ o ∈ (promotedSum v w).operands, IsOperand (W := Unit) wordMachine_integers Literal.list {}
      (fun _ => none) literalOracle emptyContext o := by
  intro o ho
  obtain rfl | ho := List.mem_cons.mp ho
  · exact isOperand_constantValue (literalOracle_values v {})
  · obtain rfl := List.mem_singleton.mp ho
    exact isOperand_constantValue (literalOracle_values w {})

/-- The tree of a sum, with its types. -/
theorem promotedSum_visits (v : IntegerType.Value .uint8) (w : IntegerType.Value .int16) :
    Visits {} {} (promotedSum v w).node
      (.binaryOP { returnType := .kI16 } .kAdd
        (.constantValue { returnType := .kU8 } (IntegerType.literal .uint8 v))
        (.constantValue { returnType := .kI16 } (IntegerType.literal .int16 w))) {} :=
  .binaryOP .constantValue .constantValue rfl

/-- `100u8 + 1i16` is 101. -/
theorem promotions_iff_hundred :
    ∃ a, Visits {} {} (promotedSum (IntegerType.wrap _ 100) (IntegerType.wrap _ 1)).node a {} ∧
      (eval emptyContext wordMachine Literal.list a fun _ => none).run () =
        .ok ((some (wordMachine_integers.datum (IntegerType.wrap .int16 101)),
          fun _ => none), ()) := by
  refine ⟨_, promotedSum_visits _ _, ?_⟩
  have hrun := ((promotions_iff wordMachine_integers Literal.list).2.2
    (promotedSum (IntegerType.wrap _ 100) (IntegerType.wrap _ 1))
    (promotedSum_operands _ _) (promotedSum_visits _ _) ()).1
  exact hrun

/-- 200 of type `u8` becomes -56 of type `i16`. -/
theorem promotion_loses :
    ¬ ∃ z, numericTypeConvert .kU8 .kI16 (.input 0 : IRExpr 1) = .ok z ∧
      Yields wordMachine_integers.toIntegerSemantics
        ![wordMachine_integers.datum (IntegerType.wrap .uint8 200)] z
        (staticCast .int16 (IntegerType.wrap .uint8 200)) := by
  intro h
  refine (numericTypeConvert_casts_iff (t := .uint8) (yields_input _ 0 rfl) .int16).mp h ?_
  exact ⟨by decide, by decide, .inr (by decide)⟩

end CodeGen

end JitFusion
