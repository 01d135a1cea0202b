/-
# The types of the code of an operator

The expressions the code generator emits for conversions, conditions and operators
(`src/codegen/`), on operands of the LLVM types the validator promises: none of them ends in an
internal error, and the value is of the LLVM type of the node.

Three registered functions back the operators on strings and lists (`Builtins`).
-/
import JitFusion.CodeGen
import JitFusion.Lowerable

namespace JitFusion

namespace CodeGen

open TypeHelper Validator

/-! ## 1. LLVM types -/

theorem valueTypeToLLVMType_integer {t : ValueType} (h : isIntegerType t = true) :
    valueTypeToLLVMType t = .ok (.int (intWidth t)) := by
  cases t <;> first | rfl | exact nomatch h

theorem valueTypeToLLVMType_float {t : ValueType} (h : isFloatType t = true) :
    valueTypeToLLVMType t = .ok (floatTypeOf t) := by
  cases t <;> first | rfl | exact nomatch h

/-- Only `unknown` has no LLVM type. -/
theorem valueTypeToLLVMType_ok {t : ValueType} (h : t ≠ .kUnknown) :
    ∃ type, valueTypeToLLVMType t = .ok type := by
  cases t <;> first | exact ⟨_, rfl⟩ | exact absurd rfl h

theorem valueTypeToLLVMType_ne_kUnknown {t : ValueType} {type : LLVMType}
    (h : valueTypeToLLVMType t = .ok type) : t ≠ .kUnknown := by
  rintro rfl
  cases h

/-- A number is an integer or a floating-point value. -/
theorem valueTypeToLLVMType_numeric {t : ValueType} (h : isNumericType t = true) :
    ∃ type, valueTypeToLLVMType t = .ok type ∧
      (type.isIntegerTy = true ∨ type.isFloatingPointTy = true) := by
  cases hi : isIntegerType t with
  | true => exact ⟨_, valueTypeToLLVMType_integer hi, .inl rfl⟩
  | false =>
    refine ⟨_, valueTypeToLLVMType_float (isFloatType_of_isNumericType h hi), .inr ?_⟩
    unfold floatTypeOf
    split <;> rfl

variable {n : Nat} {inputs : Fin n → LLVMType}

/-- The value of the expression is of the LLVM type of `t`. -/
def Typed (inputs : Fin n → LLVMType) (x : IRExpr n) (t : ValueType) : Prop :=
  valueTypeToLLVMType t = .ok (x.type inputs)

theorem type_op₁ (o : Opcode) (x : IRExpr n) :
    (IRExpr.op₁ o x).type inputs = o.resultType [x.type inputs] := by
  simp only [IRExpr.op₁, IRExpr.type, IRExpr.types]

theorem type_op₂ (o : Opcode) (x y : IRExpr n) :
    (IRExpr.op₂ o x y).type inputs = o.resultType [x.type inputs, y.type inputs] := by
  simp only [IRExpr.op₂, IRExpr.type, IRExpr.types]

/-- A truth value is widened to a byte. -/
theorem typed_truth (x : IRExpr n) : Typed inputs (.op₁ (.zext 8) x) .kU8 := by
  rw [Typed, type_op₁]
  rfl

/-! ## 2. Conversions and conditions -/

/-- A conversion to an integer: a cast, or one of the two instructions for a floating-point
operand. -/
theorem numericTypeConvert_integer {fromType toType : ValueType} {x : IRExpr n}
    (hne : fromType ≠ toType) (hf : isNumericType fromType = true)
    (ht : isIntegerType toType = true) :
    ∃ o, numericTypeConvert fromType toType x = .ok (.op₁ o x) ∧
      ∀ types, o.resultType types = .int (intWidth toType) := by
  unfold numericTypeConvert
  dsimp only
  rw [if_neg hne]
  cases hfi : isIntegerType fromType with
  | true =>
    rw [if_pos rfl, if_pos ht]
    exact ⟨_, rfl, fun _ => rfl⟩
  | false =>
    rw [if_neg Bool.false_ne_true, if_pos (isFloatType_of_isNumericType hf hfi), if_pos ht]
    split
    · exact ⟨_, rfl, fun _ => rfl⟩
    · exact ⟨_, rfl, fun _ => rfl⟩

theorem numericTypeConvert_integerToFloat {fromType toType : ValueType} {x : IRExpr n}
    (hne : fromType ≠ toType) (hf : isIntegerType fromType = true)
    (ht : isFloatType toType = true) (hti : isIntegerType toType = false) :
    ∃ o, numericTypeConvert fromType toType x = .ok (.op₁ o x) ∧
      ∀ types, o.resultType types = floatTypeOf toType := by
  unfold numericTypeConvert
  dsimp only
  rw [if_neg hne, if_pos hf, hti, if_neg Bool.false_ne_true, if_pos ht]
  split
  · exact ⟨_, rfl, fun _ => rfl⟩
  · exact ⟨_, rfl, fun _ => rfl⟩

theorem numericTypeConvert_floats {fromType toType : ValueType} {x : IRExpr n}
    (hne : fromType ≠ toType) (hf : isFloatType fromType = true)
    (ht : isFloatType toType = true) :
    ∃ o, numericTypeConvert fromType toType x = .ok (.op₁ o x) ∧
      ∀ types, o.resultType types = floatTypeOf toType := by
  cases fromType with
  | kF32 =>
    cases toType with
    | kF32 => exact absurd rfl hne
    | kF64 => exact ⟨.fpExt, rfl, fun _ => rfl⟩
    | _ => exact nomatch ht
  | kF64 =>
    cases toType with
    | kF32 => exact ⟨.fpTrunc, rfl, fun _ => rfl⟩
    | kF64 => exact absurd rfl hne
    | _ => exact nomatch ht
  | _ => exact nomatch hf

/-- **A conversion the validator has seen to succeeds**, in the type it converts to. -/
theorem numericTypeConvert_typed {fromType toType : ValueType} {x : IRExpr n}
    (h : Convertible fromType toType) (hx : Typed inputs x fromType) :
    ∃ y, numericTypeConvert fromType toType x = .ok y ∧ Typed inputs y toType := by
  by_cases he : fromType = toType
  · subst he
    exact ⟨x, by rw [numericTypeConvert, if_pos rfl], hx⟩
  · obtain ⟨hf, ht⟩ := h.resolve_left he
    cases hti : isIntegerType toType with
    | true =>
      obtain ⟨o, hrun, ho⟩ := numericTypeConvert_integer (x := x) he hf hti
      refine ⟨_, hrun, ?_⟩
      rw [Typed, type_op₁, ho]
      exact valueTypeToLLVMType_integer hti
    | false =>
      have htf := isFloatType_of_isNumericType ht hti
      have hconv : ∃ o, numericTypeConvert fromType toType x = .ok (.op₁ o x) ∧
          ∀ types, o.resultType types = floatTypeOf toType := by
        cases hfi : isIntegerType fromType with
        | true => exact numericTypeConvert_integerToFloat he hfi htf hti
        | false => exact numericTypeConvert_floats he (isFloatType_of_isNumericType hf hfi) htf
      obtain ⟨o, hrun, ho⟩ := hconv
      refine ⟨_, hrun, ?_⟩
      rw [Typed, type_op₁, ho]
      exact valueTypeToLLVMType_float htf

/-- A numeric condition can be tested. -/
theorem toBool_ok {t : ValueType} {type : LLVMType} (what : String) (x : IRExpr n)
    (ht : isNumericType t = true) (htype : valueTypeToLLVMType t = .ok type) :
    ∃ y, toBool what type x = .ok y := by
  obtain ⟨type', htype', hnum⟩ := valueTypeToLLVMType_numeric ht
  rw [htype] at htype'
  cases htype'
  unfold toBool
  split
  · exact ⟨_, rfl⟩
  · next hi =>
    rw [if_pos (hnum.resolve_left hi)]
    exact ⟨_, rfl⟩

/-! ## 3. Operators -/

theorem unaryOP_typed {loc : SourceLocation} {op : UnaryOPType} {child ret : ValueType}
    {x : IRExpr n} (type : LLVMType) (h : unaryOPType loc op child = .ok ret)
    (hx : Typed inputs x child) :
    ∃ y, unaryOP op child ret type x = .ok y ∧ Typed inputs y ret := by
  obtain ⟨hc, hr, hsame, hnot⟩ := unaryOPType_numeric h
  cases op with
  | kPlus =>
    rw [hsame (.inl rfl)]
    exact ⟨x, rfl, hx⟩
  | kMinus =>
    obtain ⟨y, hy, hty⟩ := numericTypeConvert_typed (.inr ⟨hc, hr⟩) hx
    refine ⟨.op₁ (if isIntegerType ret then .neg else .fNeg) y, ?_, ?_⟩
    · unfold unaryOP
      dsimp only
      rw [hy]
      rfl
    · rw [Typed, type_op₁]
      split <;> exact hty
  | kNot =>
    rw [hnot rfl]
    exact ⟨_, rfl, typed_truth _⟩
  | kBitwiseNot =>
    rw [hsame (.inr rfl)]
    exact ⟨.op₁ .not x, rfl, by rw [Typed, type_op₁]; exact hx⟩

theorem relationalOpcode_some {op : BinaryOPType} (t : ValueType)
    (h : isRelationalBinaryOPType op = true) : ∃ o, relationalOpcode t op = some o := by
  cases op <;> first | exact ⟨_, rfl⟩ | exact nomatch h

/-- An operator of the third kind has an instruction, of the type of its operands. -/
theorem calcOpcode_some {op : BinaryOPType} (t : ValueType)
    (hlog : isLogicalBinaryOPType op = false) (hrel : isRelationalBinaryOPType op = false) :
    ∃ o, calcOpcode t op = some o ∧ ∀ a b, o.resultType [a, b] = a := by
  cases op with
  | kLarge | kLargeEqual | kEqual | kLess | kLessEqual | kNotEqual => exact nomatch hrel
  | kAnd | kOr => exact nomatch hlog
  | kAdd | kSub | kMul | kDiv | kMod =>
    refine ⟨_, rfl, fun a b => ?_⟩
    unfold byType
    split
    · split <;> rfl
    · rfl
  | kBitwiseShiftRight =>
    refine ⟨_, rfl, fun a b => ?_⟩
    split <;> rfl
  | _ => exact ⟨_, rfl, fun a b => rfl⟩

theorem isNumericType_of_isListType {t : ValueType} (h : isListType t = true) :
    isNumericType t = false := by
  cases t <;> first | rfl | exact nomatch h

/-- The code of an operator on two numbers. -/
theorem solveBinaryOpNumericType_typed {op : BinaryOPType} {lhs rhs ret : ValueType}
    {x y : IRExpr n} (h : BinaryTyped op lhs rhs ret) (hlog : isLogicalBinaryOPType op = false)
    (hl : isNumericType lhs = true) (hr : isNumericType rhs = true) (hx : Typed inputs x lhs)
    (hy : Typed inputs y rhs) :
    ∃ z, solveBinaryOpNumericType op lhs rhs ret x y = .ok z ∧ Typed inputs z ret := by
  unfold solveBinaryOpNumericType
  cases h with
  | truth _ _ hop =>
    have hrel : isRelationalBinaryOPType op = true := by
      rcases hop with hop | hop
      · rw [hlog] at hop
        cases hop
      · exact hop
    have hp := isNumericType_getPromotedType hl hr
    obtain ⟨x', hx', -⟩ := numericTypeConvert_typed (.inr ⟨hl, hp⟩) hx
    obtain ⟨y', hy', -⟩ := numericTypeConvert_typed (.inr ⟨hr, hp⟩) hy
    obtain ⟨o, ho⟩ := relationalOpcode_some (getPromotedType lhs rhs) hrel
    refine ⟨.op₁ (.zext 8) (.op₂ o x' y'), ?_, typed_truth _⟩
    rw [if_pos hrel]
    dsimp only
    rw [hx', hy', ho]
    rfl
  | number _ _ _ hrel ht =>
    obtain ⟨x', hx', htx⟩ := numericTypeConvert_typed (.inr ⟨hl, ht⟩) hx
    obtain ⟨y', hy', -⟩ := numericTypeConvert_typed (.inr ⟨hr, ht⟩) hy
    obtain ⟨o, ho, htype⟩ := calcOpcode_some ret hlog hrel
    refine ⟨.op₂ o x' y', ?_, ?_⟩
    · rw [hrel, if_neg Bool.false_ne_true, hx', hy', ho]
      rfl
    · rw [Typed, type_op₂, htype]
      exact htx
  | stringCmp => exact nomatch hl
  | concat _ ht =>
    rcases ht with rfl | ht
    · exact nomatch hl
    · rw [isNumericType_of_isListType ht] at hl
      cases hl

/-- What the operators on strings and lists call is registered, with the types of
`InitStringInternalFunc` and `InitListConcatFunc`. -/
structure Builtins (reg : FunctionRegistry) : Prop where
  stringConcat : ∃ fs, reg.find ("StringConcat", [.kString, .kString, .kPtr]) = some (.kString, fs)
  stringCmp : ∃ fs, reg.find ("StringCmp", [.kString, .kString]) = some (.kI32, fs)
  listConcat : ∀ t, isListType t = true →
    ∃ fs, reg.find ("ListConcat", [t, t, .kPtr]) = some (t, fs)

variable {reg : FunctionRegistry}

theorem getFuncBySign_find {sign : FunctionSignature} {t : ValueType} {fs : FunctionStructure}
    (h : reg.find sign.key = some (t, fs)) :
    reg.getFuncBySign sign = .ok ({ sign with retType := t }, fs) := by
  unfold FunctionRegistry.getFuncBySign
  rw [h]

theorem listOrStringConcat_typed {t : ValueType} {x y : IRExpr n} (hreg : Builtins reg)
    (ht : t = .kString ∨ isListType t = true) :
    ∃ z, listOrStringConcat reg t t t x y = .ok z ∧ Typed inputs z t := by
  have hfind : ∃ fs, reg.find (if t = .kString then "StringConcat" else "ListConcat",
      [t, t, .kPtr]) = some (t, fs) := by
    by_cases hs : t = .kString
    · rw [if_pos hs, hs]
      exact hreg.stringConcat
    · rw [if_neg hs]
      exact hreg.listConcat t (ht.resolve_left hs)
  have hne : t ≠ .kUnknown := by
    rintro rfl
    simp [isListType] at ht
  obtain ⟨fs, hfs⟩ := hfind
  obtain ⟨type, htype⟩ := valueTypeToLLVMType_ok hne
  unfold listOrStringConcat
  generalize (if t = .kString then "StringConcat" else "ListConcat") = name at hfs
  refine ⟨.op (.call (FunctionSignature.toString ⟨name, [t, t, .kPtr], t⟩) type)
    [x, y, .arg 1], ?_, ?_⟩
  · rw [getFuncBySign_find hfs]
    dsimp only [bind, Except.bind]
    rw [htype]
  · rw [Typed, IRExpr.type]
    exact htype

theorem stringCmpPredicate_some {op : BinaryOPType} (h : isRelationalBinaryOPType op = true) :
    ∃ p, stringCmpPredicate op = some p := by
  cases op <;> first | exact ⟨_, rfl⟩ | exact nomatch h

/-- The code of an operator on two strings or two lists. -/
theorem solveBinaryOpComplexType_typed {op : BinaryOPType} {lhs rhs ret : ValueType}
    {x y : IRExpr n} (hreg : Builtins reg) (h : BinaryTyped op lhs rhs ret)
    (hn : ¬ (isNumericType lhs = true ∧ isNumericType rhs = true)) :
    ∃ z, solveBinaryOpComplexType reg op lhs rhs ret x y = .ok z ∧ Typed inputs z ret := by
  unfold solveBinaryOpComplexType
  cases h with
  | truth hl hr => exact absurd ⟨hl, hr⟩ hn
  | number hl hr => exact absurd ⟨hl, hr⟩ hn
  | stringCmp hrel =>
    obtain ⟨fs, hfs⟩ := hreg.stringCmp
    obtain ⟨p, hp⟩ := stringCmpPredicate_some hrel
    have hadd : op ≠ .kAdd := by
      rintro rfl
      cases hrel
    rw [if_neg hadd, if_neg (by simp), getFuncBySign_find hfs]
    dsimp only [bind, Except.bind]
    rw [hp]
    exact ⟨_, rfl, typed_truth _⟩
  | concat hop ht =>
    rw [if_pos hop]
    exact listOrStringConcat_typed hreg ht

end CodeGen

end JitFusion
