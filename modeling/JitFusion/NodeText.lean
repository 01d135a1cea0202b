/-
# The text of a node

`ExecNode::ToString` (`src/exec_node.cc`): a tree as indented lines, one line a node, with a
line before every statement that binds a name.  The pipeline grouper compares subtrees by this
text.

A text is a list of bytes, since a string constant may be any bytes.  `std::to_string` prints a
float as `%f` does, with six digits after the point, rounded from the exact value to the nearest
and from the middle to the even one.
-/

import Mathlib.Algebra.Ring.Int.Defs
import Mathlib.Algebra.Ring.Nat
import JitFusion.ExecNode

namespace JitFusion

/-- The bytes of a string. -/
def text (s : String) : Bytes := s.toUTF8.data.toList

theorem text_append (s t : String) : text (s ++ t) = text s ++ text t := by
  simp [text]

theorem text_injective {s t : String} (h : text s = text t) : s = t := by
  have hbytes : s.toUTF8 = t.toUTF8 := by
    rw [text, text, Array.toList_inj] at h
    exact congrArg ByteArray.mk h
  exact String.toByteArray_inj.mp hbytes

/-! ## 1. Numbers -/

/-- The nearest integer to `n / d`, from the middle the even one. -/
def roundHalfEven (n d : Nat) : Nat :=
  let q := n / d
  let r := n % d
  if 2 * r < d then q
  else if 2 * r > d then q + 1
  else q + q % 2

/-- `%f` of `mantissa * 2 ^ exponent`. -/
def fixedToString (mantissa : Nat) (exponent : Int) : Bytes :=
  let scaled :=
    if 0 ≤ exponent then mantissa * 10 ^ 6 * 2 ^ exponent.toNat
    else roundHalfEven (mantissa * 10 ^ 6) (2 ^ (-exponent).toNat)
  let fraction := Nat.repr (scaled % 10 ^ 6)
  text (Nat.repr (scaled / 10 ^ 6)) ++ text "." ++
    List.replicate (6 - fraction.length) 0x30 ++ text fraction

/-- `std::to_string` of a float: its bits, and how many hold the exponent and the fraction. -/
def floatToString (expBits fracBits bits : Nat) : Bytes :=
  let fraction := bits % 2 ^ fracBits
  let exponent := bits / 2 ^ fracBits % 2 ^ expBits
  let bias : Int := 2 ^ (expBits - 1) - 1 + fracBits
  let sign := if bits.testBit (expBits + fracBits) then text "-" else []
  let digits :=
    if exponent = 2 ^ expBits - 1 then
      if fraction = 0 then text "inf" else text "nan"
    else if exponent = 0 then fixedToString fraction (1 - bias)
    else fixedToString (2 ^ fracBits + fraction) (exponent - bias)
  sign ++ digits

/-- `ValueToString`. -/
def valueToString : ConstantValueType → Bytes
  | .i8 v => text (Int.repr v.toInt)
  | .i16 v => text (Int.repr v.toInt)
  | .i32 v => text (Int.repr v.toInt)
  | .i64 v => text (Int.repr v.toInt)
  | .u8 v => text (Nat.repr v.toNat)
  | .u16 v => text (Nat.repr v.toNat)
  | .u32 v => text (Nat.repr v.toNat)
  | .u64 v => text (Nat.repr v.toNat)
  | .f32 bits => floatToString 8 23 bits.toNat
  | .f64 bits => floatToString 11 52 bits.toNat
  | .string v => v

example : valueToString (.f64 0xbff8000000000000) = text "-1.500000" := by decide

/-- The elements between commas. -/
def joinElements (elements : List Bytes) : Bytes :=
  text "[" ++ (text ",").intercalate elements ++ text "]"

/-- `VectorValueToString`. -/
def vectorValueToString : ConstantListValueType → Bytes
  | .i8 v => joinElements (v.map fun x => valueToString (.i8 x))
  | .i16 v => joinElements (v.map fun x => valueToString (.i16 x))
  | .i32 v => joinElements (v.map fun x => valueToString (.i32 x))
  | .i64 v => joinElements (v.map fun x => valueToString (.i64 x))
  | .u8 v => joinElements (v.map fun x => valueToString (.u8 x))
  | .u16 v => joinElements (v.map fun x => valueToString (.u16 x))
  | .u32 v => joinElements (v.map fun x => valueToString (.u32 x))
  | .u64 v => joinElements (v.map fun x => valueToString (.u64 x))
  | .f32 bits => joinElements (bits.map fun x => valueToString (.f32 x))
  | .f64 bits => joinElements (bits.map fun x => valueToString (.f64 x))
  | .string v => joinElements v

/-! ## 2. Nodes -/

namespace ExecNode

/-- The line before a statement, which names what it binds. -/
def bindingLine (pre : Bytes) (info : VarInfo) : Bytes :=
  if info.name = "" then []
  else pre ++ text "|   |--[" ++ (if info.isConst then text "let " else []) ++ text info.name ++
    text "]\n"

mutual

/-- `ToStringImpl`. -/
def toStringImpl (pre : Bytes) : ExecNode → Bytes
  | entryArgument _ => pre ++ text "|--entry_argument\n"
  | execContext _ => pre ++ text "|--exec_context\n"
  | output _ => pre ++ text "|--output\n"
  | constantValue _ val => pre ++ text "|--" ++ valueToString val ++ text "\n"
  | constantListValue _ valList => pre ++ text "|--" ++ vectorValueToString valList ++ text "\n"
  | unaryOP _ op child =>
    pre ++ text "|--" ++ text (TypeHelper.unaryOPTypeToString op) ++ text "\n" ++
      toStringImpl (pre ++ text "|   ") child
  | binaryOP _ op left right =>
    pre ++ text "|--" ++ text (TypeHelper.binaryOPTypeToString op) ++ text "\n" ++
      toStringImpl (pre ++ text "|   ") left ++ toStringImpl (pre ++ text "|   ") right
  | function _ funcName args =>
    pre ++ text "|--" ++ text funcName ++ text "\n" ++ argsToString (pre ++ text "|   ") args
  | noOP _ args _ => pre ++ text "|--no_op\n" ++ statementsToString pre args
  | ifNode _ args => pre ++ text "|--if\n" ++ argsToString (pre ++ text "|   ") args
  | switchNode _ args => pre ++ text "|--switch\n" ++ argsToString (pre ++ text "|   ") args
  | ifBlock _ args => pre ++ text "|--if_block\n" ++ argsToString (pre ++ text "|   ") args
  | ref _ name => pre ++ text "|--ref(" ++ text name ++ text ")\n"

def argsToString (pre : Bytes) : List ExecNode → Bytes
  | [] => []
  | arg :: args => toStringImpl pre arg ++ argsToString pre args

def statementsToString (pre : Bytes) : List (VarInfo × ExecNode) → Bytes
  | [] => []
  | (info, arg) :: args =>
    bindingLine pre info ++ toStringImpl (pre ++ text "|   ") arg ++ statementsToString pre args

end

/-- `ToString` with the default prefix. -/
def toString (node : ExecNode) : Bytes := toStringImpl [] node

/-- The text of a node begins with a bar. -/
theorem toString_head (node : ExecNode) : ∃ rest, node.toString = 0x7c :: rest := by
  cases node <;> simp only [toString, toStringImpl, List.nil_append, List.append_assoc] <;>
    exact ⟨_, rfl⟩

end ExecNode

end JitFusion
