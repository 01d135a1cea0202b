/-
# The expression tree

`ExecNode` (`include/exec_node.h`), one constructor a node class.  Every node carries the two
fields of the base class, its recorded return type and its source location, in a `NodeInfo`;
the validator's only effect on a tree is to fill in the return types.

`NoOPNode` keeps its statements as pairs of a `VarInfo` and a node: the source keeps two
parallel vectors and reads them at the same index.
-/
import JitFusion.Diagnostic

namespace JitFusion

/-- The fields of the base class `ExecNode`. -/
structure NodeInfo where
  returnType : ValueType := .kUnknown
  loc : SourceLocation := {}
  deriving DecidableEq, Repr

/-- `SetReturnType`. -/
def NodeInfo.setReturnType (info : NodeInfo) (t : ValueType) : NodeInfo :=
  { info with returnType := t }

/-- The name a statement binds, empty when it binds none, and whether `let` declares it. -/
structure VarInfo where
  name : String := ""
  isConst : Bool := false
  deriving DecidableEq, Repr

inductive ExecNode
  | entryArgument (info : NodeInfo)
  | execContext (info : NodeInfo)
  | output (info : NodeInfo)
  | constantValue (info : NodeInfo) (val : ConstantValueType)
  | constantListValue (info : NodeInfo) (valList : ConstantListValueType)
  | unaryOP (info : NodeInfo) (op : UnaryOPType) (child : ExecNode)
  | binaryOP (info : NodeInfo) (op : BinaryOPType) (left right : ExecNode)
  | function (info : NodeInfo) (funcName : String) (args : List ExecNode)
  | noOP (info : NodeInfo) (args : List (VarInfo × ExecNode)) (isolated : Bool)
  | ifNode (info : NodeInfo) (args : List ExecNode)
  | switchNode (info : NodeInfo) (args : List ExecNode)
  | ifBlock (info : NodeInfo) (args : List ExecNode)
  | ref (info : NodeInfo) (name : String)
  deriving Repr

namespace ExecNode

def info : ExecNode → NodeInfo
  | entryArgument i | execContext i | output i | constantValue i _ | constantListValue i _
  | unaryOP i _ _ | binaryOP i _ _ _ | function i _ _ | noOP i _ _ | ifNode i _
  | switchNode i _ | ifBlock i _ | ref i _ => i

def getReturnType (node : ExecNode) : ValueType := node.info.returnType

def getLocation (node : ExecNode) : SourceLocation := node.info.loc

mutual

/-- A tree without statements. -/
def isExpression : ExecNode → Bool
  | entryArgument _ | execContext _ | output _ | constantValue _ _ | constantListValue _ _
  | ref _ _ => true
  | unaryOP _ _ child => isExpression child
  | binaryOP _ _ left right => isExpression left && isExpression right
  | function _ _ args | ifNode _ args | switchNode _ args => argsAreExpressions args
  | noOP _ _ _ | ifBlock _ _ => false

def argsAreExpressions : List ExecNode → Bool
  | [] => true
  | arg :: args => isExpression arg && argsAreExpressions args

end

end ExecNode

end JitFusion
