/-
# The AST builder

`ProgramAstBuilder` (`athena/ast_builder.cc`) and the actions of the grammar (`athena/parser.yy`).
A syntax tree of the grammar says what the parser has recognised; its actions run bottom up and
from left to right, as the parser reduces, and build nodes and statements.

The parser itself is a table.  Of a text it accepts, the actions of a whole tree run.  Of a text
it gives up on, what it has read is the beginning of a text it would accept, and it has run the
first actions of a tree (`Parse.stop`): it stops at a syntax error, or at an exception the
conversion of a literal throws in the scanner.

A node pointer may be null, and a node has an address.  An action that uses a null pointer ends
the run (`Abort.nullDeref`).
-/
import Mathlib.Data.List.AList
import JitFusion.ExecNode
import JitFusion.Lib.Fallible

namespace JitFusion

namespace Athena

/-! ## 1. Syntax -/

/-- `location`, without the file name: the parser is given the source text in its place. -/
structure Location where
  beginLine : Int := 1
  beginCol : Int := 1
  endLine : Int := 1
  endCol : Int := 1
  deriving DecidableEq, Repr

/-- `expr` and `term`.  The four prefix operators are those of `UnaryOPType`, the infix operators
and `and` and `or` those of `BinaryOPType`; `true` and `false` are literals. -/
inductive Term
  | literal (loc : Location) (val : ConstantValueType)
  | list (loc : Location) (valList : ConstantListValueType)
  | identifier (loc : Location) (name : String)
  | entryArg (loc : Location)
  | execCtx (loc : Location)
  | output (loc : Location)
  | paren (term : Term)
  | unary (loc : Location) (op : UnaryOPType) (term : Term)
  | binary (loc : Location) (op : BinaryOPType) (left right : Term)
  | in_ (loc : Location) (left right : Term)
  | if_ (loc : Location) (args : List Term)
  | call (loc : Location) (name : String) (args : List Term)
  | switch_ (loc : Location) (args : List Term)
  deriving Repr

mutual

/-- `statement`.  A when-block has the location of its keyword and its own. -/
inductive Stmt
  | assign (name : String) (expr : Term)
  | let_ (name : String) (expr : Term)
  | expr (expr : Term)
  | when_ (keyword loc : Location) (cond : Term) (block : List Stmt) (chain : List Clause)

/-- A clause of `elif_chain`. -/
inductive Clause
  | elif (cond : Term) (block : List Stmt)
  | else_ (block : List Stmt)

end

/-- `program`: the statements of a text, at least one. -/
structure Program where
  statements : List Stmt
  nonempty : statements ≠ []

/-- Why the parser gives up. -/
inductive Stop
  | syntaxError (message : String)
  /-- `std::stoull`, `std::stod` or `std::stof` throws. -/
  | exception
  deriving DecidableEq, Repr

/-- What the parser does with a text: the tree, and the number of actions it runs before it
gives up, if it does. -/
structure Parse where
  program : Program
  stop : Option (Nat × Stop) := none

/-! ## 2. Nodes -/

/-- A `std::unique_ptr<ExecNode>`. -/
inductive NodePtr
  | null
  | entryArgument (addr : Nat) (info : NodeInfo)
  | execContext (addr : Nat) (info : NodeInfo)
  | output (addr : Nat) (info : NodeInfo)
  | constantValue (addr : Nat) (info : NodeInfo) (val : ConstantValueType)
  | constantListValue (addr : Nat) (info : NodeInfo) (valList : ConstantListValueType)
  | unaryOP (addr : Nat) (info : NodeInfo) (op : UnaryOPType) (child : NodePtr)
  | binaryOP (addr : Nat) (info : NodeInfo) (op : BinaryOPType) (left right : NodePtr)
  | function (addr : Nat) (info : NodeInfo) (funcName : String) (args : List NodePtr)
  | noOP (addr : Nat) (info : NodeInfo) (args : List (VarInfo × NodePtr)) (isolated : Bool)
  | ifNode (addr : Nat) (info : NodeInfo) (args : List NodePtr)
  | switchNode (addr : Nat) (info : NodeInfo) (args : List NodePtr)
  | ifBlock (addr : Nat) (info : NodeInfo) (args : List NodePtr)
  | ref (addr : Nat) (info : NodeInfo) (name : String)

namespace NodePtr

/-- `WithLoc`: the location of the node is set, if there is a node. -/
def withLoc (loc : SourceLocation) : NodePtr → NodePtr
  | null => null
  | entryArgument a info => entryArgument a { info with loc }
  | execContext a info => execContext a { info with loc }
  | output a info => output a { info with loc }
  | constantValue a info v => constantValue a { info with loc } v
  | constantListValue a info v => constantListValue a { info with loc } v
  | unaryOP a info op child => unaryOP a { info with loc } op child
  | binaryOP a info op left right => binaryOP a { info with loc } op left right
  | function a info name args => function a { info with loc } name args
  | noOP a info args isolated => noOP a { info with loc } args isolated
  | ifNode a info args => ifNode a { info with loc } args
  | switchNode a info args => switchNode a { info with loc } args
  | ifBlock a info args => ifBlock a { info with loc } args
  | ref a info name => ref a { info with loc } name

mutual

/-- The tree below a pointer, if there is no null pointer in it. -/
def toExecNode : NodePtr → Option ExecNode
  | null => none
  | entryArgument _ info => some (.entryArgument info)
  | execContext _ info => some (.execContext info)
  | output _ info => some (.output info)
  | constantValue _ info v => some (.constantValue info v)
  | constantListValue _ info v => some (.constantListValue info v)
  | unaryOP _ info op child => child.toExecNode.map (.unaryOP info op)
  | binaryOP _ info op left right =>
    left.toExecNode.bind fun left => right.toExecNode.map (.binaryOP info op left)
  | function _ info name args => (toExecNodes args).map (.function info name)
  | noOP _ info args isolated => (toExecStmts args).map (.noOP info · isolated)
  | ifNode _ info args => (toExecNodes args).map (.ifNode info)
  | switchNode _ info args => (toExecNodes args).map (.switchNode info)
  | ifBlock _ info args => (toExecNodes args).map (.ifBlock info)
  | ref _ info name => some (.ref info name)

def toExecNodes : List NodePtr → Option (List ExecNode)
  | [] => some []
  | arg :: args => arg.toExecNode.bind fun arg => (toExecNodes args).map (arg :: ·)

def toExecStmts : List (VarInfo × NodePtr) → Option (List (VarInfo × ExecNode))
  | [] => some []
  | (var, arg) :: args =>
    arg.toExecNode.bind fun arg => (toExecStmts args).map ((var, arg) :: ·)

end

mutual

/-- The addresses of the nodes of a tree. -/
def addrs : NodePtr → List Nat
  | null => []
  | entryArgument a _ | execContext a _ | output a _ | constantValue a _ _
  | constantListValue a _ _ | ref a _ _ => [a]
  | unaryOP a _ _ child => a :: child.addrs
  | binaryOP a _ _ left right => a :: (left.addrs ++ right.addrs)
  | function a _ _ args | ifNode a _ args | switchNode a _ args | ifBlock a _ args =>
    a :: addrsList args
  | noOP a _ args _ => a :: addrsStmts args

def addrsList : List NodePtr → List Nat
  | [] => []
  | arg :: args => arg.addrs ++ addrsList args

def addrsStmts : List (VarInfo × NodePtr) → List Nat
  | [] => []
  | (_, arg) :: args => arg.addrs ++ addrsStmts args

end

/-! ## 3. Copies -/

/-- A step that allocates nodes, `none` if it uses a null pointer.  The state is the next fresh
address. -/
abbrev Alloc (α : Type) := StateT Nat Option α

/-- `std::make_unique`. -/
def makeUnique (node : Nat → NodePtr) : Alloc NodePtr := do
  let a ← get
  set (a + 1)
  return node a

mutual

/-- `Clone`: `CloneImpl`, and the location of the original.  The two constant nodes are copied
with all their fields; every other node is constructed anew from the copies of its children. -/
def clone : NodePtr → Alloc NodePtr
  | null => failure
  | entryArgument _ info => makeUnique (.entryArgument · { loc := info.loc })
  | execContext _ info => makeUnique (.execContext · { loc := info.loc })
  | output _ info => makeUnique (.output · { loc := info.loc })
  | constantValue _ info v => makeUnique (.constantValue · info v)
  | constantListValue _ info v => makeUnique (.constantListValue · info v)
  | unaryOP _ info op child => do
    let child ← clone child
    makeUnique (.unaryOP · { loc := info.loc } op child)
  | binaryOP _ info op left right => do
    let left ← clone left
    let right ← clone right
    makeUnique (.binaryOP · { loc := info.loc } op left right)
  | function _ info name args => do
    let args ← cloneArgs args
    makeUnique (.function · { loc := info.loc } name args)
  | noOP _ info args isolated => do
    let args ← cloneStmts args
    makeUnique (.noOP · { loc := info.loc } args isolated)
  | ifNode _ info args => do
    let args ← cloneArgs args
    makeUnique (.ifNode · { loc := info.loc } args)
  | switchNode _ info args => do
    let args ← cloneArgs args
    makeUnique (.switchNode · { loc := info.loc } args)
  | ifBlock _ info args => do
    let args ← cloneArgs args
    makeUnique (.ifBlock · { loc := info.loc } args)
  | ref _ info name => makeUnique (.ref · { loc := info.loc } name)

def cloneArgs : List NodePtr → Alloc (List NodePtr)
  | [] => return []
  | arg :: args => do
    let arg ← clone arg
    let args ← cloneArgs args
    return arg :: args

def cloneStmts : List (VarInfo × NodePtr) → Alloc (List (VarInfo × NodePtr))
  | [] => return []
  | (var, arg) :: args => do
    let arg ← clone arg
    let args ← cloneStmts args
    return (var, arg) :: args

end

end NodePtr

/-! ## 4. The builder -/

inductive BuildMode
  | kExpression | kPipeline
  deriving DecidableEq, Repr

structure Statement where
  varName : String := ""
  expression : NodePtr
  isConst : Bool := false

/-- `BlockContext`: the statements of a block so far, and the index of every name's last one. -/
structure BlockContext where
  statements : List Statement := []
  var2index : AList (fun _ : String => Nat) := ∅

/-- `ProgramAstBuilder`.  The innermost block is the current one; `fresh` is the next address. -/
structure Builder where
  current : BlockContext := {}
  blockStack : List BlockContext := []
  parserErrorMessage : String := ""
  customErrorMessage : String := ""
  sourceCode : String := ""
  buildMode : BuildMode := .kExpression
  fresh : Nat := 0

/-- How a build ends early. -/
inductive Abort
  | status (s : Status)
  /-- A C++ exception leaves the build. -/
  | exception
  /-- A method is called on a null node. -/
  | nullDeref
  /-- A vector is read out of range. -/
  | outOfRange
  deriving DecidableEq

/-- The builder, and how many more actions the parser runs. -/
structure Parser where
  builder : Builder
  stop : Option (Nat × Stop) := none

abbrev M (α : Type) := Fallible.M Parser Abort α

namespace BlockContext

/-- `AddStatement`. -/
def addStatement (c : BlockContext) (st : Statement) : BlockContext where
  statements := c.statements ++ [st]
  var2index :=
    if st.varName = "" then c.var2index else c.var2index.insert st.varName c.statements.length

/-- The `NoOPNode` that `LeaveBlock` and `BuildPipeline` make of the statements. -/
def args (c : BlockContext) : List (VarInfo × NodePtr) :=
  c.statements.map fun st => ({ name := st.varName, isConst := st.isConst }, st.expression)

end BlockContext

namespace Builder

/-- The blocks around the current statement, innermost first. -/
def blocks (b : Builder) : List BlockContext := b.current :: b.blockStack

/-- The innermost block that knows the name, and its statement's index. -/
def findVar (name : String) : List BlockContext → Option (BlockContext × Nat)
  | [] => none
  | c :: cs =>
    match c.var2index.lookup name with
    | some i => some (c, i)
    | none => findVar name cs

def locate (b : Builder) (loc : Location) : SourceLocation :=
  ⟨b.sourceCode, loc.beginLine, loc.beginCol, loc.endLine, loc.endCol⟩

/-- The text of an undefined variable's diagnostic. -/
def undefinedMessage (b : Builder) (name : String) (loc : Location) : String :=
  Diagnostic.render
    { level := .kError, message := "variable '" ++ name ++ "' is not defined", loc := b.locate loc }

def enterBlock (b : Builder) : Builder :=
  { b with current := {}, blockStack := b.current :: b.blockStack }

/-- The state after `LeaveBlock`.  Blocks are entered and left in pairs. -/
def leaveBlock (b : Builder) : Builder :=
  match b.blockStack with
  | [] => { b with current := {} }
  | outer :: rest => { b with current := outer, blockStack := rest }

end Builder

/-- `operator<<` of a location. -/
def Location.toString (sourceCode : String) (loc : Location) : String :=
  let endCol := if 0 < loc.endCol then loc.endCol - 1 else 0
  sourceCode ++ ":" ++ ToString.toString loc.beginLine ++ "." ++ ToString.toString loc.beginCol ++
    (if loc.beginLine < loc.endLine then
      "-" ++ ToString.toString loc.endLine ++ "." ++ ToString.toString endCol
    else if loc.beginCol < endCol then "-" ++ ToString.toString endCol
    else "")

def modifyBuilder (f : Builder → Builder) : M Unit :=
  modify fun p => { p with builder := f p.builder }

/-- The parser gives up. -/
def giveUp {α : Type} : Stop → M α
  | .syntaxError message => do
    modifyBuilder fun b => { b with parserErrorMessage := message }
    throw (.status (.parseError message))
  | .exception => throw .exception

/-- Before an action: the parser may have given up. -/
def tick : M Unit := do
  match (← get).stop with
  | none => return ()
  | some (0, why) => giveUp why
  | some (n + 1, why) => modify fun p => { p with stop := some (n, why) }

/-- A step that allocates. -/
def liftAlloc {α : Type} (m : NodePtr.Alloc α) : M α := do
  match m.run (← get).builder.fresh with
  | none => throw .nullDeref
  | some (a, fresh) =>
    modifyBuilder fun b => { b with fresh }
    return a

def makeNode (loc : Location) (node : Nat → NodeInfo → NodePtr) : M NodePtr := do
  let info : NodeInfo := { loc := (← get).builder.locate loc }
  liftAlloc (NodePtr.makeUnique fun a => node a info)

/-- `MakeRefNode`, and the location it is given. -/
def makeRefNode (loc : Location) (name : String) : M NodePtr := do
  let b := (← get).builder
  match Builder.findVar name b.blocks with
  | some (c, i) =>
    if b.buildMode = .kPipeline then makeNode loc fun a info => .ref a info name
    else
      match c.statements[i]? with
      | some st =>
        let node ← liftAlloc st.expression.clone
        return node.withLoc (b.locate loc)
      | none => throw .outOfRange
  | none =>
    modifyBuilder fun b => { b with customErrorMessage := b.undefinedMessage name loc }
    return .null

def addStatement (st : Statement) : M Unit :=
  modifyBuilder fun b => { b with current := b.current.addStatement st }

/-- `LeaveBlock`: the node of the block. -/
def leaveBlock : M NodePtr := do
  let b := (← get).builder
  let node ← liftAlloc (NodePtr.makeUnique fun a => .noOP a {} b.current.args false)
  modifyBuilder Builder.leaveBlock
  return node

/-! ## 5. The actions -/

mutual

def buildTerm : Term → M NodePtr
  | .literal loc val => makeNode loc fun a info => .constantValue a info val
  | .list loc valList => makeNode loc fun a info => .constantListValue a info valList
  | .identifier loc name => do
    tick
    makeRefNode loc name
  | .entryArg loc => makeNode loc .entryArgument
  | .execCtx loc => makeNode loc .execContext
  | .output loc => makeNode loc .output
  | .paren term => buildTerm term
  | .unary loc op term => do
    let child ← buildTerm term
    makeNode loc fun a info => .unaryOP a info op child
  | .binary loc op left right => do
    let left ← buildTerm left
    let right ← buildTerm right
    makeNode loc fun a info => .binaryOP a info op left right
  | .in_ loc left right => do
    let left ← buildTerm left
    let right ← buildTerm right
    makeNode loc fun a info => .function a info "in" [left, right]
  | .if_ loc args => do
    let args ← buildArgs args
    makeNode loc fun a info => .ifNode a info args
  | .call loc name args => do
    let args ← buildArgs args
    makeNode loc fun a info => .function a info name args
  | .switch_ loc args => do
    let args ← buildArgs args
    makeNode loc fun a info => .switchNode a info args

def buildArgs : List Term → M (List NodePtr)
  | [] => return []
  | arg :: args => do
    let arg ← buildTerm arg
    let args ← buildArgs args
    return arg :: args

end

/-- The check of `when_block`: `error`, then `YYERROR`. -/
def checkWhen (keyword : Location) : M Unit := do
  let b := (← get).builder
  if b.buildMode = .kExpression then
    giveUp (.syntaxError (keyword.toString b.sourceCode ++ ": " ++
      "when block is not allowed in expression mode"))

/-- `block`, around its statements. -/
def buildBlock (stmts : M Unit) : M NodePtr := do
  tick
  modifyBuilder Builder.enterBlock
  stmts
  tick
  leaveBlock

mutual

def buildStmt : Stmt → M Statement
  | .assign name expr => do return { varName := name, expression := ← buildTerm expr }
  | .let_ name expr => do
    return { varName := name, expression := ← buildTerm expr, isConst := true }
  | .expr expr => do return { expression := ← buildTerm expr }
  | .when_ keyword loc cond block chain => do
    let cond ← buildTerm cond
    let block ← buildBlock (buildStmts block)
    let chain ← buildChain chain
    tick
    checkWhen keyword
    return { expression := ← makeNode loc fun a info => .ifBlock a info (cond :: block :: chain) }

/-- `program`: each statement is added as soon as it is recognised. -/
def buildStmts : List Stmt → M Unit
  | [] => return ()
  | stmt :: stmts => do
    let st ← buildStmt stmt
    tick
    addStatement st
    buildStmts stmts

def buildClause : Clause → M (List NodePtr)
  | .elif cond block => do
    let cond ← buildTerm cond
    let block ← buildBlock (buildStmts block)
    return [cond, block]
  | .else_ block => do
    let block ← buildBlock (buildStmts block)
    return [block]

def buildChain : List Clause → M (List NodePtr)
  | [] => return []
  | clause :: clauses => do
    let args ← buildClause clause
    let rest ← buildChain clauses
    return args ++ rest

end

/-! ## 6. Building a program -/

/-- What `BuildExpression` and `BuildPipeline` reset.  The stack of blocks is not reset. -/
def Builder.reset (b : Builder) (code : String) (mode : BuildMode) : Builder :=
  { b with
    current := {}
    parserErrorMessage := ""
    customErrorMessage := ""
    sourceCode := code
    buildMode := mode }

/-- `Scan`, and the check for an undefined variable. -/
def scan (parse : Parse) : M Unit := do
  buildStmts parse.program.statements
  match (← get).stop with
  | some (_, why) => giveUp why
  | none =>
    let b := (← get).builder
    if b.customErrorMessage ≠ "" then throw (.status (.parseError b.customErrorMessage))

def buildExpression (code : String) (parse : Parse) : M NodePtr := do
  modify fun p => { builder := p.builder.reset code .kExpression, stop := parse.stop }
  scan parse
  match (← get).builder.current.statements.getLast? with
  | some st => return st.expression
  | none => throw .outOfRange

def buildPipeline (code : String) (parse : Parse) : M NodePtr := do
  modify fun p => { builder := p.builder.reset code .kPipeline, stop := parse.stop }
  scan parse
  let args := (← get).builder.current.args
  liftAlloc (NodePtr.makeUnique fun a => .noOP a {} args false)

end Athena

end JitFusion
