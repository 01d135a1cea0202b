/-
# Statuses and rendered diagnostics

Every fallible function of the source returns a `Status` (`include/status.h`); the model
returns `Except Status` and keeps the code and the text.  A validator error is a `ParseError`
whose text is a rendered `Diagnostic` (`src/diagnostic.cc`): the message, and, when the node
knows where it stands in the source text, the lines it covers with a caret underline.
-/
import JitFusion.Type

namespace JitFusion

/-! ## 1. `Status` -/

/-- `Status::StatusCode`, without the `kOk` that `Except.ok` stands for. -/
inductive StatusCode
  | kInvalidArgument | kRuntimeError | kParseError | kNotImplemented
  deriving DecidableEq, Repr

/-- A status that is not OK. -/
structure Status where
  code : StatusCode
  msg : String
  deriving DecidableEq, Repr

namespace Status

def invalidArgument (msg : String) : Status := ⟨.kInvalidArgument, msg⟩
def runtimeError (msg : String) : Status := ⟨.kRuntimeError, msg⟩
def parseError (msg : String) : Status := ⟨.kParseError, msg⟩
def notImplemented (msg : String) : Status := ⟨.kNotImplemented, msg⟩

def errName : StatusCode → String
  | .kRuntimeError => "Runtime Error"
  | .kInvalidArgument => "Argument Invalid"
  | .kNotImplemented => "NotImplemented"
  | .kParseError => "Parse Error"

def toString (s : Status) : String := errName s.code ++ ": " ++ s.msg

end Status

/-! ## 2. `Diagnostic` -/

/-- `SourceLocation`: where a node stands in the text it was parsed from. -/
structure SourceLocation where
  sourceCode : String := ""
  beginLine : Int := 0
  beginCol : Int := 0
  endLine : Int := 0
  endCol : Int := 0
  deriving DecidableEq, Repr

namespace SourceLocation

def valid (loc : SourceLocation) : Bool := loc.beginLine > 0

end SourceLocation

inductive DiagnosticLevel
  | kError | kWarning
  deriving DecidableEq, Repr

structure Diagnostic where
  level : DiagnosticLevel
  message : String
  loc : SourceLocation
  notes : List String := []
  hints : List String := []
  deriving DecidableEq, Repr

namespace Diagnostic

def levelToString : DiagnosticLevel → String
  | .kError => "error"
  | .kWarning => "warning"

/-- `SplitLines`: the text between newlines, a trailing empty line kept. -/
def splitLines (text : String) : List (List Char) := text.toList.splitOn '\n'

/-- `std::string(n, c)`. -/
def replicate (n : Int) (c : Char) : String := String.ofList (List.replicate n.toNat c)

def padLeft (s : String) (width : Nat) : String := replicate (width - s.length : Nat) ' ' ++ s

/-- One covered source line and the caret row below it. -/
def renderLine (loc : SourceLocation) (gutter : Nat) (ln : Nat) (srcLine : List Char) : String :=
  let caretBegin : Int := if (ln : Int) = loc.beginLine then max 1 loc.beginCol else 1
  let caretEnd : Int :=
    if (ln : Int) = loc.endLine then max (caretBegin + 1) loc.endCol else srcLine.length + 1
  let caretLen : Int := max (caretEnd - caretBegin) 1
  "\n " ++ padLeft (ToString.toString ln) gutter ++ " | " ++ String.ofList srcLine ++
    "\n " ++ replicate gutter ' ' ++ " | " ++ replicate (caretBegin - 1) ' ' ++
      replicate caretLen '^'

/-- The notes and hints, each on a row of its own behind `pad`. -/
def renderTail (pad : String) (d : Diagnostic) : String :=
  String.join (d.notes.map fun n => "\n " ++ pad ++ " = note: " ++ n) ++
    String.join (d.hints.map fun h => "\n " ++ pad ++ " = hint: " ++ h)

def render (d : Diagnostic) : String :=
  let head := levelToString d.level ++ ": " ++ d.message
  if d.loc.valid = false ∨ d.loc.sourceCode.isEmpty then
    head ++ renderTail "" d
  else
    let lines := splitLines d.loc.sourceCode
    let totalLines : Int := lines.length
    let gutter := (ToString.toString (min d.loc.endLine totalLines)).length
    let startLine : Int := max 1 d.loc.beginLine
    let endLine : Int := max d.loc.endLine d.loc.beginLine
    let covered := (lines.zipIdx 1).filter fun p => startLine ≤ (p.2 : Int) ∧ (p.2 : Int) ≤ endLine
    head ++ "\n  --> line " ++ ToString.toString d.loc.beginLine ++ ", column " ++
      ToString.toString d.loc.beginCol ++ "\n " ++ replicate gutter ' ' ++ " |" ++
        String.join (covered.map fun p => renderLine d.loc gutter p.2 p.1) ++
          renderTail (replicate gutter ' ') d

/-- Every rendered diagnostic begins with its level and its message. -/
theorem render_head (d : Diagnostic) :
    ∃ tail, d.render = levelToString d.level ++ ": " ++ d.message ++ tail := by
  unfold render
  split
  · exact ⟨_, rfl⟩
  · simp only [String.append_assoc]
    exact ⟨_, rfl⟩

theorem render_ne_empty (d : Diagnostic) : d.render ≠ "" := by
  rcases d.render_head with ⟨tail, h⟩
  intro he
  rw [h] at he
  have hlen := congrArg String.length he
  simp only [String.length_append] at hlen
  have hsep : ": ".length = 2 := rfl
  have hempty : "".length = 0 := rfl
  omega

end Diagnostic

end JitFusion
