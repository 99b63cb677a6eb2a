import TierQuery.Blank
import TierQuery.CommandLine
import TierQuery.Description
import TierQuery.Statement.Text

/-! What the commands answer: the statement of a description as text or as JSON, or only whether it
has one. -/

namespace TierQuery

open Json (Value)

/-- Why a file cannot be read; a name with a NUL character in it is none. -/
inductive FileError
  | missing
  | directory
  | notDirectory
  | nameTooLong
  | notName
  | notText
  | other (message : String)
deriving DecidableEq

def FileError.message : FileError → String
  | missing => "No such file or directory (os error 2)"
  | directory => "Is a directory (os error 21)"
  | notDirectory => "Not a directory (os error 20)"
  | nameTooLong => "File name too long (os error 36)"
  | notName => "file name contained an unexpected NUL byte"
  | notText => "stream did not contain valid UTF-8"
  | other m => m

/-- Where descriptions are read from. -/
structure Inputs where
  file : String → Except FileError String
  stdin : Except FileError String

inductive CommandError
  | noQuery
  | unreadableFile (path : String) (e : FileError)
  | unreadableInput (e : FileError)
  | emptyQuery
  | description (e : DescriptionError)
  | statement (e : StatementError)

def CommandError.message : CommandError → String
  | noQuery => "query is required: use a positional file path or -q/--query"
  | unreadableFile p e => "failed to read '" ++ p ++ "': " ++ e.message
  | unreadableInput e => "failed to read stdin: " ++ e.message
  | emptyQuery => "query cannot be empty"
  | description e => e.message
  | statement e => e.message

namespace Statement

/-- The text, and behind an empty line one line for every parameter. -/
def report (s : Statement) : String :=
  if s.params.isEmpty then s.text
  else s.text ++ "\n"
    ++ String.join (s.params.entries.map fun (name, v) => "\n$" ++ name ++ " = " ++ v.compact)

def toJson (s : Statement) : Value :=
  .object [("text", .text s.text), ("params", .object s.params.entries),
    ("columns", .array (s.columns.map .text)), ("mode", .text s.mode.name),
    ("retry_safe", .bool s.retrySafe)]

end Statement

namespace Command

/-- The description text that an invocation means. -/
def source (i : Invocation) (inputs : Inputs) : Except CommandError String :=
  match i.text?, i.path? with
  | some t, _ => .ok t
  | none, some p =>
    if p = "-" then inputs.stdin.mapError .unreadableInput
    else (inputs.file p).mapError (.unreadableFile p)
  | none, none => .error .noQuery

def statementOf (text : String) (count : Bool) : Except CommandError Statement := do
  let r ← (Request.ofText text count).mapError .description
  r.statement.mapError .statement

/-- The output of `compile` for a description. -/
def compile (text : String) (count json : Bool) : Except CommandError String := do
  let s ← statementOf text count
  .ok (if json then s.toJson.indented 0 else s.report)

/-- Whether `check` accepts a description. -/
def check (text : String) : Except CommandError Unit := do
  if isBlankText text then .error .emptyQuery
  else
    let _ ← statementOf text false
    .ok ()

/-- What an invocation prints. -/
def run (i : Invocation) (inputs : Inputs) : Except CommandError (Option String) := do
  let text ← source i inputs
  match i.command with
  | .compile => some <$> compile text i.count i.json
  | .check => do
    check text
    .ok none

end Command

end TierQuery
