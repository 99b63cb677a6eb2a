import TierQuery.Command

/-! The program: arguments in, a statement or an error message out. -/

namespace TierQuery

def usage : String :=
  joinWith "\n"
    ["Compile annotation-graph queries to Cypher statements", "", "Usage:",
      "  compile <QUERY> [--count] [--json] [-v]", "  compile -q <JSON> [--count] [--json] [-v]",
      "  check <QUERY> [-v]", "  check -q <JSON> [-v]", "",
      "A QUERY of - is read from standard input."]

def UsageError.message : UsageError → String
  | help | nothingGiven => usage
  | unknownCommand => "unrecognized subcommand"
  | unknownArgument => "unexpected argument"
  | conflict => "arguments cannot be used together"
  | invalidValue => "a value is required"
  | surplusValue => "unexpected value"

def fileError : IO.Error → FileError
  | .noFileOrDirectory .. => .missing
  | .inappropriateType _ 20 _ => .notDirectory
  | .inappropriateType .. => .directory
  | .invalidArgument _ 36 _ => .nameTooLong
  | e => .other (toString e)

def decodeBytes (bytes : ByteArray) : Except FileError String :=
  match String.fromUTF8? bytes with
  | some s => .ok s
  | none => .error .notText

def readFile (path : String) : IO (Except FileError String) := do
  try
    return decodeBytes (← IO.FS.readBinFile path)
  catch e => return .error (fileError e)

partial def readAll (h : IO.FS.Stream) (acc : ByteArray) : IO ByteArray := do
  let chunk ← h.read 65536
  if chunk.isEmpty then return acc else readAll h (acc ++ chunk)

/-- The inputs that an invocation asks for. -/
def inputsFor (i : Invocation) : IO Inputs := do
  match i.text?, i.path? with
  | none, some "-" => do
    let bytes ← readAll (← IO.getStdin) .empty
    return ⟨fun _ => .error .missing, decodeBytes bytes⟩
  | none, some path => do
    let contents ← readFile path
    return ⟨fun _ => contents, .ok ""⟩
  | _, _ => return ⟨fun _ => .error .missing, .ok ""⟩

end TierQuery

open TierQuery in
def main (args : List String) : IO UInt32 := do
  match CommandLine.ofArguments args with
  | .error .help =>
    IO.println usage
    return 0
  | .error e =>
    IO.eprintln ("error: " ++ e.message)
    return 2
  | .ok i =>
    match Command.run i (← inputsFor i) with
    | .ok (some output) =>
      IO.println output
      return 0
    | .ok none => return 0
    | .error e =>
      IO.eprintln ("error: " ++ e.message)
      return 1
