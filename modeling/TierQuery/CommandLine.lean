/-! The command line. `compile` prints the statement of a description, `check` only says whether there
is one; the description is a file, standard input or an argument. An option that takes a value waits
for it, and a value is looked at when the next option or the end shows that it is complete. -/

namespace TierQuery

/-- Why arguments are not a command. A request for help ends the reading as well. -/
inductive UsageError
  | help
  | nothingGiven
  | unknownCommand
  | unknownArgument
  | conflict
  | invalidValue
  | surplusValue
deriving DecidableEq

inductive CommandName
  | compile
  | check
deriving DecidableEq

structure Invocation where
  command : CommandName
  verbosity : Nat
  path? : Option String
  text? : Option String
  count : Bool
  json : Bool
deriving DecidableEq

namespace CommandLine

/-- A value that has been given but not looked at. -/
inductive Pending
  | nothing
  | path (s : String)
  | text (s? : Option String)

structure State where
  invocation : Invocation
  pending : Pending
  /-- A path has been given. -/
  positional : Bool
  /-- The next argument is the value of an option, if it is not an option itself. -/
  expecting : Bool
  /-- Everything that follows is a path. -/
  trailing : Bool

def State.begin (command : CommandName) : State :=
  ⟨⟨command, 0, none, none, false, false⟩, .nothing, false, false, false⟩

abbrev Parsed := Except UsageError

def setText (s : State) (text : String) : Parsed State :=
  match s.invocation.text? with
  | some _ => .error .conflict
  | none => .ok { s with invocation := { s.invocation with text? := some text } }

/-- Look at the value that was given last. -/
def settle (s : State) : Parsed State :=
  let s' := { s with pending := .nothing, expecting := false }
  match s.pending with
  | .nothing => .ok s'
  | .path p =>
    if p = "" then .error .invalidValue
    else .ok { s' with invocation := { s.invocation with path? := some p } }
  | .text none => .error .invalidValue
  | .text (some t) => setText s' t

/-- The option for the description, with its value or waiting for it. -/
def textOption (s : State) (value? : Option String) : Parsed State := do
  let s ← settle s
  match value? with
  | some v => setText s v
  | none => .ok { s with pending := .text none, expecting := true }

def countFlag (s : State) : Parsed State := do
  let s ← settle s
  if s.invocation.count then .error .conflict
  else .ok { s with invocation := { s.invocation with count := true } }

def jsonFlag (s : State) : Parsed State := do
  let s ← settle s
  if s.invocation.json then .error .conflict
  else .ok { s with invocation := { s.invocation with json := true } }

/-- Each mention adds one, up to 255. -/
def verboseFlag (s : State) : Parsed State := do
  let s ← settle s
  .ok { s with invocation := { s.invocation with
    verbosity := min 255 (s.invocation.verbosity + 1) } }

def helpFlag (s : State) : Parsed State := do
  let _ ← settle s
  .error .help

/-- A flag, which takes no value. -/
def flag (react : State → Parsed State) (s : State) : Option String → Parsed State
  | some _ => .error .surplusValue
  | none => react s

/-- What stands before and after the first equals sign. -/
def splitValue (cs : List Char) : String × Option String :=
  match cs.dropWhile (· != '=') with
  | [] => (String.ofList cs, none)
  | _ :: v => (String.ofList (cs.takeWhile (· != '=')), some (String.ofList v))

def longOption (s : State) (cs : List Char) : Parsed State :=
  let (name, value?) := splitValue cs
  if name = "help" then flag helpFlag s value?
  else if name = "query" then textOption s value?
  else if name = "count" ∧ s.invocation.command = .compile then flag countFlag s value?
  else if name = "json" ∧ s.invocation.command = .compile then flag jsonFlag s value?
  else .error .unknownArgument

/-- The value that follows a letter in the same argument. -/
def attached : List Char → Option String
  | [] => none
  | '=' :: v => some (String.ofList v)
  | v => some (String.ofList v)

/-- Letters behind one dash; an option with a value takes all that follows it. -/
def shortOptions : State → List Char → Parsed State
  | s, [] => .ok s
  | s, c :: cs =>
    if c = 'h' then helpFlag s
    else if c = 'v' then do shortOptions (← verboseFlag s) cs
    else if c = 'q' then textOption s (attached cs)
    else .error .unknownArgument

def path (s : State) (a : String) : Parsed State :=
  if s.positional then .error .unknownArgument
  else do
    let s ← settle s
    .ok { s with pending := .path a, positional := true }

def argument (s : State) (a : String) : Parsed State :=
  if s.trailing then path s a
  else
    match a.toList with
    | '-' :: '-' :: [] => .ok { s with trailing := true }
    | '-' :: '-' :: cs => longOption s cs
    | '-' :: c :: cs => shortOptions s (c :: cs)
    | _ =>
      if s.expecting then .ok { s with pending := .text (some a), expecting := false }
      else path s a

/-- The arguments of a command. A description comes from one place only. -/
def invocation (command : CommandName) (args : List String) : Parsed Invocation := do
  let s ← args.foldlM argument (.begin command)
  let s ← settle s
  if s.invocation.path?.isSome ∧ s.invocation.text?.isSome then .error .conflict
  else .ok s.invocation

def command? (a : String) : Option CommandName :=
  if a = "compile" then some .compile else if a = "check" then some .check else none

def isCommand (a : String) : Bool := (command? a).isSome || a = "help"

/-- Help on the commands named: none or one of them. -/
def helpOn : List String → UsageError
  | [] => .help
  | [a] => if isCommand a then .help else .unknownCommand
  | _ => .unknownCommand

/-- The arguments after a double dash in front of the command. -/
def afterDashes : List String → UsageError
  | [] => .nothingGiven
  | a :: _ => if isCommand a then .unknownArgument else .unknownCommand

def ofArguments : List String → Parsed Invocation
  | [] => .error .nothingGiven
  | a :: args =>
    match command? a with
    | some c => invocation c args
    | none =>
      if a = "help" then .error (helpOn args)
      else
        match a.toList with
        | '-' :: '-' :: [] => .error (afterDashes args)
        | '-' :: '-' :: cs =>
          let (name, value?) := splitValue cs
          if name = "help" then .error (if value?.isSome then .surplusValue else .help)
          else .error .unknownArgument
        | '-' :: 'h' :: _ => .error .help
        | '-' :: _ :: _ => .error .unknownArgument
        | _ => .error .unknownCommand

end CommandLine

end TierQuery
