/-!
# CssBuild.Cli.Arguments

The arguments of the command line.

1. Flags may stand before the command, after it, and between its operands;
   `--` ends them. An option takes the rest of its own argument or the next
   argument, unless that is an option itself.
2. Arguments are taken from left to right, and the first fault counts. An
   operand or the value of an option is looked at when the next one of them or
   a flag has come, so a later argument that nothing takes comes first.
3. A request for help or for the version is a fault like another.
-/

namespace CssBuild.Cli

/-- What the command line asks for. -/
inductive Command where
  /-- Checks a configuration and sums it up. -/
  | check (location? : Option String)
  /-- Lists the files that a configuration selects. -/
  | files (location? : Option String)
  /-- Shows the value at a dotted key. -/
  | get (key : String) (location? : Option String)
  /-- Writes a configuration in another format. -/
  | convert (input output : String)
  /-- Shows the schema, or the reference of it. -/
  | schema (reference : Bool)
deriving DecidableEq

/-- A whole command line. -/
structure Invocation where
  /-- Whether unknown keys are only worth a warning. -/
  lenient : Bool
  /-- What to do. -/
  command : Command
deriving DecidableEq

/-- Why a command line is not carried out. -/
inductive UsageFault where
  /-- Help is asked for. -/
  | help
  /-- The version is asked for. -/
  | version
  /-- There are no arguments at all. -/
  | nothing
  /-- There is no command. -/
  | noCommand
  /-- There is no such command. -/
  | unknownCommand
  /-- Nothing takes an argument. -/
  | unknownArgument
  /-- An operand is missing. -/
  | missingOperand
  /-- A flag or an option comes twice. -/
  | repeated
  /-- A flag has a value. -/
  | needlessValue
  /-- An option or an operand has no value. -/
  | missingValue
deriving DecidableEq

/-! ## Shapes of commands -/

/-- An operand of a command. -/
structure Operand where
  /-- Whether it may be the empty text. -/
  mayBeEmpty : Bool
  /-- Whether it has to be there. -/
  needed : Bool

/-- What a command takes. -/
structure Shape where
  /-- Its operands in order. -/
  operands : List Operand
  /-- Its flags, besides the one for help. -/
  flags : List String
  /-- Whether it has the option for a configuration. -/
  takesConfig : Bool
  /-- Whether it has a flag for the version. -/
  showsVersion : Bool

/-- The flag that every command has. -/
def lenientFlag : String := "lenient"

/-- The flag of the schema for a reference. -/
def markdownFlag : String := "markdown"

/-- A path that may be left out. -/
def optionalPath : Operand := ⟨false, false⟩

/-- A path that has to be there. -/
def neededPath : Operand := ⟨false, true⟩

/-- What may come before a command. -/
def topShape : Shape := ⟨[], [lenientFlag], false, true⟩

/-- What a command with a name takes. -/
def shapeOf? (name : String) : Option Shape :=
  if name = "check" ∨ name = "files" then some ⟨[optionalPath], [lenientFlag], false, false⟩
  else if name = "get" then some ⟨[⟨true, true⟩], [lenientFlag], true, false⟩
  else if name = "convert" then
    some ⟨[neededPath, neededPath], [lenientFlag], false, false⟩
  else if name = "schema" then some ⟨[], [lenientFlag, markdownFlag], false, false⟩
  else none

/-! ## Reading arguments -/

/-- Something given that has not been looked at yet. -/
inductive Pending where
  /-- An operand. -/
  | operand (shape : Operand) (value : String)
  /-- The option for a configuration, with its value once it has come. -/
  | config (value? : Option String)

/-- What has been read of a command line. -/
structure Given where
  /-- The operands. -/
  operands : List String := []
  /-- The flags. -/
  flags : List String := []
  /-- The value of the option for a configuration. -/
  config? : Option String := none
  /-- What has not been looked at. -/
  pending? : Option Pending := none
  /-- Whether flags have ended. -/
  ended : Bool := false

namespace Given

/-- With the value of the option for a configuration. -/
def setConfig (given : Given) (value : String) : Except UsageFault Given :=
  if given.config?.isSome then .error .repeated
  else if value = "" then .error .missingValue
  else .ok { given with config? := some value }

/-- With nothing left to be looked at. -/
def settle (given : Given) : Except UsageFault Given :=
  let rest := { given with pending? := none }
  match given.pending? with
  | none => .ok rest
  | some (.operand shape value) =>
    if value = "" ∧ !shape.mayBeEmpty then .error .missingValue
    else .ok { rest with operands := rest.operands ++ [value] }
  | some (.config none) => .error .missingValue
  | some (.config (some value)) => rest.setConfig value

/-- The number of operands that have come. -/
def operandCount (given : Given) : Nat :=
  given.operands.length + (match given.pending? with
    | some (.operand _ _) => 1
    | _ => 0)

/-- With a flag. -/
def addFlag (given : Given) (name : String) : Except UsageFault Given := do
  let settled ← given.settle
  if name ∈ settled.flags then .error .repeated
  else .ok { settled with flags := name :: settled.flags }

/-- With the option for a configuration and the value that stands in the same argument. -/
def addConfig (given : Given) (attached? : Option String) : Except UsageFault Given := do
  let settled ← given.settle
  match attached? with
  | some value => settled.setConfig value
  | none => .ok { settled with pending? := some (.config none) }

/-- With an argument that is no flag. -/
def addOperand (given : Given) (shape : Shape) (unexpected : UsageFault) (value : String) :
    Except UsageFault Given :=
  match given.pending?, given.ended with
  | some (.config none), false => .ok { given with pending? := some (.config (some value)) }
  | _, _ =>
    match shape.operands[given.operandCount]? with
    | none => .error unexpected
    | some operand => do
      let settled ← given.settle
      .ok { settled with pending? := some (.operand operand value) }

/-- With an argument that starts with two dashes. -/
def addLong (given : Given) (shape : Shape) (text : List Char) : Except UsageFault Given :=
  let name := String.ofList (text.takeWhile (· != '='))
  let attached? := match text.dropWhile (· != '=') with
    | _ :: value => some (String.ofList value)
    | [] => none
  if name = "config" ∧ shape.takesConfig then given.addConfig attached?
  else if name = "help" ∨ (name = "version" ∧ shape.showsVersion) ∨ name ∈ shape.flags then
    if attached?.isSome then .error .needlessValue
    else if name = "help" then do
      let _ ← given.settle
      .error .help
    else if name = "version" then do
      let _ ← given.settle
      .error .version
    else given.addFlag name
  else .error .unknownArgument

/-- With an argument that starts with one dash. -/
def addShort (given : Given) (shape : Shape) (text : List Char) : Except UsageFault Given :=
  match text with
  | [] => .ok given
  | c :: value =>
    if c = 'h' then do
      let _ ← given.settle
      .error .help
    else if c = 'V' ∧ shape.showsVersion then do
      let _ ← given.settle
      .error .version
    else if c = 'c' ∧ shape.takesConfig then
      given.addConfig <| match value with
        | [] => none
        | '=' :: rest => some (String.ofList rest)
        | other => some (String.ofList other)
    else .error .unknownArgument

/-- With one more argument. `unexpected` is the fault of an operand that nothing takes. -/
def add (given : Given) (shape : Shape) (unexpected : UsageFault) (argument : String) :
    Except UsageFault Given :=
  if given.ended then given.addOperand shape unexpected argument
  else match argument.toList with
    | ['-', '-'] => .ok { given with ended := true }
    | '-' :: '-' :: text => given.addLong shape text
    | '-' :: c :: text => given.addShort shape (c :: text)
    | _ => given.addOperand shape unexpected argument

/-- The operands, once all arguments have been read and enough operands are there. -/
def finish (given : Given) (shape : Shape) : Except UsageFault Given := do
  let settled ← given.settle
  if settled.operands.length < (shape.operands.filter Operand.needed).length then
    .error .missingOperand
  else .ok settled

end Given

/-- The command of a name with what was given for it. -/
def commandOf (name : String) (given : Given) : Command :=
  let first? := given.operands.head?
  if name = "check" then .check first?
  else if name = "files" then .files first?
  else if name = "get" then .get (first?.getD "") given.config?
  else if name = "convert" then .convert (first?.getD "") (given.operands[1]?.getD "")
  else .schema (markdownFlag ∈ given.flags)

/-- Reads the arguments after a command. -/
def readCommand (top : Given) (name : String) (shape : Shape) (arguments : List String) :
    Except UsageFault Invocation := do
  let start : Given := {}
  let read ← arguments.foldlM
    (fun (given : Given) argument => given.add shape .unknownArgument argument) start
  let given ← read.finish shape
  .ok ⟨lenientFlag ∈ top.flags || lenientFlag ∈ given.flags, commandOf name given⟩

/-- The fault of asking for help on some commands. -/
def helpFault (names : List String) : UsageFault :=
  match names with
  | [] => .help
  | [name] => if (shapeOf? name).isSome ∨ name = "help" then .help else .unknownCommand
  | _ => .unknownCommand

/-- Reads arguments after some that come before the command. -/
def readFrom (top : Given) : List String → Except UsageFault Invocation
  | [] => if top.flags.isEmpty then .error .nothing else .error .noCommand
  | argument :: rest =>
    match shapeOf? argument with
    | some shape =>
      if top.ended then .error .unknownArgument else readCommand top argument shape rest
    | none =>
      if argument = "help" then
        if top.ended then .error .unknownArgument else .error (helpFault rest)
      else do
        let top ← top.add topShape .unknownCommand argument
        readFrom top rest

/-- Reads the arguments of a command line. -/
def readArguments (arguments : List String) : Except UsageFault Invocation := readFrom {} arguments

end CssBuild.Cli
