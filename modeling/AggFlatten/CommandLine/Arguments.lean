/-! The arguments of a command. Options have exact long names, some have a letter, and
several letters can stand behind one hyphen. A value follows its option as the next
argument, or in the same argument, with an equals sign or without. -/
namespace AggFlatten.CommandLine

inductive Switch where
  | verbose
  | input
  | raw
  | pretty
  | lines
  | countField
  | asArray
  | wellFormedOnly
deriving DecidableEq

namespace Switch

def all : List Switch :=
  [verbose, input, raw, pretty, lines, countField, asArray, wellFormedOnly]

def name : Switch → String
  | verbose => "verbose"
  | input => "input"
  | raw => "raw"
  | pretty => "pretty"
  | lines => "ndjson"
  | countField => "count-field"
  | asArray => "as-array"
  | wellFormedOnly => "syntax-only"

def letter? : Switch → Option Char
  | verbose => some 'v'
  | input => some 'i'
  | pretty => some 'p'
  | raw | lines | countField | asArray | wellFormedOnly => none

def takesValue : Switch → Bool
  | input | countField => true
  | verbose | raw | pretty | lines | asArray | wellFormedOnly => false

end Switch

inductive UsageError where
  | noCommand
  | unknownCommand (name : String)
  | unknownOption (argument : String)
  | missingValue (switch : Switch)
  | unexpectedValue (switch : Switch)
  | repeated (switch : Switch)
  | conflict (one other : Switch)
  | missingArgument
  | extraArgument (argument : String)
deriving DecidableEq

def UsageError.message : UsageError → String
  | noCommand => "a command is required"
  | unknownCommand name => "unknown command '" ++ name ++ "'"
  | unknownOption argument => "unknown option '" ++ argument ++ "'"
  | missingValue switch => "--" ++ switch.name ++ " needs a value"
  | unexpectedValue switch => "--" ++ switch.name ++ " takes no value"
  | repeated switch => "--" ++ switch.name ++ " can be given only once"
  | conflict one other => "--" ++ one.name ++ " cannot be used with --" ++ other.name
  | missingArgument => "an argument is missing"
  | extraArgument argument => "unexpected argument '" ++ argument ++ "'"

inductive Argument where
  | switch (s : Switch) (value : Option String)
  | operand (text : String)
deriving DecidableEq

/-- What one argument says, and the switch in it that still needs its value. -/
abbrev Piece := List Argument × Option Switch

/-- The letters behind a hyphen. What follows a letter that takes a value is the value. -/
def readLetters (known : List Switch) : (letters : List Char) → Except UsageError Piece
  | [] => .ok ([], none)
  | c :: rest =>
    match known.find? (·.letter? = some c) with
    | none => .error (.unknownOption (String.ofList ['-', c]))
    | some s =>
      if s.takesValue then
        match rest with
        | [] => .ok ([], some s)
        | '=' :: value => .ok ([.switch s (String.ofList value)], none)
        | value => .ok ([.switch s (String.ofList value)], none)
      else
        (readLetters known rest).map fun (more, pending) => (.switch s none :: more, pending)

/-- A long name, which ends at the first equals sign. -/
def readName (known : List Switch) (text : List Char) : Except UsageError Piece :=
  let name := String.ofList (text.takeWhile (· ≠ '='))
  match known.find? (·.name = name), text.dropWhile (· ≠ '=') with
  | none, _ => .error (.unknownOption ("--" ++ name))
  | some s, [] => .ok (if s.takesValue then ([], some s) else ([.switch s none], none))
  | some s, _ :: value =>
    if s.takesValue then .ok ([.switch s (String.ofList value)], none)
    else .error (.unexpectedValue s)

/-- A hyphen alone is an ordinary argument. -/
def readArgument (known : List Switch) (argument : String) : Except UsageError Piece :=
  match argument.toList with
  | '-' :: '-' :: name => readName known name
  | '-' :: c :: letters => readLetters known (c :: letters)
  | _ => .ok ([.operand argument], none)

def isOption (argument : String) : Bool :=
  match argument.toList with
  | '-' :: _ :: _ => true
  | _ => false

/-- No argument behind a double hyphen is an option. -/
def readArguments (known : List Switch) : List String → Except UsageError (List Argument)
  | [] => .ok []
  | argument :: rest =>
    if argument = "--" then .ok (rest.map .operand)
    else do
      let (read, pending) ← readArgument known argument
      match pending, rest with
      | none, rest => return read ++ (← readArguments known rest)
      | some s, [] => .error (.missingValue s)
      | some s, value :: rest =>
        if isOption value then .error (.missingValue s)
        else return read ++ .switch s value :: (← readArguments known rest)

def operands (arguments : List Argument) : List String :=
  arguments.filterMap fun
    | .operand text => some text
    | .switch _ _ => none

/-- The values of a switch, one for each time it is given. -/
def occurrences (s : Switch) (arguments : List Argument) : List (Option String) :=
  arguments.filterMap fun
    | .switch t value => if t = s then some value else none
    | .operand _ => none

def isGiven (s : Switch) (arguments : List Argument) : Bool :=
  !(occurrences s arguments).isEmpty

def value? (s : Switch) (arguments : List Argument) : Option String :=
  (occurrences s arguments).head?.join

/-- Only the wish for more log lines can be repeated. -/
def checkRepeats (arguments : List Argument) : Except UsageError Unit :=
  match Switch.all.find? fun s => s ≠ .verbose ∧ 1 < (occurrences s arguments).length with
  | some s => .error (.repeated s)
  | none => .ok ()

end AggFlatten.CommandLine
