import AggFlatten.CommandLine.Arguments
import AggFlatten.CommandLine.Flatten

/-! The commands, and how the arguments tell which one is meant. -/
namespace AggFlatten.CommandLine

inductive Command where
  | flatten (request : FlattenRequest) (format : Format)
  | tokens (expression : String)
  | docs
  | doc (category : String)
deriving DecidableEq

inductive Invocation where
  | version
  | command (command : Command)
deriving DecidableEq

def oneOperand (arguments : List Argument) : Except UsageError String :=
  match operands arguments with
  | [] => .error .missingArgument
  | [text] => .ok text
  | _ :: extra :: _ => .error (.extraArgument extra)

def noOperand (arguments : List Argument) : Except UsageError Unit :=
  match operands arguments with
  | [] => .ok ()
  | extra :: _ => .error (.extraArgument extra)

def readFlatten (rest : List String) : Except UsageError Command := do
  let arguments ← readArguments Switch.all rest
  checkRepeats arguments
  let expression ← oneOperand arguments
  let format ←
    match isGiven .pretty arguments, isGiven .lines arguments with
    | true, true => .error (.conflict .pretty .lines)
    | true, false => .ok Format.pretty
    | false, true => .ok Format.lines
    | false, false => .ok Format.compact
  let request : FlattenRequest :=
    { expression
      input := value? .input arguments
      raw := isGiven .raw arguments
      wellFormedOnly := isGiven .wellFormedOnly arguments
      options :=
        { countField := (value? .countField arguments).getD "count"
          asArray := isGiven .asArray arguments } }
  return .flatten request format

def readCommand (name : String) (rest : List String) : Except UsageError Command :=
  match name with
  | "flatten" => readFlatten rest
  | "tokens" => do return .tokens (← oneOperand (← readArguments [.verbose] rest))
  | "docs" => do
    noOperand (← readArguments [.verbose] rest)
    return .docs
  | "doc" => do return .doc (← oneOperand (← readArguments [.verbose] rest))
  | _ => .error (.unknownCommand name)

/-- Before the command stand the wish for more log lines, as often as it likes, and the
question for the version, which is answered at once. -/
def readInvocation : List String → Except UsageError Invocation
  | [] => .error .noCommand
  | argument :: rest =>
    match argument.toList with
    | '-' :: '-' :: name =>
      if name = "verbose".toList then readInvocation rest
      else if name = "version".toList then .ok .version
      else if name = [] then .error .noCommand
      else .error (.unknownOption argument)
    | '-' :: c :: letters =>
      match (c :: letters).dropWhile (· = 'v') with
      | [] => readInvocation rest
      | 'V' :: _ => .ok .version
      | _ => .error (.unknownOption argument)
    | _ => (readCommand argument rest).map .command

end AggFlatten.CommandLine
