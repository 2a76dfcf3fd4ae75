import AggFlatten.CommandLine.Command
import AggFlatten.Expression.Outline
import AggFlatten.Manual.Category

/-! What a command line does, as a function of its arguments and of the bytes on its
standard input. -/
namespace AggFlatten

/-- The standard input takes the place of an input that is needed and not given. -/
def FlattenRequest.readsInput (request : FlattenRequest) : Bool :=
  request.input.isNone && !request.wellFormedOnly

def FlattenRequest.withInput (request : FlattenRequest) (stdin : ByteArray) :
    Except CommandError FlattenRequest :=
  if request.readsInput then
    match String.fromUTF8? stdin with
    | some text => .ok { request with input := text }
    | none => .error .notUtf8
  else .ok request

namespace CommandLine

def Invocation.readsInput : Invocation → Bool
  | command (.flatten request _) => request.readsInput
  | _ => false

/-- What a command prints. -/
def Command.print (stdin : ByteArray) : Command → Except CommandError String
  | flatten request format => do
    match ← (← request.withInput stdin).run with
    | .wellFormed => return "Syntax is valid\n"
    | .result value => return format.render value ++ "\n"
  | tokens text =>
    ((Expression.parse text).mapError (.agg ∘ .badExpression)).map Expression.outline
  | docs => .ok (Manual.text Manual.overview)
  | doc name =>
    match Manual.Category.ofName? name with
    | some category => .ok (Manual.text category.page)
    | none => .error (.unknownCategory name)

structure Outcome where
  status : UInt8
  stdout : String
  stderr : String
deriving DecidableEq

/-- Arguments that make no sense end with status 2, a command that fails with status 1. -/
def run (arguments : List String) (stdin : ByteArray) : Outcome :=
  match readInvocation arguments with
  | .error e => ⟨2, "", e.message ++ "\n"⟩
  | .ok .version => ⟨0, "agglens 0.1.0\n", ""⟩
  | .ok (.command command) =>
    match command.print stdin with
    | .ok text => ⟨0, text, ""⟩
    | .error e => ⟨1, "", e.message ++ "\n"⟩

/-- Whether the outcome depends on the standard input at all. -/
def readsInput (arguments : List String) : Bool :=
  match readInvocation arguments with
  | .ok invocation => invocation.readsInput
  | .error _ => false

end CommandLine

end AggFlatten
