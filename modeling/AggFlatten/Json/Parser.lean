import AggFlatten.Json.Basic
import AggFlatten.Json.NumberLiteral
import AggFlatten.Json.StringLiteral

/-! Reading a document from its text. The first fault from left to right is reported.
Lists and objects nest up to a limit, and a key that is repeated keeps the place of its
first value and the value of its last. -/
namespace AggFlatten.Json.Parser
open NumberLiteral StringLiteral

/-- White space between the tokens of a document. -/
def isBlank (c : Char) : Bool :=
  c = ' ' ∨ c = '\t' ∨ c = '\n' ∨ c = '\r'

def skipBlanks (text : List Char) : List Char :=
  text.dropWhile isBlank

/-- The first character of `text` after white space, and what follows it. -/
inductive Next (text : List Char) where
  | stop
  | char (c : Char) (rest : List Char) (shorter : rest.length < text.length)

def next (text : List Char) : Next text :=
  match h : skipBlanks text with
  | [] => .stop
  | c :: rest => .char c rest <| by
    have := (List.dropWhile_suffix (l := text) isBlank).length_le
    rw [skipBlanks] at h
    rw [h] at this
    exact this

/-- The rest of one of the words null, true and false. -/
def word (value : Json) : (letters : List Char) → (text : List Char) → Result Json text
  | [], _ => .ok (.nothing value)
  | _ :: _, [] => .error (.before .endInValue [])
  | letter :: letters, c :: rest =>
    if c = letter then do return (← word value letters rest).past
    else .error (.atByte .expectedIdent (c :: rest))

/-- The items of a list from one of them on, up to the closing bracket. -/
def items (value : (text : List Char) → Result Json text) (text : List Char) :
    Result (List Json) text := do
  let item ← value text
  have := item.shorter
  match next item.rest with
  | .stop => .error (.atByte .endInList [])
  | .char ']' rest _ => return ⟨[item.value], rest, by omega⟩
  | .char ',' rest _ =>
    match next rest with
    | .char ']' more _ => .error (.atByte .trailingComma (']' :: more))
    | _ => return ((← items value rest).map (item.value :: ·)).widen (by omega)
  | .char c rest _ => .error (.atByte .expectedListEnd (c :: rest))
termination_by text.length

def list (value : (text : List Char) → Result Json text) (text : List Char) :
    Result Json text :=
  match next text with
  | .stop => .error (.atByte .endInList [])
  | .char ']' rest h => .ok ⟨.arr [], rest, Nat.le_of_lt h⟩
  | _ => do return (← items value text).map .arr

/-- The members of an object from a key on, up to the closing brace; `seen` holds those
before it. -/
def members (value : (text : List Char) → Result Json text) (seen : Members)
    (text : List Char) : Result Members text := do
  match next text with
  | .stop => .error (.atByte .endInValue [])
  | .char '"' rest _ =>
    let key ← stringChars rest
    have := key.shorter
    match next key.rest with
    | .stop => .error (.atByte .endInObject [])
    | .char ':' rest _ =>
      let member ← value rest
      have := member.shorter
      let seen := put (String.ofList key.value) member.value seen
      match next member.rest with
      | .stop => .error (.atByte .endInObject [])
      | .char '}' rest _ => return ⟨seen, rest, by omega⟩
      | .char ',' rest _ => return (← members value seen rest).widen (by omega)
      | .char c rest _ => .error (.atByte .expectedObjectEnd (c :: rest))
    | .char c rest _ => .error (.atByte .expectedColon (c :: rest))
  | .char '}' rest _ => .error (.atByte .trailingComma ('}' :: rest))
  | .char c rest _ => .error (.atByte .expectedKey (c :: rest))
termination_by text.length

def object (value : (text : List Char) → Result Json text) (text : List Char) :
    Result Json text :=
  match next text with
  | .stop => .error (.atByte .endInObject [])
  | .char '}' rest h => .ok ⟨.obj [], rest, Nat.le_of_lt h⟩
  | _ => do return (← members value [] text).map .obj

/-- A value, with the white space before it; lists and objects nest `depth` deep at most. -/
def value (depth : Nat) (text : List Char) : Result Json text :=
  match next text with
  | .stop => .error (.atByte .endInValue [])
  | .char c rest h =>
    let inside (r : Result Json rest) : Result Json text :=
      r.map (·.widen (Nat.le_of_lt h))
    match c, depth with
    | 'n', _ => inside (word .null ['u', 'l', 'l'] rest)
    | 't', _ => inside (word (.bool true) ['r', 'u', 'e'] rest)
    | 'f', _ => inside (word (.bool false) ['a', 'l', 's', 'e'] rest)
    | '"', _ => inside ((stringChars rest).map (·.map (.str ∘ String.ofList)))
    | '[', depth + 1 => inside (list (value depth) rest)
    | '{', depth + 1 => inside (object (value depth) rest)
    | '[', 0 | '{', 0 => .error (.atByte .tooDeep (c :: rest))
    | c, _ =>
      if c = '-' ∨ c.isDigit then
        ((number (c :: rest)).map (·.map .num)).map (·.widen h)
      else .error (.atByte .expectedValue (c :: rest))

/-- One value and nothing but white space around it. -/
def document (depth : Nat) (text : List Char) : Except Failure Json := do
  let root ← value depth text
  match next root.rest with
  | .stop => return root.value
  | .char c rest _ => .error (.atByte .trailingCharacters (c :: rest))

end AggFlatten.Json.Parser

namespace AggFlatten.Json

def parseWithin (depth : Nat) (text : String) : Except ParseError Json :=
  (Parser.document depth text.toList).mapError (·.locate text.toList)

/-- What makes a document of a text, or says what is wrong with the text. -/
abbrev Decoder := String → Except ParseError Json

/-- How deep lists and objects may nest. -/
def depthLimit : Nat := 127

def parse (text : String) : Except ParseError Json :=
  parseWithin depthLimit text

end AggFlatten.Json
