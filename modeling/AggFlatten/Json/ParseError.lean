/-! What can be wrong with the text of a document, and where. Places are counted in bytes
of the UTF-8 text. -/
namespace AggFlatten.Json

inductive Fault where
  | endInValue
  | endInList
  | endInObject
  | endInString
  | expectedValue
  | expectedIdent
  | expectedColon
  | expectedListEnd
  | expectedObjectEnd
  | expectedKey
  | trailingComma
  | trailingCharacters
  | invalidNumber
  | numberOutOfRange
  | invalidEscape
  | controlCharacter
  | loneSurrogate
  | endOfHexEscape
  | tooDeep
deriving DecidableEq

def Fault.message : Fault → String
  | endInValue => "EOF while parsing a value"
  | endInList => "EOF while parsing a list"
  | endInObject => "EOF while parsing an object"
  | endInString => "EOF while parsing a string"
  | expectedValue => "expected value"
  | expectedIdent => "expected ident"
  | expectedColon => "expected `:`"
  | expectedListEnd => "expected `,` or `]`"
  | expectedObjectEnd => "expected `,` or `\x7d`"
  | expectedKey => "key must be a string"
  | trailingComma => "trailing comma"
  | trailingCharacters => "trailing characters"
  | invalidNumber => "invalid number"
  | numberOutOfRange => "number out of range"
  | invalidEscape => "invalid escape"
  | controlCharacter => "control character (\\u0000-\\u001F) found while parsing a string"
  | loneSurrogate => "lone leading surrogate in hex escape"
  | endOfHexEscape => "unexpected end of hex escape"
  | tooDeep => "recursion limit exceeded"

def byteLength : (text : List Char) → Nat
  | [] => 0
  | c :: rest => c.utf8Size + byteLength rest

/-- A fault, and the number of bytes of the text that lie behind it. -/
structure Failure where
  fault : Fault
  behind : Nat
deriving DecidableEq

/-- The fault lies before `rest`, whose characters have not been looked at. -/
def Failure.before (fault : Fault) (rest : List Char) : Failure :=
  ⟨fault, byteLength rest⟩

/-- The first byte of `rest` is at fault, or the end of the text if `rest` is empty. -/
def Failure.atByte (fault : Fault) (rest : List Char) : Failure :=
  ⟨fault, byteLength rest - 1⟩

structure ParseError where
  fault : Fault
  line : Nat
  column : Nat
deriving DecidableEq

/-- The line and the column that the byte offset `offset` has, where the text starts in
the given ones. A line feed ends its line, and the next column is zero. -/
def position (line column : Nat) : List Char → (offset : Nat) → Nat × Nat
  | [], _ => (line, column)
  | c :: rest, offset =>
    if offset < c.utf8Size then (line, column + offset)
    else if c = '\n' then position (line + 1) 0 rest (offset - c.utf8Size)
    else position line (column + c.utf8Size) rest (offset - c.utf8Size)

/-- Lines are counted from one. -/
def Failure.locate (failure : Failure) (text : List Char) : ParseError :=
  let place := position 1 0 text (byteLength text - failure.behind)
  ⟨failure.fault, place.1, place.2⟩

def ParseError.message (error : ParseError) : String :=
  error.fault.message ++ " at line " ++ toString error.line ++
    " column " ++ toString error.column

end AggFlatten.Json
