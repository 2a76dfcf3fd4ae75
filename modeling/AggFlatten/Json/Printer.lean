import AggFlatten.Json.Basic

/-! The texts of a document: compact, without a space outside strings, and pretty,
with one member or item a line. Only the quotation mark, the backslash and the
characters below the space are escaped. -/
namespace AggFlatten.Json

def escape (c : Char) : List Char :=
  match c with
  | '"' => ['\\', '"']
  | '\\' => ['\\', '\\']
  | '\x08' => ['\\', 'b']
  | '\x0c' => ['\\', 'f']
  | '\n' => ['\\', 'n']
  | '\r' => ['\\', 'r']
  | '\t' => ['\\', 't']
  | _ =>
    if c.toNat < 0x20 then ['\\', 'u', '0', '0', Nat.digitChar (c.toNat / 16),
      Nat.digitChar (c.toNat % 16)]
    else [c]

def quoted (s : String) : List Char :=
  '"' :: s.toList.flatMap escape ++ ['"']

def enclose (first last : Char) (texts : List (List Char)) : List Char :=
  first :: List.intercalate [','] texts ++ [last]

mutual

def compactChars : Json → List Char
  | .null => ['n', 'u', 'l', 'l']
  | .bool true => ['t', 'r', 'u', 'e']
  | .bool false => ['f', 'a', 'l', 's', 'e']
  | .num n => n.chars
  | .str s => quoted s
  | .arr items => enclose '[' ']' (compactItems items)
  | .obj members => enclose '{' '}' (compactMembers members)

def compactItems : List Json → List (List Char)
  | [] => []
  | item :: rest => compactChars item :: compactItems rest

def compactMembers : Members → List (List Char)
  | [] => []
  | (key, value) :: rest => (quoted key ++ ':' :: compactChars value) :: compactMembers rest

end

/-- A new line, indented by two spaces a level. -/
def newline (level : Nat) : List Char :=
  '\n' :: List.replicate (2 * level) ' '

/-- An empty list or object stays on one line. -/
def encloseLines (level : Nat) (first last : Char) (texts : List (List Char)) : List Char :=
  if texts.isEmpty then [first, last]
  else first :: List.intercalate [','] (texts.map (newline (level + 1) ++ ·)) ++
    newline level ++ [last]

mutual

def prettyChars (level : Nat) : Json → List Char
  | .arr items => encloseLines level '[' ']' (prettyItems (level + 1) items)
  | .obj members => encloseLines level '{' '}' (prettyMembers (level + 1) members)
  | .null => compactChars .null
  | .bool b => compactChars (.bool b)
  | .num n => n.chars
  | .str s => quoted s

def prettyItems (level : Nat) : List Json → List (List Char)
  | [] => []
  | item :: rest => prettyChars level item :: prettyItems level rest

def prettyMembers (level : Nat) : Members → List (List Char)
  | [] => []
  | (key, value) :: rest =>
    (quoted key ++ ':' :: ' ' :: prettyChars level value) :: prettyMembers level rest

end

def compact (value : Json) : String :=
  String.ofList value.compactChars

def pretty (value : Json) : String :=
  String.ofList (value.prettyChars 0)

end AggFlatten.Json
