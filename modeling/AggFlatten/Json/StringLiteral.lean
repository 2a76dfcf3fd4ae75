import AggFlatten.Json.Reading

/-! Strings as a document writes them. A character beyond U+FFFF may be written as two
`\u` escapes, the high surrogate first; half of such a pair is refused. -/
namespace AggFlatten.Json.StringLiteral

def hexValue? (c : Char) : Option Nat :=
  if '0' ≤ c ∧ c ≤ '9' then some (c.toNat - '0'.toNat)
  else if 'a' ≤ c ∧ c ≤ 'f' then some (c.toNat - 'a'.toNat + 10)
  else if 'A' ≤ c ∧ c ≤ 'F' then some (c.toNat - 'A'.toNat + 10)
  else none

/-- The four bytes after `\u`. They are taken together before they are looked at. -/
def hexUnit (text : List Char) : Result Nat text :=
  let refused : Failure :=
    if byteLength text < 4 then .before .endInString []
    else ⟨.invalidEscape, byteLength text - 4⟩
  match text with
  | a :: b :: c :: d :: rest =>
    match hexValue? a, hexValue? b, hexValue? c, hexValue? d with
    | some a, some b, some c, some d =>
      .ok ⟨((a * 16 + b) * 16 + c) * 16 + d, rest, by simp only [List.length_cons]; omega⟩
    | _, _, _, _ => .error refused
  | _ => .error refused

def lowSurrogate (text : List Char) : Result Nat text :=
  match text with
  | [] => .error (.before .endInString [])
  | '\\' :: [] => .error (.before .endInString [])
  | '\\' :: 'u' :: rest => do
    let unit ← hexUnit rest
    if 0xDC00 ≤ unit.value ∧ unit.value ≤ 0xDFFF then
      return unit.widen (by simp only [List.length_cons]; omega)
    else .error (.before .loneSurrogate unit.rest)
  | '\\' :: rest => .error (.atByte .endOfHexEscape rest)
  | text => .error (.atByte .endOfHexEscape text)

/-- The character of a `\u` escape, which may be followed by its second half. -/
def hexEscape (text : List Char) : Result Char text := do
  let unit ← hexUnit text
  if 0xDC00 ≤ unit.value ∧ unit.value ≤ 0xDFFF then
    .error (.before .loneSurrogate unit.rest)
  else if 0xD800 ≤ unit.value ∧ unit.value ≤ 0xDBFF then
    let low ← lowSurrogate unit.rest
    let code := 0x10000 + (unit.value - 0xD800) * 0x400 + (low.value - 0xDC00)
    return ⟨Char.ofNat code, low.rest, Nat.le_trans low.shorter unit.shorter⟩
  else return unit.map Char.ofNat

/-- The escapes of one letter. -/
def letterEscape? : Char → Option Char
  | '"' => some '"'
  | '\\' => some '\\'
  | '/' => some '/'
  | 'b' => some '\x08'
  | 'f' => some '\x0c'
  | 'n' => some '\n'
  | 'r' => some '\r'
  | 't' => some '\t'
  | _ => none

/-- The character of an escape, with the backslash already read. -/
def escaped (text : List Char) : Result Char text :=
  match text with
  | [] => .error (.before .endInString [])
  | 'u' :: rest => do return (← hexEscape rest).past
  | letter :: rest =>
    match letterEscape? letter with
    | some c => .ok (.first c)
    | none => .error (.atByte .invalidEscape (letter :: rest))

/-- The characters up to the closing quotation mark, which is read too. -/
def stringChars (text : List Char) : Result (List Char) text :=
  match text with
  | [] => .error (.before .endInString [])
  | '"' :: rest => .ok (.first [])
  | '\\' :: rest => do
    let c ← escaped rest
    have := c.shorter
    let more ← stringChars c.rest
    return (more.map (c.value :: ·)).widen (Nat.le_succ_of_le c.shorter)
  | c :: rest => do
    if c.toNat < 0x20 then .error (.atByte .controlCharacter (c :: rest))
    else
      let more ← stringChars rest
      return (more.map (c :: ·)).past
termination_by text.length
decreasing_by all_goals simp only [List.length_cons]; omega

end AggFlatten.Json.StringLiteral
