import AggFlatten.Expression.Basic
import AggFlatten.Expression.Lexer

/-! Reading expressions. All tokens of a text are cut out before the first is looked at,
and within one token the brackets come first, then the keyword, the name, and the
bracketed expression last, so the first of several faults is the one reported. -/
namespace AggFlatten

/-- What stands before the bracket that closes an open one, and what stands behind it;
`depth` brackets have been opened inside. -/
def closeBracket (depth : Nat) : List Char → Option (List Char × List Char)
  | [] => none
  | c :: rest =>
    if c = ']' ∧ depth = 0 then some ([], rest)
    else
      let depth := if c = '[' then depth + 1 else if c = ']' then depth - 1 else depth
      (closeBracket depth rest).map fun (inside, after) => (c :: inside, after)

theorem eq_append_of_closeBracket {depth : Nat} {text inside after : List Char}
    (h : closeBracket depth text = some (inside, after)) : text = inside ++ ']' :: after := by
  induction text generalizing depth inside with
  | nil => cases h
  | cons c rest ih =>
    rw [closeBracket] at h
    split at h
    · next closes => cases h; rw [closes.1]; rfl
    · obtain ⟨⟨inside', after'⟩, read, same⟩ := Option.map_eq_some_iff.mp h
      obtain ⟨rfl, rfl⟩ := Prod.mk.inj same
      rw [ih read, List.cons_append]

namespace SubAgg

/-- The text before the first bracket, and the text inside it, which must end the token. -/
def cutBracket (token : List Char) : Except SyntaxError (List Char × Option (List Char)) :=
  let head := token.takeWhile (· ≠ '[')
  match token.dropWhile (· ≠ '[') with
  | [] => .ok (head, none)
  | _ :: rest =>
    match closeBracket 0 rest with
    | none => .error (.unbalanced head.length)
    | some (body, []) => .ok (head, some body)
    | some (_, _ :: _) => .error (.malformed (String.ofList token) .textAfterBracket)

/-- The keyword before the colon, if there is one, and the dotted name. A keyword is made
of ASCII letters, and no line ends behind it. -/
def cutKeyword (token head : List Char) : Except SyntaxError (AggType × List Char) :=
  if ':' ∈ head then
    let keyword := head.takeWhile Char.isAlpha
    match head.dropWhile Char.isAlpha with
    | ':' :: path =>
      if keyword = [] ∨ '\n' ∈ path then
        .error (.malformed (String.ofList token) .noTypeAndName)
      else
        (AggType.ofKeyword (String.ofList keyword)).map (·, path)
    | _ => .error (.malformed (String.ofList token) .noTypeAndName)
  else .ok (default, head)

def isNameChar (c : Char) : Bool :=
  !(c = '.' || c = ':' || c = '[' || c = ']' || Text.isSpace c)

/-- Segments are not empty and hold characters of names only. -/
def namePath (token path : List Char) : Except SyntaxError NamePath :=
  let segments := Text.splitDots path
  if segments.all fun s => !s.isEmpty && s.all isNameChar then
    .ok ⟨segments.dropLast.map String.ofList, String.ofList (segments.getLastD [])⟩
  else .error (.invalidName (String.ofList token) (String.ofList path))

/-- What stands outside the brackets of a token, and the text inside them. -/
def parts (token : List Char) :
    Except SyntaxError ((AggType × NamePath) × Option (List Char)) := do
  let (head, body) ← cutBracket token
  let (type, path) ← cutKeyword token head
  let path ← namePath token path
  return ((type, path), body)

theorem length_body_of_cutBracket {token head body : List Char}
    (h : cutBracket token = .ok (head, some body)) : body.length < token.length := by
  rw [cutBracket] at h
  split at h
  · cases h
  · next first rest found =>
    split at h
    · cases h
    · next inside closed =>
      cases h
      have inBracket := congrArg List.length (eq_append_of_closeBracket closed)
      have inToken := (List.dropWhile_suffix (l := token) (· ≠ '[')).length_le
      rw [found, List.length_cons] at inToken
      rw [List.length_append, List.length_cons] at inBracket
      omega
    · cases h

private theorem bind_ok {α β ε : Type} {x : Except ε α} {f : α → Except ε β} {b : β}
    (h : x >>= f = .ok b) : ∃ a, x = .ok a ∧ f a = .ok b := by
  cases x with
  | error e => cases h
  | ok a => exact ⟨a, rfl, h⟩

theorem length_body_of_parts {token body : List Char} {named : AggType × NamePath}
    (h : parts token = .ok (named, some body)) : body.length < token.length := by
  obtain ⟨⟨head, inside⟩, cut, h⟩ := bind_ok h
  obtain ⟨⟨type, path⟩, _, h⟩ := bind_ok h
  obtain ⟨path, _, h⟩ := bind_ok h
  cases h
  exact length_body_of_cutBracket cut

/-- The parts of the tokens in order, or the first fault. -/
def readEach : (tokens : List (List Char)) →
    (read : (token : List Char) → token ∈ tokens → Except SyntaxError SubAgg) →
    Except SyntaxError (List SubAgg)
  | [], _ => .ok []
  | token :: rest, read => do
    let sub ← read token List.mem_cons_self
    return sub :: (← readEach rest fun t member => read t (List.mem_cons_of_mem _ member))

def ofToken (token : List Char) : Except SyntaxError SubAgg :=
  match h : parts token with
  | .error e => .error e
  | .ok ((type, path), none) => .ok (bare type path)
  | .ok ((type, path), some body) =>
    match hb : tokenizeChars body with
    | .error e => .error e
    | .ok tokens =>
      have := length_body_of_parts h
      (readEach tokens fun t member =>
        have := length_le_of_mem_tokenizeChars hb t member
        ofToken t).map (bracketed type path (String.ofList (Text.trim body)))
termination_by token.length

end SubAgg

namespace Expression

def ofChars (text : List Char) : Except SyntaxError Expression := do
  let tokens ← tokenizeChars text
  let subs ← SubAgg.readEach tokens fun token _ => SubAgg.ofToken token
  return ⟨String.ofList (Text.trim text), subs⟩

def parse (text : String) : Except SyntaxError Expression :=
  ofChars text.toList

end Expression

/-- The brackets of a token hold an expression of their own. -/
theorem SubAgg.ofToken_eq (token : List Char) :
    ofToken token = (do
      let (named, body) ← parts token
      match body with
      | none => return bare named.1 named.2
      | some body =>
        let nested ← Expression.ofChars body
        return bracketed named.1 named.2 nested.source nested.subs) := by
  rw [ofToken]
  dsimp only
  split
  · next read => rw [read]; rfl
  · next read => rw [read]; rfl
  · next type path body read =>
    split
    · next cut => rw [read]; simp only [Expression.ofChars, cut, bind, Except.bind]
    · next tokens cut =>
      rw [read]
      simp only [Expression.ofChars, cut, bind, Except.bind, pure, Except.pure]
      cases readEach tokens fun token _ => ofToken token <;> rfl

/-- A single token may hold white space, which is no part of a name. -/
def SubAgg.parse (token : String) : Except SyntaxError SubAgg :=
  ofToken token.toList

end AggFlatten
