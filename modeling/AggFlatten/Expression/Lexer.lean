import AggFlatten.Expression.SyntaxError
import AggFlatten.Text.Space

/-! Cutting an expression into the texts of its parts. White space ends a token only
outside brackets, so that a bracketed expression stays whole. -/
namespace AggFlatten

/-- A place in a text, counted in characters, and the text from there on. -/
structure Lexer where
  position : Nat
  rest : List Char
deriving DecidableEq

namespace Lexer

/-- How a token ends: before white space or the end of the text, at a bracket that closes
nothing, or never, for a bracket that is not closed. -/
inductive Ending where
  | token (chars rest : List Char)
  | stray (position : Nat) (rest : List Char)
  | unclosed (position : Nat)
deriving DecidableEq

def Ending.cons (c : Char) : Ending → Ending
  | token chars rest => token (c :: chars) rest
  | stray position rest => stray position rest
  | unclosed position => unclosed position

/-- Reads on inside a token with `depth` open brackets, the outermost of them at `opened`. -/
def scan (position depth opened : Nat) : List Char → Ending
  | [] => if depth = 0 then .token [] [] else .unclosed opened
  | c :: rest =>
    if c = '[' then
      (scan (position + 1) (depth + 1) (if depth = 0 then position else opened) rest).cons c
    else if c = ']' then
      if depth = 0 then .stray position (c :: rest)
      else (scan (position + 1) (depth - 1) opened rest).cons c
    else if Text.isSpace c ∧ depth = 0 then .token [] (c :: rest)
    else (scan (position + 1) depth opened rest).cons c

/-- The next token, if there is one, and the place where to go on. A bracket that closes
nothing is never passed. -/
def next (lexer : Lexer) : Except SyntaxError (Option (List Char)) × Lexer :=
  let text := Text.trimStart lexer.rest
  let start := lexer.position + (lexer.rest.length - text.length)
  match scan start 0 start text with
  | .token [] rest => (.ok none, ⟨start, rest⟩)
  | .token chars rest => (.ok (some chars), ⟨start + chars.length, rest⟩)
  | .stray position rest => (.error (.unbalanced position), ⟨position, rest⟩)
  | .unclosed position => (.error (.unbalanced position), ⟨start + text.length, []⟩)

theorem eq_append_of_scan {position depth opened : Nat} {text chars rest : List Char}
    (h : scan position depth opened text = .token chars rest) : text = chars ++ rest := by
  induction text generalizing position depth opened chars with
  | nil =>
    rw [scan] at h
    split at h
    · cases h; rfl
    · cases h
  | cons c tail ih =>
    have step {e : Ending} (read : e.cons c = .token chars rest)
        (tailRead : ∀ {chars}, e = .token chars rest → tail = chars ++ rest) :
        c :: tail = chars ++ rest := by
      cases e with
      | token chars' rest' =>
        obtain ⟨rfl, rfl⟩ := Ending.token.inj read
        rw [List.cons_append, tailRead rfl]
      | stray | unclosed => cases read
    rw [scan] at h
    split at h
    · exact step h ih
    · split at h
      · split at h
        · cases h
        · exact step h ih
      · split at h
        · cases h; rfl
        · exact step h ih

theorem next_shorter {lexer after : Lexer} {token : List Char}
    (h : lexer.next = (.ok (some token), after)) :
    token.length + after.rest.length ≤ lexer.rest.length ∧
      after.rest.length < lexer.rest.length := by
  have trimmed := Text.length_trimStart_le lexer.rest
  rw [next] at h
  split at h
  · cases h
  · next chars rest nonempty scanned =>
    obtain ⟨⟨rfl⟩, rfl⟩ := Prod.mk.inj h
    have split := congrArg List.length (eq_append_of_scan scanned)
    have : 0 < token.length := List.length_pos_iff.mpr nonempty
    rw [List.length_append] at split
    refine ⟨?_, ?_⟩ <;> dsimp only <;> omega
  · cases h
  · cases h

def tokens (lexer : Lexer) : Except SyntaxError (List (List Char)) :=
  match h : lexer.next with
  | (.error e, _) => .error e
  | (.ok none, _) => .ok []
  | (.ok (some token), after) =>
    have := (next_shorter h).2
    (tokens after).map (token :: ·)
termination_by lexer.rest.length

theorem length_le_of_mem_tokens {lexer : Lexer} {ts : List (List Char)}
    (h : lexer.tokens = .ok ts) : ∀ t ∈ ts, t.length ≤ lexer.rest.length := by
  fun_induction tokens lexer generalizing ts with
  | case1 => cases h
  | case2 => cases h; exact fun _ m => nomatch m
  | case3 lexer token after read shorter ih =>
    cases more : after.tokens with
    | error e => rw [more] at h; cases h
    | ok us =>
      rw [more] at h
      cases h
      have bound := (next_shorter read).1
      intro t member
      rcases List.mem_cons.mp member with rfl | later
      · omega
      · have := ih more t later
        omega

end Lexer

/-- The texts of all parts of an expression, of which there is at least one. -/
def tokenizeChars (text : List Char) : Except SyntaxError (List (List Char)) :=
  match Lexer.tokens ⟨0, text⟩ with
  | .ok [] => .error .empty
  | tokens => tokens

theorem length_le_of_mem_tokenizeChars {text : List Char} {ts : List (List Char)}
    (h : tokenizeChars text = .ok ts) : ∀ t ∈ ts, t.length ≤ text.length := by
  rw [tokenizeChars] at h
  split at h
  · cases h
  · exact Lexer.length_le_of_mem_tokens h

def tokenize (text : String) : Except SyntaxError (List String) :=
  (tokenizeChars text.toList).map (·.map String.ofList)

end AggFlatten
