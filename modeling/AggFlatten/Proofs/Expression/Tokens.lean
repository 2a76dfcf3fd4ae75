import AggFlatten.Expression.Lexer
import AggFlatten.Proofs.Text.Brackets
import AggFlatten.Proofs.Text.Span

/-! What the scanner cuts out of a text. A token is a longest stretch with balanced
brackets and no white space outside them, and the tokens of a text are the only way to
split it into such stretches with white space between. -/
namespace AggFlatten

open Text (isSpace trimStart depthAfter Balanced Unbroken)

/-- The end of a text, or a white space in it. -/
def Text.AtBreak (rest : List Char) : Prop := ∀ c ∈ rest.head?, isSpace c = true

structure IsToken (token : List Char) : Prop where
  nonempty : token ≠ []
  balanced : Balanced token
  unbroken : Unbroken 0 token

theorem IsToken.head_not_space {token : List Char} (word : IsToken token) :
    ∀ c ∈ token.head?, isSpace c = false := by
  intro c first
  obtain ⟨tail, rfl⟩ := List.head?_eq_some_iff.mp first
  exact word.unbroken [] c tail rfl rfl

/-- Text made of white space, tokens, and white space again behind every token. -/
inductive Splits : List Char → List (List Char) → Prop where
  | blank {gap} (spaces : ∀ c ∈ gap, isSpace c = true) : Splits gap []
  | token {gap token rest tokens} (spaces : ∀ c ∈ gap, isSpace c = true)
      (word : IsToken token) (ends : Text.AtBreak rest) (more : Splits rest tokens) :
      Splits (gap ++ (token ++ rest)) (token :: tokens)

namespace Splits

variable {text : List Char} {cut : List (List Char)}

theorem isToken (split : Splits text cut) : ∀ token ∈ cut, IsToken token := by
  induction split with
  | blank spaces => simp
  | token spaces word ends more ih => simpa [word] using ih

theorem balanced (split : Splits text cut) : Balanced text := by
  induction split with
  | blank spaces => exact Balanced.of_spaces spaces
  | token spaces word ends more ih =>
    exact (Balanced.of_spaces spaces).append (word.balanced.append ih)

end Splits

namespace Lexer

variable {position depth opened : Nat} {text chars rest : List Char}

theorem Ending.cons_eq_token_iff {c : Char} {ending : Ending} :
    ending.cons c = .token chars rest ↔
      ∃ tail, chars = c :: tail ∧ ending = .token tail rest := by
  cases ending with
  | token read left =>
    simp only [Ending.cons, Ending.token.injEq]
    constructor
    · rintro ⟨rfl, rfl⟩
      exact ⟨read, rfl, rfl, rfl⟩
    · rintro ⟨tail, rfl, rfl, rfl⟩
      exact ⟨rfl, rfl⟩
  | stray position left => simp [Ending.cons]
  | unclosed position => simp [Ending.cons]

theorem scan_open : scan position depth opened ('[' :: rest) =
    (scan (position + 1) (depth + 1) (if depth = 0 then position else opened) rest).cons '[' := by
  simp [scan]

theorem scan_close : scan position (depth + 1) opened (']' :: rest) =
    (scan (position + 1) depth opened rest).cons ']' := by
  simp [scan]

theorem scan_stray : scan position 0 opened (']' :: rest) = .stray position (']' :: rest) := by
  simp [scan]

theorem scan_space {c : Char} (space : isSpace c = true) :
    scan position 0 opened (c :: rest) = .token [] (c :: rest) := by
  have plain := Text.isPlain_of_isSpace space
  rw [scan, if_neg plain.1, if_neg plain.2, if_pos ⟨space, rfl⟩]

theorem scan_plain {c : Char} (plain : Text.IsPlain c) (inside : depth = 0 → isSpace c = false) :
    scan position depth opened (c :: rest) =
      (scan (position + 1) depth opened rest).cons c := by
  have stays : ¬(isSpace c = true ∧ depth = 0) := by
    rintro ⟨space, outside⟩
    rw [inside outside] at space
    contradiction
  rw [scan, if_neg plain.1, if_neg plain.2, if_neg stays]

/-- How a scan goes on at a character: it reads it inside the token, or it stops before it. -/
inductive Reads (position depth opened : Nat) (c : Char) (text : List Char) : Prop where
  | on {next place : Nat}
      (first : scan position depth opened (c :: text) =
        (scan (position + 1) next place text).cons c)
      (counted : depthAfter depth [c] = some next) (solid : depth = 0 → isSpace c = false)
  | stray (closes : c = ']') (outside : depth = 0)
  | space (space : isSpace c = true) (outside : depth = 0)

theorem reads (position depth opened : Nat) (c : Char) (text : List Char) :
    Reads position depth opened c text := by
  by_cases opens : c = '['
  · subst opens
    exact .on scan_open Text.depthAfter_open fun _ => by decide
  · by_cases closes : c = ']'
    · subst closes
      cases depth with
      | zero => exact .stray rfl rfl
      | succ depth => exact .on scan_close Text.depthAfter_close fun _ => by decide
    · by_cases stops : isSpace c = true ∧ depth = 0
      · exact .space stops.1 stops.2
      · have solid : depth = 0 → isSpace c = false := fun outside =>
          Bool.eq_false_iff.mpr fun space => stops ⟨space, outside⟩
        exact .on (scan_plain ⟨opens, closes⟩ solid)
          (Text.depthAfter_cons_plain ⟨opens, closes⟩) solid

theorem token_of_scan (scanned : scan position depth opened text = .token chars rest) :
    text = chars ++ rest ∧ depthAfter depth chars = some 0 ∧ Unbroken depth chars ∧
      Text.AtBreak rest := by
  induction text generalizing position depth opened chars with
  | nil =>
    rw [scan] at scanned
    split at scanned
    · next outside =>
      cases scanned
      exact ⟨rfl, by rw [outside]; rfl, Unbroken.nil, by simp [Text.AtBreak]⟩
    · contradiction
  | cons c text ih =>
    cases reads position depth opened c text with
    | on first counted solid =>
      rw [first] at scanned
      obtain ⟨tail, rfl, later⟩ := Ending.cons_eq_token_iff.mp scanned
      obtain ⟨same, closed, unbroken, ends⟩ := ih later
      refine ⟨by rw [List.cons_append, same], ?_, ?_, ends⟩
      · rw [Text.depthAfter_cons counted]
        exact closed
      · refine Unbroken.cons_iff.mpr ⟨solid, ?_⟩
        intro other again
        obtain rfl := Option.some.inj (counted.symm.trans again)
        exact unbroken
    | stray closes outside =>
      subst closes outside
      rw [scan_stray] at scanned
      contradiction
    | space space outside =>
      subst outside
      rw [scan_space space] at scanned
      cases scanned
      exact ⟨rfl, rfl, Unbroken.nil, by simpa [Text.AtBreak] using space⟩

theorem scan_of_token (closed : depthAfter depth chars = some 0)
    (unbroken : Unbroken depth chars) (ends : Text.AtBreak rest) :
    scan position depth opened (chars ++ rest) = .token chars rest := by
  induction chars generalizing position depth opened with
  | nil =>
    obtain rfl : depth = 0 := Option.some.inj closed
    cases rest with
    | nil => rfl
    | cons c rest => exact scan_space (ends c rfl)
  | cons c chars ih =>
    obtain ⟨solid, unbroken⟩ := Unbroken.cons_iff.mp unbroken
    cases reads position depth opened c (chars ++ rest) with
    | on first counted _ =>
      rw [Text.depthAfter_cons counted] at closed
      rw [List.cons_append, first, ih closed (unbroken _ counted)]
      rfl
    | stray closes outside =>
      subst closes outside
      rw [Text.depthAfter_stray] at closed
      contradiction
    | space space outside =>
      rw [solid outside] at space
      contradiction

/-- Scanning is exact: it stops with a token where the count of open brackets has come back
to zero and white space or the end of the text follows, and nowhere before. -/
theorem scan_eq_token_iff : scan position depth opened text = .token chars rest ↔
    text = chars ++ rest ∧ depthAfter depth chars = some 0 ∧ Unbroken depth chars ∧
      Text.AtBreak rest := by
  constructor
  · exact token_of_scan
  · rintro ⟨rfl, closed, unbroken, ends⟩
    exact scan_of_token closed unbroken ends

/-- A call skips white space and hands out one token, with the place just behind it. -/
theorem next_eq_token_iff {lexer after : Lexer} {token : List Char} :
    lexer.next = (.ok (some token), after) ↔
      ∃ gap, lexer.rest = gap ++ (token ++ after.rest) ∧ (∀ c ∈ gap, isSpace c = true) ∧
        IsToken token ∧ Text.AtBreak after.rest ∧
        after.position = lexer.position + gap.length + token.length := by
  constructor
  · intro read
    obtain ⟨gap, whole, spaces, _⟩ := Text.exists_gap lexer.rest
    rw [next] at read
    split at read
    · cases read
    · next chars rest nonempty scanned =>
      obtain ⟨⟨rfl⟩, rfl⟩ := Prod.mk.inj read
      obtain ⟨same, balanced, unbroken, ends⟩ := scan_eq_token_iff.mp scanned
      refine ⟨gap, by rw [← same]; exact whole, spaces, ⟨nonempty, balanced, unbroken⟩, ends, ?_⟩
      have length := congrArg List.length whole
      rw [List.length_append] at length
      dsimp only
      omega
    · cases read
    · cases read
  · rintro ⟨gap, whole, spaces, word, ends, placed⟩
    have stops : ∀ c ∈ (token ++ after.rest).head?, isSpace c = false := by
      obtain ⟨c, tail, rfl⟩ := List.exists_cons_of_ne_nil word.nonempty
      exact word.head_not_space
    have trimmed : trimStart lexer.rest = token ++ after.rest := by
      rw [whole, trimStart, Text.dropWhile_append_stop spaces stops]
    have scanned (place : Nat) :
        scan place 0 place (token ++ after.rest) = .token token after.rest :=
      scan_of_token word.balanced word.unbroken ends
    have skipped : lexer.rest.length - (token ++ after.rest).length = gap.length := by
      simp only [whole, List.length_append]
      omega
    obtain ⟨c, tail, rfl⟩ := List.exists_cons_of_ne_nil word.nonempty
    rw [next, trimmed, scanned, skipped]
    obtain ⟨place, left⟩ := after
    dsimp only at placed ⊢
    rw [placed]

theorem next_eq_none_iff {lexer after : Lexer} :
    lexer.next = (.ok none, after) ↔
      (∀ c ∈ lexer.rest, isSpace c = true) ∧
        after = ⟨lexer.position + lexer.rest.length, []⟩ := by
  constructor
  · intro read
    obtain ⟨gap, whole, spaces, solid⟩ := Text.exists_gap lexer.rest
    rw [next] at read
    split at read
    · next rest scanned =>
      obtain ⟨same, _, _, ends⟩ := scan_eq_token_iff.mp scanned
      rw [List.nil_append] at same
      have empty : trimStart lexer.rest = [] := by
        rw [same] at solid ⊢
        cases rest with
        | nil => rfl
        | cons c rest =>
          have space := ends c rfl
          rw [solid c rfl] at space
          contradiction
      rw [empty, List.append_nil] at whole
      obtain ⟨-, rfl⟩ := Prod.mk.inj read
      refine ⟨whole ▸ spaces, ?_⟩
      rw [← same, empty, List.length_nil, Nat.sub_zero]
    · cases read
    · cases read
    · cases read
  · rintro ⟨spaces, rfl⟩
    have trimmed : trimStart lexer.rest = [] := by
      have all : (lexer.rest ++ []).dropWhile isSpace = [] :=
        Text.dropWhile_append_stop spaces (by simp)
      rwa [List.append_nil] at all
    rw [next, trimmed]
    rfl

theorem tokens_of_next {lexer after : Lexer} {token : List Char}
    (read : lexer.next = (.ok (some token), after)) :
    lexer.tokens = after.tokens.map (token :: ·) := by
  rw [tokens]
  split
  · next failed => rw [read] at failed; cases failed
  · next ended => rw [read] at ended; cases ended
  · next again => rw [read] at again; cases again; rfl

theorem tokens_of_end {lexer after : Lexer} (read : lexer.next = (.ok none, after)) :
    lexer.tokens = .ok [] := by
  rw [tokens]
  split
  · next failed => rw [read] at failed; cases failed
  · rfl
  · next more => rw [read] at more; cases more

theorem tokens_of_fault {lexer last : Lexer} {e : SyntaxError} (failed : lexer.next = (.error e, last)) :
    lexer.tokens = .error e := by
  rw [tokens]
  split
  · next again => rw [failed] at again; cases again; rfl
  · next ended => rw [failed] at ended; cases ended
  · next more => rw [failed] at more; cases more

theorem splits_of_tokens {lexer : Lexer} {cut : List (List Char)}
    (read : lexer.tokens = .ok cut) : Splits lexer.rest cut := by
  fun_induction tokens lexer generalizing cut with
  | case1 => cases read
  | case2 lexer after ended =>
    cases read
    exact .blank (next_eq_none_iff.mp ended).1
  | case3 lexer token after first shorter ih =>
    cases later : after.tokens with
    | error fault => rw [later] at read; cases read
    | ok more =>
      rw [later] at read
      cases read
      obtain ⟨gap, whole, spaces, word, ends, _⟩ := next_eq_token_iff.mp first
      rw [whole]
      exact .token spaces word ends (ih later)

theorem tokens_of_splits {text : List Char} {cut : List (List Char)}
    (split : Splits text cut) (position : Nat) :
    (Lexer.mk position text).tokens = .ok cut := by
  induction split generalizing position with
  | blank spaces => exact tokens_of_end (next_eq_none_iff.mpr ⟨spaces, rfl⟩)
  | @token gap token rest more spaces word ends _ ih =>
    have first : (Lexer.mk position (gap ++ (token ++ rest))).next =
        (.ok (some token), ⟨position + gap.length + token.length, rest⟩) :=
      next_eq_token_iff.mpr ⟨gap, rfl, spaces, word, ends, rfl⟩
    rw [tokens_of_next first, ih]
    rfl

end Lexer

/-- The tokens of a text are its split, if there is one with any token at all. -/
theorem tokenizeChars_eq_ok_iff {text : List Char} {cut : List (List Char)} :
    tokenizeChars text = .ok cut ↔ Splits text cut ∧ cut ≠ [] := by
  constructor
  · intro read
    rw [tokenizeChars] at read
    split at read
    · cases read
    · next some =>
      have nonempty : cut ≠ [] := by
        rintro rfl
        exact some read
      exact ⟨Lexer.splits_of_tokens read, nonempty⟩
  · rintro ⟨split, nonempty⟩
    rw [tokenizeChars, Lexer.tokens_of_splits split]
    cases cut with
    | nil => contradiction
    | cons token more => rfl

end AggFlatten
