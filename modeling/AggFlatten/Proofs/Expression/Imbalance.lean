import AggFlatten.Proofs.Expression.Reading
import AggFlatten.Proofs.Text.Imbalance

/-! Brackets at fault in an expression. The scanner finds them in the whole text, before any
token is looked at; what is cut out of brackets is balanced, so that reading it finds no
further ones and every position is one in the text as it was given. -/
namespace AggFlatten

open Text (depthAfter Balanced StrayAt OpenAt UnbalancedAt FaultAtHead)

namespace Lexer

variable {position depth opened place : Nat} {text : List Char}

/-- The place of the bracket at fault, where a token does not end. -/
def Ending.fault? : Ending → Option Nat
  | token _ _ => none
  | stray position _ => some position
  | unclosed position => some position

@[simp]
theorem Ending.fault?_cons (c : Char) (ending : Ending) : (ending.cons c).fault? = ending.fault? := by
  cases ending <;> rfl

/-- The count from `position` on comes to a bracket at fault with none open, and that is the one
at `place`. -/
def BlamedAt (position depth : Nat) (text : List Char) (place : Nat) : Prop :=
  ∃ front rest, text = front ++ rest ∧ depthAfter depth front = some 0 ∧ FaultAtHead rest ∧
    place = position + front.length

theorem BlamedAt.here (fault : FaultAtHead text) : BlamedAt position 0 text position :=
  ⟨[], text, rfl, rfl, fault, rfl⟩

/-- What is counted in front of the fault does not move it. -/
theorem BlamedAt.prepend {front : List Char} {next : Nat}
    (counted : depthAfter depth front = some next)
    (later : BlamedAt (position + front.length) next text place) :
    BlamedAt position depth (front ++ text) place := by
  obtain ⟨middle, rest, rfl, closed, fault, rfl⟩ := later
  refine ⟨front ++ middle, rest, (List.append_assoc ..).symm, ?_, fault, ?_⟩
  · rw [Text.depthAfter_append, counted]
    exact closed
  · rw [List.length_append, Nat.add_assoc]

theorem BlamedAt.cons {c : Char} {next : Nat} (counted : depthAfter depth [c] = some next)
    (later : BlamedAt (position + 1) next text place) :
    BlamedAt position depth (c :: text) place := by
  rw [← List.singleton_append]
  exact later.prepend counted

/-- A bracket is at fault outside all others, or else it is the one opened before that the
text does not close. -/
theorem fault_of_scan (faulty : (scan position depth opened text).fault? = some place) :
    BlamedAt position depth text place ∨
      ∃ outer, depth = outer + 1 ∧ place = opened ∧ depthAfter outer text ≠ none := by
  induction text generalizing position depth opened with
  | nil =>
    rw [scan] at faulty
    split at faulty
    · simp [Ending.fault?] at faulty
    · next inside =>
      obtain ⟨outer, rfl⟩ := Nat.exists_eq_succ_of_ne_zero inside
      exact .inr ⟨outer, rfl, (Option.some.inj faulty).symm, by simp [depthAfter]⟩
  | cons c text ih =>
    by_cases opens : c = '['
    · subst opens
      rw [scan_open, Ending.fault?_cons] at faulty
      rcases ih faulty with later | ⟨outer, same, rfl, open'⟩
      · exact .inl (later.cons Text.depthAfter_open)
      · obtain rfl : depth = outer := by omega
        cases depth with
        | zero =>
          have never : ∀ q, ¬StrayAt text q :=
            Text.exists_depthAfter_iff.mp (Option.ne_none_iff_exists'.mp open')
          exact .inl (.here (.unclosed never))
        | succ depth =>
          refine .inr ⟨depth, rfl, by simp, ?_⟩
          rwa [Text.depthAfter_open]
    · by_cases closes : c = ']'
      · subst closes
        cases depth with
        | zero =>
          rw [scan_stray] at faulty
          obtain rfl := Option.some.inj faulty
          exact .inl (.here (.stray text))
        | succ depth =>
          rw [scan_close, Ending.fault?_cons] at faulty
          rcases ih faulty with later | ⟨outer, rfl, same, open'⟩
          · exact .inl (later.cons Text.depthAfter_close)
          · refine .inr ⟨outer + 1, rfl, same, ?_⟩
            rwa [Text.depthAfter_close]
      · have plain : Text.IsPlain c := ⟨opens, closes⟩
        by_cases stops : Text.isSpace c = true ∧ depth = 0
        · obtain ⟨space, rfl⟩ := stops
          rw [scan_space space] at faulty
          simp [Ending.fault?] at faulty
        · have solid : depth = 0 → Text.isSpace c = false := fun outside =>
            Bool.eq_false_iff.mpr fun space => stops ⟨space, outside⟩
          rw [scan_plain plain solid, Ending.fault?_cons] at faulty
          rcases ih faulty with later | ⟨outer, same, where', open'⟩
          · exact .inl (later.cons (Text.depthAfter_cons_plain plain))
          · refine .inr ⟨outer, same, where', ?_⟩
            rwa [Text.depthAfter_cons_plain plain]

theorem fault_of_next {lexer after : Lexer} {e : SyntaxError}
    (failed : lexer.next = (.error e, after)) :
    ∃ place, e = .unbalanced place ∧ BlamedAt lexer.position 0 lexer.rest place := by
  obtain ⟨gap, whole, spaces, _⟩ := Text.exists_gap lexer.rest
  have skipped : lexer.rest.length - (Text.trimStart lexer.rest).length = gap.length := by
    have length := congrArg List.length whole
    rw [List.length_append] at length
    omega
  have blamed {place : Nat} (scanned : (scan (lexer.position + gap.length) 0
      (lexer.position + gap.length) (Text.trimStart lexer.rest)).fault? = some place) :
      BlamedAt lexer.position 0 lexer.rest place := by
    rcases fault_of_scan scanned with later | ⟨_, inside, _⟩
    · rw [whole]
      exact later.prepend (Balanced.of_spaces spaces)
    · cases inside
  rw [next, skipped] at failed
  split at failed
  · cases failed
  · cases failed
  · next scanned =>
    obtain ⟨rfl⟩ := (Prod.mk.inj failed).1
    exact ⟨_, rfl, blamed (congrArg Ending.fault? scanned)⟩
  · next scanned =>
    obtain ⟨rfl⟩ := (Prod.mk.inj failed).1
    exact ⟨_, rfl, blamed (congrArg Ending.fault? scanned)⟩

theorem fault_of_tokens {lexer : Lexer} {e : SyntaxError} (failed : lexer.tokens = .error e) :
    ∃ place, e = .unbalanced place ∧ BlamedAt lexer.position 0 lexer.rest place := by
  fun_induction tokens lexer with
  | case1 lexer cause after first =>
    obtain rfl := Except.error.inj failed
    exact fault_of_next first
  | case2 => cases failed
  | case3 lexer token after first shorter ih =>
    obtain ⟨place, rfl, later⟩ := ih (Outcome.map_eq_error_iff.mp failed)
    obtain ⟨gap, whole, spaces, word, _, placed⟩ := next_eq_token_iff.mp first
    rw [placed] at later
    rw [whole]
    exact ⟨place, rfl, (later.prepend word.balanced).prepend (Balanced.of_spaces spaces)⟩

end Lexer

section tokenize

variable {text : List Char} {position : Nat} {e : SyntaxError}

/-- A text of white space has no tokens, and no other text lacks them. -/
theorem tokenizeChars_eq_empty_iff :
    tokenizeChars text = .error .empty ↔ ∀ c ∈ text, Text.isSpace c = true := by
  constructor
  · intro failed
    rw [tokenizeChars] at failed
    split at failed
    · next none =>
      cases Lexer.splits_of_tokens none with
      | blank spaces => exact spaces
    · obtain ⟨_, other, _⟩ := Lexer.fault_of_tokens failed
      cases other
  · intro spaces
    rw [tokenizeChars, Lexer.tokens_of_splits (.blank spaces)]

theorem fault_of_tokenizeChars (failed : tokenizeChars text = .error e) :
    e = .empty ∨ ∃ front rest, text = front ++ rest ∧ Balanced front ∧ FaultAtHead rest ∧
      e = .unbalanced front.length := by
  rw [tokenizeChars] at failed
  split at failed
  · exact .inl (Except.error.inj failed).symm
  · obtain ⟨_, rfl, front, rest, same, balanced, fault, rfl⟩ := Lexer.fault_of_tokens failed
    exact .inr ⟨front, rest, same, balanced, fault, by rw [Nat.zero_add]⟩

theorem tokenizeChars_eq_error (failed : tokenizeChars text = .error e) :
    e = .empty ∨ ∃ p, e = .unbalanced p ∧ UnbalancedAt text p := by
  rcases fault_of_tokenizeChars failed with none | ⟨front, rest, rfl, balanced, fault, rfl⟩
  · exact .inl none
  · exact .inr ⟨_, rfl, Text.unbalancedAt_append balanced fault⟩

/-- A text that is not balanced has no tokens, and its fault is reported. -/
theorem exists_of_not_balanced (unbalanced : ¬Balanced text) :
    ∃ p, tokenizeChars text = .error (.unbalanced p) := by
  cases read : tokenizeChars text with
  | ok cut => exact absurd (tokenizeChars_eq_ok_iff.mp read).1.balanced unbalanced
  | error e =>
    rcases tokenizeChars_eq_error read with rfl | ⟨p, rfl, _⟩
    · exact absurd (Balanced.of_spaces (tokenizeChars_eq_empty_iff.mp read)) unbalanced
    · exact ⟨p, rfl⟩

theorem tokenizeChars_eq_unbalanced_iff :
    tokenizeChars text = .error (.unbalanced position) ↔ UnbalancedAt text position := by
  constructor
  · intro failed
    rcases tokenizeChars_eq_error failed with other | ⟨p, same, fault⟩
    · cases other
    · obtain rfl := SyntaxError.unbalanced.inj same
      exact fault
  · intro fault
    obtain ⟨p, failed⟩ := exists_of_not_balanced fault.not_balanced
    rcases tokenizeChars_eq_error failed with other | ⟨_, same, fault'⟩
    · cases other
    · obtain rfl := SyntaxError.unbalanced.inj same
      rw [failed, fault.unique fault']

end tokenize

section closeBracket

variable {depth : Nat} {text inside after : List Char}

theorem depthAfter_of_closeBracket (closed : closeBracket depth text = some (inside, after)) :
    depthAfter depth inside = some 0 := by
  induction text generalizing depth inside with
  | nil => cases closed
  | cons c text ih =>
    rw [closeBracket] at closed
    split at closed
    · next ends =>
      cases closed
      rw [ends.2]
      rfl
    · next stays =>
      obtain ⟨⟨inside', after'⟩, later, same⟩ := Option.map_eq_some_iff.mp closed
      obtain ⟨rfl, rfl⟩ := Prod.mk.inj same
      have counted := ih later
      rw [depthAfter]
      by_cases opens : c = '['
      · rwa [if_pos opens] at counted ⊢
      · by_cases closes : c = ']'
        · have enclosed : depth ≠ 0 := fun outside => stays ⟨closes, outside⟩
          rw [if_neg opens, if_pos closes] at counted ⊢
          rwa [if_neg enclosed]
        · rwa [if_neg opens, if_neg closes] at counted ⊢

/-- No bracket is found to close the open one exactly where the count goes on to the end. -/
theorem closeBracket_eq_none_iff : closeBracket 0 text = none ↔ ∀ q, ¬StrayAt text q := by
  constructor
  · rintro none _ ⟨front, back, rfl, _, balanced⟩
    rw [Grammar.closeBracket_append balanced] at none
    simp [closeBracket] at none
  · intro clean
    cases closed : closeBracket 0 text with
    | none => rfl
    | some found =>
      obtain ⟨inside, after⟩ := found
      have balanced := depthAfter_of_closeBracket closed
      exact absurd ⟨inside, after, eq_append_of_closeBracket closed, rfl, balanced⟩ (clean _)

end closeBracket

/-- Whatever is wrong here, it is not a bracket. -/
def BlamesNoBracket {α : Type} (outcome : Except SyntaxError α) : Prop :=
  ∀ position, outcome ≠ .error (.unbalanced position)

namespace BlamesNoBracket

variable {α β : Type} {position : Nat}

/-- Brackets are blamed by the first step alone. -/
theorem bind_iff {first : Except SyntaxError α} {later : α → Except SyntaxError β}
    (after : ∀ a, first = .ok a → BlamesNoBracket (later a)) :
    first >>= later = .error (.unbalanced position) ↔ first = .error (.unbalanced position) := by
  rw [Outcome.bind_eq_error_iff]
  constructor
  · rintro (failed | ⟨a, done, failed⟩)
    · exact failed
    · exact absurd failed (after a done position)
  · exact .inl

theorem bind {first : Except SyntaxError α} {later : α → Except SyntaxError β}
    (before : BlamesNoBracket first) (after : ∀ a, first = .ok a → BlamesNoBracket (later a)) :
    BlamesNoBracket (first >>= later) :=
  fun position failed => before position ((bind_iff after).mp failed)

theorem mapM {f : α → Except SyntaxError β} {as : List α}
    (each : ∀ a ∈ as, BlamesNoBracket (f a)) : BlamesNoBracket (as.mapM f) := by
  intro position failed
  obtain ⟨a, member, found⟩ := Outcome.exists_of_mapM_eq_error failed
  exact each a member position found

theorem pure (a : α) : BlamesNoBracket (Pure.pure a) := nofun

end BlamesNoBracket

namespace SubAgg

variable {position : Nat} {token head body : List Char}

theorem cutKeyword_blamesNoBracket (token head : List Char) :
    BlamesNoBracket (cutKeyword token head) := by
  intro position failed
  rw [cutKeyword] at failed
  dsimp only at failed
  split at failed
  · split at failed
    · split at failed
      · cases failed
      · rw [Outcome.map_eq_error_iff, AggType.ofKeyword] at failed
        split at failed <;> cases failed
    · cases failed
  · cases failed

theorem namePath_blamesNoBracket (token path : List Char) :
    BlamesNoBracket (namePath token path) := by
  intro position failed
  rw [namePath] at failed
  split at failed <;> cases failed

theorem parts_eq_unbalanced_iff : parts token = .error (.unbalanced position) ↔
    cutBracket token = .error (.unbalanced position) := by
  refine BlamesNoBracket.bind_iff ?_
  rintro ⟨head, body⟩ _
  refine (cutKeyword_blamesNoBracket token head).bind ?_
  rintro ⟨type, path⟩ _
  exact (namePath_blamesNoBracket token path).bind fun _ _ => .pure _

/-- The brackets of a token begin at the first that opens. -/
theorem cutBracket_eq_unbalanced_iff : cutBracket token = .error (.unbalanced position) ↔
    OpenAt token position ∧ '[' ∉ token.take position := by
  constructor
  · intro failed
    obtain ⟨front, whole, before, stops⟩ := Text.exists_stretch (· ≠ '[') token
    generalize token.dropWhile (· ≠ '[') = rest at whole stops
    subst whole
    have plain : '[' ∉ front := fun member => by simpa using before '[' member
    rw [cutBracket, Text.takeWhile_append_stop before stops,
      Text.dropWhile_append_stop before stops] at failed
    cases rest with
    | nil => cases failed
    | cons first back =>
      obtain rfl : first = '[' := by simpa using stops first rfl
      dsimp only at failed
      split at failed
      · next unclosed =>
        obtain rfl := SyntaxError.unbalanced.inj (Except.error.inj failed)
        refine ⟨⟨front, back, rfl, rfl, closeBracket_eq_none_iff.mp unclosed⟩, ?_⟩
        rwa [List.take_left]
      · cases failed
      · cases failed
  · rintro ⟨⟨front, back, rfl, rfl, never⟩, plain⟩
    rw [List.take_left] at plain
    have before : ∀ c ∈ front, decide (c ≠ '[') = true := by
      intro c member
      simpa using ne_of_mem_of_not_mem member plain
    have stops : ∀ c ∈ ('[' :: back).head?, decide (c ≠ '[') = false := by simp
    rw [cutBracket, Text.takeWhile_append_stop before stops,
      Text.dropWhile_append_stop before stops]
    simp [closeBracket_eq_none_iff.mpr never]

theorem balanced_of_cutBracket (cut : cutBracket token = .ok (head, some body)) :
    Balanced body := by
  rw [cutBracket] at cut
  split at cut
  · cases cut
  · split at cut
    · cases cut
    · next closed =>
      cases cut
      exact depthAfter_of_closeBracket closed
    · cases cut

theorem balanced_of_parts {named : AggType × NamePath} (read : parts token = .ok (named, some body)) :
    Balanced body := by
  obtain ⟨⟨front, inside⟩, cut, read⟩ := Outcome.bind_eq_ok_iff.mp read
  obtain ⟨⟨type, path⟩, _, read⟩ := Outcome.bind_eq_ok_iff.mp read
  obtain ⟨path, _, read⟩ := Outcome.bind_eq_ok_iff.mp read
  cases read
  exact balanced_of_cutBracket cut

end SubAgg

theorem blamesNoBracket_tokenizeChars {text : List Char} (balanced : Balanced text) :
    BlamesNoBracket (tokenizeChars text) :=
  fun _ failed => (tokenizeChars_eq_unbalanced_iff.mp failed).not_balanced balanced

theorem Splits.readEach_blamesNoBracket {text : List Char} {cut : List (List Char)}
    (split : Splits text cut)
    (each : ∀ token, Balanced token → token.length ≤ text.length →
      BlamesNoBracket (SubAgg.ofToken token)) :
    BlamesNoBracket (SubAgg.readEach cut fun token _ => SubAgg.ofToken token) := by
  rw [SubAgg.readEach_eq_mapM]
  refine BlamesNoBracket.mapM ?_
  intro token member
  exact each token (split.isToken token member).balanced (split.length_le token member)

/-- Once a text has been cut into tokens, reading them is all that is left. -/
theorem ofChars_eq_unbalanced_iff_of {text : List Char} {position : Nat}
    (each : ∀ token, Balanced token → token.length ≤ text.length →
      BlamesNoBracket (SubAgg.ofToken token)) :
    Expression.ofChars text = .error (.unbalanced position) ↔
      tokenizeChars text = .error (.unbalanced position) := by
  refine BlamesNoBracket.bind_iff ?_
  intro cut tokenized
  obtain ⟨split, _⟩ := tokenizeChars_eq_ok_iff.mp tokenized
  exact (split.readEach_blamesNoBracket each).bind fun _ _ => .pure _

/-- A token that is balanced has nothing but balanced text inside it. -/
theorem SubAgg.ofToken_blamesNoBracket {token : List Char} (balanced : Balanced token) :
    BlamesNoBracket (ofToken token) := by
  induction size : token.length using Nat.strongRecOn generalizing token with
  | ind n ih =>
    subst size
    have cut : BlamesNoBracket (parts token) := by
      intro position failed
      obtain ⟨⟨front, back, rfl, _, never⟩, _⟩ :=
        cutBracket_eq_unbalanced_iff.mp (parts_eq_unbalanced_iff.mp failed)
      obtain ⟨q, stray⟩ := balanced.closes
      exact never q stray
    rw [ofToken_eq]
    refine cut.bind ?_
    rintro ⟨named, body⟩ read
    cases body with
    | none => exact .pure _
    | some body =>
      have shorter := length_body_of_parts read
      have inside := balanced_of_parts read
      have nested : BlamesNoBracket (Expression.ofChars body) := by
        intro position failed
        refine blamesNoBracket_tokenizeChars inside position
          ((ofChars_eq_unbalanced_iff_of ?_).mp failed)
        intro token' balanced' fits
        exact ih token'.length (Nat.lt_of_le_of_lt fits shorter) balanced' rfl
      exact nested.bind fun _ _ => .pure _

namespace Expression

variable {text : List Char} {position : Nat}

theorem ofChars_eq_unbalanced_iff : ofChars text = .error (.unbalanced position) ↔
    tokenizeChars text = .error (.unbalanced position) :=
  ofChars_eq_unbalanced_iff_of fun _ balanced _ => SubAgg.ofToken_blamesNoBracket balanced

theorem ofChars_blamesNoBracket (balanced : Balanced text) : BlamesNoBracket (ofChars text) :=
  fun position failed =>
    blamesNoBracket_tokenizeChars balanced position (ofChars_eq_unbalanced_iff.mp failed)

end Expression

theorem SubAgg.ofToken_eq_unbalanced_iff {token : List Char} {position : Nat} :
    ofToken token = .error (.unbalanced position) ↔
      OpenAt token position ∧ '[' ∉ token.take position := by
  rw [← cutBracket_eq_unbalanced_iff, ← parts_eq_unbalanced_iff, ofToken_eq]
  refine BlamesNoBracket.bind_iff ?_
  rintro ⟨named, body⟩ read
  cases body with
  | none => exact .pure _
  | some body =>
    exact (Expression.ofChars_blamesNoBracket (balanced_of_parts read)).bind fun _ _ => .pure _

theorem tokenize_eq_error_iff {text : String} {e : SyntaxError} :
    tokenize text = .error e ↔ tokenizeChars text.toList = .error e :=
  Outcome.map_eq_error_iff

/-- The brackets of a text are counted once, from its start. The scanner fails exactly where
that count is not balanced and names the place of the fault in the text; the parser fails
there too and nowhere else, since what stands in brackets never gives it a fault of its own.
A single token fails exactly if its first bracket is never closed. -/
theorem unbalanced_brackets_are_located :
    (∀ (text : String) (position : Nat),
      tokenize text = .error (.unbalanced position) ↔ UnbalancedAt text.toList position) ∧
    (∀ text : String, (∃ position, tokenize text = .error (.unbalanced position)) ↔
      ¬Balanced text.toList) ∧
    (∀ (text : String) (position : Nat),
      Expression.parse text = .error (.unbalanced position) ↔
        tokenize text = .error (.unbalanced position)) ∧
    (∀ token head body : List Char, SubAgg.cutBracket token = .ok (head, some body) →
      BlamesNoBracket (Expression.ofChars body)) ∧
    ∀ (token : String) (position : Nat),
      SubAgg.parse token = .error (.unbalanced position) ↔
        OpenAt token.toList position ∧ '[' ∉ token.toList.take position := by
  refine ⟨?_, ?_, ?_, ?_, ?_⟩
  · intro text position
    rw [tokenize_eq_error_iff, tokenizeChars_eq_unbalanced_iff]
  · intro text
    simp only [tokenize_eq_error_iff]
    constructor
    · rintro ⟨position, failed⟩
      exact (tokenizeChars_eq_unbalanced_iff.mp failed).not_balanced
    · exact exists_of_not_balanced
  · intro text position
    rw [tokenize_eq_error_iff]
    exact Expression.ofChars_eq_unbalanced_iff
  · intro token head body cut
    exact Expression.ofChars_blamesNoBracket (SubAgg.balanced_of_cutBracket cut)
  · intro token position
    exact SubAgg.ofToken_eq_unbalanced_iff

end AggFlatten
