import AggFlatten.Proofs.Expression.Imbalance
import AggFlatten.Proofs.Text.Slice

/-! Tokens read in place. The bracket that closes the first open one is searched for in the text
itself, by places in bytes and a count that is never negative, and what the brackets hold is
read by a further call. Three things could go wrong with that, whatever the token says: the count
could fall below zero, a slice could be cut inside a character, and the calls could go on for
ever. None of them does, and what is read is what the reader of tokens reads. -/
namespace AggFlatten

open Text (Balanced slice?)

/-- What must not happen to a reader in place. -/
inductive Breach where
  | belowZero
  /-- A slice that begins or ends inside a character or outside the text. -/
  | insideCharacter
  /-- More calls inside one another than are allowed. -/
  | tooDeep
deriving DecidableEq

/-- A reader in place tells what is wrong with the text, unless there is a breach. -/
abbrev InPlace := ExceptT SyntaxError (Except Breach)

namespace InPlace

/-- An outcome that is reached without a breach. -/
def safely {α : Type} (outcome : Except SyntaxError α) : InPlace α :=
  ExceptT.mk (.ok outcome)

def lower : (count : Nat) → Except Breach Nat
  | 0 => .error .belowZero
  | count + 1 => .ok count

def cut (text : String) (start stop : Nat) : Except Breach String :=
  match slice? text start stop with
  | some piece => .ok piece
  | none => .error .insideCharacter

/-- The place of the bracket that closes the first open one; `depth` are open before. -/
def closingPlace (place depth : Nat) : List Char → Except Breach (Option Nat)
  | [] => .ok none
  | c :: rest =>
    if c = '[' then closingPlace (place + c.utf8Size) (depth + 1) rest
    else if c = ']' then do
      let depth ← lower depth
      if depth = 0 then return some place else closingPlace (place + c.utf8Size) depth rest
    else closingPlace (place + c.utf8Size) depth rest

/-- What stands between the bracket at a place and the one that closes it, with which the token
has to end. -/
def bracketBody (token : String) (opened : Nat) : InPlace String := do
  let rest ← cut token opened token.utf8ByteSize
  match ← closingPlace 0 0 rest.toList with
  | some behind =>
    let closed := opened + behind
    if closed = (← lower token.utf8ByteSize) then cut token (opened + 1) closed
    else throw (.malformed token .textAfterBracket)
  | none =>
    let head ← cut token 0 opened
    throw (.unbalanced head.length)

def cutBracket (token : String) : InPlace (String × Option String) :=
  match token.find? '[' with
  | none => return (token, none)
  | some place => do
    let head ← cut token 0 place.offset.byteIdx
    return (head, some (← bracketBody token place.offset.byteIdx))

def expression (read : String → InPlace SubAgg) (text : String) : InPlace Expression := do
  let tokens ← safely (tokenize text)
  return ⟨String.ofList (Text.trim text.toList), ← tokens.mapM read⟩

/-- Reads a token with so many calls inside one another, of which this is the first. -/
def subAgg : (calls : Nat) → (token : String) → InPlace SubAgg
  | 0, _ => liftM (Except.error Breach.tooDeep)
  | calls + 1, token => do
    let (head, body) ← cutBracket token
    let (type, path) ← safely (SubAgg.cutKeyword token.toList head.toList)
    let path ← safely (SubAgg.namePath token.toList path)
    match body with
    | none => return .bare type path
    | some body =>
      let nested ← expression (subAgg calls) body
      return .bracketed type path nested.source nested.subs

/-- Inside a bracket the count stays above zero until that bracket is closed. -/
theorem closingPlace_eq (place depth : Nat) (text : List Char) :
    closingPlace place (depth + 1) text =
      .ok ((closeBracket depth text).map fun (inside, _) =>
        place + (String.ofList inside).utf8ByteSize) := by
  induction text generalizing place depth with
  | nil => rfl
  | cons c rest ih =>
    rw [closingPlace, closeBracket]
    by_cases opens : c = '['
    · have stays : ¬(c = ']' ∧ depth = 0) := by simp [opens]
      rw [if_pos opens, if_neg stays, ih, if_pos opens, Option.map_map]
      simp [Function.comp_def, Nat.add_assoc]
    · rw [if_neg opens]
      by_cases closes : c = ']'
      · rw [if_pos closes]
        cases depth with
        | zero =>
          rw [if_pos ⟨closes, rfl⟩]
          simp [lower, bind, Except.bind, pure, Except.pure]
        | succ depth =>
          have stays : ¬(c = ']' ∧ depth + 1 = 0) := by simp
          rw [if_neg stays, if_neg opens, if_pos closes]
          simp [lower, bind, Except.bind, ih, Function.comp_def, Nat.add_assoc]
      · have stays : ¬(c = ']' ∧ depth = 0) := by simp [closes]
        rw [if_neg closes, ih, if_neg stays, if_neg opens, if_neg closes]
        simp [Function.comp_def, Nat.add_assoc]

theorem closingPlace_at_bracket (tail : String) :
    closingPlace 0 0 ("[" ++ tail).toList =
      .ok ((closeBracket 0 tail.toList).map fun (inside, _) =>
        1 + (String.ofList inside).utf8ByteSize) := by
  have chars : ("[" ++ tail).toList = '[' :: tail.toList := by simp
  rw [chars, closingPlace, if_pos rfl]
  exact closingPlace_eq 1 0 tail.toList

end InPlace

theorem closeBracket_eq_some_iff {text inside after : List Char} :
    closeBracket 0 text = some (inside, after) ↔
      text = inside ++ ']' :: after ∧ Balanced inside := by
  constructor
  · intro closed
    exact ⟨eq_append_of_closeBracket closed, depthAfter_of_closeBracket closed⟩
  · rintro ⟨rfl, balanced⟩
    rw [Grammar.closeBracket_append balanced]
    simp [closeBracket]

/-- The first bracket of a token stands behind `head`. -/
structure OpensBehind (token head : String) : Prop where
  free : '[' ∉ head.toList
  opens : ∃ tail, token = head ++ "[" ++ tail

/-- The bracket behind `head` encloses `body`, and `after` follows the one that closes it. -/
structure Encloses (token head body after : String) : Prop where
  whole : token = head ++ "[" ++ body ++ "]" ++ after
  balanced : Balanced body.toList

variable {token head tail body after : String}

theorem encloses_append_iff : Encloses (head ++ "[" ++ tail) head body after ↔
    closeBracket 0 tail.toList = some (body.toList, after.toList) := by
  rw [closeBracket_eq_some_iff]
  constructor
  · rintro ⟨whole, balanced⟩
    have same := congrArg String.toList whole
    simp only [String.toList_append, List.append_assoc, List.append_cancel_left_eq] at same
    exact ⟨same, balanced⟩
  · rintro ⟨same, balanced⟩
    refine ⟨String.toList_inj.mp ?_, balanced⟩
    simp [same]

theorem encloses_of_closeBracket {inside rest : List Char} (whole : token = head ++ "[" ++ tail)
    (closed : closeBracket 0 tail.toList = some (inside, rest)) :
    Encloses token head (String.ofList inside) (String.ofList rest) := by
  rw [whole, encloses_append_iff]
  simpa using closed

@[simp]
theorem utf8ByteSize_open : "[".utf8ByteSize = 1 := rfl

@[simp]
theorem utf8ByteSize_close : "]".utf8ByteSize = 1 := rfl

theorem exists_opensBehind (holds : '[' ∈ token.toList) : ∃ head, OpensBehind token head := by
  obtain ⟨front, back, whole, free⟩ := List.eq_append_cons_of_mem holds
  refine ⟨String.ofList front, by simpa using free, String.ofList back, ?_⟩
  exact String.toList_inj.mp (by simp [whole])

theorem OpensBehind.find? (opens : OpensBehind token head) :
    (token.find? '[').map (·.offset.byteIdx) = some head.utf8ByteSize := by
  obtain ⟨free, tail, whole⟩ := opens
  have apart : token = head ++ ("[" ++ tail) := whole.trans (String.append_assoc ..)
  have found : token.find? '[' = some (token.pos _ (Text.isValid_of_append apart rfl)) :=
    String.find?_char_eq_some_iff_splits.mpr ⟨head, tail, ⟨apart, rfl⟩, free⟩
  rw [found, Option.map_some, String.offset_pos]

namespace Encloses

theorem size (enclosed : Encloses token head body after) : token.utf8ByteSize =
    head.utf8ByteSize + 1 + body.utf8ByteSize + after.utf8ByteSize + 1 := by
  simp only [enclosed.whole, String.utf8ByteSize_append, utf8ByteSize_open, utf8ByteSize_close]
  omega

theorem empty_iff : Encloses token head body "" ↔
    token = head ++ "[" ++ body ++ "]" ∧ Balanced body.toList := by
  constructor
  · rintro ⟨whole, balanced⟩
    exact ⟨by simpa using whole, balanced⟩
  · rintro ⟨rfl, balanced⟩
    exact ⟨by simp, balanced⟩

end Encloses

namespace InPlace

theorem lift_ok_bind {α β : Type} {a : α} {f : α → InPlace β} :
    (liftM (Except.ok a : Except Breach α) : InPlace α) >>= f = f a := rfl

theorem safely_inj {α : Type} {a b : Except SyntaxError α} : safely a = safely b ↔ a = b :=
  ⟨fun same => Except.ok.inj same, congrArg safely⟩

theorem cut_append {text front piece back : String} {start stop : Nat}
    (whole : text = front ++ piece ++ back) (first : front.utf8ByteSize = start)
    (last : start + piece.utf8ByteSize = stop) : cut text start stop = .ok piece := by
  rw [cut, Text.slice?_append whole first last]

theorem cut_to_bracket (whole : token = head ++ "[" ++ tail) :
    cut token 0 head.utf8ByteSize = .ok head := by
  have apart : token = "" ++ head ++ ("[" ++ tail) := by simp [whole, String.append_assoc]
  exact cut_append apart rfl (by simp)

theorem cut_from_bracket (whole : token = head ++ "[" ++ tail) :
    cut token head.utf8ByteSize token.utf8ByteSize = .ok ("[" ++ tail) := by
  have apart : token = head ++ ("[" ++ tail) ++ "" := by simp [whole, String.append_assoc]
  exact cut_append apart rfl (by simp [whole, Nat.add_assoc])

theorem bracketBody_of_unclosed (whole : token = head ++ "[" ++ tail)
    (unclosed : closeBracket 0 tail.toList = none) :
    bracketBody token head.utf8ByteSize = safely (.error (.unbalanced head.length)) := by
  rw [bracketBody, cut_from_bracket whole, lift_ok_bind, closingPlace_at_bracket, unclosed,
    Option.map_none, lift_ok_bind, cut_to_bracket whole]
  rfl

theorem bracketBody_of_encloses (enclosed : Encloses token head body after) :
    bracketBody token head.utf8ByteSize =
      safely (if after = "" then .ok body else .error (.malformed token .textAfterBracket)) := by
  have fromBracket : token = head ++ "[" ++ (body ++ "]" ++ after) := by
    simp [enclosed.whole, String.append_assoc]
  have inBrackets : token = (head ++ "[") ++ body ++ ("]" ++ after) := by
    simp [enclosed.whole, String.append_assoc]
  have inside : cut token (head.utf8ByteSize + 1) (head.utf8ByteSize + (1 + body.utf8ByteSize)) =
      .ok body :=
    cut_append inBrackets (by simp) (by omega)
  have closed : closeBracket 0 (body ++ "]" ++ after).toList = some (body.toList, after.toList) :=
    closeBracket_eq_some_iff.mpr ⟨by simp, enclosed.balanced⟩
  rw [bracketBody, cut_from_bracket fromBracket, lift_ok_bind, closingPlace_at_bracket, closed,
    Option.map_some, lift_ok_bind]
  dsimp only
  rw [String.ofList_toList, enclosed.size, lower, lift_ok_bind, inside]
  by_cases last : after = ""
  · have ends : head.utf8ByteSize + (1 + body.utf8ByteSize) =
        head.utf8ByteSize + 1 + body.utf8ByteSize + after.utf8ByteSize := by
      simp [last, Nat.add_assoc]
    rw [if_pos ends, if_pos last]
    rfl
  · have positive : after.utf8ByteSize ≠ 0 := fun empty =>
      last (String.utf8ByteSize_eq_zero_iff.mp empty)
    rw [if_neg (by omega), if_neg last]
    rfl

theorem bracketBody_cases (opens : OpensBehind token head) :
    (∃ body after, Encloses token head body after) ∨
      (∀ body after, ¬Encloses token head body after) ∧
        bracketBody token head.utf8ByteSize = safely (.error (.unbalanced head.length)) := by
  obtain ⟨tail, whole⟩ := opens.opens
  cases closed : closeBracket 0 tail.toList with
  | none =>
    refine .inr ⟨?_, bracketBody_of_unclosed whole closed⟩
    intro body after enclosed
    rw [whole, encloses_append_iff, closed] at enclosed
    cases enclosed
  | some found =>
    obtain ⟨inside, after⟩ := found
    exact .inl ⟨_, _, encloses_of_closeBracket whole closed⟩

theorem bracketBody_safe (opens : OpensBehind token head) :
    ∃ outcome, bracketBody token head.utf8ByteSize = safely outcome := by
  rcases bracketBody_cases opens with ⟨body, after, enclosed⟩ | ⟨_, unclosed⟩
  · exact ⟨_, bracketBody_of_encloses enclosed⟩
  · exact ⟨_, unclosed⟩

theorem bracketBody_eq_ok_iff (opens : OpensBehind token head) :
    bracketBody token head.utf8ByteSize = safely (.ok body) ↔ Encloses token head body "" := by
  constructor
  · intro read
    rcases bracketBody_cases opens with ⟨body', after, enclosed⟩ | ⟨_, unclosed⟩
    · rw [bracketBody_of_encloses enclosed, safely_inj] at read
      split at read
      · next last => rwa [← Except.ok.inj read, ← last]
      · cases read
    · rw [unclosed, safely_inj] at read
      cases read
  · intro enclosed
    rw [bracketBody_of_encloses enclosed, if_pos rfl]

theorem bracketBody_eq_malformed_iff (opens : OpensBehind token head) {quoted : String}
    {reason : Malformation} :
    bracketBody token head.utf8ByteSize = safely (.error (.malformed quoted reason)) ↔
      quoted = token ∧ reason = .textAfterBracket ∧
        ∃ body after, Encloses token head body after ∧ after ≠ "" := by
  constructor
  · intro read
    rcases bracketBody_cases opens with ⟨body, after, enclosed⟩ | ⟨_, unclosed⟩
    · rw [bracketBody_of_encloses enclosed, safely_inj] at read
      split at read
      · cases read
      · next more =>
        cases read
        exact ⟨rfl, rfl, body, after, enclosed, more⟩
    · rw [unclosed, safely_inj] at read
      cases read
  · rintro ⟨rfl, rfl, body, after, enclosed, more⟩
    rw [bracketBody_of_encloses enclosed, if_neg more]

theorem bracketBody_eq_unbalanced_iff (opens : OpensBehind token head) {position : Nat} :
    bracketBody token head.utf8ByteSize = safely (.error (.unbalanced position)) ↔
      position = head.length ∧ ∀ body after, ¬Encloses token head body after := by
  rcases bracketBody_cases opens with ⟨body, after, enclosed⟩ | ⟨never, unclosed⟩
  · constructor
    · intro read
      rw [bracketBody_of_encloses enclosed, safely_inj] at read
      split at read <;> cases read
    · rintro ⟨_, never⟩
      exact absurd enclosed (never body after)
  · rw [unclosed, safely_inj]
    constructor
    · intro same
      cases same
      exact ⟨rfl, never⟩
    · rintro ⟨rfl, _⟩
      rfl

end InPlace

namespace SubAgg

variable {token head body tail : List Char}

theorem cutBracket_of_free (free : '[' ∉ token) : cutBracket token = .ok (token, none) := by
  simpa [Grammar.inBrackets] using @Grammar.cutBracket_append token none free (by simp)

theorem cutBracket_of_first (free : '[' ∉ head) :
    cutBracket (head ++ '[' :: tail) =
      match closeBracket 0 tail with
      | none => .error (.unbalanced head.length)
      | some (body, []) => .ok (head, some body)
      | some (_, _ :: _) =>
        .error (.malformed (String.ofList (head ++ '[' :: tail)) .textAfterBracket) := by
  have before : ∀ c ∈ head, decide (c ≠ '[') = true := by
    intro c member
    simpa using ne_of_mem_of_not_mem member free
  have stops : ∀ c ∈ ('[' :: tail).head?, decide (c ≠ '[') = false := by simp
  have taken := Text.takeWhile_append_stop before stops
  have dropped := Text.dropWhile_append_stop before stops
  rcases closed : closeBracket 0 tail with _ | ⟨body, _ | ⟨c, after⟩⟩
  all_goals simp only [cutBracket, taken, dropped, closed]

theorem count_body_of_cutBracket (cut : cutBracket token = .ok (head, some body)) :
    body.count '[' < token.count '[' := by
  have whole := Grammar.eq_of_cutBracket cut
  have counted : token.count '[' = head.count '[' + (body.count '[' + 1) := by
    simp [whole, Grammar.inBrackets]
  omega

end SubAgg

theorem Splits.count_le {text : List Char} {cut : List (List Char)} (split : Splits text cut)
    (c : Char) : ∀ token ∈ cut, token.count c ≤ text.count c := by
  induction split with
  | blank spaces => simp
  | token spaces word ends more ih =>
    intro other member
    rw [List.count_append, List.count_append]
    rcases List.mem_cons.mp member with rfl | later
    · omega
    · have := ih other later
      omega

namespace InPlace

section steps

variable {α β γ : Type} {read : α → InPlace β}

/-- What is done without a breach step by step is done without one as a whole. -/
theorem bind_eq_safely {outcome : Except SyntaxError α} {later : α → Except SyntaxError β}
    (same : ∀ a, outcome = .ok a → read a = safely (later a)) :
    safely outcome >>= read = safely (outcome >>= later) := by
  cases outcome with
  | error e => rfl
  | ok a => exact same a rfl

theorem map_bind_eq_safely {outcome : Except SyntaxError γ} {f : γ → α}
    {later : γ → Except SyntaxError β}
    (same : ∀ c, outcome = .ok c → read (f c) = safely (later c)) :
    safely (outcome.map f) >>= read = safely (outcome >>= later) := by
  cases outcome with
  | error e => rfl
  | ok c => exact same c rfl

theorem mapM_eq_safely {each : α → Except SyntaxError β} {items : List α}
    (same : ∀ a ∈ items, read a = safely (each a)) :
    items.mapM read = safely (items.mapM each) := by
  induction items with
  | nil => rfl
  | cons a items ih =>
    obtain ⟨first, later⟩ := List.forall_mem_cons.mp same
    rw [List.mapM_cons, List.mapM_cons, first, ih later]
    exact bind_eq_safely fun b _ => bind_eq_safely fun bs _ => rfl

end steps

theorem cutBracket_of_free (free : '[' ∉ token.toList) :
    cutBracket token = safely (.ok (token, none)) := by
  have absent : token.find? '[' = none := by
    cases found : token.find? '[' with
    | none => rfl
    | some place =>
      obtain ⟨front, back, split, _⟩ := String.find?_char_eq_some_iff_splits.mp found
      exact absurd (by simp [split.eq_append]) free
  rw [cutBracket, absent]
  rfl

theorem cutBracket_of_first (opens : OpensBehind token head) :
    cutBracket token = (do
      let body ← bracketBody token head.utf8ByteSize
      return (head, some body)) := by
  obtain ⟨place, found, same⟩ := Option.map_eq_some_iff.mp opens.find?
  obtain ⟨tail, whole⟩ := opens.opens
  rw [cutBracket, found]
  dsimp only
  rw [same, cut_to_bracket whole, lift_ok_bind]

/-- Head and body are found in place as they are found among the characters of the token. -/
theorem cutBracket_eq (token : String) : cutBracket token =
    safely ((SubAgg.cutBracket token.toList).map fun (head, body) =>
      (String.ofList head, body.map String.ofList)) := by
  by_cases first : '[' ∈ token.toList
  · obtain ⟨head, opens⟩ := exists_opensBehind first
    obtain ⟨free, tail, whole⟩ := opens
    have chars : token.toList = head.toList ++ '[' :: tail.toList := by simp [whole]
    rw [cutBracket_of_first ⟨free, tail, whole⟩, chars, SubAgg.cutBracket_of_first free]
    cases closed : closeBracket 0 tail.toList with
    | none =>
      rw [bracketBody_of_unclosed whole closed]
      rfl
    | some found =>
      obtain ⟨inside, after⟩ := found
      rw [bracketBody_of_encloses (encloses_of_closeBracket whole closed)]
      cases after with
      | nil =>
        rw [if_pos rfl]
        simp only [Except.map, String.ofList_toList]
        rfl
      | cons c after =>
        rw [if_neg (by simp), ← chars, String.ofList_toList]
        rfl
  · rw [cutBracket_of_free first, SubAgg.cutBracket_of_free first]
    simp [Except.map]

theorem expression_eq {read : String → InPlace SubAgg} {text : String}
    (reads : ∀ token : String, token.toList.count '[' ≤ text.toList.count '[' →
      read token = safely (SubAgg.parse token)) :
    expression read text = safely (Expression.parse text) := by
  rw [expression, tokenize, Expression.parse, Expression.ofChars]
  refine map_bind_eq_safely ?_
  intro tokens tokenized
  obtain ⟨split, _⟩ := tokenizeChars_eq_ok_iff.mp tokenized
  have each : ∀ token ∈ tokens,
      (read ∘ String.ofList) token = safely (SubAgg.ofToken token) := by
    intro token member
    have fewer : (String.ofList token).toList.count '[' ≤ text.toList.count '[' := by
      simpa using split.count_le '[' token member
    rw [Function.comp_apply, reads _ fewer, SubAgg.parse, String.toList_ofList]
  rw [SubAgg.readEach_eq_mapM, List.mapM_map, mapM_eq_safely each]
  exact bind_eq_safely fun subs _ => rfl

/-- Every call for a nested expression leaves a bracket behind, so that there are enough calls
for all of them if there are more than brackets in the token. -/
theorem subAgg_eq {calls : Nat} (enough : token.toList.count '[' < calls) :
    subAgg calls token = safely (SubAgg.parse token) := by
  induction calls generalizing token with
  | zero => simp at enough
  | succ calls ih =>
    rw [subAgg, cutBracket_eq, SubAgg.parse, SubAgg.ofToken_eq, SubAgg.parts, bind_assoc]
    refine map_bind_eq_safely ?_
    rintro ⟨head, body⟩ cut
    simp only [String.toList_ofList, bind_assoc, pure_bind]
    refine bind_eq_safely ?_
    rintro ⟨type, path⟩ _
    refine bind_eq_safely ?_
    intro path _
    cases body with
    | none => rfl
    | some body =>
      have fewer := SubAgg.count_body_of_cutBracket cut
      have nested : expression (subAgg calls) (String.ofList body) =
          safely (Expression.parse (String.ofList body)) := by
        refine expression_eq ?_
        intro token inside
        rw [String.toList_ofList] at inside
        exact ih (by omega)
      simp only [Option.map_some]
      rw [nested, Expression.parse, String.toList_ofList]
      exact bind_eq_safely fun e _ => rfl

end InPlace

open InPlace

/-- Where the first bracket stands behind `head`, the one that closes it is searched for in place:
the count is never taken below zero, and every slice is cut between characters. What the two
enclose is the body if nothing follows it, and then it is shorter than the token; text that
follows it is a fault of its own, and so is a bracket that nothing closes. The reader that is
built on this search reads a token as `SubAgg.parse` does and an expression as
`Expression.parse` does, with one call for the whole and at most one more, inside it, for
each bracket that is opened. -/
theorem first_bracket_is_cut_out_safely :
    (∀ token : String, '[' ∈ token.toList → ∃ head, OpensBehind token head) ∧
    (∀ token head : String, OpensBehind token head →
      (token.find? '[').map (·.offset.byteIdx) = some head.utf8ByteSize ∧
      (∃ outcome, bracketBody token head.utf8ByteSize = safely outcome) ∧
      (∀ body, bracketBody token head.utf8ByteSize = safely (.ok body) ↔
        token = head ++ "[" ++ body ++ "]" ∧ Balanced body.toList) ∧
      (∀ body, bracketBody token head.utf8ByteSize = safely (.ok body) →
        body.utf8ByteSize < token.utf8ByteSize) ∧
      (∀ quoted reason,
        bracketBody token head.utf8ByteSize = safely (.error (.malformed quoted reason)) ↔
          quoted = token ∧ reason = .textAfterBracket ∧
            ∃ body after, Encloses token head body after ∧ after ≠ "") ∧
      ∀ position, bracketBody token head.utf8ByteSize = safely (.error (.unbalanced position)) ↔
        position = head.length ∧ ∀ body after, ¬Encloses token head body after) ∧
    (∀ token, cutBracket token = safely ((SubAgg.cutBracket token.toList).map fun (head, body) =>
      (String.ofList head, body.map String.ofList))) ∧
    (∀ (token : String) (calls : Nat), token.toList.count '[' < calls →
      subAgg calls token = safely (SubAgg.parse token)) ∧
    ∀ (text : String) (calls : Nat), text.toList.count '[' < calls →
      expression (subAgg calls) text = safely (Expression.parse text) := by
  refine ⟨fun token => exists_opensBehind, ?_, cutBracket_eq,
    fun token calls enough => subAgg_eq enough, ?_⟩
  · intro token head opens
    refine ⟨opens.find?, bracketBody_safe opens, ?_, ?_,
      fun quoted reason => bracketBody_eq_malformed_iff opens,
      fun position => bracketBody_eq_unbalanced_iff opens⟩
    · intro body
      rw [bracketBody_eq_ok_iff opens, Encloses.empty_iff]
    · intro body read
      have size := ((bracketBody_eq_ok_iff opens).mp read).size
      omega
  · intro text calls enough
    refine expression_eq ?_
    intro token inside
    exact subAgg_eq (by omega)

theorem hour_is_cut_out_in_place :
    bracketBody "größe[hour[load]]" 7 = safely (.ok "hour[load]") ∧
      bracketBody "größe[hour]s" 7 =
        safely (.error (.malformed "größe[hour]s" .textAfterBracket)) ∧
      bracketBody "größe[hour[load]" 7 = safely (.error (.unbalanced 5)) ∧
      subAgg 3 "größe[hour[load]]" = safely (SubAgg.parse "größe[hour[load]]") := by
  obtain ⟨_, cuts, _, reads, _⟩ := first_bracket_is_cut_out_safely
  have free : '[' ∉ "größe".toList := by decide
  refine ⟨?_, ?_, ?_, reads _ _ (by decide)⟩
  · obtain ⟨_, _, body, _⟩ := cuts "größe[hour[load]]" "größe" ⟨free, "hour[load]]", rfl⟩
    exact (body "hour[load]").mpr ⟨rfl, rfl⟩
  · obtain ⟨_, _, _, _, behind, _⟩ := cuts "größe[hour]s" "größe" ⟨free, "hour]s", rfl⟩
    exact (behind _ _).mpr ⟨rfl, rfl, "hour", "s", ⟨rfl, rfl⟩, by decide⟩
  · obtain ⟨_, _, _, _, _, open'⟩ := cuts "größe[hour[load]" "größe" ⟨free, "hour[load]", rfl⟩
    refine (open' 5).mpr ⟨rfl, ?_⟩
    intro body after enclosed
    have closed : closeBracket 0 "hour[load]".toList = some (body.toList, after.toList) :=
      (@encloses_append_iff "größe" "hour[load]" body after).mp enclosed
    have unclosed : closeBracket 0 "hour[load]".toList = none := rfl
    rw [unclosed] at closed
    cases closed

end AggFlatten
