import AggFlatten.Proofs.Expression.Imbalance

/-! One scanner called again and again, after faults too. Behind its tokens it answers in one of
three ways for ever, and the brackets of the text tell in which. No call goes back in the text,
and one that answers a token goes forth. -/
namespace AggFlatten

open Text (isSpace trimStart depthAfter Balanced StrayAt UnbalancedAt)

namespace Lexer

/-- What a call answers: a token, or none, or a fault. -/
abbrev Answer := Except SyntaxError (Option (List Char))

def start (text : String) : Lexer :=
  ⟨0, text.toList⟩

/-- The scanner after some calls, whatever they answered. -/
def after (lexer : Lexer) : (calls : Nat) → Lexer
  | 0 => lexer
  | calls + 1 => lexer.next.2.after calls

/-- The answer of the call that comes after so many others. -/
def answer (lexer : Lexer) (calls : Nat) : Answer :=
  (lexer.after calls).next.1

/-- How the answers go on behind the last token. -/
inductive Fate where
  | exhausted
  /-- The scanner stays before a bracket that closes nothing. -/
  | stuck (position : Nat)
  /-- The text ends inside brackets, of which this is the first. -/
  | cutOff (position : Nat)

namespace Fate

def answer : Fate → (calls : Nat) → Answer
  | exhausted, _ => .ok none
  | stuck position, _ => .error (.unbalanced position)
  | cutOff position, 0 => .error (.unbalanced position)
  | cutOff _, _ + 1 => .ok none

/-- The tokens one by one, and then what the fate says. -/
def answers (fate : Fate) : (tokens : List (List Char)) → (calls : Nat) → Answer
  | [], calls => fate.answer calls
  | token :: _, 0 => .ok (some token)
  | _ :: tokens, calls + 1 => fate.answers tokens calls

/-- The tokens before the first call that answers none, or the first fault. -/
def collected (tokens : List (List Char)) : Fate → Except SyntaxError (List (List Char))
  | exhausted => .ok tokens
  | stuck position | cutOff position => .error (.unbalanced position)

/-- What the text is cut into, which is not nothing. -/
def outcome (tokens : List (List Char)) : Fate → Except SyntaxError (List String)
  | exhausted => if tokens = [] then .error .empty else .ok (tokens.map String.ofList)
  | stuck position | cutOff position => .error (.unbalanced position)

/-- The brackets of the text are to blame. -/
inductive Explained (text : List Char) : Fate → Prop where
  | exhausted (balanced : Balanced text) : Explained text .exhausted
  | stuck {position : Nat} (stray : StrayAt text position) : Explained text (.stuck position)
  | cutOff {position : Nat} (clean : ∀ q, ¬StrayAt text q)
      (fault : UnbalancedAt text position) : Explained text (.cutOff position)

end Fate

variable {lexer : Lexer} {position depth opened place : Nat} {text rest : List Char}

theorem after_succ (lexer : Lexer) (calls : Nat) :
    lexer.after (calls + 1) = (lexer.after calls).next.2 := by
  induction calls generalizing lexer with
  | zero => rfl
  | succ calls ih => exact ih lexer.next.2

theorem Ending.cons_eq_stray_iff {c : Char} {ending : Ending} :
    ending.cons c = .stray place rest ↔ ending = .stray place rest := by
  cases ending <;> simp [Ending.cons]

theorem Ending.cons_eq_unclosed_iff {c : Char} {ending : Ending} :
    ending.cons c = .unclosed place ↔ ending = .unclosed place := by
  cases ending <;> simp [Ending.cons]

theorem stray_of_scan (scanned : scan position depth opened text = .stray place rest) :
    ∃ front back, text = front ++ rest ∧ rest = ']' :: back ∧ depthAfter depth front = some 0 ∧
      place = position + front.length := by
  induction text generalizing position depth opened with
  | nil =>
    rw [scan] at scanned
    split at scanned <;> cases scanned
  | cons c text ih =>
    cases reads position depth opened c text with
    | on first counted _ =>
      rw [first] at scanned
      obtain ⟨front, back, rfl, same, closed, rfl⟩ := ih (Ending.cons_eq_stray_iff.mp scanned)
      refine ⟨c :: front, back, rfl, same, ?_, by simp; omega⟩
      rw [Text.depthAfter_cons counted]
      exact closed
    | stray closes outside =>
      subst closes outside
      rw [scan_stray] at scanned
      cases scanned
      exact ⟨[], text, rfl, rfl, rfl, rfl⟩
    | space space outside =>
      subst outside
      rw [scan_space space] at scanned
      cases scanned

/-- A token that is not closed goes on to the end of the text. -/
theorem counted_of_scan (scanned : scan position depth opened text = .unclosed place) :
    ∃ after, depthAfter depth text = some after := by
  induction text generalizing position depth opened with
  | nil => exact ⟨depth, rfl⟩
  | cons c text ih =>
    cases reads position depth opened c text with
    | on first counted _ =>
      rw [first] at scanned
      obtain ⟨after, closed⟩ := ih (Ending.cons_eq_unclosed_iff.mp scanned)
      refine ⟨after, ?_⟩
      rw [Text.depthAfter_cons counted]
      exact closed
    | stray closes outside =>
      subst closes outside
      rw [scan_stray] at scanned
      cases scanned
    | space space outside =>
      subst outside
      rw [scan_space space] at scanned
      cases scanned

/-- The two ways in which a call finds a bracket at fault, and the place it comes to. -/
inductive Faulty (lexer : Lexer) : SyntaxError → Lexer → Prop where
  | stray {front back : List Char} (whole : lexer.rest = front ++ ']' :: back)
      (balanced : Balanced front) :
      Faulty lexer (.unbalanced (lexer.position + front.length))
        ⟨lexer.position + front.length, ']' :: back⟩
  | unclosed {front back : List Char} (whole : lexer.rest = front ++ '[' :: back)
      (balanced : Balanced front) (never : ∀ q, ¬StrayAt back q) :
      Faulty lexer (.unbalanced (lexer.position + front.length))
        ⟨lexer.position + lexer.rest.length, []⟩

theorem faulty_of_next {last : Lexer} {e : SyntaxError} (failed : lexer.next = (.error e, last)) :
    Faulty lexer e last := by
  obtain ⟨gap, whole, spaces, _⟩ := Text.exists_gap lexer.rest
  have length := congrArg List.length whole
  rw [List.length_append] at length
  have blamed := fault_of_next failed
  rw [next] at failed
  split at failed
  · cases failed
  · cases failed
  · next scanned =>
    obtain ⟨front, back, trimmed, rfl, closed, rfl⟩ := stray_of_scan scanned
    obtain ⟨⟨rfl⟩, rfl⟩ := Prod.mk.inj failed
    have stray : lexer.rest = (gap ++ front) ++ ']' :: back := by
      rw [List.append_assoc, ← trimmed]
      exact whole
    have place : lexer.position + (lexer.rest.length - (trimStart lexer.rest).length) +
        front.length = lexer.position + (gap ++ front).length := by
      rw [List.length_append]
      omega
    rw [place]
    exact .stray stray ((Balanced.of_spaces spaces).append closed)
  · next scanned =>
    obtain ⟨_, rfl, front, back, same, balanced, fault, rfl⟩ := blamed
    obtain ⟨-, rfl⟩ := Prod.mk.inj failed
    have ends : lexer.position + (lexer.rest.length - (trimStart lexer.rest).length) +
        (trimStart lexer.rest).length = lexer.position + lexer.rest.length := by
      omega
    rw [ends]
    cases fault with
    | stray back =>
      -- A text with a stray bracket is not read to its end.
      obtain ⟨after, counted⟩ := counted_of_scan scanned
      have none : depthAfter 0 lexer.rest = none := by
        rw [same]
        exact Text.depthAfter_append_stray balanced
      rw [whole, Text.depthAfter_append, Balanced.of_spaces spaces, Option.bind_some,
        counted] at none
      cases none
    | unclosed never => exact .unclosed same balanced never

/-- A call reads on in the text, and its place is behind what it has read. -/
theorem next_moves (lexer : Lexer) : ∃ read, lexer.rest = read ++ lexer.next.2.rest ∧
    lexer.next.2.position = lexer.position + read.length := by
  cases called : lexer.next with
  | mk reply last =>
    match reply with
    | .error e =>
      cases faulty_of_next called with
      | @stray front back whole _ => exact ⟨front, whole, rfl⟩
      | unclosed => exact ⟨lexer.rest, (List.append_nil _).symm, rfl⟩
    | .ok none =>
      obtain ⟨-, rfl⟩ := next_eq_none_iff.mp called
      exact ⟨lexer.rest, (List.append_nil _).symm, rfl⟩
    | .ok (some token) =>
      obtain ⟨gap, whole, _, _, _, placed⟩ := next_eq_token_iff.mp called
      refine ⟨gap ++ token, by rw [whole, List.append_assoc], ?_⟩
      rw [placed, List.length_append, Nat.add_assoc]

theorem after_moves (lexer : Lexer) (calls : Nat) :
    ∃ read, lexer.rest = read ++ (lexer.after calls).rest ∧
      (lexer.after calls).position = lexer.position + read.length := by
  induction calls generalizing lexer with
  | zero => exact ⟨[], rfl, rfl⟩
  | succ calls ih =>
    obtain ⟨read, whole, placed⟩ := next_moves lexer
    obtain ⟨more, later, placed'⟩ := ih lexer.next.2
    refine ⟨read ++ more, ?_, ?_⟩
    · rw [List.append_assoc, after, ← later]
      exact whole
    · rw [after, placed', placed, List.length_append, Nat.add_assoc]

/-- A call that leaves the scanner where it is gives its answer for ever. -/
theorem answer_of_fixed {reply : Answer} (fixed : lexer.next = (reply, lexer)) (calls : Nat) :
    lexer.answer calls = reply := by
  induction calls with
  | zero => rw [answer, after, fixed]
  | succ calls ih =>
    rw [answer, after, fixed]
    exact ih

/-- Behind a call after which the scanner stays where it is all answers are as the next. -/
theorem answer_of_last {last : Lexer} {reply reply' : Answer} {fate : Fate}
    (called : lexer.next = (reply, last)) (fixed : last.next = (reply', last))
    (first : fate.answer 0 = reply) (later : ∀ calls, fate.answer (calls + 1) = reply')
    (calls : Nat) : lexer.answer calls = fate.answer calls := by
  cases calls with
  | zero => rw [answer, after, called, first]
  | succ calls =>
    rw [answer, after, called, later]
    exact answer_of_fixed fixed calls

theorem next_at_end (position : Nat) :
    (Lexer.mk position []).next = (.ok none, ⟨position, []⟩) :=
  next_eq_none_iff.mpr ⟨by simp, rfl⟩

theorem next_at_stray (position : Nat) (back : List Char) :
    (Lexer.mk position (']' :: back)).next =
      (.error (.unbalanced position), ⟨position, ']' :: back⟩) := by
  have solid : isSpace ']' = false := by decide
  have stays : trimStart (']' :: back) = ']' :: back := Text.trimStart_eq_self (by simp [solid])
  simp [next, stays, scan_stray]

theorem answer_of_end {last : Lexer} (ended : lexer.next = (.ok none, last)) (calls : Nat) :
    lexer.answer calls = Fate.exhausted.answer calls := by
  obtain ⟨_, rfl⟩ := next_eq_none_iff.mp ended
  exact answer_of_last ended (next_at_end _) rfl (fun _ => rfl) calls

/-- The answers of a scanner that stands behind balanced text. -/
structure RunsTo (front : List Char) (lexer : Lexer) (tokens : List (List Char)) (fate : Fate) :
    Prop where
  answers : ∀ calls, lexer.answer calls = fate.answers tokens calls
  bound : tokens.length ≤ lexer.rest.length
  collected : lexer.tokens = fate.collected tokens
  explained : fate.Explained (front ++ lexer.rest)

theorem Faulty.runsTo {front : List Char} {last : Lexer} {e : SyntaxError}
    (faulty : Faulty lexer e last) (called : lexer.next = (.error e, last))
    (balanced : Balanced front) (placed : lexer.position = front.length) :
    ∃ fate, RunsTo front lexer [] fate := by
  have collected := tokens_of_fault called
  cases faulty with
  | @stray before back whole inside =>
    refine ⟨.stuck (lexer.position + before.length), ?_, Nat.zero_le _, collected, .stuck ?_⟩
    · exact answer_of_last called (next_at_stray _ back) rfl fun _ => rfl
    · refine ⟨front ++ before, back, ?_, ?_, balanced.append inside⟩
      · rw [whole, List.append_assoc]
      · rw [placed, List.length_append]
  | @unclosed before back whole inside never =>
    refine ⟨.cutOff (lexer.position + before.length), ?_, Nat.zero_le _, collected, ?_⟩
    · exact answer_of_last called (next_at_end _) rfl fun _ => rfl
    · have outside := balanced.append inside
      rw [whole, ← List.append_assoc, placed, ← List.length_append]
      exact .cutOff (Text.no_stray_of_unclosed outside never)
        (Text.unbalancedAt_append outside (.unclosed never))

/-- A token more in front of what the scanner answers. -/
theorem RunsTo.cons {front read token : List Char} {last : Lexer} {tokens : List (List Char)}
    {fate : Fate} (called : lexer.next = (.ok (some token), last))
    (whole : lexer.rest = read ++ last.rest) (later : RunsTo (front ++ read) last tokens fate) :
    RunsTo front lexer (token :: tokens) fate where
  answers calls := by
    cases calls with
    | zero => rw [answer, after, called]; rfl
    | succ calls =>
      rw [answer, after, called]
      exact later.answers calls
  bound := by
    have shorter := (next_shorter called).2
    have := later.bound
    rw [List.length_cons]
    omega
  collected := by
    rw [tokens_of_next called, later.collected]
    cases fate <;> rfl
  explained := by
    rw [whole, ← List.append_assoc]
    exact later.explained

theorem exists_fate (lexer : Lexer) {front : List Char} (balanced : Balanced front)
    (placed : lexer.position = front.length) :
    ∃ tokens fate, RunsTo front lexer tokens fate := by
  -- On how much is left. What was read stays balanced, so the fate can be told of the whole text.
  induction size : lexer.rest.length using Nat.strongRecOn generalizing lexer front with
  | ind n ih =>
    cases called : lexer.next with
    | mk reply last =>
      match reply with
      | .error e =>
        obtain ⟨fate, runs⟩ := (faulty_of_next called).runsTo called balanced placed
        exact ⟨[], fate, runs⟩
      | .ok none =>
        obtain ⟨spaces, rfl⟩ := next_eq_none_iff.mp called
        exact ⟨[], .exhausted, answer_of_end called, Nat.zero_le _, tokens_of_end called,
          .exhausted (balanced.append (Balanced.of_spaces spaces))⟩
      | .ok (some token) =>
        have shorter := (next_shorter called).2
        obtain ⟨gap, whole, spaces, word, _, there⟩ := next_eq_token_iff.mp called
        have before : Balanced (front ++ (gap ++ token)) :=
          balanced.append ((Balanced.of_spaces spaces).append word.balanced)
        have behind : last.position = (front ++ (gap ++ token)).length := by
          simp only [List.length_append]
          omega
        obtain ⟨tokens, fate, later⟩ := ih last.rest.length (by omega) last before behind rfl
        have read : lexer.rest = (gap ++ token) ++ last.rest := by rw [whole, List.append_assoc]
        exact ⟨token :: tokens, fate, later.cons called read⟩

theorem tokenize_of_runsTo {text : String} {tokens : List (List Char)} {fate : Fate}
    (runs : RunsTo [] (start text) tokens fate) : tokenize text = fate.outcome tokens := by
  have collected : Lexer.tokens ⟨0, text.toList⟩ = fate.collected tokens := runs.collected
  rw [tokenize, tokenizeChars, collected]
  cases fate with
  | stuck | cutOff => rfl
  | exhausted => cases tokens <;> rfl

/-- Behind the last token comes a call that answers none. -/
theorem Fate.answers_length (fate : Fate) (tokens : List (List Char)) :
    fate.answers tokens tokens.length = fate.answer 0 := by
  induction tokens with
  | nil => rfl
  | cons token tokens ih => exact ih

theorem Fate.answer_ne_token (fate : Fate) (token : List Char) :
    fate.answer 0 ≠ .ok (some token) := by
  cases fate <;> simp [answer]

theorem position_le_next (lexer : Lexer) : lexer.position ≤ lexer.next.2.position := by
  obtain ⟨read, _, placed⟩ := next_moves lexer
  omega

theorem position_lt_next {token : List Char} (called : lexer.next.1 = .ok (some token)) :
    lexer.position < lexer.next.2.position := by
  have split : lexer.next = (.ok (some token), lexer.next.2) := Prod.ext called rfl
  obtain ⟨gap, _, _, word, _, placed⟩ := next_eq_token_iff.mp split
  have := List.length_pos_iff.mpr word.nonempty
  omega

/-- A scanner does not leave its text. -/
theorem position_after_le (lexer : Lexer) (calls : Nat) :
    (lexer.after calls).position ≤ lexer.position + lexer.rest.length := by
  obtain ⟨read, whole, placed⟩ := after_moves lexer calls
  have length := congrArg List.length whole
  rw [List.length_append] at length
  omega

theorem position_after_start_le (text : String) (calls : Nat) :
    ((start text).after calls).position ≤ text.length := by
  have inside := position_after_le (start text) calls
  rwa [start, Nat.zero_add, String.length_toList] at inside

end Lexer

open Lexer

/-- Calls answer tokens, no more than there are characters, and behind these the same for ever but
for one fault at most; so the text is cut into these tokens, or there are none, or it is at
fault. No call goes back or beyond the text, and one that answers a token goes forth. -/
theorem calls_end_in_one_of_three_ways (text : String) :
    (∃ (tokens : List (List Char)) (fate : Fate),
      (∀ calls, (start text).answer calls = fate.answers tokens calls) ∧
      fate.Explained text.toList ∧ tokens.length ≤ text.length ∧
      tokenize text = fate.outcome tokens) ∧
    (∃ calls ≤ text.length, ∀ token, (start text).answer calls ≠ .ok (some token)) ∧
    ∀ calls,
      ((start text).after calls).position ≤ ((start text).after (calls + 1)).position ∧
      ((start text).after calls).position ≤ text.length ∧
      ∀ token, (start text).answer calls = .ok (some token) →
        ((start text).after calls).position < ((start text).after (calls + 1)).position := by
  have nothing : Balanced [] := rfl
  obtain ⟨tokens, fate, runs⟩ := exists_fate (start text) nothing rfl
  have bound : tokens.length ≤ text.length := by
    rw [← String.length_toList]
    exact runs.bound
  refine ⟨⟨tokens, fate, runs.answers, runs.explained, bound, tokenize_of_runsTo runs⟩,
    ⟨tokens.length, bound, ?_⟩, ?_⟩
  · intro token
    rw [runs.answers, fate.answers_length]
    exact fate.answer_ne_token token
  · intro calls
    rw [after_succ]
    exact ⟨position_le_next _, position_after_start_le text calls, fun _ => position_lt_next⟩

/-- The first call on a day with brackets goes behind them. -/
theorem first_call_reads_day :
    (start "day[hour load] load]").answer 0 = .ok (some "day[hour load]".toList) ∧
      ((start "day[hour load] load]").after 0).position <
        ((start "day[hour load] load]").after 1).position := by
  have called : (start "day[hour load] load]").answer 0 = .ok (some "day[hour load]".toList) := by
    decide +kernel
  exact ⟨called, ((calls_end_in_one_of_three_ways _).2.2 0).2.2 _ called⟩

/-- The first call on white space answers none, and yet the text is not cut into nothing. -/
theorem blank_text_is_refused :
    (∀ calls, (start " ").answer calls = Fate.exhausted.answers [] calls) ∧
      tokenize " " = .error .empty ∧
      ¬∀ (text : String) (tokens : List (List Char)),
        (∀ calls, (start text).answer calls = Fate.exhausted.answers tokens calls) →
          tokenize text = .ok (tokens.map String.ofList) := by
  have spaces : ∀ c ∈ " ".toList, isSpace c = true := List.all_eq_true.mp (by decide)
  have ended : ∀ calls, (start " ").answer calls = Fate.exhausted.answers [] calls :=
    answer_of_end (next_eq_none_iff.mpr ⟨spaces, rfl⟩)
  have refused : tokenize " " = .error .empty := by decide +kernel
  refine ⟨ended, refused, fun stated => ?_⟩
  have cut := stated " " [] ended
  rw [refused] at cut
  cases cut

end AggFlatten
