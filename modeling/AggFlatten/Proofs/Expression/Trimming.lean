import AggFlatten.Proofs.Expression.Layout
import AggFlatten.Proofs.Expression.Request
import Mathlib.Data.List.DropRight

/-! White space around an expression. It is no part of the source, and without it a text is read
as it is with it; only the place of a bracket at fault is counted from where the text begins.
So a source is read as what it is the source of, and a token as an expression of one part. -/
namespace AggFlatten

open Text (isSpace trimStart trim Balanced StrayAt FaultAtHead)

namespace Text

variable {depth : Nat} {text after : List Char}

/-- How many characters of white space a text begins with. -/
def leading (text : List Char) : Nat :=
  (text.takeWhile isSpace).length

def trimmed (text : String) : String :=
  String.ofList (trim text.toList)

theorem exists_around_trim (text : List Char) :
    ∃ gap after, text = gap ++ (trim text ++ after) ∧ gap.length = leading text ∧
      (∀ c ∈ gap, isSpace c = true) ∧ ∀ c ∈ after, isSpace c = true := by
  refine ⟨text.takeWhile isSpace, (trimStart text).rtakeWhile isSpace, ?_, rfl, ?_, ?_⟩
  · have back : trim text ++ (trimStart text).rtakeWhile isSpace = trimStart text :=
      List.rdropWhile_append_rtakeWhile
    rw [back]
    exact List.takeWhile_append_dropWhile.symm
  · exact fun c => List.mem_takeWhile_imp
  · exact fun c => List.mem_rtakeWhile_imp

/-- Trimming the end of a text leaves its start alone, so there is nothing more to trim. -/
theorem trim_trim (text : List Char) : trim (trim text) = trim text := by
  have starts : ∀ c ∈ (trim text).head?, isSpace c = false := by
    obtain ⟨_, _, _, solid⟩ := exists_gap text
    obtain ⟨tail, whole⟩ : trim text <+: trimStart text := List.rdropWhile_prefix _ _
    intro c first
    apply solid
    rw [← whole, List.head?_append, Option.mem_def.mp first]
    rfl
  rw [trim, trimStart_eq_self starts]
  exact List.rdropWhile_idempotent _ _

/-- White space behind a text closes no bracket. -/
theorem FaultAtHead.append_spaces (fault : FaultAtHead text)
    (spaces : ∀ c ∈ after, isSpace c = true) : FaultAtHead (text ++ after) := by
  cases fault with
  | stray back => exact .stray (back ++ after)
  | @unclosed back never =>
    refine .unclosed (exists_depthAfter_iff.mp ?_)
    obtain ⟨depth, counted⟩ := exists_depthAfter_iff.mpr never
    refine ⟨depth, ?_⟩
    calc depthAfter 0 (back ++ after)
      _ = (depthAfter 0 back).bind (depthAfter · after) := depthAfter_append 0 back after
      _ = depthAfter depth after := by rw [counted, Option.bind_some]
      _ = some depth := depthAfter_plain fun c member => isPlain_of_isSpace (spaces c member)

end Text

/-- The same complaint about a text with so many more characters in front. -/
def SyntaxError.shift (offset : Nat) : SyntaxError → SyntaxError
  | unbalanced position => unbalanced (position + offset)
  | e => e

theorem BlamesNoBracket.mapError_shift {α : Type} {outcome : Except SyntaxError α}
    (blames : BlamesNoBracket outcome) (offset : Nat) :
    outcome.mapError (SyntaxError.shift offset) = outcome := by
  cases outcome with
  | ok a => rfl
  | error e =>
    cases e with
    | unbalanced position => exact absurd rfl (blames position)
    | empty | unknownType | invalidName | malformed => rfl

/-- White space around a text moves the place of a fault, and that is all. -/
theorem tokenizeChars_around {gap core after : List Char} (before : ∀ c ∈ gap, isSpace c = true)
    (behind : ∀ c ∈ after, isSpace c = true) :
    tokenizeChars (gap ++ (core ++ after)) =
      (tokenizeChars core).mapError (SyntaxError.shift gap.length) := by
  cases read : tokenizeChars core with
  | ok cut =>
    obtain ⟨split, some⟩ := tokenizeChars_eq_ok_iff.mp read
    exact tokenizeChars_eq_ok_iff.mpr ⟨(split.ahead behind).behind before, some⟩
  | error e =>
    rcases fault_of_tokenizeChars read with rfl | ⟨front, rest, rfl, balanced, fault, rfl⟩
    · have spaces := tokenizeChars_eq_empty_iff.mp read
      refine tokenizeChars_eq_empty_iff.mpr fun c member => ?_
      rcases List.mem_append.mp member with first | later
      · exact before c first
      · exact (List.mem_append.mp later).elim (spaces c) (behind c)
    · have outside := (Balanced.of_spaces before).append balanced
      have place : front.length + gap.length = (gap ++ front).length := by
        rw [List.length_append, Nat.add_comm]
      have whole : gap ++ (front ++ rest ++ after) = gap ++ front ++ (rest ++ after) := by simp
      refine tokenizeChars_eq_unbalanced_iff.mpr ?_
      rw [place, whole]
      exact Text.unbalancedAt_append outside (fault.append_spaces behind)

namespace Expression

theorem ofChars_trim (text : List Char) :
    ofChars text = (ofChars (trim text)).mapError (SyntaxError.shift (Text.leading text)) := by
  obtain ⟨gap, after, whole, length, before, behind⟩ := Text.exists_around_trim text
  have cutAlike : tokenizeChars (gap ++ (trim text ++ after)) =
      (tokenizeChars (trim text)).mapError (SyntaxError.shift gap.length) :=
    tokenizeChars_around before behind
  rw [← whole, length] at cutAlike
  rw [ofChars, ofChars, cutAlike, Text.trim_trim]
  cases read : tokenizeChars (trim text) with
  | error e => rfl
  | ok cut =>
    -- No token has a bracket at fault, so shifting its errors changes none of them.
    obtain ⟨split, _⟩ := tokenizeChars_eq_ok_iff.mp read
    have parts := split.readEach_blamesNoBracket fun _ balanced _ =>
      SubAgg.ofToken_blamesNoBracket balanced
    exact ((parts.bind fun _ _ => .pure _).mapError_shift _).symm

theorem parse_trimmed (text : String) :
    parse text =
      (parse (Text.trimmed text)).mapError (SyntaxError.shift (Text.leading text.toList)) := by
  rw [parse, ofChars_trim, parse, Text.trimmed, String.toList_ofList]

theorem parse_token {token : String} {sub : SubAgg} (read : SubAgg.parse token = .ok sub) :
    parse token = .ok ⟨token, [sub]⟩ := by
  obtain ⟨part, same, rfl⟩ := Grammar.reads_of_ofToken read
  have alone := Grammar.parse_part part
  rwa [same, String.ofList_toList] at alone

theorem parse_nested? {text : String} {e nested : Expression} {sub : SubAgg}
    (parsed : parse text = .ok e) (occurs : SubAgg.Occurs sub e.subs)
    (inside : nested ∈ sub.nested?) : parse nested.source = .ok nested := by
  cases sub with
  | bare type path => cases inside
  | bracketed type path source body =>
    cases inside
    exact parse_nested parsed occurs

end Expression

/-- What is read from a text is read from its source, and so is what stands in brackets from its
own, at any depth. A token that is a part makes an expression of that part alone. Whatever a text
comes out as, it comes out so when trimmed, but for the place of a bracket at fault. -/
theorem source_is_read_again :
    (∀ (text : String) (e : Expression), Expression.parse text = .ok e →
      Expression.parse e.source = .ok e ∧
        ∀ sub, SubAgg.Occurs sub e.subs → ∀ nested ∈ sub.nested?,
          Expression.parse nested.source = .ok nested) ∧
    (∀ (token : String) (sub : SubAgg), SubAgg.parse token = .ok sub →
      Expression.parse token = .ok ⟨token, [sub]⟩) ∧
    ∀ text : String, Expression.parse text =
      (Expression.parse (Text.trimmed text)).mapError
        (SyntaxError.shift (Text.leading text.toList)) := by
  refine ⟨?_, fun _ _ => Expression.parse_token, Expression.parse_trimmed⟩
  intro text e parsed
  refine ⟨Expression.parse_source parsed, ?_⟩
  intro sub occurs nested inside
  exact Expression.parse_nested? parsed occurs inside

/-- The load of a day, with white space around it in the brackets and outside. -/
theorem load_of_day_is_read_again :
    let load : SubAgg := .bare .avg ⟨[], "load"⟩
    let day : SubAgg := .bracketed .value ⟨[], "day"⟩ "avg:load" [load]
    (Expression.parse "\tday[ avg:load ] " = .ok ⟨"day[ avg:load ]", [day]⟩ ∧
      Expression.parse "day[ avg:load ]" = .ok ⟨"day[ avg:load ]", [day]⟩ ∧
      Expression.parse "avg:load" = .ok ⟨"avg:load", [load]⟩) ∧
    SubAgg.parse "avg:load" = .ok load ∧ Expression.parse "avg:load" = .ok ⟨"avg:load", [load]⟩ := by
  intro load day
  have parsed : Expression.parse "\tday[ avg:load ] " = .ok ⟨"day[ avg:load ]", [day]⟩ := by
    decide +kernel
  have inside : SubAgg.Occurs day [day] := .here List.mem_cons_self
  have read : SubAgg.parse "avg:load" = .ok load := by decide +kernel
  obtain ⟨again, nested⟩ := source_is_read_again.1 _ _ parsed
  exact ⟨⟨parsed, again, nested day inside ⟨"avg:load", [load]⟩ rfl⟩, read,
    source_is_read_again.2.1 _ _ read⟩

end AggFlatten
