import AggFlatten.Proofs.Expression.Head
import AggFlatten.Proofs.Expression.Tokens

/-! The parser reads exactly the derivations of the grammar. Completeness follows the
derivation, soundness the length of the token, since the text in the brackets of a token is
read by the same parser. -/
namespace AggFlatten

open Text (isSpace Balanced Unbroken)

theorem Splits.length_le {text : List Char} {cut : List (List Char)} (split : Splits text cut) :
    ∀ token ∈ cut, token.length ≤ text.length :=
  Lexer.length_le_of_mem_tokens (Lexer.tokens_of_splits split 0)

theorem SubAgg.readEach_eq_mapM (read : List Char → Except SyntaxError SubAgg)
    (tokens : List (List Char)) :
    readEach tokens (fun token _ => read token) = tokens.mapM read := by
  induction tokens with
  | nil => rfl
  | cons token tokens ih => rw [readEach, List.mapM_cons, ih]

theorem SubAgg.readEach_eq_ok_iff {read : List Char → Except SyntaxError SubAgg}
    {tokens : List (List Char)} {subs : List SubAgg} :
    readEach tokens (fun token _ => read token) = .ok subs ↔
      List.Forall₂ (fun token sub => read token = .ok sub) tokens subs := by
  rw [readEach_eq_mapM, Outcome.mapM_eq_ok_iff]

theorem Expression.ofChars_eq_ok_iff {text : List Char} {e : Expression} :
    ofChars text = .ok e ↔
      ∃ cut subs, Splits text cut ∧ cut ≠ [] ∧
        List.Forall₂ (fun token sub => SubAgg.ofToken token = .ok sub) cut subs ∧
        e = ⟨String.ofList (Text.trim text), subs⟩ := by
  rw [ofChars, Outcome.bind_eq_ok_iff]
  constructor
  · rintro ⟨cut, tokenized, read⟩
    obtain ⟨subs, each, done⟩ := Outcome.bind_eq_ok_iff.mp read
    obtain ⟨split, nonempty⟩ := tokenizeChars_eq_ok_iff.mp tokenized
    exact ⟨cut, subs, split, nonempty, SubAgg.readEach_eq_ok_iff.mp each,
      (Except.ok.inj done).symm⟩
  · rintro ⟨cut, subs, split, nonempty, each, rfl⟩
    refine ⟨cut, tokenizeChars_eq_ok_iff.mpr ⟨split, nonempty⟩, ?_⟩
    exact Outcome.bind_eq_ok_iff.mpr ⟨subs, SubAgg.readEach_eq_ok_iff.mpr each, rfl⟩

namespace Grammar

theorem Head.isToken (head : Head) : IsToken head.text where
  nonempty := head.text_ne_nil
  balanced := Balanced.of_plain fun _ member => (Head.headChar member).1
  unbroken := Unbroken.of_nonspaces fun _ member => (Head.headChar member).2

mutual

theorem Part.isToken : (part : Part) → IsToken part.text
  | .bare head => by
    rw [Part.text]
    exact head.isToken
  | .bracketed head body => by
    have token := head.isToken
    have inside := body.balanced
    rw [Part.text]
    exact
      { nonempty := by simp
        balanced := token.balanced.append (inside.inBrackets 0)
        unbroken := token.unbroken.append token.balanced (Unbroken.inBrackets inside) }

theorem Rest.balanced : (rest : Rest) → Balanced rest.text
  | .done after => by
    rw [Rest.text]
    exact Balanced.of_spaces after.spaces
  | .more gap _ part rest => by
    rw [Rest.text]
    exact (Balanced.of_spaces gap.spaces).append (part.isToken.balanced.append rest.balanced)

theorem Derivation.balanced : (d : Derivation) → Balanced d.text
  | .mk before first rest => by
    rw [Derivation.text]
    exact (Balanced.of_spaces before.spaces).append (first.isToken.balanced.append rest.balanced)

end

theorem Rest.atBreak (rest : Rest) : Text.AtBreak rest.text := by
  intro c first
  cases rest with
  | done after =>
    rw [Rest.text] at first
    exact after.spaces c (List.mem_of_mem_head? first)
  | more gap wide part rest =>
    rw [Rest.text, List.head?_append_of_ne_nil _ wide] at first
    exact gap.spaces c (List.mem_of_mem_head? first)

def Rest.tokens : Rest → List (List Char)
  | .done _ => []
  | .more _ _ part rest => part.text :: rest.tokens

theorem Rest.splits : (rest : Rest) → Splits rest.text rest.tokens
  | .done after => by
    rw [Rest.text]
    exact .blank after.spaces
  | .more gap _ part rest => by
    rw [Rest.text]
    exact .token gap.spaces part.isToken rest.atBreak rest.splits

mutual

theorem ofToken_text : (part : Part) → SubAgg.ofToken part.text = .ok part.sub
  | .bare head => by
    have cut := @parts_text head none nofun
    rw [inBrackets, List.append_nil] at cut
    rw [Part.text, SubAgg.ofToken_eq, cut]
    rfl
  | .bracketed head body => by
    have cut := @parts_text head (some body.text) (by simpa using body.balanced)
    rw [Part.text, SubAgg.ofToken_eq]
    refine Outcome.bind_eq_ok_iff.mpr ⟨_, cut, ?_⟩
    exact Outcome.bind_eq_ok_iff.mpr ⟨_, ofChars_text body, rfl⟩

theorem ofToken_tokens : (rest : Rest) →
    List.Forall₂ (fun token sub => SubAgg.ofToken token = .ok sub) rest.tokens rest.subs
  | .done _ => .nil
  | .more _ _ part rest => .cons (ofToken_text part) (ofToken_tokens rest)

theorem ofChars_text : (d : Derivation) → Expression.ofChars d.text = .ok d.expression
  | .mk before first rest => by
    have split : Splits (before.chars ++ (first.text ++ rest.text)) (first.text :: rest.tokens) :=
      .token before.spaces first.isToken rest.atBreak rest.splits
    refine Expression.ofChars_eq_ok_iff.mpr ⟨_, _, ?_, List.cons_ne_nil _ _,
      .cons (ofToken_text first) (ofToken_tokens rest), rfl⟩
    rw [Derivation.text]
    exact split

end

section Soundness

variable {text : List Char} {cut : List (List Char)} {subs : List SubAgg}

/-- The token is the text of a part, and the tree is the tree of that part. -/
def Reads (token : List Char) (sub : SubAgg) : Prop :=
  ∃ part : Part, part.text = token ∧ part.sub = sub

theorem exists_rest (split : Splits text cut) (starts : Text.AtBreak text)
    (each : List.Forall₂ Reads cut subs) :
    ∃ rest : Rest, rest.text = text ∧ rest.subs = subs := by
  induction split generalizing subs with
  | @blank gap spaces =>
    cases each
    exact ⟨.done ⟨gap, spaces⟩, rfl, rfl⟩
  | @token gap token behind more spaces word ends _ ih =>
    obtain ⟨sub, later, ⟨part, rfl, rfl⟩, others, rfl⟩ := List.forall₂_cons_left_iff.mp each
    obtain ⟨rest, rfl, rfl⟩ := ih ends others
    have wide : gap ≠ [] := by
      rintro rfl
      obtain ⟨c, tail, same⟩ := List.exists_cons_of_ne_nil word.nonempty
      have solid := word.head_not_space c (by rw [same]; rfl)
      have space := starts c (by rw [same]; rfl)
      rw [solid] at space
      cases space
    exact ⟨.more ⟨gap, spaces⟩ wide part rest, rfl, rfl⟩

theorem exists_derivation (split : Splits text cut) (nonempty : cut ≠ [])
    (each : List.Forall₂ Reads cut subs) :
    ∃ d : Derivation, d.text = text ∧ d.subs = subs := by
  cases split with
  | blank spaces => contradiction
  | @token gap token behind more spaces word ends split =>
    obtain ⟨sub, later, ⟨part, rfl, rfl⟩, others, rfl⟩ := List.forall₂_cons_left_iff.mp each
    obtain ⟨rest, rfl, rfl⟩ := exists_rest split ends others
    exact ⟨.mk ⟨gap, spaces⟩ part rest, rfl, rfl⟩

theorem reads_of_ofToken {token : List Char} {sub : SubAgg}
    (read : SubAgg.ofToken token = .ok sub) : Reads token sub := by
  induction size : token.length using Nat.strongRecOn generalizing token sub with
  | ind n ih =>
    subst size
    rw [SubAgg.ofToken_eq] at read
    obtain ⟨⟨⟨type, name⟩, body⟩, cut, read⟩ := Outcome.bind_eq_ok_iff.mp read
    obtain ⟨head, whole, rfl, rfl⟩ := head_of_parts cut
    cases body with
    | none =>
      cases read
      exact ⟨.bare head, by rw [whole, inBrackets, List.append_nil]; rfl, rfl⟩
    | some body =>
      obtain ⟨nested, inner, done⟩ := Outcome.bind_eq_ok_iff.mp read
      cases done
      obtain ⟨tokens, subs, split, nonempty, each, rfl⟩ := Expression.ofChars_eq_ok_iff.mp inner
      have shorter : ∀ t ∈ tokens, t.length < token.length := fun t member =>
        Nat.lt_of_le_of_lt (split.length_le t member) (SubAgg.length_body_of_parts cut)
      have parts : List.Forall₂ Reads tokens subs := by
        refine ((List.forall₂_and_left _ _).mpr ⟨shorter, each⟩).imp ?_
        rintro t sub ⟨smaller, read⟩
        exact ih t.length smaller read rfl
      obtain ⟨d, rfl, rfl⟩ := exists_derivation split nonempty parts
      exact ⟨.bracketed head d, whole.symm, rfl⟩

end Soundness

theorem ofChars_iff_derivation {text : List Char} {e : Expression} :
    Expression.ofChars text = .ok e ↔ ∃ d : Derivation, d.text = text ∧ d.expression = e := by
  constructor
  · intro read
    obtain ⟨tokens, subs, split, nonempty, each, rfl⟩ := Expression.ofChars_eq_ok_iff.mp read
    have parts : List.Forall₂ Reads tokens subs := each.imp fun _ _ => reads_of_ofToken
    obtain ⟨d, rfl, rfl⟩ := exists_derivation split nonempty parts
    exact ⟨d, rfl, rfl⟩
  · rintro ⟨d, rfl, rfl⟩
    exact ofChars_text d

end Grammar

end AggFlatten
