import AggFlatten.Proofs.Expression.Imbalance

/-! The layout of a text: its tokens, and the white space around them. No text has two layouts,
and the tokens of a text are those of its layout. So texts with white space between them have
the tokens of the one and then those of the other. -/
namespace AggFlatten

open Text (isSpace AtBreak)

/-- A token, and the white space behind it. -/
@[ext]
structure Spaced where
  token : List Char
  gap : List Char

/-- White space, and the tokens that follow. -/
@[ext]
structure Layout where
  before : List Char
  words : List Spaced

namespace Layout

/-- What stands behind the white space at the start. -/
def body (words : List Spaced) : List Char :=
  words.flatMap fun word => word.token ++ word.gap

def text (layout : Layout) : List Char :=
  layout.before ++ body layout.words

def tokens (layout : Layout) : List (List Char) :=
  layout.words.map Spaced.token

/-- Between two tokens there is white space, at the ends of the text there may be none. -/
structure Proper (layout : Layout) : Prop where
  before : ∀ c ∈ layout.before, isSpace c = true
  tokens : ∀ word ∈ layout.words, IsToken word.token
  gaps : ∀ word ∈ layout.words, ∀ c ∈ word.gap, isSpace c = true
  wide : ∀ word ∈ layout.words.dropLast, word.gap ≠ []

end Layout

theorem IsToken.stops {token : List Char} (word : IsToken token) (rest : List Char) :
    ∀ c ∈ (token ++ rest).head?, isSpace c = false := by
  rw [List.head?_append_of_ne_nil _ word.nonempty]
  exact word.head_not_space

/-- A token ends at the first break outside its brackets. -/
theorem IsToken.append_inj {token token' rest rest' : List Char} (word : IsToken token)
    (word' : IsToken token') (ends : AtBreak rest) (ends' : AtBreak rest')
    (same : token ++ rest = token' ++ rest') : token = token' ∧ rest = rest' := by
  have read : Lexer.scan 0 0 0 (token ++ rest) = .token token rest :=
    Lexer.scan_of_token word.balanced word.unbroken ends
  have read' : Lexer.scan 0 0 0 (token' ++ rest') = .token token' rest' :=
    Lexer.scan_of_token word'.balanced word'.unbroken ends'
  rw [same, read'] at read
  cases read
  exact ⟨rfl, rfl⟩

namespace Layout

variable {before gap : List Char} {word : Spaced} {words words' : List Spaced}

theorem text_cons :
    (mk before (word :: words)).text = before ++ (word.token ++ (mk word.gap words).text) := by
  simp [text, body]

theorem proper_nil_iff : (mk before []).Proper ↔ ∀ c ∈ before, isSpace c = true :=
  ⟨Proper.before, fun spaces => ⟨spaces, by simp, by simp, by simp⟩⟩

/-- Behind its first token a layout is a layout again. -/
theorem proper_cons_iff : (mk before (word :: words)).Proper ↔
    (∀ c ∈ before, isSpace c = true) ∧ IsToken word.token ∧ (words ≠ [] → word.gap ≠ []) ∧
      (mk word.gap words).Proper := by
  constructor
  · intro proper
    obtain ⟨first, later⟩ := List.forall_mem_cons.mp proper.tokens
    obtain ⟨gap, gaps⟩ := List.forall_mem_cons.mp proper.gaps
    refine ⟨proper.before, first, ?_, ⟨gap, later, gaps, ?_⟩⟩
    · intro more
      exact proper.wide word (by simp [List.dropLast_cons_of_ne_nil more])
    · intro other member
      have more : words ≠ [] := by
        rintro rfl
        simp at member
      exact proper.wide other (by simp [List.dropLast_cons_of_ne_nil more, member])
  · rintro ⟨spaces, first, wide, rest⟩
    refine ⟨spaces, List.forall_mem_cons.mpr ⟨first, rest.tokens⟩,
      List.forall_mem_cons.mpr ⟨rest.before, rest.gaps⟩, ?_⟩
    by_cases more : words = []
    · simp [more]
    · rw [List.dropLast_cons_of_ne_nil more]
      exact List.forall_mem_cons.mpr ⟨wide more, rest.wide⟩

theorem body_not_space (tokens : ∀ word ∈ words, IsToken word.token) :
    ∀ c ∈ (body words).head?, isSpace c = false := by
  cases words with
  | nil => simp [body]
  | cons word words =>
    simp only [body, List.flatMap_cons, List.append_assoc]
    exact (tokens word List.mem_cons_self).stops _

/-- What stands behind a token begins with white space if more tokens follow. -/
theorem atBreak_text_iff (proper : (mk gap words).Proper) :
    AtBreak (mk gap words).text ↔ (words ≠ [] → gap ≠ []) := by
  have stops := body_not_space proper.tokens
  cases gap with
  | cons c gap =>
    have space := proper.before c List.mem_cons_self
    simp [AtBreak, text, space]
  | nil =>
    cases words with
    | nil => simp [AtBreak, text, body]
    | cons word words =>
      have nonempty : body (word :: words) ≠ [] := by
        simp [body, (proper.tokens word List.mem_cons_self).nonempty]
      obtain ⟨c, rest, same⟩ := List.exists_cons_of_ne_nil nonempty
      have solid := stops c (by simp [same])
      simp [AtBreak, text, same, solid]

theorem Proper.splits {layout : Layout} (proper : layout.Proper) :
    Splits layout.text layout.tokens := by
  obtain ⟨before, words⟩ := layout
  induction words generalizing before with
  | nil =>
    have spaces := proper_nil_iff.mp proper
    have blank : Splits (Layout.mk before []).text [] := by simpa [text, body] using Splits.blank spaces
    exact blank
  | cons word words ih =>
    obtain ⟨spaces, first, wide, rest⟩ := proper_cons_iff.mp proper
    rw [text_cons]
    exact .token spaces first ((atBreak_text_iff rest).mpr wide) (ih word.gap rest)

theorem exists_of_splits {whole : List Char} {cut : List (List Char)} (split : Splits whole cut) :
    ∃ layout : Layout, layout.Proper ∧ layout.text = whole ∧ layout.tokens = cut := by
  induction split with
  | @blank gap spaces =>
    exact ⟨⟨gap, []⟩, proper_nil_iff.mpr spaces, by simp [text, body], rfl⟩
  | @token gap token rest cut spaces first ends _ ih =>
    obtain ⟨⟨behind, words⟩, proper, rfl, rfl⟩ := ih
    refine ⟨⟨gap, ⟨token, behind⟩ :: words⟩, ?_, text_cons, rfl⟩
    exact proper_cons_iff.mpr ⟨spaces, first, (atBreak_text_iff proper).mp ends, proper⟩

theorem splits_iff {whole : List Char} {cut : List (List Char)} : Splits whole cut ↔
    ∃ layout : Layout, layout.Proper ∧ layout.text = whole ∧ layout.tokens = cut := by
  constructor
  · exact exists_of_splits
  · rintro ⟨layout, proper, rfl, rfl⟩
    exact proper.splits

/-- The white space at the start is as long as it can be. -/
theorem Proper.append_inj {layout layout' : Layout} (proper : layout.Proper)
    (proper' : layout'.Proper) (same : layout.text = layout'.text) :
    layout.before = layout'.before ∧ body layout.words = body layout'.words :=
  Text.append_eq_append_of_stop proper.before (body_not_space proper.tokens) proper'.before
    (body_not_space proper'.tokens) same

theorem body_eq_nil_iff (tokens : ∀ word ∈ words, IsToken word.token) :
    body words = [] ↔ words = [] := by
  cases words with
  | nil => simp [body]
  | cons word words => simp [body, (tokens word List.mem_cons_self).nonempty]

/-- White space and tokens alternate, and each ends where the other begins. -/
theorem Proper.unique {layout layout' : Layout} (proper : layout.Proper)
    (proper' : layout'.Proper) (same : layout.text = layout'.text) : layout = layout' := by
  obtain ⟨before, words⟩ := layout
  obtain ⟨before', words'⟩ := layout'
  induction words generalizing before before' words' with
  | nil =>
    obtain ⟨fronts, bodies⟩ := proper.append_inj proper' same
    have none : words' = [] := (body_eq_nil_iff proper'.tokens).mp bodies.symm
    exact Layout.ext fronts none.symm
  | cons word words ih =>
    obtain ⟨fronts, bodies⟩ := proper.append_inj proper' same
    cases words' with
    | nil => exact absurd ((body_eq_nil_iff proper.tokens).mp bodies) (List.cons_ne_nil _ _)
    | cons word' words' =>
      obtain ⟨_, first, wide, rest⟩ := proper_cons_iff.mp proper
      obtain ⟨_, first', wide', rest'⟩ := proper_cons_iff.mp proper'
      dsimp only at fronts
      rw [text_cons, text_cons, fronts, List.append_cancel_left_eq] at same
      obtain ⟨tokens, behind⟩ := first.append_inj first' ((atBreak_text_iff rest).mpr wide)
        ((atBreak_text_iff rest').mpr wide') same
      obtain ⟨gaps, later⟩ := Layout.mk.inj (ih _ rest _ _ rest' behind)
      rw [fronts, later, Spaced.ext tokens gaps]

end Layout

namespace Splits

variable {first last gap : List Char} {cut cut' : List (List Char)}

theorem behind (spaces : ∀ c ∈ gap, isSpace c = true) (split : Splits last cut) :
    Splits (gap ++ last) cut := by
  cases split with
  | blank spaces' =>
    refine .blank fun c member => ?_
    exact (List.mem_append.mp member).elim (spaces c) (spaces' c)
  | @token gap' token rest more spaces' word ends later =>
    rw [← List.append_assoc]
    refine .token (fun c member => ?_) word ends later
    exact (List.mem_append.mp member).elim (spaces c) (spaces' c)

/-- With white space between them two texts are split apart from each other. -/
theorem append (split : Splits first cut) (wide : gap ≠ []) (spaces : ∀ c ∈ gap, isSpace c = true)
    (split' : Splits last cut') : Splits (first ++ (gap ++ last)) (cut ++ cut') := by
  induction split with
  | blank spaces' => exact (split'.behind spaces).behind spaces'
  | @token before token rest more spaces' word ends _ ih =>
    rw [List.append_assoc, List.append_assoc]
    refine .token spaces' word ?_ ih
    intro c starts
    cases rest with
    | nil =>
      rw [List.nil_append, List.head?_append_of_ne_nil _ wide] at starts
      exact spaces c (List.mem_of_mem_head? starts)
    | cons d rest => exact ends c starts

theorem ahead (split : Splits first cut) (spaces : ∀ c ∈ gap, isSpace c = true) :
    Splits (first ++ gap) cut := by
  by_cases none : gap = []
  · rwa [none, List.append_nil]
  · have nothing : Splits [] [] := .blank (by simp)
    simpa using split.append none spaces nothing

theorem of_token {token : List Char} (word : IsToken token) : Splits token [token] := by
  have split : Splits ([] ++ (token ++ [])) [token] :=
    .token (by simp) word (by simp [AtBreak]) (.blank (by simp))
  rwa [List.append_nil] at split

end Splits

section tokenize

variable {text : String} {tokens : List String}

theorem tokenize_eq_ok_iff :
    tokenize text = .ok tokens ↔ Splits text.toList (tokens.map String.toList) ∧ tokens ≠ [] := by
  have chars (cut : List (List Char)) : cut.map String.ofList = tokens ↔
      cut = tokens.map String.toList := by
    constructor
    · rintro rfl
      simp
    · rintro rfl
      simp
  simp only [tokenize, Outcome.map_eq_ok_iff, chars, exists_eq_right, tokenizeChars_eq_ok_iff]
  simp

/-- The layout of a text that is cut into tokens. -/
theorem tokenize_eq_ok_iff_layout : tokenize text = .ok tokens ↔
    tokens ≠ [] ∧ ∃! layout : Layout, layout.Proper ∧ layout.text = text.toList ∧
      layout.tokens = tokens.map String.toList := by
  rw [tokenize_eq_ok_iff, Layout.splits_iff, and_comm]
  refine and_congr_right fun _ => ⟨?_, ExistsUnique.exists⟩
  rintro ⟨layout, proper, same, cut⟩
  refine ⟨layout, ⟨proper, same, cut⟩, ?_⟩
  rintro layout' ⟨proper', same', _⟩
  exact proper'.unique proper (same'.trans same.symm)

end tokenize

/-- The tokens of a text are what its only layout says they are, if there is one with any token,
and white space alone has none. So texts with white space between them are cut apart from each
other, and a token is cut no further. -/
theorem tokens_are_the_only_split :
    (∀ (text : String) (tokens : List String), tokenize text = .ok tokens ↔
      tokens ≠ [] ∧ ∃! layout : Layout, layout.Proper ∧ layout.text = text.toList ∧
        layout.tokens = tokens.map String.toList) ∧
    (∀ layout layout' : Layout, layout.Proper → layout'.Proper → layout.text = layout'.text →
      layout = layout') ∧
    (∀ text : String, tokenize text = .error .empty ↔ ∀ c ∈ text.toList, isSpace c = true) ∧
    (∀ (first gap last : String) (tokens tokens' : List String),
      tokenize first = .ok tokens → tokenize last = .ok tokens' →
      gap ≠ "" → (∀ c ∈ gap.toList, isSpace c = true) →
        tokenize (first ++ gap ++ last) = .ok (tokens ++ tokens')) ∧
    ∀ (text : String) (tokens : List String), tokenize text = .ok tokens →
      ∀ token ∈ tokens, tokenize token = .ok [token] := by
  refine ⟨fun _ _ => tokenize_eq_ok_iff_layout, fun _ _ => Layout.Proper.unique, ?_, ?_, ?_⟩
  · intro text
    rw [tokenize_eq_error_iff, tokenizeChars_eq_empty_iff]
  · intro first gap last tokens tokens' cut cut' nonempty spaces
    obtain ⟨split, some⟩ := tokenize_eq_ok_iff.mp cut
    obtain ⟨split', _⟩ := tokenize_eq_ok_iff.mp cut'
    have both := split.append (by simpa using nonempty) spaces split'
    refine tokenize_eq_ok_iff.mpr ⟨?_, by simp [some]⟩
    simpa using both
  · intro text tokens cut token member
    obtain ⟨split, _⟩ := tokenize_eq_ok_iff.mp cut
    have word := split.isToken token.toList (List.mem_map_of_mem member)
    refine tokenize_eq_ok_iff.mpr ⟨?_, by simp⟩
    simpa using Splits.of_token word

/-- A day with brackets is one token, and the load behind it is another. -/
theorem day_and_load_are_split :
    (tokenize "day[hour load]" = .ok ["day[hour load]"] ∧ tokenize "load" = .ok ["load"] ∧
      tokenize ("day[hour load]" ++ "\t " ++ "load") = .ok ["day[hour load]", "load"]) ∧
    ((⟨[], [⟨"load".toList, []⟩]⟩ : Layout).Proper ∧
      ∀ layout : Layout, layout.Proper → layout.text = "load".toList →
        layout = ⟨[], [⟨"load".toList, []⟩]⟩) ∧
    tokenize "[hour load]" = .ok ["[hour load]"] := by
  obtain ⟨-, unique, -, append, alone⟩ := tokens_are_the_only_split
  have day : tokenize "day[hour load]" = .ok ["day[hour load]"] := by decide +kernel
  have load : tokenize "load" = .ok ["load"] := by decide +kernel
  have two : tokenize " day [hour load]" = .ok ["day", "[hour load]"] := by decide +kernel
  have spaces : ∀ c ∈ "\t ".toList, isSpace c = true := List.all_eq_true.mp (by decide)
  have word : IsToken "load".toList :=
    (tokenize_eq_ok_iff.mp load).1.isToken "load".toList (by simp)
  have proper : (⟨[], [⟨"load".toList, []⟩]⟩ : Layout).Proper :=
    Layout.proper_cons_iff.mpr ⟨by simp, word, by simp, Layout.proper_nil_iff.mpr (by simp)⟩
  refine ⟨⟨day, load, append _ _ _ _ _ day load (by decide) spaces⟩, ⟨proper, ?_⟩,
    alone _ _ two "[hour load]" (by simp)⟩
  intro layout proper' same
  exact unique _ _ proper' proper (by rw [same]; rfl)

end AggFlatten
