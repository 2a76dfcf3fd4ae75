import AggFlatten.Proofs.Expression.Reading

/-! No text has two derivations. The induction is on a derivation together with what may
follow it: a part ends at white space, at a closing bracket or with the text, and what
follows tells where. -/
namespace AggFlatten.Grammar

open Text (isSpace)

/-- What can stand behind an expression: nothing, or the bracket that closes around it. -/
def ClosesBody (rest : List Char) : Prop := ∀ c ∈ rest.head?, c = ']'

/-- What can stand behind a part. -/
def EndsPart (rest : List Char) : Prop := ∀ c ∈ rest.head?, c = ']' ∨ isSpace c = true

theorem Path.text_injective {path path' : Path} (same : path.text = path'.text) :
    path = path' := by
  have chars : Function.Injective Segment.chars := fun s t h => Segment.ext h
  have segments : path.segments = path'.segments := by
    rw [← splitDots_text, ← splitDots_text, same]
  have parts := List.map_injective_iff.mpr chars segments
  obtain ⟨scope, name⟩ := List.append_inj' parts rfl
  exact Path.ext scope (List.singleton_injective name)

theorem keyword_injective : Function.Injective AggType.keyword := by
  intro type type' same
  have known := AggType.ofKeyword?_keyword type
  rw [same, AggType.ofKeyword?_keyword] at known
  exact (Option.some.inj known).symm

theorem Head.text_injective {head head' : Head} (same : head.text = head'.text) :
    head = head' := by
  obtain ⟨keyword, path⟩ := head
  obtain ⟨keyword', path'⟩ := head'
  cases keyword with
  | none =>
    cases keyword' with
    | none => exact Head.ext rfl (Path.text_injective same)
    | some type =>
      have colon := path.no_colon
      simp only [text] at same
      simp [same] at colon
  | some type =>
    cases keyword' with
    | none =>
      have colon := path'.no_colon
      simp only [text] at same
      simp [← same] at colon
    | some type' =>
      have inside (type : AggType) : ∀ c ∈ type.keyword.toList, decide (c ≠ ':') = true :=
        fun c member => decide_eq_true ((keyword_letters type).2 c member).2.2.1
      have stops (path : Path) : ∀ c ∈ (':' :: path.text).head?, decide (c ≠ ':') = false := by
        intro c first
        obtain rfl := Option.some.inj first
        rfl
      obtain ⟨keywords, paths⟩ := Text.append_eq_append_of_stop (inside type) (stops path)
        (inside type') (stops path') same
      obtain rfl := keyword_injective (String.toList_inj.mp keywords)
      exact Head.ext rfl (Path.text_injective (List.cons.inj paths).2)

theorem head_split {head head' : Head} {rest rest' : List Char}
    (stops : ∀ c ∈ rest.head?, ¬HeadChar c) (stops' : ∀ c ∈ rest'.head?, ¬HeadChar c)
    (same : head.text ++ rest = head'.text ++ rest') : head = head' ∧ rest = rest' := by
  classical
  obtain ⟨heads, rests⟩ := Text.append_eq_append_of_stop (p := fun c => decide (HeadChar c))
    (fun c member => decide_eq_true (Head.headChar member))
    (fun c first => decide_eq_false (stops c first))
    (fun c member => decide_eq_true (Head.headChar member))
    (fun c first => decide_eq_false (stops' c first)) same
  exact ⟨Head.text_injective heads, rests⟩

theorem blank_split {gap gap' : Blank} {rest rest' : List Char}
    (stops : ∀ c ∈ rest.head?, isSpace c = false) (stops' : ∀ c ∈ rest'.head?, isSpace c = false)
    (same : gap.chars ++ rest = gap'.chars ++ rest') : gap = gap' ∧ rest = rest' := by
  obtain ⟨gaps, rests⟩ := Text.append_eq_append_of_stop gap.spaces stops gap'.spaces stops' same
  exact ⟨Blank.ext gaps, rests⟩

theorem EndsPart.not_headChar {rest : List Char} (ends : EndsPart rest) :
    ∀ c ∈ rest.head?, ¬HeadChar c := by
  rintro c first ⟨⟨_, closes⟩, solid⟩
  rcases ends c first with rfl | space
  · exact closes rfl
  · rw [solid] at space
    cases space

theorem bracket_not_headChar (rest : List Char) : ∀ c ∈ ('[' :: rest).head?, ¬HeadChar c := by
  rintro c first ⟨⟨opens, _⟩, _⟩
  exact opens (Option.some.inj first).symm

theorem ClosesBody.not_space {rest : List Char} (closes : ClosesBody rest) :
    ∀ c ∈ rest.head?, isSpace c = false := by
  intro c first
  rw [closes c first]
  decide

/-- The first character of a part. -/
theorem Part.head_text (part : Part) (rest : List Char) :
    ∃ c ∈ (part.text ++ rest).head?, HeadChar c := by
  have starts (head : Head) (behind : List Char) :
      ∃ c ∈ (head.text ++ behind).head?, HeadChar c := by
    obtain ⟨c, tail, same⟩ := List.exists_cons_of_ne_nil head.text_ne_nil
    have member : c ∈ head.text := by
      rw [same]
      exact List.mem_cons_self
    exact ⟨c, by rw [same]; rfl, Head.headChar member⟩
  cases part with
  | bare head =>
    rw [text]
    exact starts head rest
  | bracketed head body =>
    rw [text, List.append_assoc]
    exact starts head _

theorem Part.not_space (part : Part) (rest : List Char) :
    ∀ c ∈ (part.text ++ rest).head?, isSpace c = false := by
  intro c first
  obtain ⟨d, found, _, solid⟩ := part.head_text rest
  obtain rfl := Option.some.inj (first.symm.trans found)
  exact solid

theorem Rest.endsPart (rest : Rest) {behind : List Char} (closes : ClosesBody behind) :
    EndsPart (rest.text ++ behind) := by
  intro c first
  cases empty : rest.text with
  | nil =>
    rw [empty, List.nil_append] at first
    exact .inl (closes c first)
  | cons d more =>
    refine .inr (rest.atBreak c ?_)
    rw [empty] at first ⊢
    exact first

mutual

theorem Part.text_split : (part part' : Part) → {rest rest' : List Char} →
    EndsPart rest → EndsPart rest' → part.text ++ rest = part'.text ++ rest' →
    part = part' ∧ rest = rest'
  | .bare head, .bare head', rest, rest', ends, ends', same => by
    rw [Part.text, Part.text] at same
    obtain ⟨rfl, rests⟩ := head_split ends.not_headChar ends'.not_headChar same
    exact ⟨rfl, rests⟩
  | .bare head, .bracketed head' body, rest, rest', ends, ends', same => by
    rw [Part.text, Part.text, List.append_assoc] at same
    obtain ⟨_, opens⟩ := head_split ends.not_headChar (bracket_not_headChar _) same
    rcases ends '[' (by rw [opens]; rfl) with closes | space
    · exact absurd closes (by decide)
    · exact absurd space (by decide)
  | .bracketed head body, .bare head', rest, rest', ends, ends', same => by
    rw [Part.text, Part.text, List.append_assoc] at same
    obtain ⟨_, opens⟩ := head_split (bracket_not_headChar _) ends'.not_headChar same
    rcases ends' '[' (by rw [← opens]; rfl) with closes | space
    · exact absurd closes (by decide)
    · exact absurd space (by decide)
  | .bracketed head body, .bracketed head' body', rest, rest', ends, ends', same => by
    simp only [Part.text, List.append_assoc, List.cons_append, List.nil_append] at same
    obtain ⟨rfl, bodies⟩ := head_split (bracket_not_headChar _) (bracket_not_headChar _) same
    obtain ⟨rfl, rests⟩ := body.text_split body' (by simp [ClosesBody])
      (by simp [ClosesBody]) (List.cons.inj bodies).2
    exact ⟨rfl, (List.cons.inj rests).2⟩

theorem Rest.text_split : (more more' : Rest) → {rest rest' : List Char} →
    ClosesBody rest → ClosesBody rest' → more.text ++ rest = more'.text ++ rest' →
    more = more' ∧ rest = rest'
  | .done after, .done after', rest, rest', closes, closes', same => by
    rw [Rest.text, Rest.text] at same
    obtain ⟨rfl, rests⟩ := blank_split closes.not_space closes'.not_space same
    exact ⟨rfl, rests⟩
  | .done after, .more gap wide part more, rest, rest', closes, closes', same => by
    rw [Rest.text, Rest.text, List.append_assoc, List.append_assoc] at same
    obtain ⟨_, starts⟩ := blank_split closes.not_space (part.not_space _) same
    obtain ⟨c, first, ⟨_, plain⟩, _⟩ := part.head_text (more.text ++ rest')
    rw [← starts] at first
    exact absurd (closes c first) plain
  | .more gap wide part more, .done after, rest, rest', closes, closes', same => by
    rw [Rest.text, Rest.text, List.append_assoc, List.append_assoc] at same
    obtain ⟨_, starts⟩ := blank_split (part.not_space _) closes'.not_space same
    obtain ⟨c, first, ⟨_, plain⟩, _⟩ := part.head_text (more.text ++ rest)
    rw [starts] at first
    exact absurd (closes' c first) plain
  | .more gap wide part more, .more gap' wide' part' more', rest, rest', closes, closes', same => by
    simp only [Rest.text, List.append_assoc] at same
    obtain ⟨rfl, parts⟩ := blank_split (part.not_space _) (part'.not_space _) same
    obtain ⟨rfl, rests⟩ := part.text_split part' (more.endsPart closes) (more'.endsPart closes') parts
    obtain ⟨rfl, behind⟩ := more.text_split more' closes closes' rests
    exact ⟨rfl, behind⟩

theorem Derivation.text_split : (d d' : Derivation) → {rest rest' : List Char} →
    ClosesBody rest → ClosesBody rest' → d.text ++ rest = d'.text ++ rest' →
    d = d' ∧ rest = rest'
  | .mk before part more, .mk before' part' more', rest, rest', closes, closes', same => by
    simp only [Derivation.text, List.append_assoc] at same
    obtain ⟨rfl, parts⟩ := blank_split (part.not_space _) (part'.not_space _) same
    obtain ⟨rfl, rests⟩ := part.text_split part' (more.endsPart closes) (more'.endsPart closes') parts
    obtain ⟨rfl, behind⟩ := more.text_split more' closes closes' rests
    exact ⟨rfl, behind⟩

end

theorem Derivation.text_injective : Function.Injective Derivation.text := by
  intro d d' same
  have closes : ClosesBody [] := by simp [ClosesBody]
  exact (d.text_split d' closes closes (by rw [same])).1

/-- The parser accepts exactly the texts that have a derivation; the derivation is the only
one, and what is returned is its tree. -/
theorem parse_iff_unique_derivation (text : String) :
    (∀ e, Expression.parse text = .ok e ↔
      ∃ d : Derivation, d.text = text.toList ∧ d.expression = e) ∧
    ∀ d d' : Derivation, d.text = text.toList → d'.text = text.toList → d = d' := by
  refine ⟨fun e => ofChars_iff_derivation, ?_⟩
  intro d d' same same'
  exact Derivation.text_injective (same.trans same'.symm)

end AggFlatten.Grammar
