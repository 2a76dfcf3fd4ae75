import AggFlatten.Proofs.Expression.Reading

/-! The source of an expression is a text of it: read again, it gives the same expression,
and so does the source of every expression in brackets, however deep. -/
namespace AggFlatten

open Text (isSpace)

/-- A part of an expression, or of one in its brackets, at any depth. -/
inductive SubAgg.Occurs (sub : SubAgg) : List SubAgg → Prop where
  | here {subs} (member : sub ∈ subs) : Occurs sub subs
  | inside {subs type path source body} (member : bracketed type path source body ∈ subs)
      (deeper : Occurs sub body) : Occurs sub subs

theorem SubAgg.Occurs.of_body {sub : SubAgg} {subs body : List SubAgg} {type : AggType}
    {path : NamePath} {source : String} (outer : Occurs (.bracketed type path source body) subs)
    (member : sub ∈ body) : Occurs sub subs := by
  induction outer with
  | here among => exact .inside among (.here member)
  | inside among _ ih => exact .inside among ih

theorem SubAgg.Occurs.mono {sub : SubAgg} {subs subs' : List SubAgg} (occurs : Occurs sub subs)
    (wider : ∀ s ∈ subs, s ∈ subs') : Occurs sub subs' := by
  cases occurs with
  | here member => exact .here (wider _ member)
  | inside member deeper => exact .inside (wider _ member) deeper

theorem SubAgg.occurs_bare_iff {sub : SubAgg} {type : AggType} {path : NamePath} :
    Occurs sub [.bare type path] ↔ sub = .bare type path := by
  constructor
  · intro occurs
    cases occurs with
    | here member => exact List.mem_singleton.mp member
    | inside member _ => cases List.mem_singleton.mp member
  · rintro rfl
    exact .here List.mem_cons_self

theorem SubAgg.occurs_bracketed_iff {sub : SubAgg} {type : AggType} {path : NamePath}
    {source : String} {body : List SubAgg} :
    Occurs sub [.bracketed type path source body] ↔
      sub = .bracketed type path source body ∨ Occurs sub body := by
  constructor
  · intro occurs
    cases occurs with
    | here member => exact .inl (List.mem_singleton.mp member)
    | inside member deeper =>
      cases List.mem_singleton.mp member
      exact .inr deeper
  · rintro (rfl | deeper)
    · exact .here List.mem_cons_self
    · exact .inside List.mem_cons_self deeper

namespace Grammar

def Blank.empty : Blank := ⟨[], nofun⟩

/-- The same parts without the white space behind the last one. -/
def Rest.trimmed : Rest → Rest
  | .done _ => .done .empty
  | .more gap wide part rest => .more gap wide part rest.trimmed

def Derivation.trimmed : Derivation → Derivation
  | .mk _ first rest => .mk .empty first rest.trimmed

theorem Rest.trimmed_trimmed (rest : Rest) : rest.trimmed.trimmed = rest.trimmed := by
  cases rest with
  | done after => rfl
  | more gap wide part rest => rw [trimmed, trimmed, rest.trimmed_trimmed]

theorem Rest.subs_trimmed (rest : Rest) : rest.trimmed.subs = rest.subs := by
  cases rest with
  | done after => rfl
  | more gap wide part rest => rw [trimmed, subs, subs, rest.subs_trimmed]

theorem Derivation.trimmed_trimmed (d : Derivation) : d.trimmed.trimmed = d.trimmed := by
  obtain ⟨before, first, rest⟩ := d
  rw [trimmed, trimmed, rest.trimmed_trimmed]

theorem Derivation.subs_trimmed (d : Derivation) : d.trimmed.subs = d.subs := by
  obtain ⟨before, first, rest⟩ := d
  rw [trimmed, subs, subs, rest.subs_trimmed]

theorem Rest.exists_after (rest : Rest) :
    ∃ after : Blank, rest.text = rest.trimmed.text ++ after.chars := by
  cases rest with
  | done after => exact ⟨after, by simp only [trimmed, text, Blank.empty, List.nil_append]⟩
  | more gap wide part rest =>
    obtain ⟨after, whole⟩ := rest.exists_after
    exact ⟨after, by simp only [trimmed, text, whole, List.append_assoc]⟩

theorem Part.last_text (part : Part) (front : List Char) :
    ∀ c ∈ (front ++ part.text).getLast?, isSpace c = false := by
  intro c last
  cases part with
  | bare head =>
    rw [text, List.getLast?_append_of_ne_nil _ head.text_ne_nil] at last
    exact (Head.headChar (List.mem_of_getLast? last)).2
  | bracketed head body =>
    rw [text, ← List.append_assoc, ← List.append_assoc, List.getLast?_concat] at last
    obtain rfl := Option.some.inj last
    decide

theorem Rest.last_trimmed : (rest : Rest) → {front : List Char} →
    (∀ c ∈ front.getLast?, isSpace c = false) →
    ∀ c ∈ (front ++ rest.trimmed.text).getLast?, isSpace c = false
  | .done _, front, ends => by
    simpa only [trimmed, text, Blank.empty, List.append_nil] using ends
  | .more gap wide part rest, front, ends => by
    have further := rest.last_trimmed (part.last_text (front ++ gap.chars))
    simpa only [trimmed, text, List.append_assoc] using further

theorem Derivation.trim_text (d : Derivation) : Text.trim d.text = d.trimmed.text := by
  obtain ⟨before, first, rest⟩ := d
  obtain ⟨after, whole⟩ := rest.exists_after
  have token := first.isToken
  have starts : ∀ c ∈ (first.text ++ rest.trimmed.text).head?, isSpace c = false := by
    rw [List.head?_append_of_ne_nil _ token.nonempty]
    exact token.head_not_space
  have ends : ∀ c ∈ (first.text ++ rest.trimmed.text).getLast?, isSpace c = false :=
    rest.last_trimmed (first.last_text [])
  have nonempty : first.text ++ rest.trimmed.text ≠ [] := by simp [token.nonempty]
  have trimmed := Text.trim_append nonempty before.spaces starts ends after.spaces
  rw [text, whole, ← List.append_assoc first.text, trimmed]
  rfl

theorem Derivation.expression_trimmed (d : Derivation) : d.trimmed.expression = d.expression := by
  rw [expression, expression, trim_text, trim_text, trimmed_trimmed, subs_trimmed]

theorem parse_source_expression (d : Derivation) :
    Expression.parse d.expression.source = .ok d.expression := by
  have text : d.expression.source.toList = d.trimmed.text := by
    rw [Derivation.expression, String.toList_ofList, d.trim_text]
  rw [Expression.parse, text, ofChars_text, d.expression_trimmed]

theorem Rest.part_of_mem : (rest : Rest) → {sub : SubAgg} → sub ∈ rest.subs →
    ∃ part : Part, part.sub = sub
  | .done _, sub, member => by simp [subs] at member
  | .more _ _ part rest, sub, member => by
    rw [subs, List.mem_cons] at member
    rcases member with rfl | later
    · exact ⟨part, rfl⟩
    · exact rest.part_of_mem later

theorem Derivation.part_of_mem (d : Derivation) {sub : SubAgg} (member : sub ∈ d.subs) :
    ∃ part : Part, part.sub = sub := by
  obtain ⟨before, first, rest⟩ := d
  rw [subs, List.mem_cons] at member
  rcases member with rfl | later
  · exact ⟨first, rfl⟩
  · exact rest.part_of_mem later

/-- An expression in brackets has a derivation of its own. -/
theorem exists_body {type : AggType} {path : NamePath} {source : String} {body : List SubAgg}
    {part : Part} (same : part.sub = .bracketed type path source body) :
    ∃ d : Derivation, d.expression = ⟨source, body⟩ := by
  cases part with
  | bare head => simp [Part.sub] at same
  | bracketed head d =>
    rw [Part.sub, SubAgg.bracketed.injEq] at same
    obtain ⟨_, _, rfl, rfl⟩ := same
    exact ⟨d, rfl⟩

end Grammar

namespace Expression

variable {text : String} {e : Expression}

theorem parse_source (parsed : parse text = .ok e) : parse e.source = .ok e := by
  obtain ⟨d, _, rfl⟩ := Grammar.ofChars_iff_derivation.mp parsed
  exact Grammar.parse_source_expression d

theorem source_of_parse (parsed : parse text = .ok e) :
    e.source = String.ofList (Text.trim text.toList) := by
  obtain ⟨d, same, rfl⟩ := Grammar.ofChars_iff_derivation.mp parsed
  rw [Grammar.Derivation.expression, same]

/-- However deep a part stands, it has a derivation. -/
theorem part_of_occurs {sub : SubAgg} (parsed : parse text = .ok e)
    (occurs : SubAgg.Occurs sub e.subs) : ∃ part : Grammar.Part, part.sub = sub := by
  obtain ⟨d, _, rfl⟩ := Grammar.ofChars_iff_derivation.mp parsed
  have derived : ∀ sub ∈ d.expression.subs, ∃ part : Grammar.Part, part.sub = sub :=
    fun sub member => d.part_of_mem member
  generalize d.expression.subs = subs at occurs derived
  induction occurs with
  | here member => exact derived _ member
  | inside member _ ih =>
    obtain ⟨part, same⟩ := derived _ member
    obtain ⟨d, whole⟩ := Grammar.exists_body same
    obtain ⟨rfl, rfl⟩ := Expression.mk.inj whole
    exact ih fun sub inner => d.part_of_mem inner

theorem parse_nested {type : AggType} {path : NamePath} {source : String} {body : List SubAgg}
    (parsed : parse text = .ok e)
    (occurs : SubAgg.Occurs (.bracketed type path source body) e.subs) :
    parse source = .ok ⟨source, body⟩ := by
  obtain ⟨part, same⟩ := part_of_occurs parsed occurs
  obtain ⟨d, whole⟩ := Grammar.exists_body same
  have again := Grammar.parse_source_expression d
  rwa [whole] at again

end Expression

end AggFlatten
