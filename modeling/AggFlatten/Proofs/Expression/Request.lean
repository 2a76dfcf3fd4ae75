import AggFlatten.Proofs.Expression.Source

/-! The text that asks for one aggregation: a keyword, a dotted name and possibly brackets.
It is a text of the grammar, and its expression has a single part. -/
namespace AggFlatten

open Text (lastSegment)

/-- A request for a name as a type, with brackets where there is something to put in them. -/
def requestText (type : AggType) (name : String) (within : Option String) : String :=
  type.keyword ++ ":" ++ name ++ within.elim "" fun text => "[" ++ text ++ "]"

namespace Grammar

theorem Segment.segments_text (segment : Segment) :
    Text.segments (String.ofList segment.chars) = [String.ofList segment.chars] := by
  have plain : '.' ∉ segment.chars := fun dot => (segment.plain '.' dot).1 rfl
  rw [Text.segments, String.toList_ofList, Text.splitDots_eq_singleton plain]
  rfl

namespace Path

variable (path : Path)

theorem segments_text :
    Text.segments (String.ofList path.text) = path.namePath.scope ++ [path.namePath.name] := by
  rw [Text.segments, String.toList_ofList, splitDots_text, segments_eq_map]
  simp [namePath]

theorem segments_scope (given : path.scope ≠ []) :
    Text.segments (Text.dotted path.namePath.scope) = path.namePath.scope := by
  have chars : path.namePath.scope.map String.toList = path.scope.map Segment.chars := by
    simp [namePath]
  have plain : ∀ s ∈ path.scope.map Segment.chars, '.' ∉ s := by
    intro s member dot
    obtain ⟨segment, _, rfl⟩ := List.mem_map.mp member
    exact (segment.plain '.' dot).1 rfl
  rw [Text.dotted, chars, Text.segments, String.toList_ofList,
    Text.splitDots_joinDots (by simpa using given) plain]
  simp [namePath]

theorem segments_name : Text.segments path.namePath.name = [path.namePath.name] :=
  path.name.segments_text

theorem segments_of_mem_scope {first : String} (member : first ∈ path.namePath.scope) :
    Text.segments first = [first] := by
  obtain ⟨segment, _, rfl⟩ := List.mem_map.mp member
  exact segment.segments_text

theorem lastSegment_text : lastSegment (String.ofList path.text) = path.namePath.name := by
  rw [lastSegment, segments_text]
  simp

theorem lastSegment_name : lastSegment path.namePath.name = path.namePath.name := by
  rw [lastSegment, segments_name]
  rfl

/-- The same name without the segments that lead to it. -/
def unscoped : Path := ⟨[], path.name⟩

theorem text_unscoped : String.ofList path.unscoped.text = path.namePath.name := by
  simp [unscoped, text, segments, namePath, Text.joinDots]

end Path

/-- An expression of a single part, with no white space around it. -/
def Part.alone (part : Part) : Derivation :=
  .mk .empty part (.done .empty)

theorem Part.text_alone (part : Part) : part.alone.text = part.text := by
  simp [alone, Derivation.text, Rest.text, Blank.empty]

theorem Part.expression_alone (part : Part) :
    part.alone.expression = ⟨String.ofList part.text, [part.sub]⟩ := by
  have trimmed : Text.trim part.alone.text = part.alone.text := part.alone.trim_text
  rw [Derivation.expression, trimmed, text_alone]
  rfl

theorem parse_text (d : Derivation) :
    Expression.parse (String.ofList d.text) = .ok d.expression := by
  rw [Expression.parse, String.toList_ofList]
  exact ofChars_text d

theorem parse_part (part : Part) :
    Expression.parse (String.ofList part.text) = .ok ⟨String.ofList part.text, [part.sub]⟩ := by
  rw [← part.expression_alone, ← part.text_alone]
  exact parse_text part.alone

def Part.request (type : AggType) (path : Path) : Option Derivation → Part
  | none => .bare ⟨type, path⟩
  | some inner => .bracketed ⟨type, path⟩ inner

theorem requestText_eq (type : AggType) (path : Path) (inner : Option Derivation) :
    requestText type (String.ofList path.text) (inner.map fun d => String.ofList d.text) =
      String.ofList (Part.request type path inner).text := by
  apply String.toList_inj.mp
  cases inner with
  | none => simp [requestText, Part.request, Part.text, Head.text]
  | some d => simp [requestText, Part.request, Part.text, Head.text]

theorem path_request (type : AggType) (path : Path) (inner : Option Derivation) :
    (Part.request type path inner).sub.path = path.namePath := by
  cases inner <;> rfl

/-- A text that may be absent and can be read otherwise is the text of a derivation. -/
theorem exists_inner {within : Option String}
    (parsed : ∀ text ∈ within, ∃ e, Expression.parse text = .ok e) :
    ∃ inner : Option Derivation, within = inner.map fun d => String.ofList d.text := by
  cases within with
  | none => exact ⟨none, rfl⟩
  | some text =>
    obtain ⟨e, read⟩ := parsed text rfl
    obtain ⟨d, same, _⟩ := ofChars_iff_derivation.mp read
    exact ⟨some d, by rw [Option.map_some, same, String.ofList_toList]⟩

end Grammar

namespace Expression

variable {text : String} {e : Expression} {sub : SubAgg}

/-- Every part of an expression that has been read, at any depth, has a name of the grammar. -/
theorem path_of_occurs (parsed : parse text = .ok e) (occurs : SubAgg.Occurs sub e.subs) :
    ∃ path : Grammar.Path, path.namePath = sub.path := by
  obtain ⟨part, rfl⟩ := part_of_occurs parsed occurs
  cases part <;> exact ⟨_, rfl⟩

theorem lastSegment_of_occurs (parsed : parse text = .ok e)
    (occurs : SubAgg.Occurs sub e.subs) : lastSegment sub.path.name = sub.path.name := by
  obtain ⟨path, same⟩ := path_of_occurs parsed occurs
  rw [← same, path.lastSegment_name]

end Expression

end AggFlatten
