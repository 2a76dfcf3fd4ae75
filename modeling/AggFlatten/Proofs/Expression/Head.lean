import AggFlatten.Expression.Parser
import AggFlatten.Proofs.Expression.Grammar
import AggFlatten.Proofs.Outcome
import AggFlatten.Proofs.Text.Brackets
import AggFlatten.Proofs.Text.Span

/-! One token taken apart: what stands before its brackets is a keyword and a dotted name,
and what stands inside them ends where the count of brackets comes back to zero. -/
namespace AggFlatten

open Text (isSpace joinDots splitDots depthAfter Balanced)

theorem Text.mem_joinDots {segments : List (List Char)} {c : Char}
    (member : c ∈ joinDots segments) : c = '.' ∨ ∃ s ∈ segments, c ∈ s := by
  induction segments with
  | nil => simp [joinDots] at member
  | cons s more ih =>
    cases more with
    | nil =>
      rw [joinDots, List.intercalate_singleton] at member
      exact .inr ⟨s, List.mem_cons_self, member⟩
    | cons t more =>
      rw [joinDots_cons_cons, List.mem_append, List.mem_cons] at member
      rcases member with first | dot | later
      · exact .inr ⟨s, List.mem_cons_self, first⟩
      · exact .inl dot
      · obtain dot | ⟨u, among, inside⟩ := ih later
        · exact .inl dot
        · exact .inr ⟨u, List.mem_cons_of_mem _ among, inside⟩

namespace Grammar

theorem isNameChar_iff {c : Char} : SubAgg.isNameChar c = true ↔ NameChar c := by
  simp [SubAgg.isNameChar, NameChar, and_assoc]

theorem nameChar_of_all {chars : List Char} (checked : chars.all SubAgg.isNameChar = true) :
    ∀ c ∈ chars, NameChar c :=
  fun c member => isNameChar_iff.mp (List.all_eq_true.mp checked c member)

namespace Path

theorem splitDots_text (path : Path) : splitDots path.text = path.segments := by
  apply Text.splitDots_joinDots
  · simp [segments]
  · intro s member
    obtain ⟨segment, _, rfl⟩ := List.mem_map.mp member
    intro dot
    exact (segment.plain '.' dot).1 rfl

theorem mem_text {path : Path} {c : Char} (member : c ∈ path.text) : c = '.' ∨ NameChar c := by
  obtain dot | ⟨s, among, inside⟩ := Text.mem_joinDots member
  · exact .inl dot
  · obtain ⟨segment, _, rfl⟩ := List.mem_map.mp among
    exact .inr (segment.plain c inside)

theorem segments_eq_map (path : Path) : path.segments =
    path.scope.map Segment.chars ++ [path.name.chars] := by
  simp [segments]

end Path

/-- Dotted text of good segments is the text of a path. -/
theorem exists_path {chars : List Char}
    (good : ∀ s ∈ splitDots chars, s ≠ [] ∧ ∀ c ∈ s, NameChar c) :
    ∃ path : Path, path.text = chars := by
  have build : ∀ pieces : List (List Char), (∀ s ∈ pieces, s ≠ [] ∧ ∀ c ∈ s, NameChar c) →
      ∃ segments : List Segment, segments.map Segment.chars = pieces := by
    intro pieces good
    induction pieces with
    | nil => exact ⟨[], rfl⟩
    | cons s more ih =>
      obtain ⟨segments, same⟩ := ih fun t member => good t (List.mem_cons_of_mem _ member)
      obtain ⟨nonempty, plain⟩ := good s List.mem_cons_self
      exact ⟨⟨s, nonempty, plain⟩ :: segments, by rw [List.map_cons, same]⟩
  obtain ⟨segments, same⟩ := build _ good
  have nonempty : segments ≠ [] := by
    rintro rfl
    exact Text.splitDots_ne_nil chars same.symm
  refine ⟨⟨segments.dropLast, segments.getLast nonempty⟩, ?_⟩
  rw [Path.text, Path.segments, List.dropLast_append_getLast, same, Text.joinDots_splitDots]

theorem Path.namePath_eq (path : Path) :
    path.namePath = ⟨path.segments.dropLast.map String.ofList,
      String.ofList (path.segments.getLastD [])⟩ := by
  simp [namePath, segments_eq_map]

theorem namePath_eq_ok_iff {token chars : List Char} {name : NamePath} :
    SubAgg.namePath token chars = .ok name ↔
      ∃ path : Path, path.text = chars ∧ path.namePath = name := by
  constructor
  · intro read
    rw [SubAgg.namePath] at read
    split at read
    · next checked =>
      have good : ∀ s ∈ splitDots chars, s ≠ [] ∧ ∀ c ∈ s, NameChar c := by
        intro s member
        have both := List.all_eq_true.mp checked s member
        rw [Bool.and_eq_true, Bool.not_eq_true', List.isEmpty_eq_false_iff] at both
        exact ⟨both.1, nameChar_of_all both.2⟩
      obtain ⟨path, rfl⟩ := exists_path good
      refine ⟨path, rfl, ?_⟩
      rw [Path.namePath_eq, ← Except.ok.inj read, path.splitDots_text]
    · cases read
  · rintro ⟨path, rfl, rfl⟩
    have checked : (path.segments.all fun s => !s.isEmpty && s.all SubAgg.isNameChar) = true := by
      refine List.all_eq_true.mpr ?_
      intro s member
      obtain ⟨segment, _, rfl⟩ := List.mem_map.mp member
      simp only [Bool.and_eq_true, Bool.not_eq_true', List.isEmpty_eq_false_iff,
        List.all_eq_true]
      exact ⟨segment.nonempty, fun c inside => isNameChar_iff.mpr (segment.plain c inside)⟩
    rw [SubAgg.namePath, path.splitDots_text, if_pos checked, path.namePath_eq]

/-- What stands outside brackets: no bracket, and no white space. -/
def HeadChar (c : Char) : Prop := Text.IsPlain c ∧ isSpace c = false

theorem keyword_letters (type : AggType) : type.keyword.toList ≠ [] ∧
    ∀ c ∈ type.keyword.toList, c.isAlpha = true ∧ NameChar c := by
  have checked : type.keyword.toList ≠ [] ∧
      (type.keyword.toList.all fun c => c.isAlpha && SubAgg.isNameChar c) = true := by
    cases type <;> decide
  obtain ⟨nonempty, letters⟩ := checked
  refine ⟨nonempty, ?_⟩
  intro c member
  have letter := List.all_eq_true.mp letters c member
  rw [Bool.and_eq_true, isNameChar_iff] at letter
  exact letter

theorem Path.no_colon (path : Path) : ':' ∉ path.text := by
  intro member
  rcases mem_text member with dot | plain
  · exact absurd dot (by decide)
  · exact plain.2.1 rfl

theorem Path.headChar {path : Path} {c : Char} (member : c ∈ path.text) : HeadChar c := by
  rcases mem_text member with rfl | ⟨_, _, opens, closes, solid⟩
  · exact ⟨⟨by decide, by decide⟩, by decide⟩
  · exact ⟨⟨opens, closes⟩, solid⟩

theorem Path.text_ne_nil (path : Path) : path.text ≠ [] := by
  intro empty
  have split := path.splitDots_text
  rw [empty, segments_eq_map, splitDots] at split
  cases scope : path.scope with
  | nil =>
    rw [scope] at split
    exact path.name.nonempty (List.cons.inj split).1.symm
  | cons s more =>
    rw [scope] at split
    simp at split

theorem Head.headChar {head : Head} {c : Char} (member : c ∈ head.text) : HeadChar c := by
  rw [text] at member
  split at member
  · next type _ =>
    rw [List.mem_append, List.mem_cons] at member
    rcases member with letter | rfl | later
    · obtain ⟨_, _, _, opens, closes, solid⟩ := (keyword_letters type).2 c letter
      exact ⟨⟨opens, closes⟩, solid⟩
    · exact ⟨⟨by decide, by decide⟩, by decide⟩
    · exact Path.headChar later
  · exact Path.headChar member

theorem Head.text_ne_nil (head : Head) : head.text ≠ [] := by
  rw [text]
  split
  · simp
  · exact head.path.text_ne_nil

theorem cutKeyword_text (token : List Char) (head : Head) :
    SubAgg.cutKeyword token head.text = .ok (head.type, head.path.text) := by
  obtain ⟨keyword, path⟩ := head
  cases keyword with
  | none =>
    rw [Head.text, SubAgg.cutKeyword, if_neg path.no_colon]
    rfl
  | some type =>
    obtain ⟨nonempty, letters⟩ := keyword_letters type
    have inside : ∀ c ∈ type.keyword.toList, c.isAlpha = true :=
      fun c member => (letters c member).1
    have stops : ∀ c ∈ (':' :: path.text).head?, c.isAlpha = false := by
      intro c first
      obtain rfl := Option.some.inj first
      decide
    have line : '\n' ∉ path.text := by
      intro member
      exact absurd (Path.headChar member).2 (by decide)
    have colon : ':' ∈ type.keyword.toList ++ ':' :: path.text := by simp
    have known : AggType.ofKeyword type.keyword = .ok type := by
      rw [AggType.ofKeyword, AggType.ofKeyword?_keyword]
    rw [Head.text, SubAgg.cutKeyword, if_pos colon, Text.takeWhile_append_stop inside stops,
      Text.dropWhile_append_stop inside stops]
    change (if type.keyword.toList = [] ∨ '\n' ∈ path.text then _ else _) = _
    rw [if_neg (not_or.mpr ⟨nonempty, line⟩), String.ofList_toList, known]
    rfl

theorem eq_of_cutKeyword {token chars rest : List Char} {type : AggType}
    (read : SubAgg.cutKeyword token chars = .ok (type, rest)) :
    (chars = rest ∧ type = .value) ∨ chars = type.keyword.toList ++ ':' :: rest := by
  rw [SubAgg.cutKeyword] at read
  split at read
  · obtain ⟨letters, whole, _, _⟩ := Text.exists_stretch Char.isAlpha chars
    dsimp only at read
    split at read
    · next path dropped =>
      split at read
      · cases read
      · obtain ⟨found, known, same⟩ := Outcome.map_eq_ok_iff.mp read
        obtain ⟨rfl, rfl⟩ := Prod.mk.inj same
        rw [AggType.ofKeyword] at known
        split at known
        · next _ matched =>
          obtain rfl := Except.ok.inj known
          rw [AggType.keyword_of_ofKeyword? matched, String.toList_ofList, ← dropped]
          exact .inr List.takeWhile_append_dropWhile.symm
        · cases known
    · cases read
  · obtain ⟨rfl, rfl⟩ := Prod.mk.inj (Except.ok.inj read)
    exact .inl ⟨rfl, rfl⟩

/-- A closing bracket is found behind a text whose own brackets all close. -/
theorem closeBracket_append {depth after : Nat} {text : List Char}
    (counted : depthAfter depth text = some after) (rest : List Char) :
    closeBracket depth (text ++ rest) =
      (closeBracket after rest).map fun (inside, behind) => (text ++ inside, behind) := by
  induction text generalizing depth with
  | nil =>
    obtain rfl := Option.some.inj counted
    rw [List.nil_append]
    cases closeBracket depth rest <;> rfl
  | cons c text ih =>
    have stays : ¬(c = ']' ∧ depth = 0) := by
      rintro ⟨rfl, rfl⟩
      rw [Text.depthAfter_stray] at counted
      contradiction
    have tail : depthAfter (if c = '[' then depth + 1 else if c = ']' then depth - 1 else depth)
        text = some after := by
      rw [depthAfter] at counted
      split at counted
      · next opens => rwa [if_pos opens]
      · next other =>
        rw [if_neg other]
        split at counted
        · next closes =>
          rw [if_pos closes]
          split at counted
          · contradiction
          · exact counted
        · next plain => rwa [if_neg plain]
    rw [List.cons_append, closeBracket, if_neg stays]
    dsimp only
    rw [ih tail, Option.map_map]
    rfl

/-- The brackets of a token, put back. -/
def inBrackets : Option (List Char) → List Char
  | none => []
  | some body => '[' :: body ++ [']']

theorem cutBracket_append {front : List Char} {body : Option (List Char)}
    (plain : '[' ∉ front) (balanced : ∀ inside ∈ body, Balanced inside) :
    SubAgg.cutBracket (front ++ inBrackets body) = .ok (front, body) := by
  have inside : ∀ c ∈ front, decide (c ≠ '[') = true := by
    intro c member
    simp only [decide_eq_true_eq]
    rintro rfl
    exact plain member
  have stops : ∀ c ∈ (inBrackets body).head?, decide (c ≠ '[') = false := by
    intro c first
    cases body with
    | none => cases first
    | some inside =>
      obtain rfl := Option.some.inj first
      rfl
  rw [SubAgg.cutBracket, Text.takeWhile_append_stop inside stops,
    Text.dropWhile_append_stop inside stops]
  cases body with
  | none => rfl
  | some text =>
    have closed := closeBracket_append (balanced text rfl) [']']
    dsimp only [inBrackets, List.cons_append]
    rw [closed]
    simp [closeBracket]

theorem eq_of_cutBracket {token front : List Char} {body : Option (List Char)}
    (read : SubAgg.cutBracket token = .ok (front, body)) : token = front ++ inBrackets body := by
  obtain ⟨before, whole, _, stops⟩ := Text.exists_stretch (· ≠ '[') token
  have taken : token.takeWhile (· ≠ '[') ++ token.dropWhile (· ≠ '[') = token :=
    List.takeWhile_append_dropWhile
  rw [SubAgg.cutBracket] at read
  split at read
  · next empty =>
    obtain ⟨rfl, rfl⟩ := Prod.mk.inj (Except.ok.inj read)
    rw [empty] at taken
    exact taken.symm
  · next first rest dropped =>
    split at read
    · cases read
    · next inside closed =>
      obtain ⟨rfl, rfl⟩ := Prod.mk.inj (Except.ok.inj read)
      have opens : first = '[' := by simpa using stops first (by rw [dropped]; rfl)
      rw [dropped, opens, eq_append_of_closeBracket closed] at taken
      exact taken.symm
    · cases read

/-- What a token says outside its brackets is a head, and what it holds inside them is left
as it stands. -/
theorem head_of_parts {token : List Char} {type : AggType} {name : NamePath}
    {body : Option (List Char)} (read : SubAgg.parts token = .ok ((type, name), body)) :
    ∃ head : Head, token = head.text ++ inBrackets body ∧ head.type = type ∧
      head.path.namePath = name := by
  rw [SubAgg.parts] at read
  obtain ⟨⟨front, inside⟩, cut, read⟩ := Outcome.bind_eq_ok_iff.mp read
  obtain ⟨⟨kind, rest⟩, keyed, read⟩ := Outcome.bind_eq_ok_iff.mp read
  obtain ⟨found, named, read⟩ := Outcome.bind_eq_ok_iff.mp read
  cases read
  obtain ⟨path, rfl, rfl⟩ := namePath_eq_ok_iff.mp named
  have whole := eq_of_cutBracket cut
  rcases eq_of_cutKeyword keyed with ⟨rfl, rfl⟩ | rfl
  · exact ⟨⟨none, path⟩, whole, rfl, rfl⟩
  · exact ⟨⟨some type, path⟩, whole, rfl, rfl⟩

theorem parts_text (head : Head) {body : Option (List Char)}
    (balanced : ∀ inside ∈ body, Balanced inside) :
    SubAgg.parts (head.text ++ inBrackets body) =
      .ok ((head.type, head.path.namePath), body) := by
  have plain : '[' ∉ head.text := fun member => (Head.headChar member).1.1 rfl
  refine Outcome.bind_eq_ok_iff.mpr ⟨_, cutBracket_append plain balanced, ?_⟩
  refine Outcome.bind_eq_ok_iff.mpr ⟨_, cutKeyword_text _ head, ?_⟩
  exact Outcome.bind_eq_ok_iff.mpr ⟨_, namePath_eq_ok_iff.mpr ⟨head.path, rfl, rfl⟩, rfl⟩

end Grammar

end AggFlatten
