import AggFlatten.Expression.Outline
import AggFlatten.Proofs.Expression.Request
import AggFlatten.Proofs.Expression.Unambiguity
import AggFlatten.Proofs.Text.Lines

/-! What the outline of an expression tells. Its lines give the depth, the kind and the dotted
name of every part, and nothing that has been read has empty brackets, so the depths alone tell
what stands in which brackets. Only the texts that were recorded are lost. -/
namespace AggFlatten

open Text (IsLine cutLines)

/-- The same kind, the same name and the same parts in the brackets, if there are any. The texts
in the brackets may differ. -/
inductive SubAgg.SameTree : SubAgg → SubAgg → Prop where
  | bare {type : AggType} {path : NamePath} : SameTree (.bare type path) (.bare type path)
  | bracketed {type : AggType} {path : NamePath} {source source' : String}
      {body body' : List SubAgg} (bodies : List.Forall₂ SameTree body body') :
      SameTree (.bracketed type path source body) (.bracketed type path source' body')

/-- What a line of an outline shows of a part. -/
@[ext]
structure Entry where
  depth : Nat
  type : AggType
  name : List Char

namespace Entry

/-- Two spaces a level, the keyword, and the name. -/
def line (entry : Entry) : List Char :=
  List.replicate (2 * entry.depth) ' ' ++
    (entry.type.keyword.toList ++ (' ' :: entry.name ++ ['\n']))

theorem keyword_head (type : AggType) (rest : List Char) :
    ∀ c ∈ (type.keyword.toList ++ rest).head?, decide (c = ' ') = false := by
  obtain ⟨nonempty, letters⟩ := Grammar.keyword_letters type
  intro c first
  rw [List.head?_append_of_ne_nil _ nonempty] at first
  refine decide_eq_false ?_
  rintro rfl
  exact absurd (letters ' ' (List.mem_of_mem_head? first)).1 (by decide)

theorem keyword_no_space (type : AggType) :
    ∀ c ∈ type.keyword.toList, decide (c ≠ ' ') = true := by
  intro c member
  refine decide_eq_true ?_
  rintro rfl
  exact absurd ((Grammar.keyword_letters type).2 ' ' member).1 (by decide)

/-- The indentation ends at the first letter of the keyword, and the keyword at the next space. -/
theorem line_injective : Function.Injective line := by
  rintro ⟨depth, type, name⟩ ⟨depth', type', name'⟩ same
  have spaces (depth : Nat) :
      ∀ c ∈ List.replicate (2 * depth) ' ', decide (c = ' ') = true :=
    fun c member => decide_eq_true (List.eq_of_mem_replicate member)
  obtain ⟨indents, words⟩ := Text.append_eq_append_of_stop (spaces depth) (keyword_head type _)
    (spaces depth') (keyword_head type' _) same
  have stops (rest : List Char) : ∀ c ∈ (' ' :: rest).head?, decide (c ≠ ' ') = false := by
    intro c first
    obtain rfl := Option.some.inj first
    rfl
  obtain ⟨keywords, names⟩ := Text.append_eq_append_of_stop (keyword_no_space type) (stops _)
    (keyword_no_space type') (stops _) words
  have depths := congrArg List.length indents
  rw [List.length_replicate, List.length_replicate] at depths
  have ends := (List.cons.inj names).2
  exact Entry.ext (by dsimp only; omega)
    (Grammar.keyword_injective (String.toList_inj.mp keywords)) (List.append_cancel_right ends)

theorem isLine {entry : Entry} (plain : '\n' ∉ entry.name) : IsLine entry.line := by
  refine ⟨List.replicate (2 * entry.depth) ' ' ++ (entry.type.keyword.toList ++ ' ' :: entry.name),
    ?_, by simp [line]⟩
  have letters : '\n' ∉ entry.type.keyword.toList := fun member =>
    absurd ((Grammar.keyword_letters entry.type).2 '\n' member).1 (by decide)
  simp [letters, plain]

end Entry

namespace SubAgg

mutual

/-- A part at this depth, and then the parts in its brackets, each with its own depth. -/
def places (depth : Nat) : SubAgg → List (Nat × SubAgg)
  | bare type path => [(depth, bare type path)]
  | bracketed type path source body =>
    (depth, bracketed type path source body) :: placesOfAll (depth + 1) body

def placesOfAll (depth : Nat) : List SubAgg → List (Nat × SubAgg)
  | [] => []
  | sub :: rest => places depth sub ++ placesOfAll depth rest

end

def entry (place : Nat × SubAgg) : Entry :=
  ⟨place.1, place.2.type, place.2.path.text.toList⟩

mutual

theorem outline_eq : (sub : SubAgg) → (depth : Nat) →
    outline depth sub = ((places depth sub).map fun place => (entry place).line).flatten
  | bare type path, depth => by
    simp [outline, outlineLine, places, entry, Entry.line, SubAgg.type, SubAgg.path]
  | bracketed type path source body, depth => by
    rw [outline, outlines_eq body, places]
    simp [outlineLine, entry, Entry.line, SubAgg.type, SubAgg.path]

theorem outlines_eq : (subs : List SubAgg) → (depth : Nat) →
    outlines depth subs = ((placesOfAll depth subs).map fun place => (entry place).line).flatten
  | [], depth => rfl
  | sub :: subs, depth => by
    rw [outlines, outline_eq sub, outlines_eq subs, placesOfAll, List.map_append,
      List.flatten_append]

end

mutual

theorem occurs_of_mem_places : (sub : SubAgg) → {depth : Nat} → {place : Nat × SubAgg} →
    place ∈ places depth sub → Occurs place.2 [sub]
  | bare type path, depth, place, member => by
    rw [places, List.mem_singleton] at member
    rw [member]
    exact .here List.mem_cons_self
  | bracketed type path source body, depth, place, member => by
    rw [places, List.mem_cons] at member
    rcases member with rfl | later
    · exact .here List.mem_cons_self
    · exact .inside List.mem_cons_self (occurs_of_mem_placesOfAll body later)

theorem occurs_of_mem_placesOfAll : (subs : List SubAgg) → {depth : Nat} →
    {place : Nat × SubAgg} → place ∈ placesOfAll depth subs → Occurs place.2 subs
  | [], _, _, member => nomatch member
  | sub :: subs, depth, place, member => by
    rw [placesOfAll, List.mem_append] at member
    rcases member with first | later
    · exact (occurs_of_mem_places sub first).mono (by simp)
    · exact (occurs_of_mem_placesOfAll subs later).mono fun _ => List.mem_cons_of_mem _

end

end SubAgg

namespace Grammar

open SubAgg (SameTree)

theorem Path.toList_text_namePath (path : Path) : path.namePath.text.toList = path.text := by
  simp [NamePath.text, Text.dotted, namePath, text, segments, Function.comp_def]

def Part.entries (depth : Nat) (part : Part) : List Entry :=
  (SubAgg.places depth part.sub).map SubAgg.entry

def Rest.entries (depth : Nat) (rest : Rest) : List Entry :=
  (SubAgg.placesOfAll depth rest.subs).map SubAgg.entry

def Derivation.entries (depth : Nat) (d : Derivation) : List Entry :=
  (SubAgg.placesOfAll depth d.subs).map SubAgg.entry

def Head.entry (depth : Nat) (head : Head) : Entry :=
  ⟨depth, head.type, head.path.text⟩

section entries

variable (depth : Nat)

theorem Part.entries_bare (head : Head) : (bare head).entries depth = [head.entry depth] := by
  simp [entries, sub, SubAgg.places, SubAgg.entry, SubAgg.type, SubAgg.path, Head.entry,
    Path.toList_text_namePath]

theorem Part.entries_bracketed (head : Head) (body : Derivation) :
    (bracketed head body).entries depth = head.entry depth :: body.entries (depth + 1) := by
  simp [entries, sub, SubAgg.places, SubAgg.entry, SubAgg.type, SubAgg.path, Head.entry,
    Path.toList_text_namePath, Derivation.entries]

theorem Rest.entries_done (after : Blank) : (done after).entries depth = [] := by
  simp [entries, subs, SubAgg.placesOfAll]

theorem Rest.entries_more (gap : Blank) (wide : gap.chars ≠ []) (part : Part) (rest : Rest) :
    (more gap wide part rest).entries depth = part.entries depth ++ rest.entries depth := by
  simp [entries, subs, SubAgg.placesOfAll, Part.entries]

theorem Derivation.entries_mk (before : Blank) (first : Part) (rest : Rest) :
    (mk before first rest).entries depth = first.entries depth ++ rest.entries depth := by
  simp [entries, subs, SubAgg.placesOfAll, Part.entries, Rest.entries]

theorem Part.entries_eq_cons (part : Part) :
    ∃ head more, part.entries depth = Head.entry depth head :: more := by
  cases part with
  | bare head => exact ⟨head, [], entries_bare depth head⟩
  | bracketed head body => exact ⟨head, _, entries_bracketed depth head body⟩

end entries

/-- What can follow in an outline when no part is left at this depth. -/
def Left (depth : Nat) (rest : List Entry) : Prop :=
  ∀ entry ∈ rest.head?, entry.depth < depth

section Left

variable {depth : Nat} {rest : List Entry}

theorem Left.succ (left : Left depth rest) : Left (depth + 1) rest :=
  fun entry first => Nat.lt_succ_of_lt (left entry first)

theorem Part.left_entries (part : Part) (rest : List Entry) :
    Left (depth + 1) (part.entries depth ++ rest) := by
  obtain ⟨head, more, same⟩ := part.entries_eq_cons depth
  intro entry first
  rw [same] at first
  obtain rfl := Option.some.inj first
  exact Nat.lt_succ_self depth

theorem Part.not_left_entries (part : Part) (rest : List Entry) :
    ¬Left depth (part.entries depth ++ rest) := by
  obtain ⟨head, more, same⟩ := part.entries_eq_cons depth
  intro left
  rw [same] at left
  exact Nat.lt_irrefl depth (left (head.entry depth) rfl)

theorem Derivation.not_left_entries (d : Derivation) (rest : List Entry) :
    ¬Left depth (d.entries depth ++ rest) := by
  obtain ⟨before, first, more⟩ := d
  rw [entries_mk, List.append_assoc]
  exact first.not_left_entries _

theorem Rest.left_entries (more : Rest) (left : Left depth rest) :
    Left (depth + 1) (more.entries depth ++ rest) := by
  cases more with
  | done after =>
    rw [entries_done]
    exact left.succ
  | more gap wide part more =>
    rw [entries_more, List.append_assoc]
    exact part.left_entries _

end Left

theorem Head.of_entry {head head' : Head} {depth : Nat}
    (same : head.entry depth = head'.entry depth) :
    head.type = head'.type ∧ head.path.namePath = head'.path.namePath := by
  obtain ⟨_, types, names⟩ := Entry.mk.inj same
  exact ⟨types, congrArg Path.namePath (Path.text_injective names)⟩

mutual

/-- The entries of a part end where one follows that is no deeper. -/
theorem Part.entries_split : (part part' : Part) → {depth : Nat} → {rest rest' : List Entry} →
    Left (depth + 1) rest → Left (depth + 1) rest' →
    part.entries depth ++ rest = part'.entries depth ++ rest' →
    SameTree part.sub part'.sub ∧ rest = rest'
  | .bare head, .bare head', depth, rest, rest', _, _, same => by
    rw [Part.entries_bare, Part.entries_bare] at same
    obtain ⟨heads, rests⟩ := List.cons.inj same
    obtain ⟨types, paths⟩ := Head.of_entry heads
    rw [Part.sub, Part.sub, types, paths]
    exact ⟨.bare, rests⟩
  | .bare head, .bracketed head' body, depth, rest, rest', left, _, same => by
    rw [Part.entries_bare, Part.entries_bracketed] at same
    have deeper : rest = body.entries (depth + 1) ++ rest' := (List.cons.inj same).2
    rw [deeper] at left
    exact absurd left (body.not_left_entries _)
  | .bracketed head body, .bare head', depth, rest, rest', _, left', same => by
    rw [Part.entries_bare, Part.entries_bracketed] at same
    have deeper : body.entries (depth + 1) ++ rest = rest' := (List.cons.inj same).2
    rw [← deeper] at left'
    exact absurd left' (body.not_left_entries _)
  | .bracketed head body, .bracketed head' body', depth, rest, rest', left, left', same => by
    rw [Part.entries_bracketed, Part.entries_bracketed] at same
    obtain ⟨heads, bodies⟩ := List.cons.inj same
    obtain ⟨types, paths⟩ := Head.of_entry heads
    obtain ⟨subs, rests⟩ := body.entries_split body' left left' bodies
    rw [Part.sub, Part.sub, types, paths]
    exact ⟨.bracketed subs, rests⟩

theorem Rest.entries_split : (more more' : Rest) → {depth : Nat} → {rest rest' : List Entry} →
    Left depth rest → Left depth rest' →
    more.entries depth ++ rest = more'.entries depth ++ rest' →
    List.Forall₂ SameTree more.subs more'.subs ∧ rest = rest'
  | .done after, .done after', depth, rest, rest', _, _, same => by
    rw [Rest.entries_done, Rest.entries_done] at same
    exact ⟨.nil, same⟩
  | .done after, .more gap wide part more, depth, rest, rest', left, _, same => by
    rw [Rest.entries_done, Rest.entries_more, List.nil_append, List.append_assoc] at same
    rw [same] at left
    exact absurd left (part.not_left_entries _)
  | .more gap wide part more, .done after, depth, rest, rest', _, left', same => by
    rw [Rest.entries_done, Rest.entries_more, List.nil_append, List.append_assoc] at same
    rw [← same] at left'
    exact absurd left' (part.not_left_entries _)
  | .more gap wide part more, .more gap' wide' part' more', depth, rest, rest', left, left',
      same => by
    simp only [Rest.entries_more, List.append_assoc] at same
    obtain ⟨first, later⟩ :=
      part.entries_split part' (more.left_entries left) (more'.left_entries left') same
    obtain ⟨others, rests⟩ := more.entries_split more' left left' later
    exact ⟨.cons first others, rests⟩

theorem Derivation.entries_split : (d d' : Derivation) → {depth : Nat} →
    {rest rest' : List Entry} → Left depth rest → Left depth rest' →
    d.entries depth ++ rest = d'.entries depth ++ rest' →
    List.Forall₂ SameTree d.subs d'.subs ∧ rest = rest'
  | .mk before first more, .mk before' first' more', depth, rest, rest', left, left', same => by
    simp only [Derivation.entries_mk, List.append_assoc] at same
    obtain ⟨firsts, later⟩ :=
      first.entries_split first' (more.left_entries left) (more'.left_entries left') same
    obtain ⟨others, rests⟩ := more.entries_split more' left left' later
    exact ⟨.cons firsts others, rests⟩

end

end Grammar

namespace SubAgg

mutual

theorem SameTree.outline_eq : (sub : SubAgg) → {sub' : SubAgg} → SameTree sub sub' →
    ∀ depth, outline depth sub = outline depth sub'
  | .bare _ _, _, .bare, _ => rfl
  | .bracketed _ _ _ body, _, .bracketed bodies, depth => by
    rw [outline, outline, SameTree.outlines_eq body bodies]

theorem SameTree.outlines_eq : (subs : List SubAgg) → {subs' : List SubAgg} →
    List.Forall₂ SameTree subs subs' → ∀ depth, outlines depth subs = outlines depth subs'
  | [], _, .nil, _ => rfl
  | sub :: subs, _, .cons first rest, depth => by
    rw [outlines, outlines, SameTree.outline_eq sub first, SameTree.outlines_eq subs rest]

end

end SubAgg

namespace Expression

variable {text text' : String} {e e' : Expression}

theorem isLine_of_mem_places (parsed : parse text = .ok e) {place : Nat × SubAgg}
    (member : place ∈ SubAgg.placesOfAll 0 e.subs) : IsLine (SubAgg.entry place).line := by
  obtain ⟨path, same⟩ := path_of_occurs parsed (SubAgg.occurs_of_mem_placesOfAll e.subs member)
  apply Entry.isLine
  rw [SubAgg.entry, ← same, path.toList_text_namePath]
  exact fun newline => absurd (Grammar.Path.headChar newline).2 (by decide)

theorem cutLines_outline (parsed : parse text = .ok e) : cutLines e.outline.toList =
    (SubAgg.placesOfAll 0 e.subs).map fun place => (SubAgg.entry place).line := by
  rw [outline, String.toList_ofList, SubAgg.outlines_eq]
  exact Text.cutLines_flatten (List.forall_mem_map.mpr fun _ => isLine_of_mem_places parsed)

theorem sameTree_of_outline (parsed : parse text = .ok e) (parsed' : parse text' = .ok e')
    (same : e.outline = e'.outline) : List.Forall₂ SubAgg.SameTree e.subs e'.subs := by
  have cut := cutLines_outline parsed
  rw [same, cutLines_outline parsed'] at cut
  have entries : (SubAgg.placesOfAll 0 e.subs).map SubAgg.entry =
      (SubAgg.placesOfAll 0 e'.subs).map SubAgg.entry := by
    apply Entry.line_injective.list_map
    simpa only [List.map_map, Function.comp_def] using cut.symm
  obtain ⟨d, _, rfl⟩ := Grammar.ofChars_iff_derivation.mp parsed
  obtain ⟨d', _, rfl⟩ := Grammar.ofChars_iff_derivation.mp parsed'
  have alone : Grammar.Left 0 [] := nofun
  exact (d.entries_split d' alone alone (congrArg (· ++ []) entries)).1

end Expression

end AggFlatten
