import AggFlatten.Proofs.Aggregation.Agreement
import AggFlatten.Proofs.Aggregation.Nesting
import AggFlatten.Proofs.Expression.Context

/-! What the kind of a part decides: its shape and nothing else, and in brackets no more than
whether the part is counted or becomes a list of records. -/
namespace AggFlatten

/-- Parts of the same structure whose kinds come to the same: without brackets the shapes are
equal, and with brackets both parts are counted or neither is. -/
inductive SubAgg.Alike : SubAgg → SubAgg → Prop where
  | bare {kind kind' : AggType} {path : NamePath} (shapes : kind.shape = kind'.shape) :
      Alike (.bare kind path) (.bare kind' path)
  | bracketed {kind kind' : AggType} {path : NamePath} {source source' : String}
      {body body' : List SubAgg} (counted_iff : kind.shape = .count ↔ kind'.shape = .count)
      (bodies : List.Forall₂ Alike body body') :
      Alike (.bracketed kind path source body) (.bracketed kind' path source' body')

theorem Shape.inBrackets_congr {shape shape' : Shape}
    (counted_iff : shape = .count ↔ shape' = .count) : shape.inBrackets = shape'.inBrackets := by
  cases shape <;> cases shape' <;> simp_all [inBrackets]

namespace SubAgg

mutual

theorem Alike.refl : (sub : SubAgg) → Alike sub sub
  | .bare _ _ => .bare rfl
  | .bracketed _ _ _ body => .bracketed Iff.rfl (Alike.refl_each body)

theorem Alike.refl_each : (subs : List SubAgg) → List.Forall₂ Alike subs subs
  | [] => .nil
  | sub :: subs => .cons (Alike.refl sub) (Alike.refl_each subs)

end

mutual

/-- Parts that are alike have the same outcome, failures included. -/
theorem Alike.evaluate_eq : (sub : SubAgg) → {sub' : SubAgg} → Alike sub sub' →
    ∀ options node, sub.evaluate options node = sub'.evaluate options node
  | .bare _ path, _, .bare shapes, options, node => by
    rw [evaluate, evaluate, shapes]
  | .bracketed _ path _ body, _, .bracketed counted_iff bodies, options, node => by
    rw [evaluate, evaluate, Shape.inBrackets_congr counted_iff]
    congr 1
    funext inner
    rw [Alike.evaluateEach_eq body bodies]

theorem Alike.evaluateEach_eq : (subs : List SubAgg) → {subs' : List SubAgg} →
    List.Forall₂ Alike subs subs' →
    ∀ options node, evaluateEach options node subs = evaluateEach options node subs'
  | [], _, .nil, _, _ => rfl
  | sub :: subs, _, .cons first rest, options, node => by
    rw [evaluateEach, evaluateEach, Alike.evaluate_eq sub first, Alike.evaluateEach_eq subs rest]

end

theorem evaluateAll_eq_of_alike {subs subs' : List SubAgg} (alike : List.Forall₂ Alike subs subs')
    (options : OutputOptions) : evaluateAll options subs = evaluateAll options subs' := by
  funext node
  rw [evaluateAll, evaluateAll, Alike.evaluateEach_eq subs alike]

end SubAgg

namespace Grammar

open SubAgg (Alike)

/-- A part may take the place of one that is alike, whatever is around it. -/
theorem RestContext.alike_fill {part part' : Part} (alike : Alike part.sub part'.sub)
    (context : RestContext) :
    List.Forall₂ Alike (context.fill part).subs (context.fill part').subs := by
  induction context with
  | here gap wide rest => exact .cons alike (Alike.refl_each rest.subs)
  | later gap wide other further ih => exact .cons (.refl other.sub) ih

theorem Context.alike_fill {part part' : Part} (alike : Alike part.sub part'.sub)
    (context : Context) :
    List.Forall₂ Alike (context.fill part).subs (context.fill part').subs := by
  induction context generalizing part part' with
  | first before rest => exact .cons alike (Alike.refl_each rest.subs)
  | later before other further => exact .cons (.refl other.sub) (further.alike_fill alike)
  | inside outer head inner outer_ih inner_ih => exact outer_ih (.bracketed Iff.rfl (inner_ih alike))

end Grammar

section

variable {tree : Json} {options : OutputOptions} {e e' : Expression}

theorem together_of_alike (alike : List.Forall₂ SubAgg.Alike e.subs e'.subs) :
    Together tree id e.source e'.source ((⟨tree⟩ : Aggregations).evaluate e options)
      ((⟨tree⟩ : Aggregations).evaluate e' options) := by
  refine @Aggregations.together_guarded ⟨tree⟩ _ _ _ _ _
    (SubAgg.evaluateAll_fails options e.subs tree)
    (SubAgg.evaluateAll_fails options e'.subs tree) ?_
  intro result
  simp only [SubAgg.evaluateAll_eq_of_alike alike, id, exists_eq_right]

theorem together_of_alike_texts {text text' : String} (parsed : Expression.parse text = .ok e)
    (parsed' : Expression.parse text' = .ok e')
    (alike : List.Forall₂ SubAgg.Alike e.subs e'.subs) :
    Together tree id e.source e'.source ((⟨tree⟩ : Aggregations).flatten text options)
      ((⟨tree⟩ : Aggregations).flatten text' options) := by
  rw [Aggregations.flatten_of_parse parsed, Aggregations.flatten_of_parse parsed']
  exact together_of_alike alike

end

/-- Expressions whose parts are alike yield the same or fail together, and in the end a keyword
may be left out or exchanged in front of any brackets, at any place of a text, as long as it
does not ask for a count. -/
theorem kinds_matter_by_their_shape (tree : Json) (options : OutputOptions) :
    (∀ e e' : Expression, List.Forall₂ SubAgg.Alike e.subs e'.subs →
      Together tree id e.source e'.source ((⟨tree⟩ : Aggregations).evaluate e options)
        ((⟨tree⟩ : Aggregations).evaluate e' options)) ∧
    (∀ (text text' : String) (e e' : Expression), Expression.parse text = .ok e →
      Expression.parse text' = .ok e' → List.Forall₂ SubAgg.Alike e.subs e'.subs →
        Together tree id e.source e'.source ((⟨tree⟩ : Aggregations).flatten text options)
          ((⟨tree⟩ : Aggregations).flatten text' options)) ∧
    ∀ (context : Grammar.Context) (path : Grammar.Path) (body : Grammar.Derivation)
      (keyword keyword' : Option AggType), (keyword.getD .value).shape ≠ .count →
      (keyword'.getD .value).shape ≠ .count →
        Together tree id
          (context.fill (.bracketed ⟨keyword, path⟩ body)).expression.source
          (context.fill (.bracketed ⟨keyword', path⟩ body)).expression.source
          ((⟨tree⟩ : Aggregations).flatten
            (context.around (.bracketed ⟨keyword, path⟩ body)) options)
          ((⟨tree⟩ : Aggregations).flatten
            (context.around (.bracketed ⟨keyword', path⟩ body)) options) := by
  refine ⟨fun _ _ => together_of_alike, fun _ _ _ _ => together_of_alike_texts, ?_⟩
  intro context path body keyword keyword' listed listed'
  have alike : SubAgg.Alike (Grammar.Part.bracketed ⟨keyword, path⟩ body).sub
      (Grammar.Part.bracketed ⟨keyword', path⟩ body).sub :=
    .bracketed (iff_of_false listed listed') (SubAgg.Alike.refl_each body.subs)
  exact together_of_alike_texts (context.parse_around _) (context.parse_around _)
    (context.alike_fill alike)

def plainName (name : String) (nonempty : name.toList ≠ [])
    (plain : ∀ c ∈ name.toList, Grammar.NameChar c) : Grammar.Path :=
  ⟨[], name.toList, nonempty, plain⟩

def hoursName : Grammar.Path :=
  ⟨[], dayHours.name⟩

def loadPart : Grammar.Part :=
  .bare ⟨none, plainName "load" (by decide) (Grammar.nameChar_of_all (by decide))⟩

/-- The brackets of the days, with the part in them left open. -/
def inDays : Grammar.Context :=
  .inside (.first .empty (.done .empty))
    ⟨none, plainName "days" (by decide) (Grammar.nameChar_of_all (by decide))⟩
    (.first .empty (.done .empty))

theorem hours_are_listed_by_any_keyword :
    Expression.parse "days[hours[load]]" = .ok ⟨"days[hours[load]]", [.bracketed .value ⟨[], "days"⟩
        "hours[load]" [.bracketed .value ⟨[], "hours"⟩ "load" [.bare .value ⟨[], "load"⟩]]]⟩ ∧
      Expression.parse "percentiles:days[terms:hours[avg:load]]" =
        .ok ⟨"percentiles:days[terms:hours[avg:load]]", [.bracketed .percentiles ⟨[], "days"⟩
          "terms:hours[avg:load]" [.bracketed .terms ⟨[], "hours"⟩ "avg:load"
            [.bare .avg ⟨[], "load"⟩]]]⟩ ∧
      Together oneDay id "days[hours[load]]" "percentiles:days[terms:hours[avg:load]]"
        ((⟨oneDay⟩ : Aggregations).flatten "days[hours[load]]" {})
        ((⟨oneDay⟩ : Aggregations).flatten "percentiles:days[terms:hours[avg:load]]" {}) ∧
      inDays.around (.bracketed ⟨none, hoursName⟩ loadPart.alone) = "days[hours[load]]" ∧
      inDays.around (.bracketed ⟨some .terms, hoursName⟩ loadPart.alone) =
        "days[terms:hours[load]]" ∧
      Together oneDay id "days[hours[load]]" "days[terms:hours[load]]"
        ((⟨oneDay⟩ : Aggregations).flatten
          (inDays.around (.bracketed ⟨none, hoursName⟩ loadPart.alone)) {})
        ((⟨oneDay⟩ : Aggregations).flatten
          (inDays.around (.bracketed ⟨some .terms, hoursName⟩ loadPart.alone)) {}) := by
  have parsed : Expression.parse "days[hours[load]]" =
      .ok ⟨"days[hours[load]]", [.bracketed .value ⟨[], "days"⟩ "hours[load]"
        [.bracketed .value ⟨[], "hours"⟩ "load" [.bare .value ⟨[], "load"⟩]]]⟩ := by
    decide +kernel
  have parsed' : Expression.parse "percentiles:days[terms:hours[avg:load]]" =
      .ok ⟨"percentiles:days[terms:hours[avg:load]]", [.bracketed .percentiles ⟨[], "days"⟩
        "terms:hours[avg:load]" [.bracketed .terms ⟨[], "hours"⟩ "avg:load"
          [.bare .avg ⟨[], "load"⟩]]]⟩ := by
    decide +kernel
  obtain ⟨_, texts, contexts⟩ := kinds_matter_by_their_shape oneDay {}
  refine ⟨parsed, parsed', texts _ _ _ _ parsed parsed' ?_, by decide +kernel, by decide +kernel, ?_⟩
  · exact .cons (.bracketed (by decide) (.cons (.bracketed (by decide) (.cons (.bare rfl) .nil))
      .nil)) .nil
  · exact contexts inDays hoursName loadPart.alone none (some .terms) (by decide) (by decide)

end AggFlatten
