import AggFlatten.Proofs.Aggregation.Kinds
import AggFlatten.Proofs.Expression.Outline

/-! What an outline tells of evaluation. The texts recorded in a tree play no part in it, so that
expressions with the same outline ask for the same. -/
namespace AggFlatten

open Text (IsLine cutLines)

namespace SubAgg

mutual

/-- The texts that were recorded play no part in an evaluation. -/
theorem SameTree.alike : (sub : SubAgg) → {sub' : SubAgg} → SameTree sub sub' → Alike sub sub'
  | .bare _ _, _, .bare => .bare rfl
  | .bracketed _ _ _ body, _, .bracketed bodies => .bracketed Iff.rfl (SameTree.alike_each body bodies)

theorem SameTree.alike_each : (subs : List SubAgg) → {subs' : List SubAgg} →
    List.Forall₂ SameTree subs subs' → List.Forall₂ Alike subs subs'
  | [], _, .nil => .nil
  | sub :: subs, _, .cons first rest => .cons (SameTree.alike sub first) (SameTree.alike_each subs rest)

end

end SubAgg

/-- Of two texts that can be read the outlines are the same exactly if the trees are, but for the
texts recorded in them, and then the texts ask for the same: they yield the same or fail together
in every tree. An outline consists of one line for every part, before those of the parts in its
brackets, with two spaces in front for each pair of brackets around it. -/
theorem outlines_tell_trees_apart {text text' : String} {e e' : Expression}
    (parsed : Expression.parse text = .ok e) (parsed' : Expression.parse text' = .ok e') :
    (e.outline = e'.outline ↔ List.Forall₂ SubAgg.SameTree e.subs e'.subs) ∧
    (cutLines e.outline.toList =
        (SubAgg.placesOfAll 0 e.subs).map (fun place => (SubAgg.entry place).line) ∧
      ∀ line ∈ cutLines e.outline.toList, IsLine line) ∧
    (e.outline = e'.outline → ∀ tree options, Together tree id e.source e'.source
      ((⟨tree⟩ : Aggregations).flatten text options)
      ((⟨tree⟩ : Aggregations).flatten text' options)) := by
  have cut := Expression.cutLines_outline parsed
  have sameTree := Expression.sameTree_of_outline parsed parsed'
  refine ⟨⟨sameTree, ?_⟩, ⟨cut, ?_⟩, ?_⟩
  · intro same
    rw [Expression.outline, Expression.outline, SubAgg.SameTree.outlines_eq e.subs same]
  · rw [cut]
    exact List.forall_mem_map.mpr fun _ => Expression.isLine_of_mem_places parsed
  · intro same tree options
    exact together_of_alike_texts parsed parsed' (SubAgg.SameTree.alike_each e.subs (sameTree same))

/-- The days with two parts in their brackets, written in two ways. -/
theorem days_are_outlined_alike :
    let load : SubAgg := .bare .avg ⟨["cpu"], "load"⟩
    let hosts : SubAgg := .bracketed .terms ⟨[], "hosts"⟩ "name" [.bare .value ⟨[], "name"⟩]
    let days : SubAgg :=
      .bracketed .value ⟨[], "days"⟩ "avg:cpu.load terms:hosts[name]" [load, hosts]
    let hosts' : SubAgg :=
      .bracketed .terms ⟨[], "hosts"⟩ "value:name" [.bare .value ⟨[], "name"⟩]
    let days' : SubAgg :=
      .bracketed .value ⟨[], "days"⟩ "avg:cpu.load\tterms:hosts[value:name]" [load, hosts']
    let e : Expression := ⟨"days[avg:cpu.load terms:hosts[name]]", [days]⟩
    let e' : Expression := ⟨"value:days[ avg:cpu.load\tterms:hosts[value:name]]", [days']⟩
    (Expression.parse "days[avg:cpu.load terms:hosts[name]]" = .ok e ∧
      Expression.parse " value:days[ avg:cpu.load\tterms:hosts[value:name]]" = .ok e') ∧
    e.outline = "value days\n  avg cpu.load\n  terms hosts\n    value name\n" ∧
    e.outline = e'.outline ∧ List.Forall₂ SubAgg.SameTree e.subs e'.subs ∧
    Together oneDay id e.source e'.source
      ((⟨oneDay⟩ : Aggregations).flatten "days[avg:cpu.load terms:hosts[name]]" {})
      ((⟨oneDay⟩ : Aggregations).flatten
        " value:days[ avg:cpu.load\tterms:hosts[value:name]]" {}) := by
  intro load hosts days hosts' days' e e'
  have parsed : Expression.parse "days[avg:cpu.load terms:hosts[name]]" = .ok e := by
    decide +kernel
  have parsed' : Expression.parse " value:days[ avg:cpu.load\tterms:hosts[value:name]]" =
      .ok e' := by
    decide +kernel
  have alike : e.outline = e'.outline := by decide +kernel
  obtain ⟨trees, -, asked⟩ := outlines_tell_trees_apart parsed parsed'
  exact ⟨⟨parsed, parsed'⟩, by decide +kernel, alike, trees.mp alike, asked alike oneDay {}⟩

end AggFlatten
