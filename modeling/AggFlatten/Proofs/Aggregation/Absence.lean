import AggFlatten.Proofs.Aggregation.Reach
import AggFlatten.Proofs.Expression.Source

/-! What a failed evaluation reports. It is a lookup, and it tells the truth: its node is held
in the tree, and what it names is missing there. A scope that leads nowhere is never
reported. -/
namespace AggFlatten

open Json (Within)
open Outcome (FailsWith)

/-- What is read of the node that a part names, and of every bucket below it. -/
def readFields : List String := ["doc_count", "value", "values", "buckets"]

/-- The path leads nowhere from the node, or to buckets that are no list and no object. -/
inductive LookupError.Missed (cause : LookupError) : Prop where
  | absent {e} (nowhere : cause.node.get cause.path = .error e) : Missed cause
  | unusable {held} (named : cause.path = "buckets") (found : cause.node.get "buckets" = .ok held)
      (scalar : held.isScalar = true) : Missed cause

/-- The node that was searched is held in the tree, what it was searched for is a field that
is always read or the name of a part, in brackets or outside, and it is not there. -/
structure RealAbsence (tree : Json) (subs : List SubAgg) (cause : LookupError) : Prop where
  held : Within cause.node tree
  named : cause.path ∈ readFields ∨ ∃ sub, SubAgg.Occurs sub subs ∧ sub.path.name = cause.path
  missed : cause.Missed

/-- An error that reports a real absence. -/
def TellsAbsence (tree : Json) (subs : List SubAgg) (e : AggError) : Prop :=
  ∃ cause, e = .lookup cause ∧ RealAbsence tree subs cause

namespace Json

variable {P : AggError → Prop} {node : Json} {path : String} {cause : LookupError}

theorem eq_of_get_eq_error (failed : node.get path = .error cause) : cause = ⟨path, node⟩ := by
  rw [get] at failed
  split at failed
  · cases failed
  · exact (Except.error.inj failed).symm

theorem get_failsWith (blame : LookupError.Missed ⟨path, node⟩ → P (.lookup ⟨path, node⟩)) :
    FailsWith P (liftM (node.get path) : Except AggError Json) := by
  intro e failed
  obtain ⟨cause, nowhere, rfl⟩ := lift_eq_error_iff.mp failed
  obtain rfl := eq_of_get_eq_error nowhere
  exact blame (.absent nowhere)

theorem buckets_failsWith
    (blame : LookupError.Missed ⟨"buckets", node⟩ → P (.lookup ⟨"buckets", node⟩)) :
    FailsWith P (liftM node.buckets : Except AggError (List Bucket)) := by
  intro e failed
  obtain ⟨cause, unread, rfl⟩ := lift_eq_error_iff.mp failed
  rcases Outcome.bind_eq_error_iff.mp unread with nowhere | ⟨held, found, unusable⟩
  · obtain rfl := eq_of_get_eq_error nowhere
    exact blame (.absent nowhere)
  · cases held with
    | arr items => cases unusable
    | obj members => cases unusable
    | null | bool _ | num _ | str _ =>
      cases unusable
      exact blame (.unusable rfl found rfl)

end Json

namespace Evaluation

variable {P : AggError → Prop} {options : OutputOptions} {inside : Inside} {node : Json}
  {path : String}

/-- What a reading below a node may be blamed for: a node held there that lacks the name or a
field that is always read. -/
def Blames (P : AggError → Prop) (node : Json) (path : String) : Prop :=
  ∀ cause : LookupError, Within cause.node node → cause.path ∈ path :: readFields →
    cause.Missed → P (.lookup cause)

theorem Blames.name (blame : Blames P node path) :
    FailsWith P (liftM (node.get path) : Except AggError Json) :=
  Json.get_failsWith (blame ⟨path, node⟩ .here List.mem_cons_self)

theorem Blames.field (blame : Blames P node path) {held : Json} (below : Within held node)
    {field : String} (known : field ∈ readFields) :
    FailsWith P (liftM (held.get field) : Except AggError Json) :=
  Json.get_failsWith (blame ⟨field, held⟩ below (List.mem_cons_of_mem _ known))

/-- Where the name leads, there is a node below to go on with. -/
theorem Blames.child (blame : Blames P node path) {α : Type} {later : Json → Except AggError α}
    (each : ∀ child, Within child node → FailsWith P (later child)) :
    FailsWith P ((liftM (node.get path) : Except AggError Json) >>= later) := by
  apply blame.name.bind
  intro child found
  exact each child (Json.within_of_get (lift_eq_ok_iff.mp found))

theorem countObject_failsWith (blame : Blames P node path)
    (within : ∀ held, Within held node → FailsWith P (inside held)) :
    FailsWith P (countObject inside node path) := by
  apply blame.child
  intro child below
  apply (blame.field below (by decide) : FailsWith P (liftM child.docCount)).bind
  intro count _
  apply (within child below).bind
  intro nested _
  exact .ok _

theorem valueObject_failsWith (blame : Blames P node path) :
    FailsWith P (valueObject node path) := by
  apply blame.child
  intro child below
  apply (blame.field below (by decide) : FailsWith P (liftM child.value)).bind
  intro value _
  exact .ok _

theorem multiValueObject_failsWith (blame : Blames P node path) :
    FailsWith P (multiValueObject options node path) := by
  apply blame.child
  intro child below
  apply (blame.field below (by decide) : FailsWith P (liftM child.values)).bind
  intro values _
  exact .ok _

theorem record_failsWith (blame : Blames P node path)
    (within : ∀ held, Within held node → FailsWith P (inside held)) (keyField : String)
    {bucket : Bucket} (below : Within bucket.node node) :
    FailsWith P (record options inside keyField bucket) := by
  apply (blame.field below (by decide) : FailsWith P (liftM bucket.node.docCount)).bind
  intro count _
  apply (within bucket.node below).bind
  intro nested _
  exact .ok _

theorem records_failsWith (blame : Blames P node path)
    (within : ∀ held, Within held node → FailsWith P (inside held)) :
    FailsWith P (records options inside node path) := by
  apply blame.child
  intro child below
  have listed : FailsWith P (liftM child.buckets : Except AggError (List Bucket)) :=
    Json.buckets_failsWith (blame ⟨"buckets", child⟩ below (by simp [readFields]))
  apply listed.bind
  intro buckets found
  have rows : FailsWith P
      (buckets.mapM (record options inside (singularize (Text.lastSegment path)))) := by
    apply FailsWith.mapM
    intro bucket member
    have held := within_of_buckets (lift_eq_ok_iff.mp found) member
    exact record_failsWith blame within _ (held.trans below)
  apply rows.bind
  intro list _
  exact .ok _

theorem ofShape_failsWith (blame : Blames P node path)
    (within : ∀ held, Within held node → FailsWith P (inside held)) (shape : Shape) :
    FailsWith P (ofShape options shape inside node path) := by
  cases shape with
  | count => exact countObject_failsWith blame within
  | value => exact valueObject_failsWith blame
  | buckets => exact records_failsWith blame within
  | multiValue => exact multiValueObject_failsWith blame

end Evaluation

namespace SubAgg

variable {tree : Json} {subs : List SubAgg} {options : OutputOptions}

theorem evaluate_tells_of_inside {sub : SubAgg} {node : Json} (occurs : Occurs sub subs)
    (within : ∀ held, Within held tree → FailsWith (TellsAbsence tree subs) (sub.inside options held))
    (held : Within node tree) : FailsWith (TellsAbsence tree subs) (sub.evaluate options node) := by
  -- A scope is left where it is lost, so the name is searched for in a node of the tree.
  have scope := (sub.path.within_scopeIn node).trans held
  rw [evaluate_eq, Evaluation.ofPart_eq_map]
  apply FailsWith.map
  apply Evaluation.ofShape_failsWith
  · intro cause below named missed
    refine ⟨cause, rfl, below.trans scope, ?_, missed⟩
    rcases List.mem_cons.mp named with name | field
    · exact .inr ⟨sub, occurs, name.symm⟩
    · exact .inl field
  · exact fun inner below => within inner (below.trans scope)

mutual

theorem evaluate_tells : (sub : SubAgg) → Occurs sub subs → ∀ {node}, Within node tree →
    FailsWith (TellsAbsence tree subs) (sub.evaluate options node)
  | bare _ _, occurs, _, held => evaluate_tells_of_inside occurs (fun _ _ => .ok _) held
  | bracketed _ _ _ body, occurs, _, held =>
    evaluate_tells_of_inside occurs
      (fun _ inner => (evaluateEach_tells body (fun _ member => occurs.of_body member) inner).map _)
      held

theorem evaluateEach_tells : (body : List SubAgg) → (∀ sub ∈ body, Occurs sub subs) →
    ∀ {node}, Within node tree →
      FailsWith (TellsAbsence tree subs) (evaluateEach options node body)
  | [], _, _, _ => .ok []
  | sub :: body, occurs, node, held => by
    obtain ⟨occurs, later⟩ := List.forall_mem_cons.mp occurs
    apply (evaluate_tells sub occurs held).bind
    intro first _
    apply (evaluateEach_tells body later held).bind
    intro rest _
    exact .ok _

end

theorem evaluateAll_tells (options : OutputOptions) (subs : List SubAgg) (tree : Json) :
    FailsWith (TellsAbsence tree subs) (evaluateAll options subs tree) :=
  (evaluateEach_tells subs (fun _ => .here) .here).map _

end SubAgg

/-- Whatever part is evaluated, of an expression that was read or any other, a failure is a
lookup that is bound to fail, however deep in the brackets and in the tree it happens. -/
theorem failures_name_real_absences {options : OutputOptions} {node : Json} {sub : SubAgg}
    {e : AggError} (failed : sub.evaluate options node = .error e) :
    ∃ cause, e = .lookup cause ∧ RealAbsence node [sub] cause :=
  SubAgg.evaluate_tells sub (.here List.mem_cons_self) .here e failed

def hourLoads : SubAgg :=
  .bracketed .value ⟨["site"], "days"⟩ "hours[load]"
    [.bracketed .value ⟨[], "hours"⟩ "load" [.bare .value ⟨[], "load"⟩]]

/-- A day of a site with an hour whose load has no value. -/
def siteWithoutLoad : Json :=
  .single "site" (.single "days" (.single "buckets" (.arr [.obj [("doc_count", .nat 1),
    ("hours", .single "buckets" (.single "nine" (.obj [("doc_count", .nat 2),
      ("load", .empty)])))]])))

theorem load_of_an_hour_is_absent :
    SubAgg.parse "site.days[hours[load]]" = .ok hourLoads ∧
      hourLoads.evaluate {} siteWithoutLoad = .error (.lookup ⟨"value", .empty⟩) ∧
      ∃ cause, AggError.lookup ⟨"value", .empty⟩ = .lookup cause ∧
        RealAbsence siteWithoutLoad [hourLoads] cause := by
  have failed : hourLoads.evaluate {} siteWithoutLoad = .error (.lookup ⟨"value", .empty⟩) := by
    decide +kernel
  exact ⟨by decide +kernel, failed, failures_name_real_absences failed⟩

/-- Where there is no site it is the load that is missed. -/
example : SubAgg.evaluate {} .empty (.bare .value ⟨["site"], "load"⟩) =
    .error (.lookup ⟨"load", .empty⟩) := by
  decide +kernel

end AggFlatten
