import AggFlatten.Proofs.Aggregation.Failures
import AggFlatten.Proofs.Expression.Request

/-! What of a tree an expression reads. A part reads its name, and where its scope starts if
it has one; what stands in its brackets reads nothing but the node it is evaluated in. Two
trees that differ elsewhere only cannot be told apart. -/
namespace AggFlatten

/-- The path leads to the same node in both trees, or nowhere in either. -/
def AgreeAt (path : String) (tree tree' : Json) : Prop :=
  (tree.get path).toOption = (tree'.get path).toOption

instance (path : String) (tree tree' : Json) : Decidable (AgreeAt path tree tree') :=
  inferInstanceAs (Decidable (_ = _))

/-- The trees agree on the name of the part, and on where its scope starts if it has one. -/
def SubAgg.AgreeOn (sub : SubAgg) (tree tree' : Json) : Prop :=
  AgreeAt sub.path.name tree tree' ∧ ∀ first ∈ sub.path.scope.head?, AgreeAt first tree tree'

instance (sub : SubAgg) (tree tree' : Json) : Decidable (sub.AgreeOn tree tree') :=
  inferInstanceAs (Decidable (_ ∧ _))

/-- Both outcomes are the same result, or both report the same request, each with its tree. -/
inductive SameOutcome (request : String) (tree tree' : Json)
    (outcome outcome' : Except AggError Json) : Prop where
  | succeed {result} (read : outcome = .ok result) (read' : outcome' = .ok result) :
      SameOutcome request tree tree' outcome outcome'
  | fail (failed : outcome = .error (.missing request tree))
      (failed' : outcome' = .error (.missing request tree')) :
      SameOutcome request tree tree' outcome outcome'

/-- The node that a part names, in the scope that it has in this one. -/
def NamePath.Leads (path : NamePath) (node child : Json) : Prop :=
  (path.scopeIn node).get path.name = .ok child

/-- The part meets the bucket, the fallback of its key included, at this position. -/
def NamePath.BucketAt (path : NamePath) (node : Json) (i : Nat) (bucket : Bucket) : Prop :=
  ∃ child buckets, path.Leads node child ∧ child.buckets = .ok buckets ∧ buckets[i]? = some bucket

/-- Neither the part nor what stands in its brackets has a view of what is around: the part
yields the same wherever its name leads to the same node, and a bucket has the same record
among whatever other buckets it stands. -/
structure SubAgg.Confined (options : OutputOptions) (sub : SubAgg) : Prop where
  child_only : ∀ {node node' : Json},
    (∀ child, sub.path.Leads node child ↔ sub.path.Leads node' child) →
      ∀ result, sub.evaluate options node = .ok result ↔ sub.evaluate options node' = .ok result
  bucket_only : ∀ {node node' : Json} {rows rows' : List Json}, sub.shape = .buckets →
    sub.evaluate options node = .ok (.single (pluralize sub.path.name) (.arr rows)) →
    sub.evaluate options node' = .ok (.single (pluralize sub.path.name) (.arr rows')) →
      ∀ {i i' : Nat} {bucket : Bucket}, sub.path.BucketAt node i bucket →
        sub.path.BucketAt node' i' bucket →
          ∃ row, rows[i]? = some row ∧ rows'[i']? = some row

section Reach

variable {tree tree' : Json}

theorem toOption_get (tree : Json) (path : String) :
    (tree.get path).toOption = tree.follow? (Text.segments path) := by
  rw [Json.get]
  cases tree.follow? (Text.segments path) <;> rfl

theorem AgreeAt.get_eq_ok_iff {path : String} (agree : AgreeAt path tree tree') {found : Json} :
    tree.get path = .ok found ↔ tree'.get path = .ok found := by
  rw [AgreeAt, toOption_get, toOption_get] at agree
  rw [Json.get_eq_ok_iff, Json.get_eq_ok_iff, agree]

/-- From the same start every path leads to the same place. -/
theorem AgreeAt.follow?_cons {first : String} (plain : Text.segments first = [first])
    (agree : AgreeAt first tree tree') (rest : List String) :
    tree.follow? (first :: rest) = tree'.follow? (first :: rest) := by
  rw [AgreeAt, toOption_get, toOption_get, plain] at agree
  rw [← List.singleton_append, Json.follow?_append, Json.follow?_append, agree]

/-- A scope that leads nowhere does so in both trees, and the name is looked up in either. -/
theorem SubAgg.AgreeOn.leads_iff {sub : SubAgg} (agree : sub.AgreeOn tree tree')
    (plain : ∀ first ∈ sub.path.scope, Text.segments first = [first]) {child : Json} :
    sub.path.Leads tree child ↔ sub.path.Leads tree' child := by
  obtain ⟨named, started⟩ := agree
  rw [NamePath.Leads, NamePath.Leads, NamePath.scopeIn, NamePath.scopeIn]
  cases scope : sub.path.scope with
  | nil => exact named.get_eq_ok_iff
  | cons first rest =>
    rw [scope] at plain started
    rw [(started first rfl).follow?_cons (plain first List.mem_cons_self) rest]
    cases tree'.follow? (first :: rest) with
    | some node => rfl
    | none => exact named.get_eq_ok_iff

end Reach

namespace SubAgg

variable {options : OutputOptions} {node node' result : Json}

/-- A part sees no more of a node than what its name leads to. -/
theorem evaluate_congr {sub : SubAgg}
    (same : ∀ child, sub.path.Leads node child ↔ sub.path.Leads node' child) :
    sub.evaluate options node = .ok result ↔ sub.evaluate options node' = .ok result := by
  simp only [evaluate_eq_ok_iff, Evaluation.ofShape_congr same rfl]

/-- The record at the position of a bucket is made of that bucket. -/
theorem record_of_bucketAt {sub : SubAgg} {rows : List Json} {i : Nat} {bucket : Bucket}
    (shape : sub.shape = .buckets)
    (read : sub.evaluate options node = .ok (.single (pluralize sub.path.name) (.arr rows)))
    (placed : sub.path.BucketAt node i bucket) :
    ∃ row, rows[i]? = some row ∧ Evaluation.record options (sub.inside options)
      (singularize (Text.lastSegment sub.path.name)) bucket = .ok row := by
  obtain ⟨child, buckets, leads, listed, position⟩ := placed
  obtain ⟨found, inner, shown⟩ := evaluate_eq_ok_iff.mp read
  rw [shape] at inner shown
  simp only [Shape.present, Json.single, Json.obj.injEq, List.cons.injEq, Prod.mk.injEq, true_and,
    and_true] at shown
  obtain ⟨child', buckets', rows', leads', listed', filled, rfl⟩ :=
    Evaluation.records_eq_ok_iff.mp inner
  obtain rfl := Json.arr.inj shown
  obtain rfl := Except.ok.inj (leads.symm.trans leads')
  obtain rfl := Except.ok.inj (listed.symm.trans listed')
  exact Outcome.getElem?_of_forall₂ filled position

theorem confined (options : OutputOptions) (sub : SubAgg) : sub.Confined options where
  child_only same _ := evaluate_congr same
  bucket_only := by
    intro node node' rows rows' shape read read' i i' bucket placed placed'
    obtain ⟨row, at_i, recorded⟩ := record_of_bucketAt shape read placed
    obtain ⟨row', at_i', recorded'⟩ := record_of_bucketAt shape read' placed'
    obtain rfl := Except.ok.inj (recorded.symm.trans recorded')
    exact ⟨row, at_i, at_i'⟩

theorem evaluateEach_congr {subs : List SubAgg} {results : List Json}
    (same : ∀ sub ∈ subs, ∀ {result},
      sub.evaluate options node = .ok result ↔ sub.evaluate options node' = .ok result) :
    evaluateEach options node subs = .ok results ↔ evaluateEach options node' subs = .ok results := by
  induction subs generalizing results with
  | nil => rfl
  | cons sub subs ih =>
    obtain ⟨first, rest⟩ := List.forall_mem_cons.mp same
    simp only [evaluateEach, Outcome.bind_eq_ok_iff, first, ih rest]

theorem evaluateAll_congr {subs : List SubAgg}
    (same : ∀ sub ∈ subs, ∀ {result},
      sub.evaluate options node = .ok result ↔ sub.evaluate options node' = .ok result) :
    evaluateAll options subs node = .ok result ↔ evaluateAll options subs node' = .ok result := by
  simp only [evaluateAll, Outcome.map_eq_ok_iff, evaluateEach_congr same]

end SubAgg

theorem sameOutcome_guarded {tree tree' : Json} {request : String}
    {found found' : Except AggError Json} (fails : FailsByLookup found)
    (fails' : FailsByLookup found')
    (same : ∀ result, found = .ok result ↔ found' = .ok result) :
    SameOutcome request tree tree' ((⟨tree⟩ : Aggregations).guarded request found)
      ((⟨tree'⟩ : Aggregations).guarded request found') := by
  cases read : found with
  | ok result =>
    have read' := (same result).mp read
    exact .succeed rfl (Aggregations.guarded_eq_ok_iff.mpr read')
  | error e =>
    rw [← read]
    have failed : ∀ result, found ≠ .ok result := by simp [read]
    have failed' : ∀ result, found' ≠ .ok result := fun result => failed result ∘ (same result).mpr
    exact .fail (Aggregations.guarded_of_failed fails failed)
      (Aggregations.guarded_of_failed fails' failed')

theorem sameOutcome_flatten {text : String} {e : Expression} {tree tree' : Json}
    (parsed : Expression.parse text = .ok e) (options : OutputOptions)
    (agree : ∀ sub ∈ e.subs, sub.AgreeOn tree tree') :
    SameOutcome e.source tree tree' ((⟨tree⟩ : Aggregations).flatten text options)
      ((⟨tree'⟩ : Aggregations).flatten text options) := by
  rw [Aggregations.flatten_of_parse parsed, Aggregations.flatten_of_parse parsed]
  refine sameOutcome_guarded (SubAgg.evaluateAll_fails options e.subs tree)
    (SubAgg.evaluateAll_fails options e.subs tree') ?_
  intro result
  apply SubAgg.evaluateAll_congr
  intro sub member result
  obtain ⟨path, named⟩ := Expression.path_of_occurs parsed (.here member)
  have plain : ∀ first ∈ sub.path.scope, Text.segments first = [first] := by
    rw [← named]
    exact fun _ => path.segments_of_mem_scope
  exact SubAgg.evaluate_congr fun _ => (agree sub member).leads_iff plain

/-- Two trees that agree on the names of the outermost parts, and on where their scopes start,
have the same outcome. Nothing else is read: in brackets, a name is looked up in the node or
the bucket it stands for alone, whatever is around. -/
theorem unrelated_parts_never_matter {text : String} {e : Expression}
    (parsed : Expression.parse text = .ok e) (options : OutputOptions) :
    (∀ tree tree' : Json, (∀ sub ∈ e.subs, sub.AgreeOn tree tree') →
      SameOutcome e.source tree tree' ((⟨tree⟩ : Aggregations).flatten text options)
        ((⟨tree'⟩ : Aggregations).flatten text options)) ∧
    ∀ sub : SubAgg, sub.Confined options :=
  ⟨fun _ _ => sameOutcome_flatten parsed options, SubAgg.confined options⟩

/-- A day of a site, and its load. -/
def siteDay (count load : Nat) : Json :=
  .obj [("doc_count", .nat count), ("load", .single "value" (.nat load))]

/-- Two days of a site, next to a load that is none of theirs. -/
def siteBeside (load first : Nat) : Json :=
  .obj [("site", .single "days" (.single "buckets" (.arr [siteDay 1 first, siteDay 2 7]))),
    ("load", .single "value" (.nat load))]

def siteDays : SubAgg :=
  .bracketed .value ⟨["site"], "days"⟩ "load" [.bare .value ⟨[], "load"⟩]

def siteRecords (first : Nat) : List Json :=
  [.obj [("day", .nat 0), ("count", .nat 1), ("load", .nat first)],
    .obj [("day", .nat 1), ("count", .nat 2), ("load", .nat 7)]]

theorem site_days_are_read_alone :
    Expression.parse "site.days[load]" = .ok ⟨"site.days[load]", [siteDays]⟩ ∧
      (∀ sub ∈ [siteDays], sub.AgreeOn (siteBeside 3 5) (siteBeside 4 5)) ∧
      SameOutcome "site.days[load]" (siteBeside 3 5) (siteBeside 4 5)
        ((⟨siteBeside 3 5⟩ : Aggregations).flatten "site.days[load]" {})
        ((⟨siteBeside 4 5⟩ : Aggregations).flatten "site.days[load]" {}) ∧
      (∀ result, siteDays.evaluate {} (siteBeside 3 5) = .ok result ↔
        siteDays.evaluate {} (siteBeside 4 5) = .ok result) ∧
      ∃ row, (siteRecords 5)[1]? = some row ∧ (siteRecords 6)[1]? = some row := by
  have parsed : Expression.parse "site.days[load]" = .ok ⟨"site.days[load]", [siteDays]⟩ := by
    decide +kernel
  have agree : ∀ sub ∈ [siteDays], sub.AgreeOn (siteBeside 3 5) (siteBeside 4 5) := by
    decide +kernel
  have child : (siteDays.path.scopeIn (siteBeside 3 5)).get siteDays.path.name =
      (siteDays.path.scopeIn (siteBeside 4 5)).get siteDays.path.name := by
    decide +kernel
  have placed : ∀ load first,
      siteDays.path.BucketAt (siteBeside load first) 1 ⟨.nat 1, siteDay 2 7⟩ :=
    fun load first => ⟨_, _, rfl, rfl, rfl⟩
  obtain ⟨same, confined⟩ := unrelated_parts_never_matter parsed {}
  refine ⟨parsed, agree, same _ _ agree, ?_, ?_⟩
  · exact (confined siteDays).child_only fun _ => by rw [NamePath.Leads, child, NamePath.Leads]
  · exact (confined siteDays).bucket_only rfl (by decide +kernel) (by decide +kernel)
      (placed 3 5) (placed 4 6)

end AggFlatten
