import AggFlatten.CommandLine.Flatten
import AggFlatten.Proofs.Aggregation.Failures

/-! The command that flattens a document, and the library it stands for. Both decode the same
text and evaluate the same expression in the same tree, but they look for faults in a different
order: the command reads the expression first, the library the document. What is said of them
holds whatever decodes the text. -/
namespace AggFlatten

/-- The tree that a document holds. A raw document is a tree, and a search response has one
where its aggregations are. -/
inductive HoldsTree (document : Json) : (raw : Bool) → (tree : Json) → Prop where
  | raw : HoldsTree document true document
  | response {tree : Json} (has : (SearchResponse.mk document).HasAggregations tree) :
      HoldsTree document false tree

theorem HoldsTree.raw_or_response {document tree : Json} {raw : Bool}
    (holds : HoldsTree document raw tree) : raw = true ∧ tree = document ∨
      raw = false ∧ (SearchResponse.mk document).HasAggregations tree := by
  cases holds with
  | raw => exact .inl ⟨rfl, rfl⟩
  | response has => exact .inr ⟨rfl, has⟩

/-- Only a response can be without a tree. -/
theorem holdsTree_or_lacks (document : Json) (raw : Bool) :
    (∃ tree, HoldsTree document raw tree) ∨
      raw = false ∧ ∀ tree, ¬(SearchResponse.mk document).HasAggregations tree := by
  cases raw with
  | true => exact .inl ⟨document, .raw⟩
  | false =>
    by_cases has : ∃ tree, (SearchResponse.mk document).HasAggregations tree
    · obtain ⟨tree, has⟩ := has
      exact .inl ⟨tree, .response has⟩
    · exact .inr ⟨rfl, not_exists.mp has⟩

namespace FlattenRequest

/-- What the library yields for an input text: a raw one is decoded and flattened as a tree,
any other as a search response. -/
def throughLibrary (request : FlattenRequest) (decode : Json.Decoder) (input : String) :
    Except AggError Json := do
  if request.raw then
    let document ← (decode input).mapError .badJson
    (⟨document⟩ : Aggregations).flatten request.expression request.options
  else
    let response ← SearchResponse.parse input decode
    response.flatten request.expression request.options

/-- An input text with a tree in which the expression yields this value. -/
inductive Yields (request : FlattenRequest) (decode : Json.Decoder) (input : String)
    (value : Json) : Prop where
  | intro {e : Expression} {document tree : Json}
      (sound : Expression.parse request.expression = .ok e)
      (decoded : decode input = .ok document) (holds : HoldsTree document request.raw tree)
      (read : SubAgg.evaluateAll request.options e.subs tree = .ok value) :
      Yields request decode input value

/-- An input text with a tree that lacks something the expression asks for. -/
inductive Misses (request : FlattenRequest) (decode : Json.Decoder) (input : String)
    (tree : Json) : Prop where
  | intro {e : Expression} {document : Json} {cause : LookupError}
      (sound : Expression.parse request.expression = .ok e)
      (decoded : decode input = .ok document) (holds : HoldsTree document request.raw tree)
      (missed : SubAgg.evaluateAll request.options e.subs tree = .error (.lookup cause)) :
      Misses request decode input tree

/-- The faults of the command, each with what has to be in order before it is met. -/
inductive CommandFault (request : FlattenRequest) (decode : Json.Decoder) :
    CommandError → Prop where
  | malformed {cause : SyntaxError} (read : Expression.parse request.expression = .error cause) :
      CommandFault request decode (.agg (.badExpression cause))
  | noInput {e : Expression} (sound : Expression.parse request.expression = .ok e)
      (asked : request.wellFormedOnly = false) (absent : request.input = none) :
      CommandFault request decode .noInput
  | badJson {e : Expression} {input : String} {cause : Json.ParseError}
      (sound : Expression.parse request.expression = .ok e)
      (asked : request.wellFormedOnly = false) (given : request.input = some input)
      (bad : decode input = .error cause) : CommandFault request decode (.badJson cause)
  | noSection {e : Expression} {input : String} {document : Json}
      (sound : Expression.parse request.expression = .ok e)
      (asked : request.wellFormedOnly = false) (given : request.input = some input)
      (decoded : decode input = .ok document) (response : request.raw = false)
      (lacks : ∀ tree, ¬(SearchResponse.mk document).HasAggregations tree) :
      CommandFault request decode (.agg (.noSection "aggregations"))
  | missing {input : String} {tree : Json} (asked : request.wellFormedOnly = false)
      (given : request.input = some input) (misses : request.Misses decode input tree) :
      CommandFault request decode
        (.agg (.missing (String.ofList (Text.trim request.expression.toList)) tree))

/-- The faults of the library: a response without aggregations is met before the expression. -/
inductive LibraryFault (request : FlattenRequest) (decode : Json.Decoder) (input : String) :
    AggError → Prop where
  | badJson {cause : Json.ParseError} (bad : decode input = .error cause) :
      LibraryFault request decode input (.badJson cause)
  | noSection {document : Json} (decoded : decode input = .ok document)
      (response : request.raw = false)
      (lacks : ∀ tree, ¬(SearchResponse.mk document).HasAggregations tree) :
      LibraryFault request decode input (.noSection "aggregations")
  | malformed {document tree : Json} {cause : SyntaxError}
      (decoded : decode input = .ok document) (holds : HoldsTree document request.raw tree)
      (read : Expression.parse request.expression = .error cause) :
      LibraryFault request decode input (.badExpression cause)
  | missing {tree : Json} (misses : request.Misses decode input tree) :
      LibraryFault request decode input
        (.missing (String.ofList (Text.trim request.expression.toList)) tree)

/-- The ends that the command can come to. -/
inductive Ends (request : FlattenRequest) (decode : Json.Decoder) :
    Except CommandError Flattened → Prop where
  | wellFormed {e : Expression} (sound : Expression.parse request.expression = .ok e)
      (only : request.wellFormedOnly = true) : Ends request decode (.ok .wellFormed)
  | result {input : String} {value : Json} (asked : request.wellFormedOnly = false)
      (given : request.input = some input) (yields : request.Yields decode input value) :
      Ends request decode (.ok (.result value))
  | fault {f : CommandError} (met : request.CommandFault decode f) : Ends request decode (.error f)

inductive LibraryEnds (request : FlattenRequest) (decode : Json.Decoder) (input : String) :
    Except AggError Json → Prop where
  | result {value : Json} (yields : request.Yields decode input value) :
      LibraryEnds request decode input (.ok value)
  | fault {f : AggError} (met : request.LibraryFault decode input f) :
      LibraryEnds request decode input (.error f)

section

variable {decode : Json.Decoder} {request : FlattenRequest} {input : String}
  {document tree value : Json}

section Document

theorem tree_of_holds (holds : HoldsTree document request.raw tree) :
    request.tree document = .ok ⟨tree⟩ := by
  rcases holds.raw_or_response with ⟨raw, rfl⟩ | ⟨response, has⟩
  · rw [FlattenRequest.tree, if_pos raw]
  · have found := (@SearchResponse.aggregations_eq_ok_iff _ ⟨tree⟩).mpr has
    rw [FlattenRequest.tree, response, found]
    rfl

theorem tree_of_lacks (response : request.raw = false)
    (lacks : ∀ tree, ¬(SearchResponse.mk document).HasAggregations tree) :
    request.tree document = .error (.agg (.noSection "aggregations")) := by
  rw [FlattenRequest.tree, response, SearchResponse.aggregations_of_lacks lacks]
  rfl

theorem throughLibrary_of_badJson {cause : Json.ParseError}
    (bad : decode input = .error cause) :
    request.throughLibrary decode input = .error (.badJson cause) := by
  rw [throughLibrary, SearchResponse.parse, bad]
  cases request.raw with
  | true | false => rfl

theorem throughLibrary_of_holds (decoded : decode input = .ok document)
    (holds : HoldsTree document request.raw tree) :
    request.throughLibrary decode input =
      (⟨tree⟩ : Aggregations).flatten request.expression request.options := by
  rw [throughLibrary, SearchResponse.parse, decoded]
  rcases holds.raw_or_response with ⟨raw, rfl⟩ | ⟨response, has⟩
  · rw [raw]
    rfl
  · rw [response, ← SearchResponse.flatten_of_hasAggregations has]
    rfl

theorem throughLibrary_of_lacks (decoded : decode input = .ok document)
    (response : request.raw = false)
    (lacks : ∀ tree, ¬(SearchResponse.mk document).HasAggregations tree) :
    request.throughLibrary decode input = .error (.noSection "aggregations") := by
  rw [throughLibrary, SearchResponse.parse, decoded, response]
  exact SearchResponse.flatten_of_no_aggregations lacks

end Document

section Evaluation

variable {e : Expression}

theorem yields_or_misses (sound : Expression.parse request.expression = .ok e)
    (decoded : decode input = .ok document) (holds : HoldsTree document request.raw tree) :
    (∃ value, request.Yields decode input value) ∨ request.Misses decode input tree := by
  cases read : SubAgg.evaluateAll request.options e.subs tree with
  | ok value => exact .inl ⟨value, .intro sound decoded holds read⟩
  | error f =>
    obtain ⟨cause, rfl⟩ := SubAgg.evaluateAll_fails request.options e.subs tree f read
    exact .inr (.intro sound decoded holds read)

theorem evaluate_of_missed {cause : LookupError}
    (sound : Expression.parse request.expression = .ok e)
    (missed : SubAgg.evaluateAll request.options e.subs tree = .error (.lookup cause)) :
    (⟨tree⟩ : Aggregations).evaluate e request.options =
      .error (.missing (String.ofList (Text.trim request.expression.toList)) tree) := by
  rw [Aggregations.evaluate, missed, Expression.source_of_parse sound]
  rfl

end Evaluation

section Command

variable {e : Expression} {f : CommandError}

theorem run_of_malformed {cause : SyntaxError}
    (read : Expression.parse request.expression = .error cause) :
    request.run decode = .error (.agg (.badExpression cause)) := by
  rw [run, Aggregations.parse, read]
  rfl

theorem run_of_wellFormedOnly (sound : Expression.parse request.expression = .ok e)
    (only : request.wellFormedOnly = true) : request.run decode = .ok .wellFormed := by
  rw [run, Aggregations.parse, sound, only]
  rfl

theorem run_of_no_input (sound : Expression.parse request.expression = .ok e)
    (asked : request.wellFormedOnly = false) (absent : request.input = none) :
    request.run decode = .error .noInput := by
  rw [run, Aggregations.parse, sound, asked, absent]
  rfl

theorem run_of_badJson {cause : Json.ParseError}
    (sound : Expression.parse request.expression = .ok e)
    (asked : request.wellFormedOnly = false) (given : request.input = some input)
    (bad : decode input = .error cause) : request.run decode = .error (.badJson cause) := by
  rw [run, Aggregations.parse, sound, asked, given]
  simp only [bad]
  rfl

theorem run_of_document (sound : Expression.parse request.expression = .ok e)
    (asked : request.wellFormedOnly = false) (given : request.input = some input)
    (decoded : decode input = .ok document) :
    request.run decode = do
      let aggs ← request.tree document
      return .result (← (aggs.evaluate e request.options).mapError .agg) := by
  rw [run, Aggregations.parse, sound, asked, given]
  simp only [decoded]
  rfl

theorem run_of_holds (sound : Expression.parse request.expression = .ok e)
    (asked : request.wellFormedOnly = false) (given : request.input = some input)
    (decoded : decode input = .ok document) (holds : HoldsTree document request.raw tree) :
    request.run decode =
      (((⟨tree⟩ : Aggregations).evaluate e request.options).mapError .agg).map .result := by
  rw [run_of_document sound asked given decoded, tree_of_holds holds]
  rfl

theorem CommandFault.run_eq (fault : request.CommandFault decode f) :
    request.run decode = .error f := by
  cases fault with
  | malformed read => exact run_of_malformed read
  | noInput sound asked absent => exact run_of_no_input sound asked absent
  | badJson sound asked given bad => exact run_of_badJson sound asked given bad
  | noSection sound asked given decoded response lacks =>
    rw [run_of_document sound asked given decoded, tree_of_lacks response lacks]
    rfl
  | missing asked given misses =>
    obtain ⟨sound, decoded, holds, missed⟩ := misses
    rw [run_of_holds sound asked given decoded holds, evaluate_of_missed sound missed]
    rfl

theorem Yields.run_eq (yields : request.Yields decode input value)
    (asked : request.wellFormedOnly = false) (given : request.input = some input) :
    request.run decode = .ok (.result value) := by
  obtain ⟨sound, decoded, holds, read⟩ := yields
  rw [run_of_holds sound asked given decoded holds, Aggregations.evaluate_eq_ok_iff.mpr read]
  rfl

theorem Ends.run_eq {outcome : Except CommandError Flattened} (ends : request.Ends decode outcome) :
    request.run decode = outcome := by
  cases ends with
  | wellFormed sound only => exact run_of_wellFormedOnly sound only
  | result asked given yields => exact yields.run_eq asked given
  | fault met => exact met.run_eq

end Command

section Library

variable {f : AggError} {outcome : Except AggError Json}

theorem LibraryFault.throughLibrary_eq (fault : request.LibraryFault decode input f) :
    request.throughLibrary decode input = .error f := by
  cases fault with
  | badJson bad => exact throughLibrary_of_badJson bad
  | noSection decoded response lacks => exact throughLibrary_of_lacks decoded response lacks
  | malformed decoded holds read =>
    rw [throughLibrary_of_holds decoded holds, Aggregations.flatten_of_malformed read]
  | missing misses =>
    obtain ⟨sound, decoded, holds, missed⟩ := misses
    rw [throughLibrary_of_holds decoded holds, Aggregations.flatten_of_parse sound,
      evaluate_of_missed sound missed]

theorem LibraryEnds.throughLibrary_eq (ends : request.LibraryEnds decode input outcome) :
    request.throughLibrary decode input = outcome := by
  cases ends with
  | fault met => exact met.throughLibrary_eq
  | result yields =>
    obtain ⟨sound, decoded, holds, read⟩ := yields
    rw [throughLibrary_of_holds decoded holds, Aggregations.flatten_eq_ok_iff sound, read]

theorem exists_libraryEnd (decode : Json.Decoder) (request : FlattenRequest) (input : String) :
    ∃ outcome, request.LibraryEnds decode input outcome := by
  cases decoded : decode input with
  | error cause => exact ⟨_, .fault (.badJson decoded)⟩
  | ok document =>
    obtain ⟨tree, holds⟩ | ⟨response, lacks⟩ := holdsTree_or_lacks document request.raw
    · cases sound : Expression.parse request.expression with
      | error cause => exact ⟨_, .fault (.malformed decoded holds sound)⟩
      | ok e =>
        obtain ⟨value, yields⟩ | misses := yields_or_misses sound decoded holds
        · exact ⟨_, .result yields⟩
        · exact ⟨_, .fault (.missing misses)⟩
    · exact ⟨_, .fault (.noSection decoded response lacks)⟩

theorem throughLibrary_eq_iff : request.throughLibrary decode input = outcome ↔
    request.LibraryEnds decode input outcome := by
  constructor
  · rintro rfl
    obtain ⟨outcome, ends⟩ := exists_libraryEnd decode request input
    rwa [ends.throughLibrary_eq]
  · exact LibraryEnds.throughLibrary_eq

end Library

/-- Once the expression is read and an input is given, the command goes where the library goes. -/
theorem exists_end (decode : Json.Decoder) (request : FlattenRequest) :
    ∃ outcome, request.Ends decode outcome := by
  cases sound : Expression.parse request.expression with
  | error cause => exact ⟨_, .fault (.malformed sound)⟩
  | ok e =>
    cases asked : request.wellFormedOnly with
    | true => exact ⟨_, .wellFormed sound asked⟩
    | false =>
      cases given : request.input with
      | none => exact ⟨_, .fault (.noInput sound asked given)⟩
      | some input =>
        obtain ⟨_, ⟨yields⟩ | ⟨met⟩⟩ := exists_libraryEnd decode request input
        · exact ⟨_, .result asked given yields⟩
        · cases met with
          | badJson bad => exact ⟨_, .fault (.badJson sound asked given bad)⟩
          | noSection decoded response lacks =>
            exact ⟨_, .fault (.noSection sound asked given decoded response lacks)⟩
          | malformed _ _ read =>
            -- The command would have met this before it asked for the input.
            rw [sound] at read
            cases read
          | missing misses => exact ⟨_, .fault (.missing asked given misses)⟩

theorem run_eq_iff {outcome : Except CommandError Flattened} :
    request.run decode = outcome ↔ request.Ends decode outcome := by
  constructor
  · rintro rfl
    obtain ⟨outcome, ends⟩ := exists_end decode request
    rwa [ends.run_eq]
  · exact Ends.run_eq

end

end FlattenRequest

/-- The command yields what the library yields for the same input, or says that the expression
is well-formed where nothing else is asked. When several things are wrong, the command reports
the expression, the lack of an input, the input, its lack of aggregations, and what the tree
lacks, in this order, where the library reports the expression after the aggregations. This holds
whatever decodes the input, and so for the program itself, which decodes it by `Json.parse`. -/
theorem command_agrees_with_library (decode : Json.Decoder) (request : FlattenRequest) :
    (∀ value, request.run decode = .ok (.result value) ↔ request.wellFormedOnly = false ∧
      ∃ input, request.input = some input ∧ request.throughLibrary decode input = .ok value) ∧
    (request.run decode = .ok .wellFormed ↔ request.wellFormedOnly = true ∧
      ∃ e, Expression.parse request.expression = .ok e) ∧
    (∀ f, request.run decode = .error f ↔ request.CommandFault decode f) ∧
    ∀ input f, request.throughLibrary decode input = .error f ↔
      request.LibraryFault decode input f := by
  simp only [FlattenRequest.run_eq_iff, FlattenRequest.throughLibrary_eq_iff]
  refine ⟨?_, ?_, ?_, ?_⟩
  · intro value
    constructor
    · rintro ⟨⟩
      next input asked given yields => exact ⟨asked, input, given, .result yields⟩
    · rintro ⟨asked, input, given, ⟨yields⟩⟩
      exact .result asked given yields
  · constructor
    · rintro ⟨⟩
      next e sound only => exact ⟨only, e, sound⟩
    · rintro ⟨only, e, sound⟩
      exact .wellFormed sound only
  · intro f
    exact ⟨fun ends => by cases ends; assumption, .fault⟩
  · intro input f
    exact ⟨fun ends => by cases ends; assumption, .fault⟩

/-- A response without aggregations, and an expression that is none. -/
example :
    let request : FlattenRequest := ⟨"a[", some "\x7b\x7d", false, false, {}⟩
    request.run = .error (.agg (.badExpression (.unbalanced 1))) ∧
      request.throughLibrary Json.parse "\x7b\x7d" = .error (.noSection "aggregations") := by
  decide +kernel

end AggFlatten
