import AggFlatten.Json.Parser
import AggFlatten.Proofs.Json.Distinct
import AggFlatten.Proofs.Outcome

/-! Reading a document. A key that is repeated gets another value in its place, so that no
object that has been read has a key twice. -/
namespace AggFlatten.Json

open AggFlatten.Json.Parser

/-- Whatever is read is so. -/
def Reads {α : Type} {text : List Char} (P : α → Prop) (result : Result α text) : Prop :=
  ∀ reading, result = .ok reading → P reading.value

theorem distinct_empty : Distinct (.obj []) :=
  distinct_obj_iff.mpr ⟨List.nodup_nil, List.forall_mem_nil _⟩

namespace Reads

variable {α β γ : Type} {text : List Char} {P : α → Prop} {Q : β → Prop}

theorem ok {reading : Reading α text} (holds : P reading.value) : Reads P (.ok reading) := by
  rintro _ ⟨⟩
  exact holds

theorem error {failure : Failure} : Reads P (.error failure : Result α text) := nofun

theorem bind {first : Result γ text} {more : List Char} {next : Reading γ text → Result β more}
    (further : ∀ reading, first = .ok reading → Reads Q (next reading)) :
    Reads Q (first >>= next) := by
  intro reading read
  obtain ⟨start, done, later⟩ := Outcome.bind_eq_ok_iff.mp read
  exact further start done reading later

theorem widen {result : Result α text} (reads : Reads P result) {more : List Char}
    (longer : text.length ≤ more.length) : Reads P (result.map (·.widen longer)) := by
  intro reading read
  obtain ⟨start, done, rfl⟩ := Outcome.map_eq_ok_iff.mp read
  exact reads start done

theorem map {result : Result α text} {f : α → β} (each : ∀ a, Q (f a)) :
    Reads Q (result.map (·.map f)) := by
  intro reading read
  obtain ⟨start, done, rfl⟩ := Outcome.map_eq_ok_iff.mp read
  exact each start.value

end Reads

variable {value : (text : List Char) → Result Json text}

theorem reads_items (each : ∀ text, Reads Distinct (value text)) (text : List Char) :
    Reads (fun items => ∀ item ∈ items, item.Distinct) (items value text) := by
  -- On what is left to read: whatever follows an item starts behind it.
  induction size : text.length using Nat.strongRecOn generalizing text with
  | ind n ih =>
    rw [items]
    apply Reads.bind
    intro item read
    have first := each text item read
    split
    · exact .error
    · exact .ok (by simpa using first)
    · next rest h _ =>
      split
      · exact .error
      · apply Reads.bind
        intro more read
        have shorter : rest.length < n := by
          have := item.shorter
          omega
        refine .ok ?_
        exact List.forall_mem_cons.mpr ⟨first, ih _ shorter rest rfl more read⟩
    · exact .error

theorem reads_members (each : ∀ text, Reads Distinct (value text)) (text : List Char)
    {seen : Members} (distinct : Distinct (.obj seen)) :
    Reads (fun members => Distinct (.obj members)) (members value seen text) := by
  -- As for items, with the members read so far in hand: a further one is put among them.
  induction size : text.length using Nat.strongRecOn generalizing text seen with
  | ind n ih =>
    rw [members]
    split
    · exact .error
    · next rest h _ =>
      apply Reads.bind
      intro key read
      split
      · exact .error
      · next rest' h' _ =>
        apply Reads.bind
        intro member read
        have further : Distinct (.obj (put (String.ofList key.value) member.value seen)) :=
          distinct_put distinct (each _ member read)
        dsimp only
        split
        · exact .error
        · exact .ok further
        · next rest'' h'' _ =>
          apply Reads.bind
          intro more read
          have shorter : rest''.length < n := by
            have := key.shorter
            have := member.shorter
            omega
          exact .ok (ih _ shorter rest'' further rfl more read)
        · exact .error
      · exact .error
    · exact .error
    · exact .error

theorem reads_list (each : ∀ text, Reads Distinct (value text)) (text : List Char) :
    Reads Distinct (list value text) := by
  rw [list]
  split
  · exact .error
  · exact .ok (distinct_arr_iff.mpr (List.forall_mem_nil _))
  · apply Reads.bind
    intro items read
    exact .ok (distinct_arr_iff.mpr (reads_items each text items read))

theorem reads_object (each : ∀ text, Reads Distinct (value text)) (text : List Char) :
    Reads Distinct (object value text) := by
  rw [object]
  split
  · exact .error
  · exact .ok distinct_empty
  · apply Reads.bind
    intro members read
    exact .ok (reads_members each text distinct_empty members read)

theorem reads_word {word : Json} (distinct : word.Distinct) (letters text : List Char) :
    Reads Distinct (Parser.word word letters text) := by
  induction letters generalizing text with
  | nil => exact .ok distinct
  | cons letter letters ih =>
    cases text with
    | nil => exact .error
    | cons c rest =>
      rw [Parser.word]
      split
      · apply Reads.bind
        intro reading read
        exact .ok (ih rest reading read)
      · exact .error

theorem reads_value (depth : Nat) (text : List Char) :
    Reads Distinct (Parser.value depth text) := by
  induction depth using Nat.strongRecOn generalizing text with
  | ind depth ih =>
    rw [Parser.value]
    split
    · exact .error
    · dsimp only
      split
      · exact (reads_word (distinct_of_isScalar rfl) _ _).widen _
      · exact (reads_word (distinct_of_isScalar rfl) _ _).widen _
      · exact (reads_word (distinct_of_isScalar rfl) _ _).widen _
      · exact (Reads.map fun _ => distinct_of_isScalar rfl).widen _
      · exact (reads_list (ih _ (Nat.lt_succ_self _)) _).widen _
      · exact (reads_object (ih _ (Nat.lt_succ_self _)) _).widen _
      · exact .error
      · exact .error
      · split
        · exact (Reads.map fun _ => distinct_of_isScalar rfl).widen _
        · exact .error

/-- No document that has been read has a key twice. -/
theorem distinct_of_parse {text : String} {doc : Json} (read : parse text = .ok doc) :
    doc.Distinct := by
  obtain ⟨root, done, later⟩ := Outcome.bind_eq_ok_iff.mp (Outcome.mapError_eq_ok_iff.mp read)
  split at later
  · obtain rfl := Outcome.pure_eq_ok_iff.mp later
    exact reads_value depthLimit text.toList root done
  · cases later

/-- The later value of a key stands where the key first does. -/
example : parse "\x7b\"a\": 1, \"b\": null, \"a\": true\x7d" =
    .ok (.obj [("a", .bool true), ("b", .null)]) := by
  decide +kernel

end AggFlatten.Json
