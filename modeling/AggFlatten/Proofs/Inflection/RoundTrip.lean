import AggFlatten.Proofs.Inflection.Lists
import Mathlib.Tactic.FinCases

/-! Regular words have a plural that leads back to them. These are the words that take an s,
and the words in which -y becomes -ies. -/
namespace AggFlatten
namespace Inflection

/-- Letters behind which an s makes the plural. -/
def plainLetters : List Char :=
  ['b', 'c', 'd', 'g', 'j', 'k', 'l', 'n', 'p', 'q', 'r', 't', 'v', 'w']

/-- The consonants, without y. -/
def consonants : List Char :=
  ['b', 'c', 'd', 'f', 'g', 'h', 'j', 'k', 'l', 'm', 'n', 'p', 'q', 'r', 's', 't', 'v', 'w', 'x', 'z']

variable {c k : Char} {word there kept stem rest letters : List Char}

theorem pluralChange_of_plain (plain : k ∈ plainLetters) :
    firstChange? pluralRules (k :: rest) = some ⟨"", "s"⟩ := by
  fin_cases plain <;> rfl

theorem singularChange_of_plain (plain : k ∈ plainLetters) :
    firstChange? singularRules ('s' :: k :: rest) = some ⟨"s", ""⟩ := by
  fin_cases plain <;> rfl

theorem pluralChange_of_consonant (consonant : k ∈ consonants) :
    firstChange? pluralRules ('y' :: k :: rest) = some ⟨"y", "ies"⟩ := by
  fin_cases consonant <;> rfl

/-- Of the rules for singulars, the twelve before the one for movies and those after it agree
on words in -vies. -/
theorem singularChange_of_vies (other : ¬['v', 'o', 'm'] <+: 'v' :: rest) :
    firstChange? singularRules ('s' :: 'e' :: 'i' :: 'v' :: rest) = some ⟨"ies", "y"⟩ := by
  have early : firstChange? (singularRules.take 12) ('s' :: 'e' :: 'i' :: 'v' :: rest) = none := rfl
  have movies : firstChange? [⟨.oneOf ["m"], ["ovies"], "ovie"⟩] ('s' :: 'e' :: 'i' :: 'v' :: rest) =
      none := by
    refine firstChange?_eq_none fun rule mem pattern listed fits => ?_
    obtain rfl := List.mem_singleton.mp mem
    obtain rfl := List.mem_singleton.mp listed
    exact other ((List.prefix_append_right_inj ['s', 'e', 'i']).mp fits)
  have order : singularRules = singularRules.take 12 ++
      ([⟨.oneOf ["m"], ["ovies"], "ovie"⟩] ++ singularRules.drop 13) := rfl
  rw [order, firstChange?_append early, firstChange?_append movies]
  rfl

/-- An -ies goes back to -y, but in movies. -/
theorem singularChange_of_consonant (consonant : k ∈ consonants)
    (other : ¬['v', 'o', 'm'] <+: k :: rest) :
    firstChange? singularRules ('s' :: 'e' :: 'i' :: k :: rest) = some ⟨"ies", "y"⟩ := by
  by_cases v : k = 'v'
  · subst v
    exact singularChange_of_vies other
  · fin_cases consonant <;> first | rfl | exact absurd rfl v

/-! An s, or -ies, does not make a word of the lists. -/

theorem listed_in_s : ∀ u ∈ listedWords, ['s'] <+: u.toList.reverse →
    u = "news" ∨ ['s', 'e'] <+: u.toList.reverse ∧
      (['s', 'e', 'i'] <+: u.toList.reverse → u = "series" ∨ u = "species") := by
  decide

theorem plain_small : ∀ k ∈ plainLetters, IsSmall k :=
  List.all_eq_true.mp (by decide)

theorem consonants_small : ∀ k ∈ consonants, IsSmall k :=
  List.all_eq_true.mp (by decide)

theorem inside_of_toLower (small : IsSmall c.toLower) : c ≠ '_' ∧ c ≠ '-' := by
  refine ⟨fun separator => ?_, fun separator => ?_⟩ <;>
  · rw [separator] at small
    revert small
    decide

theorem endFirst_concat (small : IsSmall c.toLower) :
    endFirst (stem ++ [c]) = c.toLower :: endFirst stem := by
  rw [endFirst_append, endFirst, List.map_singleton, foldCase_of_toLower small]
  rfl

theorem unseparated_concat (small : IsSmall c.toLower) : Unseparated (stem ++ [c]) := by
  simpa [Unseparated] using inside_of_toLower small

/-- The word leads back to itself through another. -/
structure Returns (word there : List Char) : Prop where
  plural : inflectWord (·.plural) pluralRules word = there
  alike : StartAlike word there
  isWord : IsWord there
  singular : inflectWord (·.singular) singularRules there = word

section

variable {name : String} (nonempty : name ≠ "")

include nonempty

theorem Returns.pluralize_eq (returns : Returns (lastWord name) there) :
    pluralize name = String.ofList ((cutLastWord name.toList).1 ++ there) := by
  rw [pluralize, inflect_eq _ _ (by simpa using nonempty), ← lastWord, returns.plural]

/-- In a name it is the last word that leads back. -/
theorem Returns.singularize_pluralize (returns : Returns (lastWord name) there) :
    singularize (pluralize name) = name := by
  have again := inflect_startAlike (·.singular) singularRules (by simpa using nonempty)
    returns.alike returns.isWord
  rw [returns.pluralize_eq nonempty, singularize, String.toList_ofList, again, returns.singular,
    ofList_append_lastWord]

end

/-- News apart, the lists hold no plural of a word that takes an s. -/
theorem Regular.append_s (plain : c.toLower ∈ plainLetters)
    (other : lowercase (stem ++ [c]) ≠ "new".toList) : Regular (stem ++ [c] ++ ['s']) := by
  refine regular_iff.mpr fun u mem same => ?_
  have heard : u.toList.reverse = 's' :: c.toLower :: (lowercase stem).reverse := by
    simp [← same, lowercase]
  rcases listed_in_s u mem ⟨_, heard.symm⟩ with news | ⟨es, -⟩
  · rw [news, lowercase_append] at same
    exact other (List.append_cancel_right (same.trans rfl))
  · rw [heard, List.prefix_cons_inj, List.cons_prefix_cons] at es
    rw [← es.1] at plain
    simp [plainLetters] at plain

theorem returns_of_plain (isWord : IsWord (stem ++ [c])) (regular : Regular (stem ++ [c]))
    (plain : c.toLower ∈ plainLetters) (other : lowercase (stem ++ [c]) ≠ "new".toList) :
    Returns (stem ++ [c]) (stem ++ [c] ++ ['s']) := by
  have small := plain_small _ plain
  have heard : endFirst (stem ++ [c] ++ ['s']) = 's' :: c.toLower :: endFirst stem := by
    rw [endFirst_append, endFirst_concat small]
    rfl
  have there : firstChange? pluralRules (endFirst (stem ++ [c])) = some ⟨"", "s"⟩ := by
    rw [endFirst_concat small]
    exact pluralChange_of_plain plain
  have back : firstChange? singularRules (endFirst (stem ++ [c] ++ ['s'])) = some ⟨"s", ""⟩ := by
    rw [heard]
    exact singularChange_of_plain plain
  refine ⟨?_, ?_, ?_, ?_⟩
  · rw [plural_number.inflectWord_of_change regular there]
    exact Change.apply_behind
  · exact startAlike_append_right isWord.nonempty
  · exact isWord.append_small (unseparated_concat small) (by simp [IsSmall])
  · rw [singular_number.inflectWord_of_change (.append_s plain other) back]
    exact (Change.apply_append rfl).trans (List.append_nil _)

/-- Behind such letters -y becomes -ies. -/
def PrecedesY (kept : List Char) : Prop :=
  (∃ stem c, kept = stem ++ [c] ∧ c.toLower ∈ consonants) ∨ ∃ stem, kept = stem ++ ['q', 'u']

theorem PrecedesY.nonempty (precedes : PrecedesY kept) : kept ≠ [] := by
  rcases precedes with ⟨stem, c, rfl, -⟩ | ⟨stem, rfl⟩ <;> simp

theorem PrecedesY.pluralChange (precedes : PrecedesY kept) :
    firstChange? pluralRules ('y' :: endFirst kept) = some ⟨"y", "ies"⟩ := by
  rcases precedes with ⟨stem, c, rfl, consonant⟩ | ⟨stem, rfl⟩
  · rw [endFirst_concat (consonants_small _ consonant)]
    exact pluralChange_of_consonant consonant
  · rw [endFirst_append]
    rfl

theorem PrecedesY.singularChange (precedes : PrecedesY kept)
    (other : ¬['v', 'o', 'm'] <+: endFirst kept) :
    firstChange? singularRules ('s' :: 'e' :: 'i' :: endFirst kept) = some ⟨"ies", "y"⟩ := by
  rcases precedes with ⟨stem, c, rfl, consonant⟩ | ⟨stem, rfl⟩
  · rw [endFirst_concat (consonants_small _ consonant)] at other ⊢
    exact singularChange_of_consonant consonant other
  · rw [endFirst_append]
    rfl

/-- A letter that is heard as another than s is this letter in lower case. -/
theorem lowercase_of_heard (heard : word.map foldCase = letters) (plain : 's' ∉ letters) :
    lowercase word = letters := by
  rw [← heard]
  refine List.map_congr_left fun c mem => ?_
  by_cases long : c = 'ſ'
  · have s : foldCase c = 's' := if_pos long
    exact absurd (heard ▸ List.mem_map.mpr ⟨c, mem, s⟩) plain
  · exact (if_neg long).symm

/-- The words of the lists in -ies are series and species. -/
theorem Regular.append_ies (series : lowercase (kept ++ ['y']) ≠ "sery".toList)
    (species : lowercase (kept ++ ['y']) ≠ "specy".toList) :
    Regular (kept ++ ['i', 'e', 's']) := by
  refine regular_iff.mpr fun u mem same => ?_
  rw [lowercase_append] at same
  have ies : ['s', 'e', 'i'] ++ (lowercase kept).reverse = u.toList.reverse := by
    rw [← same, List.reverse_append]
    rfl
  have listed : u = "series" ∨ u = "species" := by
    rcases listed_in_s u mem ⟨_, ies⟩ with rfl | ⟨-, named⟩
    · simp at ies
    · exact named ⟨_, ies⟩
  rcases listed with rfl | rfl
  · have start : lowercase kept = ['s', 'e', 'r'] := List.append_cancel_right (same.trans rfl)
    exact series (by rw [lowercase_append, start]; rfl)
  · have start : lowercase kept = ['s', 'p', 'e', 'c'] :=
      List.append_cancel_right (same.trans rfl)
    exact species (by rw [lowercase_append, start]; rfl)

/-- What is heard as mov is written so, since only an s is heard of two letters. -/
theorem not_mov_heard (movies : ¬"movy".toList <:+ lowercase (kept ++ ['y'])) :
    ¬['v', 'o', 'm'] <+: endFirst kept := by
  rintro ⟨stem, heard⟩
  obtain ⟨kept', dropped, rfl, -, ending⟩ := exists_of_endFirst heard.symm
  have mov : lowercase dropped = ['m', 'o', 'v'] :=
    lowercase_of_heard (List.reverse_eq_iff.mp ending) (by decide)
  refine movies ⟨lowercase kept', ?_⟩
  rw [List.append_assoc, lowercase_append, lowercase_append, mov]
  rfl

theorem returns_of_y (isWord : IsWord (kept ++ ['y'])) (regular : Regular (kept ++ ['y']))
    (precedes : PrecedesY kept) (series : lowercase (kept ++ ['y']) ≠ "sery".toList)
    (species : lowercase (kept ++ ['y']) ≠ "specy".toList)
    (movies : ¬"movy".toList <:+ lowercase (kept ++ ['y'])) :
    Returns (kept ++ ['y']) (kept ++ ['i', 'e', 's']) := by
  have there := precedes.pluralChange
  have back := precedes.singularChange (not_mov_heard movies)
  have regular' : Regular (kept ++ ['i', 'e', 's']) := .append_ies series species
  refine ⟨?_, ?_, ?_, ?_⟩
  · rw [plural_number.inflectWord_of_change regular (by rw [endFirst_append]; exact there)]
    exact Change.apply_append rfl
  · exact startAlike_append precedes.nonempty
  · exact isWord.replace precedes.nonempty (List.cons_ne_nil _ _) (by simp [IsSmall])
  · rw [singular_number.inflectWord_of_change regular' (by rw [endFirst_append]; exact back)]
    exact Change.apply_append rfl

end Inflection

open Inflection

/-- The name takes an s in the plural. -/
structure TakesS (name : String) : Prop where
  plain : ∃ c ∈ name.toList.getLast?, c.toLower ∈ plainLetters
  other : lowercase (lastWord name) ≠ "new".toList

/-- The -y of a word becomes -ies in the plural. -/
structure TakesIes (word : List Char) : Prop where
  ending : ∃ kept, word = kept ++ ['y'] ∧ PrecedesY kept
  series : lowercase word ≠ "sery".toList
  species : lowercase word ≠ "specy".toList
  movies : ¬"movy".toList <:+ lowercase word

section

variable {name : String} (nonempty : name ≠ "") (regular : Regular (lastWord name))

include nonempty regular

theorem TakesS.returns (takes : TakesS name) :
    Returns (lastWord name) (lastWord name ++ ['s']) := by
  have isWord := isWord_lastWord nonempty
  obtain ⟨c, back, plain⟩ := takes.plain
  rw [← getLast?_lastWord nonempty] at back
  obtain ⟨stem, word⟩ := List.getLast?_eq_some_iff.mp back
  have other := takes.other
  rw [word] at isWord regular other ⊢
  exact returns_of_plain isWord regular plain other

theorem TakesIes.returns (takes : TakesIes (lastWord name)) :
    ∃ plural, Returns (lastWord name) plural := by
  have isWord := isWord_lastWord nonempty
  obtain ⟨⟨kept, word, precedes⟩, series, species, movies⟩ := takes
  rw [word] at isWord regular series species movies ⊢
  exact ⟨_, returns_of_y isWord regular precedes series species movies⟩

end

theorem TakesS.nonempty {name : String} (takes : TakesS name) : name ≠ "" := by
  rintro rfl
  obtain ⟨c, back, -⟩ := takes.plain
  cases back

theorem TakesIes.nonempty {name : String} (takes : TakesIes (lastWord name)) : name ≠ "" := by
  rintro rfl
  obtain ⟨kept, word, -⟩ := takes.ending
  simp [lastWord, cutLastWord] at word

/-- The plural of a regular word has the word as its singular. -/
theorem singularize_pluralize_of_regular (name : String) (regular : Regular (lastWord name)) :
    (TakesS name → pluralize name = name ++ "s") ∧
      (TakesS name ∨ TakesIes (lastWord name) → singularize (pluralize name) = name) := by
  constructor
  · intro takes
    have plural := (takes.returns takes.nonempty regular).pluralize_eq takes.nonempty
    rw [plural, ← List.append_assoc, String.ofList_append, ofList_append_lastWord]
  · rintro (takes | takes)
    · exact (takes.returns takes.nonempty regular).singularize_pluralize takes.nonempty
    · obtain ⟨plural, returns⟩ := takes.returns takes.nonempty regular
      exact returns.singularize_pluralize takes.nonempty

/-- A total takes an s, and a category takes -ies. -/
theorem totals_and_categories_return :
    (Regular (lastWord "salesTotal") ∧ TakesS "salesTotal" ∧
      pluralize "salesTotal" = "salesTotal" ++ "s") ∧
    (Regular (lastWord "order_category") ∧ TakesIes (lastWord "order_category") ∧
      singularize (pluralize "order_category") = "order_category") := by
  have total : Regular (lastWord "salesTotal") := by decide
  have takesS : TakesS "salesTotal" := ⟨⟨'l', by decide, by decide +kernel⟩, by decide +kernel⟩
  have category : Regular (lastWord "order_category") := by decide
  have takesIes : TakesIes (lastWord "order_category") :=
    ⟨⟨['c', 'a', 't', 'e', 'g', 'o', 'r'], by decide,
      .inl ⟨['c', 'a', 't', 'e', 'g', 'o'], 'r', rfl, by decide⟩⟩, by decide,
      by decide, by decide +kernel⟩
  exact ⟨⟨total, takesS, (singularize_pluralize_of_regular _ total).1 takesS⟩,
    category, takesIes, (singularize_pluralize_of_regular _ category).2 (.inr takesIes)⟩

end AggFlatten
