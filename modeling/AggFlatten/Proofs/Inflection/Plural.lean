import AggFlatten.Proofs.Inflection.Twice
import Mathlib.Tactic.FinCases

/-! Plurals of plurals. A plural is left as it is unless it is taken for a singular: because it
ends like one, or because it is an irregular one in other letters. -/
namespace AggFlatten
namespace Inflection

variable {name : String} {word rest stem : List Char} {e : String} {pair : WordPair}

/-- A word that ends so is a singular. -/
def singularEndings : List String :=
  ["axis", "testis", "sis", "bus", "alias", "status", "octopus", "virus", "ss"]

/-- An s makes of these the endings of singulars. -/
def endingsBeforeS : List String :=
  ["axi", "testi", "si", "bu", "statu", "octopu", "viru"]

/-- Vowels of plurals from Latin, and what must come before. -/
def latinPlurals : List (String × String) :=
  [("a", "t"), ("a", "i"), ("i", "octop"), ("i", "vir")]

/-- What the lists and the rules for plurals say of these endings. The last two rules, for -s and
for every word, come behind sixteen others. -/
structure PluralTables : Prop where
  small : ∀ e ∈ singularEndings ++ endingsBeforeS, InSmallLetters e.toList
  listed : ∀ u ∈ listedWords, ∀ e ∈ singularEndings ++ endingsBeforeS, ¬e.toList <:+ u.toList
  append_s : ∀ e ∈ endingsBeforeS, e ++ "s" ∈ singularEndings
  /-- The other words that are singulars with an s do not take one. -/
  drop_s : ∀ e ∈ singularEndings, ∃ e' ∈ "alia" :: "s" :: endingsBeforeS,
    e.toList.reverse = 's' :: e'.toList.reverse
  /-- The rules in front apply to singulars in -s only. -/
  patterns : ∀ rule ∈ pluralRules.take 16, ∀ pattern ∈ rule.patterns,
    (∃ e ∈ singularEndings, e.toList.reverse = pattern) ∨ Apart ['s'] pattern
  /-- What they write does not end like a singular. -/
  apart : ∀ rule ∈ pluralRules.take 16, ∀ stem ∈ rule.stems, ∀ e ∈ singularEndings,
    Apart (rule.replacement.toList.reverse ++ stem.toList.reverse) e.toList.reverse
  /-- An s is written last, or in Latin plurals a vowel behind a stem that is kept. -/
  writes : ∀ rule ∈ pluralRules, rule.replacement.toList.getLast? = some 's' ∨
    "" ∉ rule.endings ∧ rule.stem.fits [] = false ∧
      ∀ e ∈ rule.stems, (rule.replacement, e) ∈ latinPlurals
  last : ∀ rule ∈ pluralRules, rule.replacement.toList ≠ [] ∧
    ∀ pair ∈ irregular, rule.replacement.toList.getLast? ≠ pair.singular.toList.getLast?

theorem pluralTables : PluralTables where
  small := by decide
  listed := by decide
  append_s := by decide
  drop_s := by decide
  patterns := by decide
  apart := by decide
  writes := by decide
  last := by decide

inductive TakenForSingular (word : List Char) : Prop where
  | ends (e : String) (mem : e ∈ singularEndings) (ends : EndsIn word e)
  | givesWay (gives : GivesWay (·.plural) word)

theorem takenForSingular_iff :
    TakenForSingular word ↔ (∃ e ∈ singularEndings, EndsIn word e) ∨ GivesWay (·.plural) word := by
  constructor
  · rintro (⟨e, mem, ends⟩ | gives)
    · exact .inl ⟨e, mem, ends⟩
    · exact .inr gives
  · rintro (⟨e, mem, ends⟩ | gives)
    · exact .ends e mem ends
    · exact .givesWay gives

theorem TakenForSingular.nonempty (taken : TakenForSingular word) : word ≠ [] := by
  rintro rfl
  rcases taken with ⟨e, mem, ends⟩ | ⟨pair, listed, -⟩
  · exact not_endsIn_nil (pluralTables.small e (List.mem_append_left _ mem)) ends
  · exact listed.nonempty rfl

/-- A word of the lists does not end like a singular. -/
theorem not_endsIn_singular_of_listed (listed : ¬Regular word) (mem : e ∈ singularEndings) :
    ¬EndsIn word e :=
  not_endsIn_of_listed listed pluralTables.listed e (List.mem_append_left _ mem)

/-- Every word has a plural. -/
theorem exists_pluralChange (heard : List Char) :
    ∃ change, firstChange? pluralRules heard = some change := by
  cases found : firstChange? pluralRules heard with
  | some change => exact ⟨change, rfl⟩
  | none =>
    have last := List.findSome?_eq_none_iff.mp found ⟨.any, [""], "s"⟩ (by simp [pluralRules])
    cases last

/-- A singular has another ending than its plural. -/
theorem pluralChange_of_singularEnding (mem : e ∈ singularEndings) (ends : EndsIn word e) :
    ∃ change, firstChange? pluralRules (endFirst word) = some change ∧
      change.replacement ≠ "s" ∧
      change.ending.toList.reverse ≠ endFirst change.replacement.toList := by
  obtain ⟨stem, heard⟩ := endsIn_iff.mp ends
  rw [heard]
  clear ends heard
  fin_cases mem <;> exact ⟨_, rfl, by decide, by decide⟩

/-- The rules in front of the one for -s apply to singulars. -/
theorem pluralChange_of_s (heard : endFirst word = 's' :: rest)
    (other : ∀ e ∈ singularEndings, ¬EndsIn word e) :
    firstChange? pluralRules (endFirst word) = some ⟨"s", "s"⟩ := by
  have silent : firstChange? (pluralRules.take 16) (endFirst word) = none := by
    refine firstChange?_eq_none fun rule mem pattern listed fits => ?_
    rcases pluralTables.patterns rule mem pattern listed with ⟨e, mem, rfl⟩ | apart
    · obtain ⟨stem, same⟩ := fits
      exact other e mem (endsIn_iff.mpr ⟨stem, same.symm⟩)
    · exact apart.excludes ⟨rest, heard.symm⟩ fits
  rw [← List.take_append_drop 16 pluralRules, firstChange?_append silent, heard]
  rfl

/-- A plural stays unless it is taken for a singular. -/
theorem plural_eq_self_iff (ends : Regular word →
      word.getLast? = some 's' ∨ inflectWord (·.plural) pluralRules word = word) :
    inflectWord (·.plural) pluralRules word = word ↔ ¬TakenForSingular word := by
  rcases uncountable_or_formOf_or_regular word with one | ⟨pair, listed⟩ | regular
  · refine iff_of_true (inflectWord_of_uncountable one) ?_
    rintro (⟨e, mem, ends⟩ | ⟨pair, listed, -⟩)
    · exact not_endsIn_singular_of_listed (fun regular => regular.not_uncountable one) mem ends
    · exact listed.countable one
  · rw [listed.inflectWord_eq_self_iff, takenForSingular_iff, or_iff_right]
    rintro ⟨e, mem, ends⟩
    exact not_endsIn_singular_of_listed (fun regular => regular.not_formOf listed) mem ends
  · rw [takenForSingular_iff, or_iff_left regular.not_givesWay]
    constructor
    · rintro same ⟨e, mem, ends⟩
      obtain ⟨change, found, -, other⟩ := pluralChange_of_singularEnding mem ends
      exact plural_number.inflectWord_ne_self regular found other same
    · intro other
      rcases ends regular with s | same
      · obtain ⟨kept, rfl⟩ := List.getLast?_eq_some_iff.mp s
        have heard : endFirst (kept ++ ['s']) = 's' :: endFirst kept := endFirst_append
        have found := pluralChange_of_s heard fun e mem ends => other ⟨e, mem, ends⟩
        rw [plural_number.inflectWord_of_change regular found]
        exact Change.apply_append rfl
      · exact same

theorem pluralChange_of_latin (rest : List Char) : ∀ parts ∈ latinPlurals,
    firstChange? pluralRules (parts.1.toList.reverse ++ (parts.2.toList.reverse ++ rest)) =
      some ⟨parts.1, parts.1⟩ := by
  intro parts mem
  fin_cases mem <;> rfl

/-- The last word of a plural ends in -s, or it is a plural from Latin. -/
theorem lastWord_pluralize (nonempty : name ≠ "")
    (regular : Regular (lastWord (pluralize name))) :
    (lastWord (pluralize name)).getLast? = some 's' ∨
      inflectWord (·.plural) pluralRules (lastWord (pluralize name)) =
        lastWord (pluralize name) := by
  have regular' : Regular (lastWord name) := by
    by_contra listed
    exact (plural_number.lastWord_of_listed nonempty listed).1 regular
  obtain ⟨change, found⟩ := exists_pluralChange (endFirst (lastWord name))
  obtain ⟨rule, mem, kept, dropped, word, ending, makes, outcome⟩ :=
    plural_number.exists_makes regular' found
  rcases pluralTables.writes rule mem with s | ⟨drops, keeps, latin⟩
  · have written : rule.replacement.toList ≠ [] := List.ne_nil_of_mem (List.mem_of_getLast? s)
    exact .inl ((getLast?_lastWord_inflected nonempty written outcome).trans s)
  · right
    obtain ⟨e, mem', rest, before⟩ := makes.stem
    have small := List.all_eq_true.mp (plural_number.small rule mem)
    have last : lastWord (pluralize name) = _ := lastWord_inflected_of_kept nonempty word
      (makes.keeps keeps) (makes.drops ending drops) small outcome
    rw [last] at regular ⊢
    have stays := pluralChange_of_latin rest _ (latin e mem')
    rw [before, ← endFirst_of_small small, ← endFirst_append] at stays
    rw [plural_number.inflectWord_of_change regular stays]
    exact Change.apply_append rfl

theorem pluralChange_of_endingBeforeS (mem : e ∈ endingsBeforeS) (ends : EndsIn word e) :
    firstChange? pluralRules (endFirst word) = some ⟨"", "s"⟩ := by
  obtain ⟨stem, heard⟩ := endsIn_iff.mp ends
  rw [heard]
  clear ends heard
  fin_cases mem <;> rfl

/-- The words that take an s and are singulars with it. -/
theorem lastWord_pluralize_of_endingBeforeS (nonempty : name ≠ "") (mem : e ∈ endingsBeforeS)
    (ends : EndsIn (lastWord name) e) : lastWord (pluralize name) = lastWord name ++ ['s'] := by
  have regular : Regular (lastWord name) := by
    by_contra listed
    exact not_endsIn_of_listed listed pluralTables.listed e (List.mem_append_right _ mem) ends
  have isWord := isWord_lastWord nonempty
  have found := pluralChange_of_endingBeforeS mem ends
  refine lastWord_inflected nonempty (startAlike_append_right isWord.nonempty) ?_ ?_
  · have unseparated := unseparated_of_endsIn ends
      (pluralTables.small e (List.mem_append_right _ mem))
    exact isWord.append_small unseparated (by simp [IsSmall])
  · exact (plural_number.inflectWord_of_change regular found).trans Change.apply_behind

/-- The last rule is not for words in -s. -/
theorem pluralChange_ne_of_s (heard : endFirst word = 's' :: rest) :
    firstChange? pluralRules (endFirst word) ≠ some ⟨"", "s"⟩ := by
  by_cases taken : ∃ e ∈ singularEndings, EndsIn word e
  · obtain ⟨e, mem, ends⟩ := taken
    obtain ⟨change, found, other, -⟩ := pluralChange_of_singularEnding mem ends
    rw [found]
    rintro same
    cases same
    exact other rfl
  · have found := pluralChange_of_s heard fun e mem ends => taken ⟨e, mem, ends⟩
    rw [found]
    decide

/-- A word that the last rule makes end like a singular ends so but for the s. -/
theorem endsIn_of_append_s (found : firstChange? pluralRules (endFirst word) = some ⟨"", "s"⟩)
    (mem : e ∈ singularEndings) (ends : EndsIn (word ++ ['s']) e) :
    ∃ e ∈ endingsBeforeS, EndsIn word e := by
  obtain ⟨e', mem', same⟩ := pluralTables.drop_s e mem
  obtain ⟨stem, heard⟩ := endsIn_iff.mp ends
  have heard : 's' :: endFirst word = 's' :: (e'.toList.reverse ++ stem) := by
    rw [← List.cons_append, ← same, ← heard, endFirst_append]
    rfl
  have heard := (List.cons.inj heard).2
  rcases mem' with _ | ⟨_, _ | ⟨_, mem'⟩⟩
  · have latin : firstChange? pluralRules ("alia".toList.reverse ++ stem) = some ⟨"a", "a"⟩ := rfl
    rw [heard, latin] at found
    exact absurd found (by decide)
  · exact absurd found (pluralChange_ne_of_s heard)
  · exact ⟨e', mem', endsIn_iff.mpr ⟨stem, heard⟩⟩

theorem late_change {rule : Rule} {change : Change} {stem : List Char}
    (late : rule ∈ pluralRules.drop 16) (makes : rule.Makes change stem) :
    change = ⟨"s", "s"⟩ ∨ change = ⟨"", "s"⟩ := by
  obtain ⟨ending, replacement⟩ := change
  obtain ⟨ends, rfl, -⟩ := makes
  simp only [pluralRules, List.drop_succ_cons, List.drop_zero, List.mem_cons, List.not_mem_nil,
    or_false] at late
  rcases late with rfl | rfl
  · obtain rfl : ending = "s" := List.mem_singleton.mp ends
    exact .inl rfl
  · obtain rfl : ending = "" := List.mem_singleton.mp ends
    exact .inr rfl

/-- Only a capital S alone starts otherwise than the s in its place. -/
theorem startAlike_of_s {kept dropped : List Char} (s : endFirst dropped = ['s'])
    (lone : kept ++ dropped ≠ ['S']) : StartAlike (kept ++ dropped) (kept ++ ['s']) := by
  cases kept with
  | nil =>
    obtain ⟨d, rfl, heard⟩ := List.map_eq_singleton_iff.mp (List.reverse_eq_iff.mp s)
    have small : Text.isCapital d = false := not_capital_of_s heard (by simpa using lone)
    have small' : Text.isCapital 's' = false := by decide
    simp [StartAlike, small, small']
  | cons c kept => rfl

/-- A word in -s that the rule for -s leaves does not end like a singular. -/
theorem not_endsIn_of_s (found : firstChange? pluralRules (endFirst word) = some ⟨"s", "s"⟩)
    (mem : e ∈ singularEndings) : ¬EndsIn word e := by
  intro ends
  obtain ⟨change, found', other, -⟩ := pluralChange_of_singularEnding mem ends
  rw [found] at found'
  cases found'
  exact other rfl

/-- A name whose plural ends like a singular ends so but for the s. -/
theorem endsIn_of_pluralize (nonempty : name ≠ "") (lone : lastWord name ≠ ['S'])
    (mem : e ∈ singularEndings) (ends : EndsIn (lastWord (pluralize name)) e) :
    ∃ e ∈ endingsBeforeS, EndsIn (lastWord name) e := by
  have regular : Regular (lastWord name) := by
    by_contra listed
    have listed' := (plural_number.lastWord_of_listed nonempty listed).1
    exact not_endsIn_singular_of_listed listed' mem ends
  obtain ⟨change, found⟩ := exists_pluralChange (endFirst (lastWord name))
  obtain ⟨rule, mem', kept, dropped, word, ending, makes, outcome⟩ :=
    plural_number.exists_makes regular found
  have joined : (pluralize name).toList = _ := toList_inflected nonempty
  rw [← List.take_append_drop 16 pluralRules, List.mem_append] at mem'
  rcases mem' with early | late
  · have whole := ends.of_suffix (lastWord_suffix _)
    rw [joined, outcome] at whole
    have small := plural_number.small rule (List.mem_of_mem_take early)
    exact absurd whole (not_endsIn_of_written pluralTables.apart early small makes mem)
  · rcases late_change late makes with rfl | rfl
    · rw [← makes.replacement] at outcome
      have alike := startAlike_of_s ending (word ▸ lone)
      rw [← word] at alike
      have written := ends.of_suffix (lastWord_inflected_suffix nonempty alike outcome)
      have heard : endFirst (kept ++ ['s']) = endFirst (lastWord name) := by
        rw [word, endFirst_append, endFirst_append, ending]
        rfl
      rw [← heard] at found
      exact absurd written (not_endsIn_of_s found mem)
    · have plural : inflectWord (·.plural) pluralRules (lastWord name) = lastWord name ++ ['s'] :=
        (plural_number.inflectWord_of_change regular found).trans Change.apply_behind
      have alike : StartAlike (lastWord name) (lastWord name ++ ['s']) :=
        startAlike_append_right (isWord_lastWord nonempty).nonempty
      have written := ends.of_suffix (lastWord_inflected_suffix nonempty alike plural)
      exact endsIn_of_append_s found mem written

/-- Without capitals, no plural is an irregular word that is written otherwise. -/
theorem not_givesWay_pluralize (plain : NoCapitals name.toList) :
    ¬GivesWay (·.plural) (lastWord (pluralize name)) := by
  by_cases nonempty : name = ""
  · rintro ⟨pair, listed, -⟩
    subst nonempty
    exact listed.nonempty rfl
  by_cases regular : Regular (lastWord name)
  · rintro ⟨pair, listed, other⟩
    have plain' := plural_number.noCapitals_lastWord nonempty plain
    obtain ⟨small, same | same⟩ := listed.of_noCapitals plain'
    · obtain ⟨change, found⟩ := exists_pluralChange (endFirst (lastWord name))
      obtain ⟨rule, mem, kept, dropped, -, -, -, outcome⟩ :=
        plural_number.exists_makes regular found
      obtain ⟨written, differs⟩ := pluralTables.last rule mem
      have last : (lastWord (pluralize name)).getLast? = _ :=
        getLast?_lastWord_inflected nonempty written outcome
      exact differs pair listed.listed (last.symm.trans (congrArg List.getLast? same))
    · exact other (by rw [capitalizeLike_of_small small]; exact same.symm)
  · exact (plural_number.lastWord_of_listed nonempty regular).2

theorem pluralize_again_iff (name : String) :
    pluralize (pluralize name) = pluralize name ↔
      ¬TakenForSingular (lastWord (pluralize name)) := by
  by_cases empty : pluralize name = ""
  · rw [empty]
    exact iff_of_true rfl fun taken => taken.nonempty rfl
  · have nonempty : name ≠ "" := by
      rintro rfl
      exact empty rfl
    exact (inflected_eq_self_iff empty).trans (plural_eq_self_iff (lastWord_pluralize nonempty))

theorem endsIn_pluralize_iff (lone : lastWord name ≠ ['S']) :
    (∃ e ∈ singularEndings, EndsIn (lastWord (pluralize name)) e) ↔
      ∃ e ∈ endingsBeforeS, EndsIn (lastWord name) e := by
  constructor
  · rintro ⟨e, mem, ends⟩
    have nonempty : name ≠ "" := by
      rintro rfl
      exact not_endsIn_nil (pluralTables.small e (List.mem_append_left _ mem)) ends
    exact endsIn_of_pluralize nonempty lone mem ends
  · rintro ⟨e, mem, ends⟩
    have nonempty : name ≠ "" := by
      rintro rfl
      exact not_endsIn_nil (pluralTables.small e (List.mem_append_right _ mem)) ends
    have last := lastWord_pluralize_of_endingBeforeS nonempty mem ends
    exact ⟨e ++ "s", pluralTables.append_s e mem, last ▸ (endsIn_append_iff rfl).mpr ends⟩

end Inflection

open Inflection

/-- The plural of a plural is the plural itself unless that is taken for a singular. But for
names that end in a lone S, the endings of such plurals come of words that end so without the
s, and in names without capitals nothing else makes a plural change. -/
theorem pluralize_pluralize_iff (name : String) :
    (pluralize (pluralize name) = pluralize name ↔
      ¬TakenForSingular (lastWord (pluralize name))) ∧
    (lastWord name ≠ ['S'] →
      ((∃ e ∈ singularEndings, EndsIn (lastWord (pluralize name)) e) ↔
        ∃ e ∈ endingsBeforeS, EndsIn (lastWord name) e)) ∧
    (NoCapitals name.toList →
      (pluralize (pluralize name) = pluralize name ↔
        ¬∃ e ∈ endingsBeforeS, EndsIn (lastWord name) e)) := by
  refine ⟨pluralize_again_iff name, endsIn_pluralize_iff, fun plain => ?_⟩
  rw [pluralize_again_iff, takenForSingular_iff, or_iff_left (not_givesWay_pluralize plain),
    endsIn_pluralize_iff plain.lastWord_ne_lone]

/-- Totals are a plural, and so they stay. -/
theorem totals_stay :
    (pluralize (pluralize "salesTotal") = pluralize "salesTotal" ∧
      lastWord "salesTotal" ≠ ['S'] ∧
      ¬∃ e ∈ singularEndings, EndsIn (lastWord (pluralize "salesTotal")) e) ∧
    NoCapitals "sales_total".toList ∧
      pluralize (pluralize "sales_total") = pluralize "sales_total" := by
  have lone : lastWord "salesTotal" ≠ ['S'] := by decide
  have plain : ¬∃ e ∈ endingsBeforeS, EndsIn (lastWord "salesTotal") e := by decide
  have plain' : ¬∃ e ∈ endingsBeforeS, EndsIn (lastWord "sales_total") e := by decide
  have small : NoCapitals "sales_total".toList := by decide
  have regular : Regular (lastWord (pluralize "salesTotal")) := by decide
  obtain ⟨stays, endings, -⟩ := pluralize_pluralize_iff "salesTotal"
  obtain ⟨-, -, plainly⟩ := pluralize_pluralize_iff "sales_total"
  have other := mt (endings lone).mp plain
  refine ⟨⟨stays.mpr ?_, lone, other⟩, small, (plainly small).mpr plain'⟩
  rintro (⟨e, mem, ends⟩ | gives)
  · exact other ⟨e, mem, ends⟩
  · exact regular.not_givesWay gives

/-- Taxis end like an axis. -/
theorem taxis_become_taxes :
    pluralize "taxi" = "taxis" ∧ pluralize (pluralize "taxi") = "taxes" ∧
      ¬∀ name : String, pluralize (pluralize name) = pluralize name := by
  have once : pluralize "taxi" = "taxis" := by decide
  have twice : pluralize "taxis" = "taxes" := by decide
  rw [← once] at twice
  refine ⟨once, twice, fun stays => ?_⟩
  have same := (stays "taxi").symm.trans twice
  rw [once] at same
  exact absurd same (by decide)

end AggFlatten
