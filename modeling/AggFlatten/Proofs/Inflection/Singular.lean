import AggFlatten.Proofs.Inflection.Twice
import Mathlib.Tactic.FinCases

/-! Singulars of singulars. A singular is left as it is unless it is taken for a plural: because
it ends like one from Latin, because it is an irregular plural, or because it ends in an s that
no rule keeps. -/
namespace AggFlatten
namespace Inflection

deriving instance DecidableEq for Stem

variable {name : String} {word kept rest stem : List Char} {e : String} {pair : WordPair}

/-- Endings of plurals from Latin. -/
def latinEndings : List String :=
  ["ta", "ia", "octopi", "viri"]

/-- What rules write to make singulars in -s, and what must come before. -/
def singularsInS : List (String × String) :=
  [("", "alias"), ("", "status"), ("", "bus"), ("", "ss"), ("us", "octop"), ("us", "vir"),
   ("is", "cris"), ("is", "test"), ("sis", "analy"), ("sis", "ba"), ("sis", "diagno"),
   ("sis", "parenthe"), ("sis", "progno"), ("sis", "synop"), ("sis", "the")]

/-- The word is a singular in -s as the rules write it. -/
def SingularInS (word : List Char) : Prop :=
  (∃ kept, word = kept ++ "xis".toList ∧ kept.map foldCase = ['a']) ∨
    ∃ parts ∈ singularsInS, ∃ kept, word = kept ++ parts.1.toList ∧ EndsIn kept parts.2

def TakenForPlural (word : List Char) : Prop :=
  ¬Uncountable word ∧ ((∃ e ∈ latinEndings, EndsIn word e) ∨ GivesWay (·.singular) word)

/-- What the lists and the rules for singulars say of these endings. The last rule, for -s, comes
behind twenty-one others. -/
structure SingularTables : Prop where
  small : ∀ e ∈ latinEndings, InSmallLetters e.toList
  listed : ∀ pair ∈ irregular, ∀ e ∈ latinEndings, ¬e.toList <:+ pair.singular.toList
  /-- But for plurals from Latin, the rules apply to words in -s. -/
  patterns : ∀ rule ∈ singularRules, ∀ pattern ∈ rule.patterns,
    (∃ e ∈ latinEndings, e.toList.reverse = pattern) ∨ ['s'] <+: pattern
  /-- Of the rules in front, only the one for an alias applies to such a plural with an s. -/
  latin_s : ∀ rule ∈ singularRules.take 21, ∀ pattern ∈ rule.patterns, ∀ e ∈ latinEndings,
    pattern = "alias".toList.reverse ∨ Apart (e ++ "s").toList.reverse pattern
  /-- They keep letters, and write nothing where they drop nothing. -/
  keeps : ∀ rule ∈ singularRules.take 21,
    rule.stem.fits [] = false ∧ ("" ∈ rule.endings → rule.replacement = "")
  /-- What they write is no such plural, and no irregular one. -/
  apart : ∀ rule ∈ singularRules.take 21, ∀ stem ∈ rule.stems,
    ∀ e ∈ latinEndings ++ irregular.map (·.plural),
      Apart (rule.replacement.toList.reverse ++ stem.toList.reverse) e.toList.reverse
  /-- Singulars in -s that they write are listed, but for an axis. -/
  writes : ∀ rule ∈ singularRules.take 21,
    rule.stem = .whole "a" ∧ rule.replacement = "xis" ∨ ∀ e ∈ rule.stems,
      (rule.replacement, e) ∈ singularsInS ∨
        Apart (rule.replacement.toList.reverse ++ e.toList.reverse) ['s']
  in_s : ∀ parts ∈ singularsInS, parts.1.toList.all Char.isLower
  axis : firstChange? singularRules ("xis".toList.reverse ++ "a".toList.reverse) =
    some ⟨"xis", "xis"⟩
  lone : inflectWord (·.singular) singularRules ['S'] = []

theorem singularTables : SingularTables where
  small := by decide
  listed := by decide
  patterns := by decide
  latin_s := by decide
  keeps := by decide
  apart := by decide
  writes := by decide
  in_s := by decide
  axis := by decide
  lone := by decide

/-- What becomes of the last word of a name in the singular. -/
inductive BecomesSingular (name : String) : Prop where
  | stays (same : inflectWord (·.singular) singularRules (lastWord name) = lastWord name)
  | written (rule : Rule) (early : rule ∈ singularRules.take 21) (kept : List Char)
      (change : Change) (makes : rule.Makes change (endFirst kept))
      (last : lastWord (singularize name) = kept ++ rule.replacement.toList)
  | stripped (kept dropped : List Char) (word : lastWord name = kept ++ dropped)
      (s : endFirst dropped = ['s'])
      (found : firstChange? singularRules (endFirst (lastWord name)) = some ⟨"s", ""⟩)
      (last : lastWord (singularize name) = kept)
  | separated (other : ∀ ending : String, InSmallLetters ending.toList →
      ¬EndsIn (lastWord (singularize name)) ending)

theorem TakenForPlural.nonempty (taken : TakenForPlural word) : word ≠ [] := by
  rintro rfl
  rcases taken.2 with ⟨e, mem, ends⟩ | ⟨pair, listed, -⟩
  · exact not_endsIn_nil (singularTables.small e mem) ends
  · exact listed.nonempty rfl

/-- A plural from Latin has another ending than its singular. -/
theorem singularChange_of_latinEnding (mem : e ∈ latinEndings) (ends : EndsIn word e) :
    ∃ change, firstChange? singularRules (endFirst word) = some change ∧
      change.ending.toList.reverse ≠ endFirst change.replacement.toList := by
  obtain ⟨stem, heard⟩ := endsIn_iff.mp ends
  rw [heard]
  clear ends heard
  fin_cases mem <;> exact ⟨_, rfl, by decide⟩

/-- But for plurals from Latin, the rules apply to words in -s. -/
theorem singularChange_eq_none (other : ∀ e ∈ latinEndings, ¬EndsIn word e)
    (s : ¬EndsIn word "s") : firstChange? singularRules (endFirst word) = none := by
  refine firstChange?_eq_none fun rule mem pattern listed fits => ?_
  rcases singularTables.patterns rule mem pattern listed with ⟨e, mem, rfl⟩ | first
  · obtain ⟨stem, same⟩ := fits
    exact other e mem (endsIn_iff.mpr ⟨stem, same.symm⟩)
  · obtain ⟨stem, same⟩ := first.trans fits
    exact s (endsIn_iff.mpr ⟨stem, same.symm⟩)

/-- A word that stays is not taken for a plural. -/
theorem not_takenForPlural (same : inflectWord (·.singular) singularRules word = word) :
    ¬TakenForPlural word := by
  rintro ⟨countable, taken⟩
  rcases uncountable_or_formOf_or_regular word with one | ⟨pair, listed⟩ | regular
  · exact countable one
  · rcases taken with ⟨e, mem, ends⟩ | gives
    · have small := (irregular_words pair listed.listed).1
      rw [inflectWord_of_formOf listed] at same
      have lower : lowercase word = pair.singular.toList := by
        rw [← same, lowercase_capitalizeLike small]
      exact not_endsIn_of_lowercase small lower
        (singularTables.listed pair listed.listed) e mem ends
    · exact listed.inflectWord_eq_self_iff.mp same gives
  · rcases taken with ⟨e, mem, ends⟩ | gives
    · obtain ⟨change, found, other⟩ := singularChange_of_latinEnding mem ends
      exact singular_number.inflectWord_ne_self regular found other same
    · exact regular.not_givesWay gives

/-- A thesis is no parenthesis, but the rule is the same. -/
theorem singularChange_of_thesis :
    firstChange? singularRules ("sis".toList.reverse ++ ("the".toList.reverse ++ rest)) =
      some ⟨"sis", "sis"⟩ := by
  have early : firstChange? (singularRules.take 18)
      ("sis".toList.reverse ++ ("the".toList.reverse ++ rest)) = none := rfl
  -- A stem before this one may fit as well, which the letters in `rest` decide.
  have fits : singularRules[18].stem.fits ("the".toList.reverse ++ rest) = true := by
    simp [singularRules, Stem.fits]
  have applies : singularRules[18].changeAt?
      ("sis".toList.reverse ++ ("the".toList.reverse ++ rest)) "sis" = some ⟨"sis", "sis"⟩ :=
    if_pos fits
  have order : singularRules.drop 18 = singularRules[18] :: singularRules.drop 19 := rfl
  have endings : singularRules[18].endings = ["sis", "ses"] := rfl
  rw [← List.take_append_drop 18 singularRules, firstChange?_append early, order, firstChange?,
    List.findSome?_cons, Rule.change?, endings, List.findSome?_cons, applies]

theorem singularChange_of_singularInS (rest : List Char) : ∀ parts ∈ singularsInS,
    firstChange? singularRules (parts.1.toList.reverse ++ (parts.2.toList.reverse ++ rest)) =
      some ⟨parts.1, parts.1⟩ := by
  intro parts mem
  fin_cases mem <;> first | rfl | exact singularChange_of_thesis

/-- A singular that was written does not end in -s, or it is a singular so. -/
theorem singularInS_of_written {rule : Rule} {change : Change}
    (early : rule ∈ singularRules.take 21) (makes : rule.Makes change (endFirst kept))
    (ends : EndsIn (kept ++ rule.replacement.toList) "s") :
    SingularInS (kept ++ rule.replacement.toList) := by
  rcases singularTables.writes rule early with ⟨whole, axis⟩ | writes
  · have fits := makes.fits
    rw [whole, Stem.fits, beq_iff_eq] at fits
    exact .inl ⟨kept, axis ▸ rfl, List.reverse_inj.mp fits⟩
  · obtain ⟨e, mem, rest, before⟩ := makes.stem
    rcases writes e mem with listed | apart
    · exact .inr ⟨_, listed, kept, rfl, endsIn_iff.mpr ⟨rest, before.symm⟩⟩
    · have small := List.all_eq_true.mp (singular_number.small rule (List.mem_of_mem_take early))
      obtain ⟨stem, heard⟩ := endsIn_iff.mp ends
      rw [endFirst_append, endFirst_of_small small, ← before, ← List.append_assoc] at heard
      exact absurd ⟨stem, heard.symm⟩ (apart.excludes (List.prefix_append _ _))

/-- A word in -s that stays is such a singular. -/
theorem singularInS_of_eq_self (regular : Regular word)
    (same : inflectWord (·.singular) singularRules word = word) (s : EndsIn word "s") :
    SingularInS word := by
  cases found : firstChange? singularRules (endFirst word) with
  | none =>
    obtain ⟨stem, heard⟩ := endsIn_iff.mp s
    have last := List.findSome?_eq_none_iff.mp found ⟨.any, ["s"], ""⟩ (by simp [singularRules])
    rw [heard] at last
    cases last
  | some change =>
    obtain ⟨rule, mem, kept, dropped, joined, ending, makes, outcome⟩ :=
      singular_number.exists_makes regular found
    have written := same.symm.trans outcome
    rw [← List.take_append_drop 21 singularRules, List.mem_append] at mem
    rcases mem with early | late
    · rw [written] at s ⊢
      exact singularInS_of_written early makes s
    · obtain rfl : rule = ⟨.any, ["s"], ""⟩ := List.mem_singleton.mp late
      obtain rfl : dropped = [] := List.append_cancel_left (joined.symm.trans written)
      have one : change.ending = "s" := List.mem_singleton.mp makes.ending
      rw [one] at ending
      cases ending

theorem inflectWord_of_singularInS (regular : Regular word) (singular : SingularInS word) :
    inflectWord (·.singular) singularRules word = word := by
  rcases singular with ⟨kept, rfl, axis⟩ | ⟨parts, mem, kept, rfl, ends⟩
  · have heard : endFirst (kept ++ "xis".toList) =
        "xis".toList.reverse ++ "a".toList.reverse := by
      rw [endFirst, List.map_append, axis]
      rfl
    have found := singularTables.axis
    rw [← heard] at found
    rw [singular_number.inflectWord_of_change regular found]
    exact Change.apply_append rfl
  · obtain ⟨stem, heard⟩ := endsIn_iff.mp ends
    have small := List.all_eq_true.mp (singularTables.in_s parts mem)
    have found := singularChange_of_singularInS stem parts mem
    rw [← heard, ← endFirst_of_small small, ← endFirst_append] at found
    rw [singular_number.inflectWord_of_change regular found]
    exact Change.apply_append rfl

theorem singular_eq_self_iff : inflectWord (·.singular) singularRules word = word ↔
    ¬TakenForPlural word ∧ (Regular word → EndsIn word "s" → SingularInS word) := by
  constructor
  · intro same
    exact ⟨not_takenForPlural same, fun regular => singularInS_of_eq_self regular same⟩
  · rintro ⟨other, inS⟩
    rcases uncountable_or_formOf_or_regular word with one | ⟨pair, listed⟩ | regular
    · exact inflectWord_of_uncountable one
    · exact listed.inflectWord_eq_self_iff.mpr fun gives => other ⟨listed.countable, .inr gives⟩
    · by_cases s : EndsIn word "s"
      · exact inflectWord_of_singularInS regular (inS regular s)
      · have none := singularChange_eq_none
          (fun e mem ends => other ⟨regular.not_uncountable, .inl ⟨e, mem, ends⟩⟩) s
        rw [singular_number.inflectWord_of_regular regular, none]
        rfl

/-- A name is a singular if its last word is not taken for a plural and does not end in an s that
would be dropped. -/
theorem singularize_eq_self_iff (name : String) : singularize name = name ↔
    ¬TakenForPlural (lastWord name) ∧
      (Regular (lastWord name) → EndsIn (lastWord name) "s" → SingularInS (lastWord name)) := by
  by_cases empty : name = ""
  · subst empty
    refine iff_of_true rfl ⟨fun taken => taken.nonempty rfl, fun _ s => ?_⟩
    have short := s.length_le
    simp [lastWord, cutLastWord] at short
  · exact (inflected_eq_self_iff empty).trans singular_eq_self_iff

theorem unseparated_of_startsBehind {front : List Char} {d : Char} (small : Text.isCapital d = false)
    (starts : StartsBehind front [d]) : ¬Unseparated front := by
  obtain ⟨b, back, c, first, boundary⟩ := starts
  obtain rfl : d = c := by simpa using first
  intro unseparated
  obtain ⟨underscore, hyphen⟩ := unseparated b back
  simp [isBoundary, small, underscore, hyphen] at boundary

/-- If nothing is left of the last word, a separator comes last, or nothing. -/
theorem not_endsIn_of_nothing (nonempty : name ≠ "") (lone : lastWord name ≠ ['S'])
    (s : endFirst (lastWord name) = ['s'])
    (nothing : inflectWord (·.singular) singularRules (lastWord name) = [])
    (ending : String) (small : InSmallLetters ending.toList) :
    ¬EndsIn (lastWord (singularize name)) ending := by
  intro ends
  obtain ⟨d, last, heard⟩ := List.map_eq_singleton_iff.mp (List.reverse_eq_iff.mp s)
  have notCapital : Text.isCapital d = false := not_capital_of_s heard (by simpa [last] using lone)
  have whole : EndsIn (cutLastWord name.toList).1 ending := by
    have joined : (singularize name).toList = _ := toList_inflected nonempty
    rw [nothing, List.append_nil] at joined
    exact joined ▸ ends.of_suffix (lastWord_suffix _)
  rcases startsBehind_lastWord nonempty with empty | starts
  · rw [empty] at whole
    exact not_endsIn_nil small whole
  · rw [last] at starts
    exact unseparated_of_startsBehind notCapital starts (unseparated_of_endsIn whole small)

theorem becomesSingular (nonempty : name ≠ "") (lone : lastWord name ≠ ['S'])
    (regular : Regular (lastWord name)) : BecomesSingular name := by
  cases found : firstChange? singularRules (endFirst (lastWord name)) with
  | none =>
    refine .stays ?_
    rw [singular_number.inflectWord_of_regular regular, found]
    rfl
  | some change =>
    obtain ⟨rule, mem, kept, dropped, word, ending, makes, outcome⟩ :=
      singular_number.exists_makes regular found
    rw [← List.take_append_drop 21 singularRules, List.mem_append] at mem
    rcases mem with early | late
    · obtain ⟨keeps, nothing⟩ := singularTables.keeps rule early
      by_cases drops : dropped = []
      · have none : change.ending = "" := by simpa [drops] using ending.symm
        refine .stays ?_
        rw [outcome, word, drops, nothing (none ▸ makes.ending)]
        rfl
      · have small := List.all_eq_true.mp (singular_number.small rule (List.mem_of_mem_take early))
        exact .written rule early kept change makes
          (lastWord_inflected_of_kept nonempty word (makes.keeps keeps) drops small outcome)
    · obtain rfl : rule = ⟨.any, ["s"], ""⟩ := List.mem_singleton.mp late
      obtain ⟨ends, replacement, -⟩ := makes
      obtain ⟨_, _⟩ := change
      obtain rfl := List.mem_singleton.mp ends
      obtain rfl := replacement
      by_cases keeps : kept = []
      · subst keeps
        rw [List.nil_append] at word
        exact .separated (not_endsIn_of_nothing nonempty lone (word ▸ ending) outcome)
      · have drops : dropped ≠ [] := by
          rintro rfl
          cases ending
        have last := lastWord_inflected_of_kept nonempty word keeps drops (by simp) outcome
        exact .stripped kept dropped word ending found (last.trans (List.append_nil _))

/-- A word in -ss does not lose an s. -/
theorem not_endsIn_of_stripped {dropped : List Char} (s : endFirst dropped = ['s'])
    (found : firstChange? singularRules (endFirst (kept ++ dropped)) = some ⟨"s", ""⟩) :
    ¬EndsIn kept "s" := by
  intro ends
  obtain ⟨stem, heard⟩ := endsIn_iff.mp ends
  rw [endFirst_append, s, heard] at found
  have ss : firstChange? singularRules ('s' :: 's' :: stem) = some ⟨"", ""⟩ := rfl
  exact absurd (ss.symm.trans found) (by decide)

/-- What becomes singular and ends in -s is such a singular. -/
theorem singularInS_lastWord (lone : lastWord name ≠ ['S'])
    (regular : Regular (lastWord (singularize name)))
    (s : EndsIn (lastWord (singularize name)) "s") :
    SingularInS (lastWord (singularize name)) := by
  have nonempty : name ≠ "" := by
    rintro rfl
    exact not_endsIn_nil (by decide) s
  have regular' : Regular (lastWord name) := by
    by_contra listed
    exact (singular_number.lastWord_of_listed nonempty listed).1 regular
  rcases becomesSingular nonempty lone regular' with
    same | ⟨rule, early, kept, change, makes, last⟩ | ⟨kept, dropped, word, heard, found, last⟩ |
    other
  · have name_eq : singularize name = name := (inflected_eq_self_iff nonempty).mpr same
    rw [name_eq] at s ⊢
    exact singularInS_of_eq_self regular' same s
  · rw [last] at s ⊢
    exact singularInS_of_written early makes s
  · rw [last] at s
    exact absurd s (not_endsIn_of_stripped heard (word ▸ found))
  · exact absurd s (other "s" (by decide))

theorem singularChange_of_alias (ends : EndsIn word "alias") :
    firstChange? singularRules (endFirst word) = some ⟨"", ""⟩ := by
  obtain ⟨stem, heard⟩ := endsIn_iff.mp ends
  rw [heard]
  rfl

/-- A name whose singular ends like a plural from Latin ends so with an s. -/
theorem endsIn_of_singularize (nonempty : name ≠ "") (lone : lastWord name ≠ ['S'])
    (regular : Regular (lastWord name)) (mem : e ∈ latinEndings)
    (ends : EndsIn (lastWord (singularize name)) e) :
    EndsIn (lastWord name) (e ++ "s") ∧ ¬EndsIn (lastWord name) "alias" := by
  rcases becomesSingular nonempty lone regular with
    same | ⟨rule, early, kept, change, makes, last⟩ | ⟨kept, dropped, word, s, found, last⟩ | other
  · have name_eq : singularize name = name := (inflected_eq_self_iff nonempty).mpr same
    rw [name_eq] at ends
    exact absurd ⟨regular.not_uncountable, .inl ⟨e, mem, ends⟩⟩ (not_takenForPlural same)
  · have small := singular_number.small rule (List.mem_of_mem_take early)
    rw [last] at ends
    have apart : ¬EndsIn ([] ++ (kept ++ rule.replacement.toList)) e :=
      not_endsIn_of_written singularTables.apart early small makes (List.mem_append_left _ mem)
    exact absurd ends apart
  · constructor
    · rw [word]
      exact (endsIn_append_iff (List.reverse_eq_iff.mp s)).mpr (last ▸ ends)
    · intro isAlias
      rw [singularChange_of_alias isAlias] at found
      exact absurd found (by decide)
  · exact absurd ends (other e (singularTables.small e mem))

/-- An s behind a plural from Latin is all that is dropped, but in an alias. -/
theorem singularChange_of_latin_s (mem : e ∈ latinEndings) (ends : EndsIn word (e ++ "s"))
    (other : ¬EndsIn word "alias") :
    firstChange? singularRules (endFirst word) = some ⟨"s", ""⟩ := by
  obtain ⟨stem, heard⟩ := endsIn_iff.mp ends
  have silent : firstChange? (singularRules.take 21) (endFirst word) = none := by
    refine firstChange?_eq_none fun rule early pattern listed fits => ?_
    rcases singularTables.latin_s rule early pattern listed e mem with rfl | apart
    · obtain ⟨stem, same⟩ := fits
      exact other (endsIn_iff.mpr ⟨stem, same.symm⟩)
    · exact apart.excludes ⟨stem, heard.symm⟩ fits
  rw [← List.take_append_drop 21 singularRules, firstChange?_append silent, heard,
    String.toList_append, List.reverse_append]
  rfl

theorem endsIn_singularize (nonempty : name ≠ "") (regular : Regular (lastWord name))
    (mem : e ∈ latinEndings) (ends : EndsIn (lastWord name) (e ++ "s"))
    (other : ¬EndsIn (lastWord name) "alias") : EndsIn (lastWord (singularize name)) e := by
  have found := singularChange_of_latin_s mem ends other
  obtain ⟨rule, -, kept, dropped, word, ending, makes, outcome⟩ :=
    singular_number.exists_makes regular found
  rw [← makes.replacement] at outcome
  have drops : dropped ≠ [] := by
    rintro rfl
    cases ending
  have before : EndsIn kept e :=
    (endsIn_append_iff (List.reverse_eq_iff.mp ending)).mp (word ▸ ends)
  have keeps : kept ≠ [] := by
    rintro rfl
    exact not_endsIn_nil (singularTables.small e mem) before
  have last : lastWord (singularize name) = _ :=
    lastWord_inflected_of_kept nonempty word keeps drops (by simp) outcome
  rw [last]
  exact (List.append_nil kept).symm ▸ before

/-- An irregular plural comes only of the same word with an s. -/
theorem endFirst_of_singularize_plural (nonempty : name ≠ "") (lone : lastWord name ≠ ['S'])
    (regular : Regular (lastWord name)) (listed : pair ∈ irregular)
    (plural : lastWord (singularize name) = pair.plural.toList) :
    (lastWord name).map foldCase = pair.plural.toList ++ ['s'] := by
  have small := (irregular_words pair listed).2
  have ends : EndsIn (lastWord (singularize name)) pair.plural := plural ▸ endsIn_of_small small
  rcases becomesSingular nonempty lone regular with
    same | ⟨rule, early, kept, change, makes, last⟩ | ⟨kept, dropped, word, s, found, last⟩ | other
  · have name_eq : singularize name = name := (inflected_eq_self_iff nonempty).mpr same
    rw [name_eq] at plural
    exact absurd (plural ▸ formOf_plural listed) regular.not_formOf
  · have apart : ¬EndsIn ([] ++ (kept ++ rule.replacement.toList)) pair.plural :=
      not_endsIn_of_written singularTables.apart early
        (singular_number.small rule (List.mem_of_mem_take early)) makes
        (List.mem_append_right _ (List.mem_map.mpr ⟨pair, listed, rfl⟩))
    exact absurd (last ▸ ends) apart
  · have heard : dropped.map foldCase = ['s'] := List.reverse_eq_iff.mp s
    rw [word, ← last, plural, List.map_append, map_foldCase_of_small small.small, heard]
  · exact absurd ends (other _ small)

theorem singularize_again_iff (name : String) :
    singularize (singularize name) = singularize name ↔
      ¬TakenForPlural (lastWord (singularize name)) ∧
        (lastWord name = ['S'] → Regular (lastWord (singularize name)) →
          EndsIn (lastWord (singularize name)) "s" →
          SingularInS (lastWord (singularize name))) := by
  refine (singularize_eq_self_iff _).trans (and_congr_right' ⟨fun inS _ => inS, ?_⟩)
  intro inS regular s
  by_cases lone : lastWord name = ['S']
  · exact inS lone regular s
  · exact singularInS_lastWord lone regular s

theorem singularize_of_lone (lone : lastWord name = ['S']) :
    singularize name = String.ofList (cutLastWord name.toList).1 := by
  have nonempty : name ≠ "" := by
    rintro rfl
    cases lone
  have joined : (singularize name).toList = _ := toList_inflected nonempty
  rw [lone, singularTables.lone, List.append_nil] at joined
  rw [← joined, String.ofList_toList]

theorem endsIn_singularize_iff (lone : lastWord name ≠ ['S']) (regular : Regular (lastWord name)) :
    (∃ e ∈ latinEndings, EndsIn (lastWord (singularize name)) e) ↔
      (∃ e ∈ latinEndings, EndsIn (lastWord name) (e ++ "s")) ∧
        ¬EndsIn (lastWord name) "alias" := by
  constructor
  · rintro ⟨e, mem, ends⟩
    have nonempty : name ≠ "" := by
      rintro rfl
      exact not_endsIn_nil (singularTables.small e mem) ends
    obtain ⟨ends, other⟩ := endsIn_of_singularize nonempty lone regular mem ends
    exact ⟨⟨e, mem, ends⟩, other⟩
  · rintro ⟨⟨e, mem, ends⟩, other⟩
    have nonempty : name ≠ "" := by
      rintro rfl
      have short := ends.length_le
      simp [lastWord, cutLastWord] at short
    exact ⟨e, mem, endsIn_singularize nonempty regular mem ends other⟩

/-- The singular of a name without capitals stays if no plural was behind the s. -/
theorem singularize_again_of_noCapitals (plain : NoCapitals name.toList)
    (latin : ∀ e ∈ latinEndings, ¬EndsIn (lastWord name) (e ++ "s"))
    (plural : ∀ pair ∈ irregular, (lastWord name).map foldCase ≠ pair.plural.toList ++ ['s']) :
    singularize (singularize name) = singularize name := by
  by_cases empty : name = ""
  · rw [empty]
    rfl
  by_cases regular : Regular (lastWord name)
  · have lone := plain.lastWord_ne_lone
    refine (singularize_again_iff name).mpr ⟨?_, fun alone => absurd alone lone⟩
    rintro ⟨-, ⟨e, mem, ends⟩ | ⟨pair, listed, other⟩⟩
    · exact latin e mem (endsIn_of_singularize empty lone regular mem ends).1
    · have plain' := singular_number.noCapitals_lastWord empty plain
      obtain ⟨small, same | same⟩ := listed.of_noCapitals plain'
      · exact other (by rw [capitalizeLike_of_small small]; exact same.symm)
      · exact plural pair listed.listed
          (endFirst_of_singularize_plural empty lone regular listed.listed same)
  · exact singular_number.inflected_again_of_listed empty regular

end Inflection

open Inflection

/-- The singular of a singular is the singular itself unless that is taken for a plural. A lone
S at the end of a name is dropped, and only then can there be another s to drop. If the last word
is on no list, the endings of plurals from Latin come of words that end so with an s, but not of
an alias. The singular of a name without capitals stays if neither such an ending nor an irregular
plural stood before the s. -/
theorem singularize_singularize_iff (name : String) :
    (singularize (singularize name) = singularize name ↔
      ¬TakenForPlural (lastWord (singularize name)) ∧
        (lastWord name = ['S'] → Regular (lastWord (singularize name)) →
          EndsIn (lastWord (singularize name)) "s" →
          SingularInS (lastWord (singularize name)))) ∧
    (lastWord name = ['S'] →
      singularize name = String.ofList (cutLastWord name.toList).1) ∧
    (lastWord name ≠ ['S'] → Regular (lastWord name) →
      ((∃ e ∈ latinEndings, EndsIn (lastWord (singularize name)) e) ↔
        (∃ e ∈ latinEndings, EndsIn (lastWord name) (e ++ "s")) ∧
          ¬EndsIn (lastWord name) "alias")) ∧
    (NoCapitals name.toList →
      (∀ e ∈ latinEndings, ¬EndsIn (lastWord name) (e ++ "s")) →
      (∀ pair ∈ irregular, (lastWord name).map foldCase ≠ pair.plural.toList ++ ['s']) →
      singularize (singularize name) = singularize name) :=
  ⟨singularize_again_iff name, singularize_of_lone, endsIn_singularize_iff,
    singularize_again_of_noCapitals⟩

/-- A total is no plural, and so it stays; a lone S goes. -/
theorem totals_are_singular :
    (lastWord "salesTotals" ≠ ['S'] ∧
      singularize (singularize "salesTotals") = singularize "salesTotals") ∧
    (lastWord "salesS" = ['S'] ∧
      singularize "salesS" = String.ofList (cutLastWord "salesS".toList).1) ∧
    (Regular (lastWord "salesTotals") ∧
      ¬∃ e ∈ latinEndings, EndsIn (lastWord (singularize "salesTotals")) e) ∧
    NoCapitals "sales_totals".toList ∧
      (∀ e ∈ latinEndings, ¬EndsIn (lastWord "sales_totals") (e ++ "s")) ∧
      (∀ pair ∈ irregular,
        (lastWord "sales_totals").map foldCase ≠ pair.plural.toList ++ ['s']) ∧
      singularize (singularize "sales_totals") = singularize "sales_totals" := by
  have lone : lastWord "salesTotals" ≠ ['S'] := by decide
  have alone : lastWord "salesS" = ['S'] := by decide
  have regular : Regular (lastWord "salesTotals") := by decide
  have regular' : Regular (lastWord (singularize "salesTotals")) := by decide
  have plain : ¬∃ e ∈ latinEndings, EndsIn (lastWord "salesTotals") (e ++ "s") := by
    decide
  have small : NoCapitals "sales_totals".toList := by decide
  have latin : ∀ e ∈ latinEndings, ¬EndsIn (lastWord "sales_totals") (e ++ "s") := by
    decide
  have plural : ∀ pair ∈ irregular,
      (lastWord "sales_totals").map foldCase ≠ pair.plural.toList ++ ['s'] := by
    decide
  obtain ⟨stays, -, ends, -⟩ := singularize_singularize_iff "salesTotals"
  obtain ⟨-, drops, -, -⟩ := singularize_singularize_iff "salesS"
  obtain ⟨-, -, -, plainly⟩ := singularize_singularize_iff "sales_totals"
  have other := fun found => plain ((ends lone regular).mp found).1
  refine ⟨⟨lone, stays.mpr ⟨?_, fun alone => absurd alone lone⟩⟩, ⟨alone, drops alone⟩, ⟨regular, other⟩,
    small, latin, plural, plainly small latin plural⟩
  rintro ⟨-, found | gives⟩
  · exact other found
  · exact regular'.not_givesWay gives

/-- A quota ends like data. -/
theorem quotas_become_quotums :
    singularize "quotas" = "quota" ∧ singularize (singularize "quotas") = "quotum" ∧
      ¬∀ name : String, singularize (singularize name) = singularize name := by
  have once : singularize "quotas" = "quota" := by decide
  have twice : singularize "quota" = "quotum" := by decide
  rw [← once] at twice
  refine ⟨once, twice, fun stays => ?_⟩
  have same := (stays "quotas").symm.trans twice
  rw [once] at same
  exact absurd same (by decide)

end AggFlatten
