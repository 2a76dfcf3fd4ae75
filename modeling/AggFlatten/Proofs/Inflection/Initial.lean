import AggFlatten.Proofs.Inflection.Twice

/-! The first letter of a name, and its case. It stays what it is, since a rule keeps the word up
to an ending and both forms of an irregular word begin alike. Only a rule that keeps nothing,
because the ending is the whole word, writes a first letter of its own. -/
namespace AggFlatten

open Inflection

namespace Inflection

variable {form : WordPair → String} {rules : List Rule} {name : String} {pair : WordPair}
  {word model : List Char} {c : Char}

def initial? (name : String) : Option Char :=
  name.toList.head?

/-- The name is a single word, and this one if case is left aside. -/
structure Spells (name word : String) : Prop where
  isWord : IsWord name.toList
  heard : name.toList.map foldCase = word.toList

/-- A first letter that is a capital letter is followed by one that is, and a first letter that is
lower case, in any sense in which an s is, by one that is. -/
structure KeepsCase (name result : String) : Prop where
  upper : ∀ c ∈ initial? name, Text.isCapital c = true →
    ∃ d ∈ initial? result, Text.isCapital d = true
  lower : ∀ Lower : Char → Prop, Lower 's' → ∀ c ∈ initial? name, Lower c →
    ∃ d ∈ initial? result, Lower d

theorem toUpper_toLower_ofNat : ∀ n < 91, 65 ≤ (Char.ofNat n).toNat →
    (Char.ofNat n).toLower.toUpper = Char.ofNat n := by
  decide

theorem toUpper_toLower (capital : Text.isCapital c = true) (small : IsSmall c.toLower) :
    c.toLower.toUpper = c := by
  by_cases large : c.val ≥ 'A'.val ∧ c.val ≤ 'Z'.val
  · have below : c.toNat < 91 := Nat.lt_succ_of_le large.2
    exact of_ofNat (P := fun c => 65 ≤ c.toNat → c.toLower.toUpper = c)
      toUpper_toLower_ofNat below large.1
  · have kept : c.toLower = c := dif_neg large
    rw [kept] at small
    rw [small.not_capital] at capital
    cases capital

/-- A word that begins with the same letter takes over its case, too. -/
theorem head?_capitalizeLike (small : InSmallLetters word)
    (alike : (lowercase model).head? = word.head?) :
    (capitalizeLike model word).head? = model.head? := by
  obtain ⟨c, word, rfl⟩ := List.exists_cons_of_ne_nil small.nonempty
  have first := small.small c List.mem_cons_self
  rw [lowercase, List.head?_map, List.head?_cons] at alike
  obtain ⟨m, model, rfl⟩ : ∃ m rest, model = m :: rest := by
    cases model with
    | nil => cases alike
    | cons m rest => exact ⟨m, rest, rfl⟩
  obtain rfl : m.toLower = c := Option.some.inj alike
  rw [capitalizeLike_eq]
  cases capital : Text.isCapital m with
  | true => simp [capital, toUpper_toLower capital first]
  | false => simp [capital, toLower_of_not_capital capital]

theorem irregular_begin_alike : ∀ pair ∈ irregular,
    pair.singular.toList.head? = pair.plural.toList.head? := by
  decide

theorem FormOf.head?_lowercase (listed : FormOf pair word) :
    (lowercase word).head? = pair.singular.toList.head? := by
  rcases listed.form with same | same
  · rw [same]
  · rw [same, irregular_begin_alike pair listed.listed]

theorem Number.head?_of_formOf (number : Number form rules) (listed : FormOf pair word) :
    (inflectWord form rules word).head? = word.head? := by
  obtain ⟨small, other⟩ := number.forms pair listed.listed
  rw [inflectWord_of_formOf listed]
  apply head?_capitalizeLike small
  rw [listed.head?_lowercase, ← other.head?_lowercase, lowercase_of_small small]

/-- An ending that a rule of the list accepts for a whole word. -/
def Swallowed (rules : List Rule) (ending : String) : Prop :=
  ∃ rule ∈ rules, rule.stem.fits [] = true ∧ ending ∈ rule.endings

/-- A word keeps its first letter unless it is no more than an ending. -/
theorem Number.head?_inflectWord (number : Number form rules) (word : List Char) :
    (inflectWord form rules word).head? = word.head? ∨
      ∃ ending, Swallowed rules ending ∧ word.map foldCase = ending.toList := by
  rcases uncountable_or_formOf_or_regular word with one | ⟨pair, listed⟩ | regular
  · exact .inl (by rw [inflectWord_of_uncountable one])
  · exact .inl (number.head?_of_formOf listed)
  · cases found : firstChange? rules (endFirst word) with
    | none => exact .inl (by rw [number.inflectWord_of_regular regular, found]; rfl)
    | some change =>
      obtain ⟨rule, mem, kept, dropped, rfl, ending, makes, outcome⟩ :=
        number.exists_makes regular found
      rw [outcome]
      cases kept with
      | nil =>
        -- The stem is empty, so what is heard of the word is the ending and no more.
        refine .inr ⟨change.ending, ⟨rule, mem, makes.fits, makes.ending⟩, ?_⟩
        exact List.reverse_inj.mp ending
      | cons c kept => exact .inl rfl

theorem Regular.of_heard {u : String} (heard : word.map foldCase = u.toList)
    (unlisted : u ∉ listedWords) : Regular word := by
  refine regular_iff.mpr fun v listed same => unlisted ?_
  have small := listsAreSound.small v listed
  rw [map_foldCase_of_lowercase (same ▸ small), same] at heard
  rwa [← String.toList_inj.mp heard]

/-- A word that is no more than the ending gives way to what is written for it. -/
theorem Number.inflectWord_of_heard {u replacement : String} (number : Number form rules)
    (heard : word.map foldCase = u.toList) (unlisted : u ∉ listedWords)
    (found : firstChange? rules u.toList.reverse = some ⟨u, replacement⟩) :
    inflectWord form rules word = replacement.toList := by
  have length := congrArg List.length heard
  rw [List.length_map] at length
  have found : firstChange? rules (endFirst word) = some ⟨u, replacement⟩ := by
    rw [endFirst, heard, found]
  rw [number.inflectWord_of_change (.of_heard heard unlisted) found, Change.apply]
  simp [length]

theorem Number.inflected_of_spells {u replacement : String} (number : Number form rules)
    (spells : Spells name u) (unlisted : u ∉ listedWords)
    (found : firstChange? rules u.toList.reverse = some ⟨u, replacement⟩) :
    inflected form rules name = replacement := by
  rw [inflected, inflect_word _ _ spells.isWord,
    number.inflectWord_of_heard spells.heard unlisted found, String.ofList_toList]

/-- In front of the last word nothing changes. -/
theorem initial?_inflected_of_not_isWord (nonempty : name ≠ "") (several : ¬IsWord name.toList) :
    initial? (inflected form rules name) = initial? name := by
  have joined := cutLastWord_append name.toList
  have front : (cutLastWord name.toList).1 ≠ [] := by
    intro none
    rw [none, List.nil_append] at joined
    exact several (joined ▸ isWord_lastWord nonempty)
  rw [initial?, initial?, toList_inflected nonempty, List.head?_append_of_ne_nil _ front]
  conv_rhs => rw [← joined, List.head?_append_of_ne_nil _ front]

theorem Number.initial?_inflected (number : Number form rules) (nonempty : name ≠ "") :
    initial? (inflected form rules name) = initial? name ∨
      ∃ ending, Swallowed rules ending ∧ Spells name ending := by
  by_cases isWord : IsWord name.toList
  · rw [inflected, inflect_word _ _ isWord, initial?, String.toList_ofList]
    refine (number.head?_inflectWord name.toList).imp_right ?_
    rintro ⟨ending, swallowed, heard⟩
    exact ⟨ending, swallowed, isWord, heard⟩
  · exact .inl (initial?_inflected_of_not_isWord nonempty isWord)

theorem initial?_eq_none_iff : initial? name = none ↔ name = "" := by
  simp [initial?]

theorem Spells.not_empty (spells : Spells name "") : False :=
  spells.isWord.nonempty (List.map_eq_nil_iff.mp spells.heard)

theorem swallowed_by_plural : ∀ rule ∈ pluralRules, rule.stem.fits [] = true →
    ∀ ending ∈ rule.endings, ending ∈ ["", "s", "sis"] := by
  decide

theorem swallowed_by_singular : ∀ rule ∈ singularRules, rule.stem.fits [] = true →
    ∀ ending ∈ rule.endings, ending = "s" := by
  decide

theorem initial?_pluralize (nonempty : name ≠ "") (s : ¬Spells name "s")
    (sis : ¬Spells name "sis") : initial? (pluralize name) = initial? name := by
  refine (plural_number.initial?_inflected nonempty).resolve_right ?_
  rintro ⟨ending, ⟨rule, mem, fits, among⟩, spells⟩
  have listed := swallowed_by_plural rule mem fits ending among
  simp only [List.mem_cons, List.not_mem_nil, or_false] at listed
  rcases listed with rfl | rfl | rfl
  · exact spells.not_empty
  · exact s spells
  · exact sis spells

theorem initial?_singularize (nonempty : name ≠ "") (s : ¬Spells name "s") :
    initial? (singularize name) = initial? name := by
  refine (singular_number.initial?_inflected nonempty).resolve_right ?_
  rintro ⟨ending, ⟨rule, mem, fits, among⟩, spells⟩
  obtain rfl := swallowed_by_singular rule mem fits ending among
  exact s spells

theorem Spells.pluralize_s (spells : Spells name "s") : pluralize name = "s" :=
  plural_number.inflected_of_spells spells (by decide) (by decide)

theorem Spells.pluralize_sis (spells : Spells name "sis") : pluralize name = "ses" :=
  plural_number.inflected_of_spells spells (by decide) (by decide)

theorem Spells.singularize_s (spells : Spells name "s") : singularize name = "" :=
  singular_number.inflected_of_spells spells (by decide) (by decide)

theorem Spells.foldCase_initial {word : String} (spells : Spells name word)
    (first : initial? word = some 's') : ∃ c, initial? name = some c ∧ foldCase c = 's' := by
  have heads := congrArg List.head? spells.heard
  rw [List.head?_map, ← initial?, ← initial?, first] at heads
  exact Option.map_eq_some_iff.mp heads

namespace KeepsCase

variable {result : String}

theorem of_same (same : initial? result = initial? name) : KeepsCase name result where
  upper c first capital := ⟨c, same ▸ first, capital⟩
  lower _ _ c first small := ⟨c, same ▸ first, small⟩

theorem not_of_empty (nonempty : name ≠ "") : ¬KeepsCase name "" := by
  intro keeps
  obtain ⟨c, first⟩ := Option.ne_none_iff_exists'.mp (mt initial?_eq_none_iff.mp nonempty)
  obtain ⟨d, none, _⟩ := keeps.lower (fun _ => True) trivial c first trivial
  cases none

/-- Where an s takes the place of an s, only a capital one loses its case. -/
theorem iff_of_s (first : initial? name = some c) (heard : foldCase c = 's')
    (written : initial? result = some 's') : KeepsCase name result ↔ c ≠ 'S' := by
  constructor
  · rintro keeps rfl
    obtain ⟨d, same, capital⟩ := keeps.upper 'S' first (by decide)
    obtain rfl := Option.some.inj (written.symm.trans same)
    revert capital
    decide
  · intro other
    refine ⟨?_, fun Lower s _ _ _ => ⟨'s', written, s⟩⟩
    intro d same capital
    obtain rfl := Option.some.inj (first.symm.trans same)
    rw [not_capital_of_s heard other] at capital
    cases capital

end KeepsCase

theorem keepsCase_pluralize_iff (nonempty : name ≠ "") : KeepsCase name (pluralize name) ↔
    ¬((Spells name "s" ∨ Spells name "sis") ∧ initial? name = some 'S') := by
  by_cases spells : Spells name "s" ∨ Spells name "sis"
  · have written : initial? (pluralize name) = some 's' := by
      rcases spells with s | sis
      · rw [s.pluralize_s]; decide
      · rw [sis.pluralize_sis]; decide
    obtain ⟨c, first, heard⟩ : ∃ c, initial? name = some c ∧ foldCase c = 's' := by
      rcases spells with s | sis
      · exact s.foldCase_initial (by decide)
      · exact sis.foldCase_initial (by decide)
    rw [KeepsCase.iff_of_s first heard written, first, Option.some.injEq]
    simp [spells]
  · have apart := not_or.mp spells
    have keeps := KeepsCase.of_same (initial?_pluralize nonempty apart.1 apart.2)
    simp [spells, keeps]

theorem keepsCase_singularize_iff (nonempty : name ≠ "") :
    KeepsCase name (singularize name) ↔ ¬Spells name "s" := by
  constructor
  · intro keeps spells
    rw [spells.singularize_s] at keeps
    exact KeepsCase.not_of_empty nonempty keeps
  · intro other
    exact .of_same (initial?_singularize nonempty other)

theorem pluralize_ne_empty (nonempty : name ≠ "") : pluralize name ≠ "" := by
  by_cases s : Spells name "s"
  · rw [s.pluralize_s]; decide
  · by_cases sis : Spells name "sis"
    · rw [sis.pluralize_sis]; decide
    · rw [Ne, ← initial?_eq_none_iff, initial?_pluralize nonempty s sis, initial?_eq_none_iff]
      exact nonempty

theorem singularize_eq_empty_iff (nonempty : name ≠ "") :
    singularize name = "" ↔ Spells name "s" := by
  refine ⟨fun none => ?_, Spells.singularize_s⟩
  by_contra other
  rw [← initial?_eq_none_iff, initial?_singularize nonempty other, initial?_eq_none_iff] at none
  exact nonempty none

end Inflection

/-- No plural is empty, and no singular but that of an s alone. The first letter of a name is that
of its plural and its singular, but for a name that is s or sis, whatever the case: its plural is
in small letters, and of an s alone no singular is left. -/
theorem first_letter_keeps_case (name : String) (nonempty : name ≠ "") :
    (pluralize name ≠ "" ∧ (singularize name = "" ↔ Spells name "s")) ∧
    (KeepsCase name (pluralize name) ↔
      ¬((Spells name "s" ∨ Spells name "sis") ∧ initial? name = some 'S')) ∧
    (KeepsCase name (singularize name) ↔ ¬Spells name "s") ∧
    (¬Spells name "s" → ¬Spells name "sis" → initial? (pluralize name) = initial? name) ∧
    (¬Spells name "s" → initial? (singularize name) = initial? name) ∧
    (Spells name "s" → pluralize name = "s") ∧ (Spells name "sis" → pluralize name = "ses") :=
  ⟨⟨pluralize_ne_empty nonempty, singularize_eq_empty_iff nonempty⟩,
    keepsCase_pluralize_iff nonempty, keepsCase_singularize_iff nonempty,
    initial?_pluralize nonempty, initial?_singularize nonempty,
    Spells.pluralize_s, Spells.pluralize_sis⟩

/-- A basis is more than its ending, a sis is not. -/
theorem basis_keeps_case :
    ("Basis" ≠ "" ∧ KeepsCase "Basis" (pluralize "Basis") ∧
      KeepsCase "Basis" (singularize "Basis")) ∧
    ("sis" ≠ "" ∧ Spells "sis" "sis" ∧ pluralize "sis" = "ses") := by
  have longer (word : String) (other : "basis" ≠ word) : ¬Spells "Basis" word := by
    intro spells
    exact other (String.toList_inj.mp spells.heard)
  have sis : Spells "sis" "sis" := ⟨InSmallLetters.isWord (by decide), by decide⟩
  obtain ⟨-, plural, singular, -⟩ := first_letter_keeps_case "Basis" (by decide)
  obtain ⟨-, -, -, -, -, -, ses⟩ := first_letter_keeps_case "sis" (by decide)
  refine ⟨⟨by decide, plural.mpr ?_, singular.mpr (longer "s" (by decide))⟩, by decide, sis, ses sis⟩
  rintro ⟨s | sis, -⟩
  · exact longer "s" (by decide) s
  · exact longer "sis" (by decide) sis

/-- A capital is lost with the letters that the ending takes away, and an s alone is lost. -/
theorem sis_loses_its_capital :
    pluralize "Sis" = "ses" ∧ singularize "s" = "" ∧
      ¬∀ name : String, name ≠ "" → (pluralize name ≠ "" ∧ singularize name ≠ "") ∧
        KeepsCase name (pluralize name) ∧ KeepsCase name (singularize name) := by
  have plural : pluralize "Sis" = "ses" := by decide
  have singular : singularize "s" = "" := by decide
  refine ⟨plural, singular, fun kept => ?_⟩
  obtain ⟨c, first, capital⟩ := (kept "Sis" (by decide)).2.1.upper 'S' (by decide) (by decide)
  rw [plural] at first
  obtain rfl : 's' = c := Option.some.inj first
  revert capital
  decide

end AggFlatten
