import AggFlatten.Proofs.Inflection.Letters

/-! The words of the lists. A word of a list stands for itself in any case, and the rules see
only words that are on no list. -/
namespace AggFlatten.Inflection

deriving instance DecidableEq for WordPair

variable {word model : List Char} {pair : WordPair}

/-- The word has one form for both numbers. -/
def Uncountable (word : List Char) : Prop :=
  ∃ u ∈ uncountable, lowercase word = u.toList

/-- The word is the one form or the other of an irregular pair. -/
structure FormOf (pair : WordPair) (word : List Char) : Prop where
  listed : pair ∈ irregular
  form : lowercase word = pair.singular.toList ∨ lowercase word = pair.plural.toList

/-- The word is on none of the lists. -/
structure Regular (word : List Char) : Prop where
  countable : ∀ u ∈ uncountable, lowercase word ≠ u.toList
  regular : ∀ pair ∈ irregular,
    lowercase word ≠ pair.singular.toList ∧ lowercase word ≠ pair.plural.toList

theorem lowercase_append {kept more : List Char} :
    lowercase (kept ++ more) = lowercase kept ++ lowercase more :=
  List.map_append

theorem lowercase_of_small (small : InSmallLetters word) : lowercase word = word :=
  (List.map_congr_left fun c mem => (small.small c mem).toLower).trans (List.map_id' word)

theorem lowercase_of_noCapitals (plain : NoCapitals word) : lowercase word = word :=
  (List.map_congr_left fun c mem => toLower_of_not_capital (plain c mem)).trans (List.map_id' word)

/-- All words of the lists. -/
def listedWords : List String :=
  uncountable ++ irregular.flatMap fun pair => [pair.singular, pair.plural]

theorem regular_iff : Regular word ↔ ∀ u ∈ listedWords, lowercase word ≠ u.toList := by
  simp only [listedWords, List.mem_append, List.mem_flatMap, List.mem_cons, List.not_mem_nil,
    or_false]
  constructor
  · rintro regular u (mem | ⟨pair, mem, rfl | rfl⟩)
    · exact regular.countable u mem
    · exact (regular.regular pair mem).1
    · exact (regular.regular pair mem).2
  · intro other
    exact ⟨fun u mem => other u (.inl mem), fun pair mem =>
      ⟨other _ (.inr ⟨pair, mem, .inl rfl⟩), other _ (.inr ⟨pair, mem, .inr rfl⟩)⟩⟩

instance : Decidable (Regular word) :=
  decidable_of_iff _ regular_iff.symm

/-- The lists are in small letters, and no word has two places on them. -/
structure ListsAreSound : Prop where
  small : ∀ u ∈ listedWords, InSmallLetters u.toList
  forms : ∀ pair ∈ irregular,
    irregular? pair.singular.toList = some pair ∧ irregular? pair.plural.toList = some pair
  uncountable : ∀ u ∈ uncountable, irregular? u.toList = none

theorem listsAreSound : ListsAreSound where
  small := by decide
  forms := by decide
  uncountable := by decide

theorem irregular_words (pair : WordPair) (listed : pair ∈ irregular) :
    InSmallLetters pair.singular.toList ∧ InSmallLetters pair.plural.toList := by
  constructor <;>
  · refine listsAreSound.small _ (List.mem_append_right _ (List.mem_flatMap.mpr ⟨pair, listed, ?_⟩))
    simp

theorem FormOf.irregular? (form : FormOf pair word) : irregular? (lowercase word) = some pair := by
  obtain ⟨one, many⟩ := listsAreSound.forms pair form.listed
  rcases form.form with same | same
  · rw [same, one]
  · rw [same, many]

theorem FormOf.unique {pair' : WordPair} (form : FormOf pair word) (form' : FormOf pair' word) :
    pair = pair' :=
  Option.some.inj (form.irregular?.symm.trans form'.irregular?)

theorem formOf_of_irregular? (found : irregular? (lowercase word) = some pair) :
    FormOf pair word := by
  have form := List.find?_some found
  refine ⟨List.mem_of_find?_eq_some found, ?_⟩
  simpa using form

theorem FormOf.countable (form : FormOf pair word) : ¬Uncountable word := by
  rintro ⟨u, mem, same⟩
  have none := listsAreSound.uncountable u mem
  rw [← same, form.irregular?] at none
  cases none

theorem Regular.irregular? (regular : Regular word) : irregular? (lowercase word) = none := by
  refine List.find?_eq_none.mpr fun pair mem => ?_
  simpa using regular.regular pair mem

/-- A word is uncountable, or irregular, or on none of the lists. -/
theorem uncountable_or_formOf_or_regular (word : List Char) :
    Uncountable word ∨ (∃ pair, FormOf pair word) ∨ Regular word := by
  by_cases listed : Uncountable word
  · exact .inl listed
  · refine .inr ?_
    cases found : Inflection.irregular? (lowercase word) with
    | some pair => exact .inl ⟨pair, formOf_of_irregular? found⟩
    | none =>
      refine .inr ⟨fun u mem same => listed ⟨u, mem, same⟩, fun pair mem => ?_⟩
      simpa using List.find?_eq_none.mp found pair mem

theorem FormOf.nonempty (listed : FormOf pair word) : word ≠ [] := by
  rintro rfl
  obtain ⟨one, many⟩ := irregular_words pair listed.listed
  rcases listed.form with same | same
  · exact one.nonempty same.symm
  · exact many.nonempty same.symm

theorem formOf_singular (listed : pair ∈ irregular) : FormOf pair pair.singular.toList :=
  ⟨listed, .inl (lowercase_of_small (irregular_words pair listed).1)⟩

theorem formOf_plural (listed : pair ∈ irregular) : FormOf pair pair.plural.toList :=
  ⟨listed, .inr (lowercase_of_small (irregular_words pair listed).2)⟩

/-- Forms and rules of one number. The forms are words of their pairs, and what is written is in
small letters. -/
structure Number (form : WordPair → String) (rules : List Rule) : Prop where
  forms : ∀ pair ∈ irregular, InSmallLetters (form pair).toList ∧ FormOf pair (form pair).toList
  plain : ∀ rule ∈ rules, 'ſ' ∉ rule.letters
  small : ∀ rule ∈ rules, rule.replacement.toList.all Char.isLower

theorem plural_number : Number (·.plural) pluralRules where
  forms := fun pair listed => ⟨(irregular_words pair listed).2, formOf_plural listed⟩
  plain := by decide
  small := by decide

theorem singular_number : Number (·.singular) singularRules where
  forms := fun pair listed => ⟨(irregular_words pair listed).1, formOf_singular listed⟩
  plain := by decide
  small := by decide

section

variable {form : WordPair → String} {rules : List Rule}

/-- An irregular word without capitals is written as on the list. -/
theorem FormOf.of_noCapitals (listed : FormOf pair word) (plain : NoCapitals word) :
    InSmallLetters word ∧ (word = pair.singular.toList ∨ word = pair.plural.toList) := by
  have form := listed.form
  rw [lowercase_of_noCapitals plain] at form
  obtain ⟨one, many⟩ := irregular_words pair listed.listed
  refine ⟨?_, form⟩
  rcases form with rfl | rfl
  · exact one
  · exact many

theorem inflectWord_of_uncountable (listed : Uncountable word) :
    inflectWord form rules word = word := by
  have found : (uncountable.any fun u => lowercase word = u.toList) = true := by
    simpa [Uncountable] using listed
  rw [inflectWord]
  exact if_pos found

theorem inflectWord_of_countable (countable : ¬Uncountable word) :
    inflectWord form rules word =
      match irregular? (lowercase word) with
      | some pair => capitalizeLike word (form pair).toList
      | none => ((firstOutcome? rules word.reverse).map List.reverse).getD word := by
  have missing : ¬(uncountable.any fun u => lowercase word = u.toList) = true := by
    simpa [Uncountable] using countable
  rw [inflectWord, if_neg missing]
  cases irregular? (lowercase word) with
  | some pair => rfl
  | none => cases firstOutcome? rules word.reverse <;> rfl

theorem inflectWord_of_formOf (listed : FormOf pair word) :
    inflectWord form rules word = capitalizeLike word (form pair).toList := by
  rw [inflectWord_of_countable listed.countable, listed.irregular?]

/-- The rules are left with the words that are on no list. -/
theorem Number.inflectWord_of_regular (number : Number form rules) (regular : Regular word) :
    inflectWord form rules word =
      ((firstChange? rules (endFirst word)).map (·.apply word)).getD word := by
  have countable : ¬Uncountable word := fun ⟨u, mem, same⟩ => regular.countable u mem same
  rw [inflectWord_of_countable countable, regular.irregular?, firstOutcome?_reverse number.plain]
  cases firstChange? rules (endFirst word) <;> simp

theorem Number.inflectWord_of_change {change : Change} (number : Number form rules)
    (regular : Regular word) (found : firstChange? rules (endFirst word) = some change) :
    inflectWord form rules word = change.apply word := by
  rw [number.inflectWord_of_regular regular, found, Option.map_some, Option.getD_some]

/-- A rule writes its replacement behind what is kept of the word. -/
theorem Number.exists_makes {change : Change} (number : Number form rules)
    (regular : Regular word) (found : firstChange? rules (endFirst word) = some change) :
    ∃ rule ∈ rules, ∃ kept dropped, word = kept ++ dropped ∧
      endFirst dropped = change.ending.toList.reverse ∧ rule.Makes change (endFirst kept) ∧
      inflectWord form rules word = kept ++ rule.replacement.toList := by
  obtain ⟨rule, mem, kept, dropped, same, ending, makes, outcome⟩ := makes_of_firstChange? found
  rw [makes.replacement] at outcome
  exact ⟨rule, mem, kept, dropped, same, ending, makes,
    (number.inflectWord_of_change regular found).trans outcome⟩

end

section

variable {c : Char} {rest : List Char}

theorem capitalizeLike_eq (model : List Char) :
    capitalizeLike model (c :: rest) =
      (if model.head?.map Text.isCapital = some true then c.toUpper else c) :: rest := by
  cases model with
  | nil => rfl
  | cons m model =>
    cases capital : Text.isCapital m <;> simp [capitalizeLike, capital]

end

theorem capitalizeLike_of_small (small : InSmallLetters model) (word : List Char) :
    capitalizeLike model word = word := by
  obtain ⟨m, model, rfl⟩ := List.exists_cons_of_ne_nil small.nonempty
  have first := (small.small m List.mem_cons_self).not_capital
  cases word <;> simp [capitalizeLike, first]

theorem capitalizeLike_congr {model' : List Char} (alike : StartAlike model model')
    (word : List Char) : capitalizeLike model word = capitalizeLike model' word := by
  cases word with
  | nil => cases model <;> cases model' <;> rfl
  | cons c word => rw [capitalizeLike_eq, capitalizeLike_eq, alike]

/-- A word in small letters that takes over the case of another. -/
theorem startAlike_capitalizeLike (nonempty : model ≠ []) (small : InSmallLetters word) :
    StartAlike model (capitalizeLike model word) := by
  obtain ⟨m, model, rfl⟩ := List.exists_cons_of_ne_nil nonempty
  obtain ⟨c, word, rfl⟩ := List.exists_cons_of_ne_nil small.nonempty
  have first := small.small c List.mem_cons_self
  rw [capitalizeLike_eq, StartAlike]
  cases capital : Text.isCapital m <;>
    simp [capital, first.not_capital, first.capital_toUpper]

theorem lowercase_capitalizeLike (small : InSmallLetters word) :
    lowercase (capitalizeLike model word) = word := by
  obtain ⟨c, word, rfl⟩ := List.exists_cons_of_ne_nil small.nonempty
  have same := lowercase_of_small small
  have first := small.small c List.mem_cons_self
  rw [lowercase, List.map_cons, List.cons.injEq] at same
  rw [capitalizeLike_eq, lowercase, List.map_cons, same.2]
  split
  · rw [first.toLower_toUpper]
  · rw [first.toLower]

theorem isWord_capitalizeLike (small : InSmallLetters word) :
    IsWord (capitalizeLike model word) := by
  obtain ⟨c, word, rfl⟩ := List.exists_cons_of_ne_nil small.nonempty
  obtain ⟨first, later⟩ := List.forall_mem_cons.mp small.small
  rw [capitalizeLike_eq]
  split
  · have capital : IsWord [c.toUpper] := ⟨List.cons_ne_nil _ _, List.IsChain.singleton _⟩
    exact capital.append_small (by simpa [Unseparated] using first.inside_toUpper) later
  · exact small.isWord

end AggFlatten.Inflection
