import AggFlatten.Proofs.Inflection.Place

/-! Names that are inflected again. What has become of the last word decides whether they stay
as they are: a word that is on no list stays if the first rule that applies writes the ending
that is there. -/
namespace AggFlatten.Inflection

variable {form : WordPair → String} {rules : List Rule} {name : String} {pair : WordPair}
  {word kept dropped more : List Char} {endings : List String}

/-- The word is irregular, and the form is not written as it is. -/
def GivesWay (form : WordPair → String) (word : List Char) : Prop :=
  ∃ pair, FormOf pair word ∧ capitalizeLike word (form pair).toList ≠ word

theorem Regular.not_uncountable (regular : Regular word) : ¬Uncountable word :=
  fun ⟨u, mem, same⟩ => regular.countable u mem same

theorem Regular.not_formOf (regular : Regular word) : ¬FormOf pair word := fun listed => by
  have none := regular.irregular?
  rw [listed.irregular?] at none
  cases none

theorem Regular.not_givesWay (regular : Regular word) : ¬GivesWay form word :=
  fun ⟨_, listed, _⟩ => regular.not_formOf listed

theorem FormOf.inflectWord_eq_self_iff (listed : FormOf pair word) :
    inflectWord form rules word = word ↔ ¬GivesWay form word := by
  rw [inflectWord_of_formOf listed]
  constructor
  · rintro same ⟨pair', listed', other⟩
    rw [← listed.unique listed'] at other
    exact other same
  · intro stays
    by_contra other
    exact stays ⟨pair, listed, other⟩

theorem inflectWord_eq_self_of_listed (listed : ¬Regular word) (stays : ¬GivesWay form word) :
    inflectWord form rules word = word := by
  rcases uncountable_or_formOf_or_regular word with one | ⟨pair, form'⟩ | regular
  · exact inflectWord_of_uncountable one
  · exact form'.inflectWord_eq_self_iff.mpr stays
  · exact absurd regular listed

/-- A word stays if the ending that is written was there. -/
theorem Number.inflectWord_ne_self {change : Change} (number : Number form rules)
    (regular : Regular word)
    (found : firstChange? rules (endFirst word) = some change)
    (other : change.ending.toList.reverse ≠ endFirst change.replacement.toList) :
    inflectWord form rules word ≠ word := by
  rw [number.inflectWord_of_change regular found]
  obtain ⟨rule, mem, kept, dropped, rfl, ending, makes, outcome⟩ := makes_of_firstChange? found
  rw [outcome]
  intro same
  exact other (by rw [List.append_cancel_left same, ending])

theorem map_foldCase_of_lowercase (small : InSmallLetters (lowercase word)) :
    word.map foldCase = lowercase word :=
  List.map_congr_left fun c mem =>
    foldCase_of_toLower (small.small _ (List.mem_map.mpr ⟨c, mem, rfl⟩))

theorem endsIn_of_small {ending : String} (small : InSmallLetters ending.toList) :
    EndsIn ending.toList ending :=
  ⟨[], (map_foldCase_of_small small.small).symm⟩

theorem listed_of_not_regular (listed : ¬Regular word) :
    ∃ u ∈ listedWords, lowercase word = u.toList := by
  simpa [regular_iff] using listed

/-- A word ends as it does in lower case. -/
theorem not_endsIn_of_lowercase {u : String} (small : InSmallLetters u.toList)
    (same : lowercase word = u.toList) (apart : ∀ e ∈ endings, ¬e.toList <:+ u.toList) :
    ∀ e ∈ endings, ¬EndsIn word e := by
  intro e mem ends
  rw [EndsIn, map_foldCase_of_lowercase (same ▸ small), same] at ends
  exact apart e mem ends

theorem not_endsIn_of_listed (listed : ¬Regular word)
    (apart : ∀ u ∈ listedWords, ∀ e ∈ endings, ¬e.toList <:+ u.toList) :
    ∀ e ∈ endings, ¬EndsIn word e := by
  obtain ⟨u, listed, same⟩ := listed_of_not_regular listed
  exact not_endsIn_of_lowercase (listsAreSound.small u listed) same (apart u listed)

/-- What rules write behind their stems rules out other endings. -/
theorem not_endsIn_of_written {front : List Char} {rule : Rule} {change : Change} {e : String}
    (apart : ∀ rule ∈ rules, ∀ stem ∈ rule.stems, ∀ e ∈ endings,
      Apart (rule.replacement.toList.reverse ++ stem.toList.reverse) e.toList.reverse)
    (mem : rule ∈ rules) (small : rule.replacement.toList.all Char.isLower)
    (makes : rule.Makes change (endFirst kept)) (ending : e ∈ endings) :
    ¬EndsIn (front ++ (kept ++ rule.replacement.toList)) e := by
  intro ends
  obtain ⟨stem, mem', before⟩ := makes.stem
  obtain ⟨rest, heard⟩ := endsIn_iff.mp ends
  refine (apart rule mem stem mem' e ending).excludes ?_ ⟨rest, heard.symm⟩
  rw [endFirst_append, endFirst_append, endFirst_of_small (List.all_eq_true.mp small),
    List.append_assoc]
  exact (List.prefix_append_right_inj _).mpr (before.trans (List.prefix_append _ _))

/-- Without capitals a word is inflected in such letters. -/
theorem Number.noCapitals (number : Number form rules) (plain : NoCapitals word) :
    NoCapitals (inflectWord form rules word) := by
  rcases uncountable_or_formOf_or_regular word with one | ⟨pair, listed⟩ | regular
  · rw [inflectWord_of_uncountable one]
    exact plain
  · obtain ⟨small, -⟩ := listed.of_noCapitals plain
    rw [inflectWord_of_formOf listed, capitalizeLike_of_small small]
    exact fun c mem => ((number.forms pair listed.listed).1.small c mem).not_capital
  · cases found : firstChange? rules (endFirst word) with
    | none =>
      rw [number.inflectWord_of_regular regular, found]
      exact plain
    | some change =>
      obtain ⟨rule, mem, kept, dropped, rfl, -, -, outcome⟩ :=
        number.exists_makes regular found
      rw [outcome]
      intro c mem'
      rcases List.mem_append.mp mem' with before | behind
      · exact plain c (List.mem_append_left dropped before)
      · have small : IsSmall c := List.all_eq_true.mp (number.small rule mem) c behind
        exact small.not_capital

section

variable (nonempty : name ≠ "")

include nonempty

theorem toList_inflected : (inflected form rules name).toList =
    (cutLastWord name.toList).1 ++ inflectWord form rules (lastWord name) := by
  rw [inflected, String.toList_ofList, inflect_eq _ _ (by simpa using nonempty), lastWord]

theorem inflected_eq_self_iff : inflected form rules name = name ↔
    inflectWord form rules (lastWord name) = lastWord name := by
  have joined := cutLastWord_append name.toList
  rw [← String.toList_inj, toList_inflected nonempty]
  constructor
  · intro same
    exact List.append_cancel_left (same.trans joined.symm)
  · intro same
    rw [same]
    exact joined

/-- A word that starts as the last one did is the last one in its place. -/
theorem lastWord_inflected (alike : StartAlike (lastWord name) word) (isWord : IsWord word)
    (outcome : inflectWord form rules (lastWord name) = word) :
    lastWord (inflected form rules name) = word := by
  have starts := startsBehind_lastWord nonempty
  rw [lastWord, toList_inflected nonempty, outcome,
    cutLastWord_of_startsBehind isWord (starts.imp_right alike.startsBehind)]

theorem getLast?_lastWord_inflected (written : more ≠ [])
    (outcome : inflectWord form rules (lastWord name) = kept ++ more) :
    (lastWord (inflected form rules name)).getLast? = more.getLast? := by
  have joined : (inflected form rules name).toList = _ := toList_inflected nonempty
  rw [outcome, ← List.append_assoc] at joined
  have nonempty' : inflected form rules name ≠ "" := by
    intro empty
    rw [empty] at joined
    exact written (List.append_eq_nil_iff.mp joined.symm).2
  rw [getLast?_lastWord nonempty', joined, List.getLast?_append_of_ne_nil _ written]

theorem lastWord_inflected_of_formOf (listed : FormOf pair (lastWord name))
    (small : InSmallLetters (form pair).toList) :
    lastWord (inflected form rules name) = capitalizeLike (lastWord name) (form pair).toList :=
  lastWord_inflected nonempty
    (startAlike_capitalizeLike (isWord_lastWord nonempty).nonempty small)
    (isWord_capitalizeLike small) (inflectWord_of_formOf listed)

/-- A word of the lists becomes a word of the lists, which does not give way again. -/
theorem Number.lastWord_of_listed (number : Number form rules)
    (listed : ¬Regular (lastWord name)) :
    ¬Regular (lastWord (inflected form rules name)) ∧
      ¬GivesWay form (lastWord (inflected form rules name)) := by
  rcases uncountable_or_formOf_or_regular (lastWord name) with one | ⟨pair, form'⟩ | regular
  · rw [(inflected_eq_self_iff nonempty).mpr (inflectWord_of_uncountable one)]
    exact ⟨listed, fun ⟨_, form', _⟩ => form'.countable one⟩
  · obtain ⟨small, same⟩ := number.forms pair form'.listed
    have alike := startAlike_capitalizeLike (isWord_lastWord nonempty).nonempty small
    rw [lastWord_inflected_of_formOf nonempty form' small]
    have becomes : FormOf pair (capitalizeLike (lastWord name) (form pair).toList) := by
      refine ⟨form'.listed, ?_⟩
      rw [lowercase_capitalizeLike small, ← lowercase_of_small small]
      exact same.form
    refine ⟨fun regular => regular.not_formOf becomes, ?_⟩
    rintro ⟨pair', becomes', other⟩
    obtain rfl := becomes.unique becomes'
    exact other (capitalizeLike_congr alike _).symm
  · exact absurd regular listed

theorem Number.inflected_again_of_listed (number : Number form rules)
    (listed : ¬Regular (lastWord name)) :
    inflected form rules (inflected form rules name) = inflected form rules name := by
  by_cases empty : inflected form rules name = ""
  · rw [empty]
    rfl
  · obtain ⟨listed', stays⟩ := number.lastWord_of_listed nonempty listed
    exact (inflected_eq_self_iff empty).mpr (inflectWord_eq_self_of_listed listed' stays)

theorem Number.noCapitals_lastWord (number : Number form rules)
    (plain : NoCapitals name.toList) : NoCapitals (lastWord (inflected form rules name)) := by
  intro c mem
  have mem := (lastWord_suffix (inflected form rules name)).subset mem
  rw [toList_inflected nonempty] at mem
  rcases List.mem_append.mp mem with before | behind
  · exact plain c (cutLastWord_append name.toList ▸ List.mem_append_left _ before)
  · exact number.noCapitals plain.lastWord c behind

/-- A word that keeps letters is the last one in its place. -/
theorem lastWord_inflected_of_kept (ending : lastWord name = kept ++ dropped)
    (keeps : kept ≠ []) (drops : dropped ≠ []) (small : ∀ c ∈ more, IsSmall c)
    (outcome : inflectWord form rules (lastWord name) = kept ++ more) :
    lastWord (inflected form rules name) = kept ++ more := by
  have isWord := isWord_lastWord nonempty
  rw [ending] at isWord
  exact lastWord_inflected nonempty (ending ▸ startAlike_append keeps)
    (isWord.replace keeps drops small) outcome

/-- The last word does not start before the place of the one that was inflected. -/
theorem lastWord_inflected_suffix (alike : StartAlike (lastWord name) word)
    (outcome : inflectWord form rules (lastWord name) = word) :
    lastWord (inflected form rules name) <:+ word := by
  have starts := startsBehind_lastWord nonempty
  have other : word ≠ [] := by
    rintro rfl
    simp [StartAlike, (isWord_lastWord nonempty).nonempty] at alike
  rw [lastWord, toList_inflected nonempty, outcome,
    cutLastWord_append_of_startsBehind other (starts.imp_right alike.startsBehind)]
  exact ⟨_, cutLastWord_append _⟩

end

end AggFlatten.Inflection
