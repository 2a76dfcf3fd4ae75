import AggFlatten.Proofs.Inflection.Ending
import AggFlatten.Proofs.Inflection.LastWord

/-! Small letters, and how they go on with a word. No word starts at one of them, unless behind
a separator, so that a word with another ending in small letters is a word in its place. -/
namespace AggFlatten.Inflection

variable {b c : Char} {word kept more front : List Char}

/-- A letter from a to z. -/
def IsSmall (c : Char) : Prop :=
  c.isLower = true

instance : Decidable (IsSmall c) :=
  inferInstanceAs (Decidable (_ = _))

/-- A letter that is no capital but has one, and that separates no words. -/
def HasCapital (c : Char) : Prop :=
  (Text.isCapital c = false ∧ Text.isCapital c.toUpper = true) ∧
    (c.toLower = c ∧ c.toUpper.toLower = c ∧ foldCase c = c) ∧
    (c ≠ '_' ∧ c ≠ '-') ∧ c.toUpper ≠ '_' ∧ c.toUpper ≠ '-'

instance : Decidable (HasCapital c) :=
  inferInstanceAs (Decidable (_ ∧ _))

theorem hasCapital_ofNat : ∀ n < 123, IsSmall (Char.ofNat n) → HasCapital (Char.ofNat n) := by
  decide

theorem of_ofNat {P : Char → Prop} {bound : Nat} (each : ∀ n < bound, P (Char.ofNat n))
    (below : c.toNat < bound) : P c := by
  have letter := each c.toNat below
  rwa [Char.ofNat_toNat] at letter

theorem hasCapital (small : IsSmall c) : HasCapital c := by
  have bound : c.val ≤ 'z'.val := of_decide_eq_true (Bool.and_eq_true_iff.mp small).2
  have below : c.toNat < 123 := Nat.lt_succ_of_le bound
  exact of_ofNat (P := fun c => IsSmall c → HasCapital c) hasCapital_ofNat below small

namespace IsSmall

theorem not_capital (small : IsSmall c) : Text.isCapital c = false :=
  (hasCapital small).1.1

theorem capital_toUpper (small : IsSmall c) : Text.isCapital c.toUpper = true :=
  (hasCapital small).1.2

theorem toLower (small : IsSmall c) : c.toLower = c :=
  (hasCapital small).2.1.1

theorem toLower_toUpper (small : IsSmall c) : c.toUpper.toLower = c :=
  (hasCapital small).2.1.2.1

theorem foldCase (small : IsSmall c) : foldCase c = c :=
  (hasCapital small).2.1.2.2

theorem inside (small : IsSmall c) : c ≠ '_' ∧ c ≠ '-' :=
  (hasCapital small).2.2.1

theorem inside_toUpper (small : IsSmall c) : c.toUpper ≠ '_' ∧ c.toUpper ≠ '-' :=
  (hasCapital small).2.2.2

end IsSmall

theorem toLower_eq_s (s : c.toLower = 's') : c = 's' ∨ c = 'S' := by
  by_cases large : c.val ≥ 'A'.val ∧ c.val ≤ 'Z'.val
  · have lowered : c.toLower = _ := dif_pos large
    have value : c.val + 32 = 115 := congrArg Char.val (lowered.symm.trans s)
    have code : c.val = 115 - 32 := by rw [← value, UInt32.add_sub_cancel]
    exact .inr (Char.ext code)
  · have kept : c.toLower = c := dif_neg large
    exact .inl (kept.symm.trans s)

theorem not_capital_of_s (s : foldCase c = 's') (other : c ≠ 'S') : Text.isCapital c = false := by
  by_cases long : c = 'ſ'
  · subst long
    decide
  · rw [foldCase, if_neg long] at s
    obtain rfl := (toLower_eq_s s).resolve_right other
    decide

theorem foldCase_of_toLower (small : IsSmall c.toLower) : foldCase c = c.toLower := by
  refine if_neg fun long => ?_
  rw [long] at small
  revert small
  decide

/-- A word in small letters. -/
structure InSmallLetters (word : List Char) : Prop where
  nonempty : word ≠ []
  small : ∀ c ∈ word, IsSmall c

instance : Decidable (InSmallLetters word) :=
  decidable_of_iff (word ≠ [] ∧ word.all Char.isLower = true)
    ⟨fun ⟨nonempty, small⟩ => ⟨nonempty, List.all_eq_true.mp small⟩,
      fun word => ⟨word.nonempty, List.all_eq_true.mpr word.small⟩⟩

theorem map_foldCase_of_small (small : ∀ c ∈ word, IsSmall c) : word.map foldCase = word :=
  (List.map_congr_left fun c mem => (small c mem).foldCase).trans (List.map_id' word)

theorem endFirst_of_small (small : ∀ c ∈ word, IsSmall c) : endFirst word = word.reverse := by
  rw [endFirst, map_foldCase_of_small small]

/-- There is no capital letter. -/
def NoCapitals (letters : List Char) : Prop :=
  ∀ c ∈ letters, Text.isCapital c = false

instance {letters : List Char} : Decidable (NoCapitals letters) :=
  decidable_of_iff (letters.all (!Text.isCapital ·) = true) (by simp [NoCapitals])

theorem NoCapitals.lastWord {name : String} (plain : NoCapitals name.toList) :
    NoCapitals (lastWord name) :=
  fun c mem => plain c ((lastWord_suffix name).subset mem)

theorem NoCapitals.lastWord_ne_lone {name : String} (plain : NoCapitals name.toList) :
    Inflection.lastWord name ≠ ['S'] := by
  intro same
  have small := plain.lastWord 'S' (by simp [same])
  revert small
  decide

theorem toLower_of_not_capital (plain : Text.isCapital c = false) : c.toLower = c := by
  refine dif_neg fun large => ?_
  have upper : c.isUpper = true := decide_eq_true large
  rw [Text.isCapital_of_isUpper upper] at plain
  cases plain

/-- The word does not end in an underscore or a hyphen. -/
def Unseparated (word : List Char) : Prop :=
  ∀ b ∈ word.getLast?, b ≠ '_' ∧ b ≠ '-'

theorem not_endsIn_nil {ending : String} (small : InSmallLetters ending.toList) :
    ¬EndsIn [] ending :=
  fun ends => small.nonempty (List.suffix_nil.mp ends)

/-- A word does not end in a separator if it ends in letters. -/
theorem unseparated_of_endsIn {ending : String} (ends : EndsIn word ending)
    (small : InSmallLetters ending.toList) : Unseparated word := by
  intro b back
  obtain ⟨front, same⟩ := ends
  have last := congrArg List.getLast? same
  rw [List.getLast?_append_of_ne_nil _ small.nonempty, List.getLast?_map, back] at last
  have letter := small.small _ (List.mem_of_mem_getLast? last)
  refine ⟨?_, ?_⟩ <;>
  · rintro rfl
    revert letter
    decide

theorem isBoundary_of_small (inside : b ≠ '_' ∧ b ≠ '-') (small : IsSmall c) :
    isBoundary b c = false := by
  simp [isBoundary, inside, small.not_capital]

theorem chain_of_small (small : ∀ c ∈ more, IsSmall c) :
    more.IsChain fun a b => isBoundary a b = false := by
  induction more with
  | nil => exact List.IsChain.nil
  | cons c more ih =>
    obtain ⟨first, later⟩ := List.forall_mem_cons.mp small
    cases more with
    | nil => exact List.IsChain.singleton c
    | cons d more =>
      have second := later d List.mem_cons_self
      exact List.isChain_cons_cons.mpr ⟨isBoundary_of_small first.inside second, ih later⟩

theorem InSmallLetters.isWord (small : InSmallLetters word) : IsWord word :=
  ⟨small.nonempty, chain_of_small small.small⟩

/-- Small letters go on with a word that ends in a letter. -/
theorem IsWord.append_small (word : IsWord kept) (unseparated : Unseparated kept)
    (small : ∀ c ∈ more, IsSmall c) : IsWord (kept ++ more) := by
  refine ⟨by simp [word.nonempty], List.isChain_append.mpr ⟨word.unbroken, chain_of_small small, ?_⟩⟩
  intro b back c first
  exact isBoundary_of_small (unseparated b back) (small c (List.mem_of_mem_head? first))

/-- What stands in front of a word ends in a letter if more of the word follows. -/
theorem IsWord.unseparated (word : IsWord (kept ++ more)) (nonempty : more ≠ []) :
    Unseparated kept := by
  obtain ⟨c, more, rfl⟩ := List.exists_cons_of_ne_nil nonempty
  intro b back
  have inside := (List.isChain_append.mp word.unbroken).2.2 b back c rfl
  simp [isBoundary] at inside
  exact ⟨inside.1.1, inside.1.2⟩

theorem IsWord.left (word : IsWord (kept ++ more)) (nonempty : kept ≠ []) : IsWord kept :=
  ⟨nonempty, (List.isChain_append.mp word.unbroken).1⟩

/-- A word stays one with another ending in small letters. -/
theorem IsWord.replace {dropped : List Char} (word : IsWord (kept ++ dropped))
    (keeps : kept ≠ []) (drops : dropped ≠ []) (small : ∀ c ∈ more, IsSmall c) :
    IsWord (kept ++ more) :=
  (word.left keeps).append_small (word.unseparated drops) small

/-- Both words start with a capital letter, or neither does. -/
def StartAlike (word word' : List Char) : Prop :=
  word.head?.map Text.isCapital = word'.head?.map Text.isCapital

theorem StartAlike.startsBehind {word' : List Char} (alike : StartAlike word word')
    (starts : StartsBehind front word) : StartsBehind front word' := by
  obtain ⟨b, back, c, first, boundary⟩ := starts
  rw [StartAlike, first, Option.map_some] at alike
  obtain ⟨d, first', same⟩ := Option.map_eq_some_iff.mp alike.symm
  rw [isBoundary, ← same, ← isBoundary] at boundary
  exact ⟨b, back, d, first', boundary⟩

theorem startAlike_append {more' : List Char} (nonempty : kept ≠ []) :
    StartAlike (kept ++ more) (kept ++ more') := by
  obtain ⟨c, kept, rfl⟩ := List.exists_cons_of_ne_nil nonempty
  rfl

theorem startAlike_append_right (nonempty : kept ≠ []) : StartAlike kept (kept ++ more) := by
  have alike : StartAlike (kept ++ []) (kept ++ more) := startAlike_append nonempty
  rwa [List.append_nil] at alike

/-- A word that starts alike takes the place of the last one. -/
theorem inflect_startAlike (form : WordPair → String) (rules : List Rule) {name : List Char}
    (nonempty : name ≠ []) (alike : StartAlike (cutLastWord name).2 word) (isWord : IsWord word) :
    inflect form rules ((cutLastWord name).1 ++ word) =
      (cutLastWord name).1 ++ inflectWord form rules word :=
  inflect_append form rules isWord
    ((startsBehind_cutLastWord nonempty).2.imp_right alike.startsBehind)

end AggFlatten.Inflection
