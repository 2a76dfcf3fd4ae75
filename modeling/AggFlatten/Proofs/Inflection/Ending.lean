import AggFlatten.Inflection.English

/-! The ends of words as rules read them: from the last letter on, and without case. What a rule
changes depends on these letters alone, and it leaves the letters before the ending as they
are written. -/
namespace AggFlatten.Inflection

/-- The letter of a rule that stands for `c`, if there is one. -/
def foldCase (c : Char) : Char :=
  if c = 'ſ' then 's' else c.toLower

/-- The letters of a word from the last one on, without case. -/
def endFirst (word : List Char) : List Char :=
  (word.map foldCase).reverse

variable {word kept dropped heard : List Char} {rule : Rule} {rules : List Rule}

@[simp]
theorem endFirst_nil : endFirst [] = [] := rfl

@[simp]
theorem endFirst_append : endFirst (kept ++ dropped) = endFirst dropped ++ endFirst kept := by
  simp [endFirst]

@[simp]
theorem length_endFirst : (endFirst word).length = word.length := by
  simp [endFirst]

theorem sameLetter_eq {letter : Char} (plain : letter ≠ 'ſ') (c : Char) :
    sameLetter letter c = decide (letter = foldCase c) := by
  have small : 'ſ'.toLower = 'ſ' := by decide
  by_cases long : c = 'ſ'
  · simp [sameLetter, foldCase, long, small, plain.symm]
  · simp [sameLetter, foldCase, long, eq_comm]

theorem dropEnding?_eq {ending letters : List Char} (plain : 'ſ' ∉ ending) :
    dropEnding? ending letters =
      if ending.isPrefixOf (letters.map foldCase) then some (letters.drop ending.length)
      else none := by
  induction ending generalizing letters with
  | nil => simp [dropEnding?]
  | cons e ending ih =>
    have other : e ≠ 'ſ' := fun same => plain (by simp [same])
    have later : 'ſ' ∉ ending := fun mem => plain (List.mem_cons_of_mem e mem)
    cases letters with
    | nil => simp [dropEnding?]
    | cons c letters =>
      rw [dropEnding?, sameLetter_eq other, ih later]
      by_cases same : e = foldCase c <;> simp [same]

/-- Whether a stem accepts a word, by what is heard of it. -/
def Stem.fits (stem : Stem) (heard : List Char) : Bool :=
  match stem with
  | any => true
  | oneOf ends => ends.any fun e => e.toList.reverse.isPrefixOf heard
  | whole word => heard == word.toList.reverse
  | noneOf excluded =>
    match heard with
    | [] => false
    | c :: _ => !excluded.toList.contains c

/-- The letters that a stem tells from others. -/
def Stem.letters : (stem : Stem) → List Char
  | any => []
  | oneOf ends => ends.flatMap String.toList
  | whole word => word.toList
  | noneOf excluded => excluded.toList

def Rule.letters (rule : Rule) : List Char :=
  rule.endings.flatMap String.toList ++ rule.stem.letters

/-- An ending and what is written in its place. -/
structure Change where
  ending : String
  replacement : String
  deriving DecidableEq

def Change.apply (change : Change) (word : List Char) : List Char :=
  word.take (word.length - change.ending.toList.length) ++ change.replacement.toList

/-- What a rule changes in a word of which `heard` is heard, if this is the ending. -/
def Rule.changeAt? (rule : Rule) (heard : List Char) (ending : String) : Option Change :=
  if ending.toList.reverse.isPrefixOf heard &&
      rule.stem.fits (heard.drop ending.toList.length) then
    some ⟨ending, rule.replacement⟩
  else none

def Rule.change? (rule : Rule) (heard : List Char) : Option Change :=
  rule.endings.findSome? (rule.changeAt? heard)

/-- What the first rule that applies changes. -/
def firstChange? (rules : List Rule) (heard : List Char) : Option Change :=
  rules.findSome? (·.change? heard)

theorem isSome_dropEnding? {ending letters : List Char} (plain : 'ſ' ∉ ending) :
    (dropEnding? ending letters).isSome = ending.isPrefixOf (letters.map foldCase) := by
  rw [dropEnding?_eq plain]
  cases ending.isPrefixOf (letters.map foldCase) <;> rfl

/-- An ending is all that is heard exactly if nothing is left without it. -/
theorem dropEnding?_eq_some_nil_iff {ending letters : List Char} (plain : 'ſ' ∉ ending) :
    dropEnding? ending letters = some [] ↔ letters.map foldCase = ending := by
  rw [dropEnding?_eq plain]
  constructor
  · intro found
    split at found
    · next fits =>
      have short := List.drop_eq_nil_iff.mp (Option.some.inj found)
      have fits := List.isPrefixOf_iff_prefix.mp fits
      exact (fits.eq_of_length_le (by simpa using short)).symm
    · cases found
  · intro same
    have short : letters.length = ending.length := by rw [← same, List.length_map]
    rw [same, if_pos (List.isPrefixOf_iff_prefix.mpr List.prefix_rfl), ← short, List.drop_length]

theorem any_sameLetter {letters : List Char} (plain : 'ſ' ∉ letters) (c : Char) :
    letters.any (sameLetter · c) = letters.contains (foldCase c) := by
  rw [Bool.eq_iff_iff, List.any_eq_true, List.contains_iff_mem]
  constructor
  · rintro ⟨letter, mem, same⟩
    have other : letter ≠ 'ſ' := fun long => plain (long ▸ mem)
    rw [sameLetter_eq other, decide_eq_true_iff] at same
    exact same ▸ mem
  · intro mem
    have other : foldCase c ≠ 'ſ' := fun long => plain (long ▸ mem)
    exact ⟨_, mem, by rw [sameLetter_eq other]; exact decide_eq_true rfl⟩

theorem accepts_eq_fits {stem : Stem} {letters : List Char} (plain : 'ſ' ∉ stem.letters) :
    stem.accepts letters = stem.fits (letters.map foldCase) := by
  cases stem with
  | any => rfl
  | oneOf ends =>
    rw [Stem.letters, List.mem_flatMap] at plain
    rw [Bool.eq_iff_iff, Stem.accepts, Stem.fits, List.any_eq_true, List.any_eq_true]
    refine exists_congr fun e => and_congr_right fun mem => ?_
    have each : 'ſ' ∉ e.toList.reverse := fun long => plain ⟨e, mem, List.mem_reverse.mp long⟩
    rw [isSome_dropEnding? each]
  | whole other =>
    have each : 'ſ' ∉ other.toList.reverse := fun long => plain (List.mem_reverse.mp long)
    rw [Bool.eq_iff_iff, Stem.accepts, Stem.fits, decide_eq_true_iff, beq_iff_eq,
      dropEnding?_eq_some_nil_iff each]
  | noneOf excluded =>
    cases letters with
    | nil => rfl
    | cons c letters => exact congrArg (!·) (any_sameLetter plain c)

theorem Change.reverse_apply (change : Change) :
    (change.apply word).reverse =
      change.replacement.toList.reverse ++ word.reverse.drop change.ending.toList.length := by
  rw [Change.apply, List.reverse_append, List.drop_reverse]

theorem Change.apply_append {change : Change}
    (length : dropped.length = change.ending.toList.length) :
    change.apply (kept ++ dropped) = kept ++ change.replacement.toList := by
  rw [Change.apply, List.length_append, length, Nat.add_sub_cancel, List.take_left]

theorem Change.apply_behind {replacement : String} :
    Change.apply ⟨"", replacement⟩ word = word ++ replacement.toList := by
  simp [Change.apply]

theorem findSome?_congr {α β : Type} {f g : α → Option β} {choices : List α}
    (same : ∀ a ∈ choices, f a = g a) : choices.findSome? f = choices.findSome? g := by
  induction choices with
  | nil => rfl
  | cons a choices ih =>
    obtain ⟨first, later⟩ := List.forall_mem_cons.mp same
    rw [List.findSome?_cons, List.findSome?_cons, first, ih later]

/-- A rule changes what is written by what is heard. -/
theorem outcome?_reverse (plain : 'ſ' ∉ rule.letters) :
    rule.outcome? word.reverse =
      (rule.change? (endFirst word)).map fun change => (change.apply word).reverse := by
  simp only [Rule.letters, List.mem_append, not_or, List.mem_flatMap, not_exists,
    not_and] at plain
  rw [Rule.outcome?, Rule.change?, List.map_findSome?]
  refine findSome?_congr fun ending mem => ?_
  have plainEnding : 'ſ' ∉ ending.toList.reverse := fun long =>
    plain.1 ending mem (List.mem_reverse.mp long)
  have accepts : rule.stem.accepts (word.reverse.drop ending.toList.length) =
      rule.stem.fits ((endFirst word).drop ending.toList.length) := by
    rw [accepts_eq_fits plain.2, List.map_drop, List.map_reverse, ← endFirst]
  rw [dropEnding?_eq plainEnding, List.map_reverse, ← endFirst, List.length_reverse,
    Function.comp_apply, Rule.changeAt?]
  cases ending.toList.reverse.isPrefixOf (endFirst word) with
  | false => rfl
  | true =>
    simp only [if_true, accepts, Bool.true_and]
    cases rule.stem.fits ((endFirst word).drop ending.toList.length) with
    | false => rfl
    | true => simp only [if_true, Option.map_some, Change.reverse_apply]

/-- The first rule that applies is told by what is heard, too. -/
theorem firstOutcome?_reverse (plain : ∀ rule ∈ rules, 'ſ' ∉ rule.letters) :
    firstOutcome? rules word.reverse =
      (firstChange? rules (endFirst word)).map fun change => (change.apply word).reverse := by
  rw [firstOutcome?, firstChange?, List.map_findSome?]
  exact findSome?_congr fun rule mem => outcome?_reverse (plain rule mem)

theorem exists_of_endFirst {ending stem : List Char} (heard : endFirst word = ending ++ stem) :
    ∃ kept dropped, word = kept ++ dropped ∧ endFirst kept = stem ∧ endFirst dropped = ending := by
  have forward : word.map foldCase = stem.reverse ++ ending.reverse := by
    rw [← List.reverse_append, ← heard, endFirst, List.reverse_reverse]
  obtain ⟨kept, dropped, joined, front, back⟩ := List.map_eq_append_iff.mp forward
  refine ⟨kept, dropped, joined, ?_, ?_⟩
  · rw [endFirst, front, List.reverse_reverse]
  · rw [endFirst, back, List.reverse_reverse]

/-- A word ends so, in whatever case. -/
def EndsIn (word : List Char) (ending : String) : Prop :=
  ending.toList <:+ word.map foldCase

theorem endsIn_iff {ending : String} :
    EndsIn word ending ↔ ∃ stem, endFirst word = ending.toList.reverse ++ stem := by
  rw [EndsIn, ← List.reverse_prefix, ← endFirst]
  exact ⟨fun ⟨stem, same⟩ => ⟨stem, same.symm⟩, fun ⟨stem, same⟩ => ⟨stem, same.symm⟩⟩

instance {ending : String} : Decidable (EndsIn word ending) :=
  inferInstanceAs (Decidable (_ <:+ _))

theorem endsIn_append_iff {ending ending' : String} (same : dropped.map foldCase = ending'.toList) :
    EndsIn (kept ++ dropped) (ending ++ ending') ↔ EndsIn kept ending := by
  rw [EndsIn, EndsIn, List.map_append, same, String.toList_append, List.suffix_append_self_iff]

theorem EndsIn.of_suffix {ending : String} (ends : EndsIn word ending) (suffix : word <:+ kept) :
    EndsIn kept ending :=
  ends.trans (suffix.map foldCase)

/-- The rule makes the change behind a stem of which `stem` is heard. -/
structure Rule.Makes (rule : Rule) (change : Change) (stem : List Char) : Prop where
  ending : change.ending ∈ rule.endings
  replacement : change.replacement = rule.replacement
  fits : rule.stem.fits stem = true

theorem makes_of_change? {change : Change} (found : rule.change? heard = some change) :
    ∃ stem, heard = change.ending.toList.reverse ++ stem ∧ rule.Makes change stem := by
  obtain ⟨ending, mem, found⟩ := List.exists_of_findSome?_eq_some found
  rw [Rule.changeAt?] at found
  split at found
  · next fits =>
    obtain rfl := Option.some.inj found
    obtain ⟨ends, fits⟩ := Bool.and_eq_true_iff.mp fits
    obtain ⟨stem, rfl⟩ := List.isPrefixOf_iff_prefix.mp ends
    rw [← List.length_reverse, List.drop_left] at fits
    exact ⟨stem, rfl, mem, rfl, fits⟩
  · cases found

/-- The first rule that applies to a word keeps the word up to an ending. -/
theorem makes_of_firstChange? {change : Change}
    (found : firstChange? rules (endFirst word) = some change) :
    ∃ rule ∈ rules, ∃ kept dropped, word = kept ++ dropped ∧
      endFirst dropped = change.ending.toList.reverse ∧ rule.Makes change (endFirst kept) ∧
      change.apply word = kept ++ change.replacement.toList := by
  obtain ⟨rule, mem, found⟩ := List.exists_of_findSome?_eq_some found
  obtain ⟨stem, heard, makes⟩ := makes_of_change? found
  obtain ⟨kept, dropped, rfl, rfl, ending⟩ := exists_of_endFirst heard
  refine ⟨rule, mem, kept, dropped, rfl, ending, makes, Change.apply_append ?_⟩
  rw [← length_endFirst, ending, List.length_reverse]

/-- What a word may end in before the ending. -/
def Rule.stems (rule : Rule) : List String :=
  match rule.stem with
  | .oneOf ends => ends
  | .whole other => [other]
  | _ => [""]

theorem Rule.Makes.stem {change : Change} {stem : List Char} (makes : rule.Makes change stem) :
    ∃ e ∈ rule.stems, e.toList.reverse <+: stem := by
  have fits := makes.fits
  rw [Rule.stems]
  cases kind : rule.stem with
  | oneOf ends =>
    rw [kind, Stem.fits, List.any_eq_true] at fits
    obtain ⟨e, mem, before⟩ := fits
    exact ⟨e, mem, List.isPrefixOf_iff_prefix.mp before⟩
  | whole other =>
    rw [kind, Stem.fits, beq_iff_eq] at fits
    exact ⟨other, List.mem_singleton_self other, fits ▸ List.prefix_rfl⟩
  | any => exact ⟨"", List.mem_singleton_self "", List.nil_prefix⟩
  | noneOf excluded => exact ⟨"", List.mem_singleton_self "", List.nil_prefix⟩

theorem Rule.Makes.keeps {change : Change} (makes : rule.Makes change (endFirst kept))
    (empty : rule.stem.fits [] = false) : kept ≠ [] := by
  rintro rfl
  have fits := makes.fits
  rw [endFirst_nil, empty] at fits
  cases fits

theorem Rule.Makes.drops {change : Change} {stem : List Char} (makes : rule.Makes change stem)
    (ending : endFirst dropped = change.ending.toList.reverse) (empty : "" ∉ rule.endings) :
    dropped ≠ [] := by
  rintro rfl
  have none : change.ending = "" := by simpa using ending.symm
  exact empty (none ▸ makes.ending)

/-- What must be heard of a word for a rule to apply to it. -/
def Rule.patterns (rule : Rule) : List (List Char) :=
  rule.endings.flatMap fun ending =>
    rule.stems.map fun e => ending.toList.reverse ++ e.toList.reverse

theorem Rule.Makes.pattern {change : Change} {stem : List Char} (makes : rule.Makes change stem) :
    ∃ pattern ∈ rule.patterns, pattern <+: change.ending.toList.reverse ++ stem := by
  obtain ⟨e, mem, before⟩ := makes.stem
  refine ⟨change.ending.toList.reverse ++ e.toList.reverse, ?_,
    (List.prefix_append_right_inj _).mpr before⟩
  exact List.mem_flatMap.mpr ⟨change.ending, makes.ending, List.mem_map.mpr ⟨e, mem, rfl⟩⟩

/-- Neither can be heard where the other is. -/
def Apart (heard heard' : List Char) : Prop :=
  ¬heard <+: heard' ∧ ¬heard' <+: heard

instance {heard' : List Char} : Decidable (Apart heard heard') :=
  inferInstanceAs (Decidable (_ ∧ _))

theorem Apart.excludes {heard' letters : List Char} (apart : Apart heard heard')
    (first : heard <+: letters) : ¬heard' <+: letters := fun second =>
  (List.prefix_or_prefix_of_prefix first second).elim apart.1 apart.2

theorem change?_eq_none (silent : ∀ pattern ∈ rule.patterns, ¬pattern <+: heard) :
    rule.change? heard = none := by
  cases found : rule.change? heard with
  | none => rfl
  | some change =>
    obtain ⟨stem, rfl, makes⟩ := makes_of_change? found
    obtain ⟨pattern, listed, fits⟩ := makes.pattern
    exact absurd fits (silent pattern listed)

theorem firstChange?_eq_none (silent : ∀ rule ∈ rules, ∀ pattern ∈ rule.patterns,
    ¬pattern <+: heard) : firstChange? rules heard = none :=
  List.findSome?_eq_none_iff.mpr fun rule mem => change?_eq_none (silent rule mem)

/-- Rules that do not apply are passed over. -/
theorem firstChange?_append {rules' : List Rule} (silent : firstChange? rules heard = none) :
    firstChange? (rules ++ rules') heard = firstChange? rules' heard := by
  rw [firstChange?, List.findSome?_append, ← firstChange?, silent, Option.none_or, ← firstChange?]

end AggFlatten.Inflection
