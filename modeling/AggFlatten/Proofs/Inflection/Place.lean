import AggFlatten.Proofs.Inflection.Lists

/-! The place where the last word of a name starts. It is counted in bytes and found by a scan
from left to right; what stands before it plays no part in the inflection of a name. -/
namespace AggFlatten
namespace Inflection

variable {before c : Char} {letters front last : List Char} {place start : Nat}

/-- The number of bytes that letters take up in a name. -/
def bytes : (letters : List Char) → Nat
  | [] => 0
  | c :: rest => c.utf8Size + bytes rest

theorem utf8ByteSize_ofList : (String.ofList letters).utf8ByteSize = bytes letters := by
  induction letters with
  | nil => simp [bytes]
  | cons c rest ih =>
    rw [← List.singleton_append, String.ofList_append, String.utf8ByteSize_append, ih]
    simp [bytes]

theorem utf8ByteSize_eq (text : String) : text.utf8ByteSize = bytes text.toList := by
  rw [← utf8ByteSize_ofList, String.ofList_toList]

theorem bytes_append (front last : List Char) : bytes (front ++ last) = bytes front + bytes last := by
  induction front with
  | nil => simp [bytes]
  | cons c front ih => rw [List.cons_append, bytes, bytes, ih, Nat.add_assoc]

theorem bytes_eq_zero_iff : bytes letters = 0 ↔ letters = [] := by
  cases letters with
  | nil => simp [bytes]
  | cons c rest =>
    have positive := c.utf8Size_pos
    simp only [bytes, reduceCtorEq, iff_false]
    omega

/-- A place in a name cuts it in one way. -/
theorem append_inj_of_bytes {front' last' : List Char} (same : front ++ last = front' ++ last')
    (place : bytes front = bytes front') : front = front' ∧ last = last' := by
  rcases List.append_eq_append_iff.mp same with ⟨more, rfl, rfl⟩ | ⟨more, rfl, rfl⟩
  · have nothing : bytes more = 0 := by
      rw [bytes_append] at place
      omega
    simp [bytes_eq_zero_iff.mp nothing]
  · have nothing : bytes more = 0 := by
      rw [bytes_append] at place
      omega
    simp [bytes_eq_zero_iff.mp nothing]

/-- A scan from left to right that keeps the last place where a word starts. -/
def scanStarts (before : Char) (place start : Nat) : (letters : List Char) → Nat
  | [] => start
  | c :: rest =>
    scanStarts c (place + c.utf8Size) (if isBoundary before c then place else start) rest

/-- Where the last word of a name starts, in bytes. -/
def lastWordStart (name : String) : Nat :=
  match name.toList with
  | [] => 0
  | c :: rest => scanStarts c c.utf8Size 0 rest

theorem scanStarts_eq :
    scanStarts before place start letters =
      ((cutAfter? before letters).map fun parts => place + bytes parts.1).getD start := by
  induction letters generalizing before place start with
  | nil => rfl
  | cons c rest ih =>
    rw [scanStarts, ih, cutAfter?]
    cases cutAfter? c rest with
    | some parts => simp [bytes, Nat.add_assoc]
    | none => cases isBoundary before c <;> simp [bytes]

theorem lastWordStart_eq (name : String) :
    lastWordStart name = bytes (cutLastWord name.toList).1 := by
  rw [lastWordStart]
  cases name.toList with
  | nil => rfl
  | cons c rest =>
    dsimp only
    rw [scanStarts_eq, cutLastWord]
    cases cutAfter? c rest with
    | some parts => simp [bytes]
    | none => rfl

theorem isWord_iff {text : String} : IsWord text.toList ↔ text ≠ "" ∧ lastWordStart text = 0 := by
  rw [lastWordStart_eq, bytes_eq_zero_iff]
  constructor
  · intro word
    have whole := cutLastWord_of_startsBehind word (.inl rfl)
    rw [List.nil_append] at whole
    refine ⟨fun empty => word.nonempty (by simp [empty]), ?_⟩
    rw [whole]
  · rintro ⟨nonempty, whole⟩
    have nonempty : text.toList ≠ [] := by simpa using nonempty
    have joined := cutLastWord_append text.toList
    rw [whole, List.nil_append] at joined
    rw [← joined]
    exact (startsBehind_cutLastWord nonempty).1

/-- A name with its last word in the number that `form` and `rules` make. -/
def inflected (form : WordPair → String) (rules : List Rule) (name : String) : String :=
  String.ofList (inflect form rules name.toList)

variable (form : WordPair → String) (rules : List Rule)

theorem inflected_append {front last : String} (word : IsWord last.toList)
    (starts : front.toList = [] ∨ StartsBehind front.toList last.toList) :
    inflected form rules (front ++ last) = front ++ inflected form rules last := by
  rw [inflected, inflected, String.toList_append, inflect_append form rules word starts,
    inflect_word form rules word, String.ofList_append, String.ofList_toList]

/-- A form of an irregular pair gives way to the other form. -/
theorem inflected_formOf {text : String} {pair : WordPair} (listed : FormOf pair text.toList)
    (small : InSmallLetters text.toList) : inflected form rules text = form pair := by
  rw [inflected, inflect_word form rules small.isWord, inflectWord_of_formOf listed,
    capitalizeLike_of_small small, String.ofList_toList]

/-- A name is inflected behind the place where its last word starts. -/
theorem inflected_at_start {name front last : String} (joined : name = front ++ last)
    (place : front.utf8ByteSize = lastWordStart name) :
    cutLastWord name.toList = (front.toList, last.toList) ∧ lastWordStart last = 0 ∧
      inflected form rules name = front ++ inflected form rules last := by
  have cut := cutLastWord_append name.toList
  have same : front.toList ++ last.toList =
      (cutLastWord name.toList).1 ++ (cutLastWord name.toList).2 := by
    rw [cut, joined, String.toList_append]
  rw [utf8ByteSize_eq, lastWordStart_eq] at place
  obtain ⟨frontEq, lastEq⟩ := append_inj_of_bytes same place
  refine ⟨by rw [frontEq, lastEq], ?_⟩
  by_cases empty : name.toList = []
  · -- Nothing comes before or behind the start of nothing.
    obtain ⟨rfl, rfl⟩ : front = "" ∧ last = "" := by
      simpa [joined] using empty
    subst joined
    exact ⟨rfl, rfl⟩
  · obtain ⟨word, starts⟩ := startsBehind_cutLastWord empty
    rw [← frontEq, ← lastEq] at starts
    rw [← lastEq] at word
    exact ⟨(isWord_iff.mp word).2, joined ▸ inflected_append form rules word starts⟩

theorem isValid_lastWordStart (name : String) :
    (⟨lastWordStart name⟩ : String.Pos.Raw).IsValid name := by
  refine String.Pos.Raw.isValid_iff_exists_append.mpr
    ⟨String.ofList (cutLastWord name.toList).1, String.ofList (cutLastWord name.toList).2, ?_, ?_⟩
  · rw [← String.ofList_append, cutLastWord_append, String.ofList_toList]
  · rw [lastWordStart_eq, ← utf8ByteSize_ofList]
    rfl

end Inflection

open Inflection

/-- The name ends in an underscore or a hyphen. -/
def EndsInSeparator (name : String) : Prop :=
  name.toList.getLast? = some '_' ∨ name.toList.getLast? = some '-'

/-- A capital letter comes after one that is none. -/
def CapitalFollows (front last : String) : Prop :=
  ∃ b c, front.toList.getLast? = some b ∧ last.toList.head? = some c ∧
    Text.isCapital b = false ∧ Text.isCapital c = true

theorem startsBehind_of_separator {front last : String} (word : IsWord last.toList)
    (separated : EndsInSeparator front) : StartsBehind front.toList last.toList := by
  have first := List.head?_eq_some_head word.nonempty
  rcases separated with back | back
  · exact ⟨_, back, _, first, by simp [isBoundary]⟩
  · exact ⟨_, back, _, first, by simp [isBoundary]⟩

theorem startsBehind_of_capital {front last : String} (capital : CapitalFollows front last) :
    StartsBehind front.toList last.toList := by
  obtain ⟨b, c, back, first, small, large⟩ := capital
  exact ⟨b, back, c, first, by simp [isBoundary, small, large]⟩

/-- A word is inflected alike alone and where it starts behind other words. -/
theorem inflected_behind {front last : String} (word : IsWord last.toList)
    (starts : StartsBehind front.toList last.toList) :
    pluralize (front ++ last) = front ++ pluralize last ∧
      singularize (front ++ last) = front ++ singularize last :=
  ⟨inflected_append (·.plural) pluralRules word (.inr starts),
    inflected_append (·.singular) singularRules word (.inr starts)⟩

/-- The last word of a name starts at a character, and what stands before it is left as it is,
in either number. The other way round, a word that comes after a separator, or as a capital
letter after another letter, is inflected as it is alone. -/
theorem only_last_word_is_inflected :
    (∀ name : String, (⟨lastWordStart name⟩ : String.Pos.Raw).IsValid name ∧
      ∀ front last, name = front ++ last → front.utf8ByteSize = lastWordStart name →
        cutLastWord name.toList = (front.toList, last.toList) ∧ lastWordStart last = 0 ∧
          pluralize name = front ++ pluralize last ∧
          singularize name = front ++ singularize last) ∧
    (∀ front last : String, last ≠ "" → lastWordStart last = 0 →
      EndsInSeparator front ∨ CapitalFollows front last →
        pluralize (front ++ last) = front ++ pluralize last ∧
          singularize (front ++ last) = front ++ singularize last) ∧
    ∀ front : String, EndsInSeparator front → ∀ pair ∈ irregular,
      (pluralize (front ++ pair.singular) = front ++ pair.plural ∧
        pluralize (front ++ pair.plural) = front ++ pair.plural) ∧
      singularize (front ++ pair.plural) = front ++ pair.singular ∧
        singularize (front ++ pair.singular) = front ++ pair.singular := by
  refine ⟨?_, ?_, ?_⟩
  · intro name
    refine ⟨isValid_lastWordStart name, ?_⟩
    intro front last joined place
    obtain ⟨cut, whole, plural⟩ := inflected_at_start (·.plural) pluralRules joined place
    exact ⟨cut, whole, plural, (inflected_at_start (·.singular) singularRules joined place).2.2⟩
  · intro front last nonempty whole apart
    have word : IsWord last.toList := isWord_iff.mpr ⟨nonempty, whole⟩
    have starts : StartsBehind front.toList last.toList :=
      apart.elim (startsBehind_of_separator word) startsBehind_of_capital
    exact inflected_behind word starts
  · intro front separated pair listed
    obtain ⟨one, many⟩ := irregular_words pair listed
    have ofOne := inflected_behind one.isWord (startsBehind_of_separator one.isWord separated)
    have ofMany := inflected_behind many.isWord (startsBehind_of_separator many.isWord separated)
    have singular := formOf_singular listed
    have plural := formOf_plural listed
    refine ⟨⟨?_, ?_⟩, ?_, ?_⟩
    · exact ofOne.1.trans (congrArg (front ++ ·) (inflected_formOf _ _ singular one))
    · exact ofMany.1.trans (congrArg (front ++ ·) (inflected_formOf _ _ plural many))
    · exact ofMany.2.trans (congrArg (front ++ ·) (inflected_formOf _ _ plural many))
    · exact ofOne.2.trans (congrArg (front ++ ·) (inflected_formOf _ _ singular one))

/-- Behind sales, a person comes as a capital letter or after a hyphen. -/
theorem persons_behind_sales :
    ("salesPerson" = "sales" ++ "Person" ∧ "sales".utf8ByteSize = lastWordStart "salesPerson" ∧
      pluralize "salesPerson" = "sales" ++ pluralize "Person") ∧
    ("Person" ≠ "" ∧ lastWordStart "Person" = 0 ∧ CapitalFollows "sales" "Person" ∧
      singularize ("sales" ++ "Person") = "sales" ++ singularize "Person") ∧
    (EndsInSeparator "sales-" ∧ ⟨"person", "people"⟩ ∈ irregular ∧
      pluralize ("sales-" ++ "person") = "sales-" ++ "people") := by
  have joined : "salesPerson" = "sales" ++ "Person" := by decide
  have place : "sales".utf8ByteSize = lastWordStart "salesPerson" := by decide
  have nonempty : "Person" ≠ "" := by decide
  have whole : lastWordStart "Person" = 0 := by decide
  have capital : CapitalFollows "sales" "Person" :=
    ⟨'s', 'P', by decide, by decide +kernel, by decide +kernel, by decide +kernel⟩
  have separated : EndsInSeparator "sales-" := .inr (by decide)
  have listed : ⟨"person", "people"⟩ ∈ irregular := List.mem_cons_self
  obtain ⟨atStart, behind, pairs⟩ := only_last_word_is_inflected
  exact ⟨⟨joined, place, ((atStart _).2 _ _ joined place).2.2.1⟩,
    ⟨nonempty, whole, capital, (behind _ _ nonempty whole (.inr capital)).2⟩,
    separated, listed, (pairs _ separated _ listed).1.1⟩

end AggFlatten
