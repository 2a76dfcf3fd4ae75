import AggFlatten.Proofs.Json.Numeral
import AggFlatten.Proofs.Json.Quoted
import AggFlatten.Text.Space

/-! The compact text of a document. It has one form, with nothing between the marks of the
document and what it holds; it is a single line, and no white space ends it. -/
namespace AggFlatten

open Text (isSpace)

namespace Number

/-- What the text of a number is made of. -/
def Mark (c : Char) : Prop := c.isDigit = true ∨ c ∈ ['-', '+', '.', 'e']

def Marks (text : List Char) : Prop := ∀ c ∈ text, Mark c

variable {c : Char} {text rest : List Char}

theorem Mark.not_space (mark : Mark c) : isSpace c = false := by
  rcases mark with digit | sign
  · have bounds : 48 ≤ c.toNat ∧ c.toNat ≤ 57 := by
      rw [Char.isDigit, Bool.and_eq_true, decide_eq_true_eq, decide_eq_true_eq] at digit
      exact digit
    simp only [isSpace, Text.spaces, List.contains_eq_mem, decide_eq_false_iff_not, List.mem_cons,
      List.not_mem_nil, or_false]
    omega
  · have each : ['-', '+', '.', 'e'].all (fun c => isSpace c = false) = true := by decide
    exact of_decide_eq_true (List.all_eq_true.mp each c sign)

namespace Marks

theorem cons (first : Mark c) (later : Marks rest) : Marks (c :: rest) :=
  List.forall_mem_cons.mpr ⟨first, later⟩

theorem append (front : Marks text) (back : Marks rest) : Marks (text ++ rest) :=
  List.forall_mem_append.mpr ⟨front, back⟩

theorem sign (known : c ∈ ['-', '+', '.', 'e']) (later : Marks rest) : Marks (c :: rest) :=
  cons (.inr known) later

theorem digits (n : Nat) : Marks (Nat.toDigits 10 n) :=
  fun _ member => .inl (Nat.isDigit_of_mem_toDigits (by decide) (by decide) member)

theorem zeros (n : Nat) : Marks (List.replicate n '0') := by
  intro c member
  rw [List.eq_of_mem_replicate member]
  exact .inl (by decide)

theorem intChars (n : Int) : Marks (Number.intChars n) := by
  cases n with
  | ofNat n => exact digits n
  | negSucc n => exact sign (by decide) (digits (n + 1))

theorem exponentChars (n : Int) : Marks (Number.exponentChars n) := by
  refine sign (by decide) ?_
  split
  · exact intChars n
  · exact sign (by decide) (intChars n)

/-- Each layout of a decimal holds its digits, whole or cut in two, between zeros and signs. -/
theorem decimalChars (d : Decimal) : Marks (Number.decimalChars d) := by
  have whole := digits d.digits
  have zero : Mark '0' := .inl (by decide)
  have none : Marks [] := nofun
  rw [Number.decimalChars]
  split
  · split
    · exact (whole.append (zeros _)).append (sign (by decide) (cons zero none))
    · exact append (fun c member => whole c (List.mem_of_mem_take member))
        (sign (by decide) fun c member => whole c (List.mem_of_mem_drop member))
  · split
    · exact cons zero (sign (by decide) ((zeros _).append whole))
    · split
      · next digit same =>
        rw [same] at whole
        exact cons (whole digit List.mem_cons_self) (exponentChars _)
      · next first more same =>
        rw [same] at whole
        obtain ⟨first, more⟩ := List.forall_mem_cons.mp whole
        exact cons first (sign (by decide) (append more (exponentChars _)))
      · exact none

end Marks

theorem marks_chars (n : Number) : Marks n.chars := by
  cases n with
  | int n => exact .intChars n
  | float x =>
    rw [chars]
    split
    · exact .sign (by decide) (.decimalChars _)
    · exact .decimalChars _

theorem intChars_ne_nil (n : Int) : intChars n ≠ [] := by
  cases n with
  | ofNat n => exact Nat.toDigits_ne_nil
  | negSucc n => exact List.cons_ne_nil _ _

theorem decimalChars_ne_nil (d : Decimal) : decimalChars d ≠ [] := by
  rw [decimalChars]
  split
  · split <;> simp
  · split
    · simp
    · split
      · simp
      · simp
      · next none => exact absurd none Nat.toDigits_ne_nil

theorem chars_ne_nil (n : Number) : n.chars ≠ [] := by
  cases n with
  | int n => exact intChars_ne_nil n
  | float x =>
    rw [chars]
    split
    · exact List.cons_ne_nil _ _
    · exact decimalChars_ne_nil _

end Number

namespace Json

mutual

/-- The compact form of a document. -/
inductive Written : Json → List Char → Prop where
  | null : Written .null ['n', 'u', 'l', 'l']
  | true : Written (.bool true) ['t', 'r', 'u', 'e']
  | false : Written (.bool false) ['f', 'a', 'l', 's', 'e']
  | num {n : Number} {text : List Char} (spelled : n.Spelled text) : Written (.num n) text
  | str {s : String} {text : List Char} (string : Quoted s text) : Written (.str s) text
  | arr {items : List Json} {inside : List Char} (listed : WrittenItems items inside) :
      Written (.arr items) ('[' :: inside ++ [']'])
  | obj {members : Members} {inside : List Char} (listed : WrittenMembers members inside) :
      Written (.obj members) ('{' :: inside ++ ['}'])

/-- A comma, and nothing else, stands between two items. -/
inductive WrittenItems : List Json → List Char → Prop where
  | none : WrittenItems [] []
  | last {item : Json} {text : List Char} (written : Written item text) : WrittenItems [item] text
  | more {item next : Json} {items : List Json} {text rest : List Char}
      (written : Written item text) (later : WrittenItems (next :: items) rest) :
      WrittenItems (item :: next :: items) (text ++ ',' :: rest)

/-- A colon, and nothing else, stands between the key and the value of a member. -/
inductive WrittenMembers : Members → List Char → Prop where
  | none : WrittenMembers [] []
  | last {key : String} {value : Json} {name text : List Char} (string : Quoted key name)
      (written : Written value text) : WrittenMembers [(key, value)] (name ++ ':' :: text)
  | more {key : String} {value : Json} {next : String × Json} {members : Members}
      {name text rest : List Char} (string : Quoted key name) (written : Written value text)
      (later : WrittenMembers (next :: members) rest) :
      WrittenMembers ((key, value) :: next :: members) (name ++ ':' :: text ++ ',' :: rest)

end

mutual

theorem written_iff : (value : Json) → {text : List Char} →
    (Written value text ↔ text = value.compactChars)
  | .null, _ => ⟨fun written => by cases written; rfl, by rintro rfl; exact .null⟩
  | .bool true, _ => ⟨fun written => by cases written; rfl, by rintro rfl; exact .true⟩
  | .bool false, _ => ⟨fun written => by cases written; rfl, by rintro rfl; exact .false⟩
  | .num n, text => by
    rw [compactChars, ← Number.spelled_iff]
    exact ⟨fun written => by cases written; assumption, .num⟩
  | .str s, text => by
    rw [compactChars, ← quoted_iff]
    exact ⟨fun written => by cases written; assumption, .str⟩
  | .arr items, text => by
    rw [compactChars, enclose]
    constructor
    · intro written
      cases written with
      | arr listed => rw [(writtenItems_iff items).mp listed]
    · rintro rfl
      exact .arr ((writtenItems_iff items).mpr rfl)
  | .obj members, text => by
    rw [compactChars, enclose]
    constructor
    · intro written
      cases written with
      | obj listed => rw [(writtenMembers_iff members).mp listed]
    · rintro rfl
      exact .obj ((writtenMembers_iff members).mpr rfl)

theorem writtenItems_iff : (items : List Json) → {text : List Char} →
    (WrittenItems items text ↔ text = List.intercalate [','] (compactItems items))
  | [], _ => ⟨fun listed => by cases listed; rfl, by rintro rfl; exact .none⟩
  | [item], text => by
    rw [compactItems, compactItems, List.intercalate_singleton, ← written_iff item]
    exact ⟨fun listed => by cases listed; assumption, .last⟩
  | item :: next :: items, text => by
    have rest := @writtenItems_iff (next :: items)
    rw [compactItems] at rest
    rw [compactItems, compactItems, List.intercalate_cons_cons, List.append_assoc,
      List.singleton_append]
    constructor
    · intro listed
      cases listed with
      | more written later => rw [(written_iff item).mp written, rest.mp later]
    · rintro rfl
      exact .more ((written_iff item).mpr rfl) (rest.mpr rfl)

theorem writtenMembers_iff : (members : Members) → {text : List Char} →
    (WrittenMembers members text ↔ text = List.intercalate [','] (compactMembers members))
  | [], _ => ⟨fun listed => by cases listed; rfl, by rintro rfl; exact .none⟩
  | [(key, value)], text => by
    rw [compactMembers, compactMembers, List.intercalate_singleton]
    constructor
    · intro listed
      cases listed with
      | last string written => rw [quoted_iff.mp string, (written_iff value).mp written]
    · rintro rfl
      exact .last (quoted_iff.mpr rfl) ((written_iff value).mpr rfl)
  | (key, value) :: (name, other) :: members, text => by
    have rest := @writtenMembers_iff ((name, other) :: members)
    rw [compactMembers] at rest
    rw [compactMembers, compactMembers, List.intercalate_cons_cons, List.append_assoc,
      List.singleton_append]
    constructor
    · intro listed
      cases listed with
      | more string written later =>
        rw [quoted_iff.mp string, (written_iff value).mp written, rest.mp later]
    · rintro rfl
      exact .more (quoted_iff.mpr rfl) ((written_iff value).mpr rfl) (rest.mpr rfl)

end

mutual

/-- Where a string holds a newline, its text has an escape. -/
theorem Written.no_newline : (value : Json) → {text : List Char} → Written value text →
    '\n' ∉ text
  | .null, _, .null | .bool true, _, .true | .bool false, _, .false => by decide
  | .num n, _, .num spelled => by
    rw [Number.spelled_iff.mp spelled]
    exact fun member => absurd (n.marks_chars _ member).not_space (by decide)
  | .str s, _, .str string => by
    rw [quoted_iff.mp string]
    exact newline_not_mem_quoted s
  | .arr items, _, .arr listed => by
    have inside := WrittenItems.no_newline items listed
    simp [inside]
  | .obj members, _, .obj listed => by
    have inside := WrittenMembers.no_newline members listed
    simp [inside]

theorem WrittenItems.no_newline : (items : List Json) → {text : List Char} →
    WrittenItems items text → '\n' ∉ text
  | [], _, .none => List.not_mem_nil
  | [item], _, .last written => Written.no_newline item written
  | item :: next :: items, _, .more written later => by
    have first := Written.no_newline item written
    have rest := WrittenItems.no_newline (next :: items) later
    simp [first, rest]

theorem WrittenMembers.no_newline : (members : Members) → {text : List Char} →
    WrittenMembers members text → '\n' ∉ text
  | [], _, .none => List.not_mem_nil
  | [(key, value)], _, .last string written => by
    have name := newline_not_mem_quoted key
    have first := Written.no_newline value written
    rw [quoted_iff.mp string]
    simp [name, first]
  | (key, value) :: next :: members, _, .more string written later => by
    have name := newline_not_mem_quoted key
    have first := Written.no_newline value written
    have rest := WrittenMembers.no_newline (next :: members) later
    rw [quoted_iff.mp string]
    simp [name, first, rest]

end

section compactChars

variable (value : Json)

theorem newline_not_mem_compactChars : '\n' ∉ value.compactChars :=
  Written.no_newline value ((written_iff value).mpr rfl)

/-- A text ends with a letter of a word, a mark of a number, or the mark that closes it. -/
theorem compactChars_ends : value.compactChars ≠ [] ∧
    ∀ c ∈ value.compactChars.getLast?, isSpace c = false := by
  have closed (front : List Char) {mark : Char} (solid : isSpace mark = false) :
      front ++ [mark] ≠ [] ∧ ∀ c ∈ (front ++ [mark]).getLast?, isSpace c = false := by
    refine ⟨by simp, ?_⟩
    intro c last
    rw [List.getLast?_concat] at last
    obtain rfl := Option.some.inj last
    exact solid
  cases value with
  | null => exact closed ['n', 'u', 'l'] (by decide)
  | bool b =>
    cases b with
    | true => exact closed ['t', 'r', 'u'] (by decide)
    | false => exact closed ['f', 'a', 'l', 's'] (by decide)
  | num n =>
    exact ⟨n.chars_ne_nil, fun c last => (n.marks_chars c (List.mem_of_getLast? last)).not_space⟩
  | str s => exact closed _ (by decide)
  | arr items => exact closed _ (by decide)
  | obj members => exact closed _ (by decide)

end compactChars

end Json

end AggFlatten
