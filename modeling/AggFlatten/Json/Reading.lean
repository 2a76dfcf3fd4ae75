import AggFlatten.Json.ParseError

/-! Values read from the start of a text. What is left of the text is never longer than
the text, so reading on comes to an end. -/
namespace AggFlatten.Json

structure Reading (α : Type) (text : List Char) where
  value : α
  rest : List Char
  shorter : rest.length ≤ text.length

abbrev Result (α : Type) (text : List Char) := Except Failure (Reading α text)

namespace Reading

variable {α β : Type} {text : List Char}

/-- A value for which nothing is read. -/
def nothing (value : α) : Reading α text := ⟨value, text, Nat.le_refl _⟩

/-- The value of one character. -/
def first {c : Char} (value : α) : Reading α (c :: text) := ⟨value, text, Nat.le_succ _⟩

def map (f : α → β) (r : Reading α text) : Reading β text := ⟨f r.value, r.rest, r.shorter⟩

/-- The same reading, seen from a text that begins earlier. -/
def widen {more : List Char} (r : Reading α text) (h : text.length ≤ more.length) :
    Reading α more :=
  ⟨r.value, r.rest, Nat.le_trans r.shorter h⟩

/-- The same reading, seen from the character before. -/
def past {c : Char} (r : Reading α text) : Reading α (c :: text) := r.widen (Nat.le_succ _)

end Reading

end AggFlatten.Json
