/-! Rules that change the end of a word. A rule keeps the word up to an ending, and
writes something else in place of the ending. Words are matched from the last letter
on, so letters here run from the last one to the first. -/
namespace AggFlatten.Inflection

/-- A letter of a rule stands for both its cases, and an s for the long s too. -/
def sameLetter (letter c : Char) : Bool :=
  c.toLower = letter || (letter = 's' && c = 'ſ')

/-- What is left of a word without the ending, both given from the last letter on. -/
def dropEnding? : (ending letters : List Char) → Option (List Char)
  | [], letters => some letters
  | _ :: _, [] => none
  | e :: ending, c :: letters => if sameLetter e c then dropEnding? ending letters else none

/-- What the word must end in before the ending. -/
inductive Stem where
  | any
  | oneOf (ends : List String)
  | whole (word : String)
  /-- There is a letter, and it is none of these. -/
  | noneOf (letters : String)

def Stem.accepts (stem : Stem) (letters : List Char) : Bool :=
  match stem with
  | any => true
  | oneOf ends => ends.any fun e => (dropEnding? e.toList.reverse letters).isSome
  | whole word => dropEnding? word.toList.reverse letters = some []
  | noneOf excluded =>
    match letters with
    | [] => false
    | c :: _ => !excluded.toList.any (sameLetter · c)

structure Rule where
  stem : Stem
  endings : List String
  replacement : String

def Rule.outcome? (rule : Rule) (letters : List Char) : Option (List Char) :=
  rule.endings.findSome? fun ending =>
    match dropEnding? ending.toList.reverse letters with
    | some kept =>
      if rule.stem.accepts kept then some (rule.replacement.toList.reverse ++ kept) else none
    | none => none

/-- The outcome of the first rule that applies. -/
def firstOutcome? (rules : List Rule) (letters : List Char) : Option (List Char) :=
  rules.findSome? (·.outcome? letters)

end AggFlatten.Inflection
