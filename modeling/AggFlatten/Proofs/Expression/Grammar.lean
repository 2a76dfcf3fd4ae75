import AggFlatten.Expression.Basic
import AggFlatten.Text.Space

/-! The grammar of expressions, as data: a derivation holds every choice that is made when a
text is generated, down to the single white space. It has a text and a tree, and neither is
defined by way of the parser.

    expression := ws* part (ws+ part)* ws*
    part       := [keyword ':'] segment ('.' segment)* ['[' expression ']']
-/
namespace AggFlatten.Grammar

open Text (isSpace)

/-- White space, possibly none. -/
@[ext]
structure Blank where
  chars : List Char
  spaces : ∀ c ∈ chars, isSpace c = true

/-- What a name may hold: anything but the marks of the grammar and white space. -/
def NameChar (c : Char) : Prop :=
  c ≠ '.' ∧ c ≠ ':' ∧ c ≠ '[' ∧ c ≠ ']' ∧ isSpace c = false

@[ext]
structure Segment where
  chars : List Char
  nonempty : chars ≠ []
  plain : ∀ c ∈ chars, NameChar c

/-- The segments before the last one, and the last one. -/
@[ext]
structure Path where
  scope : List Segment
  name : Segment

def Path.segments (path : Path) : List (List Char) :=
  (path.scope ++ [path.name]).map Segment.chars

def Path.text (path : Path) : List Char :=
  Text.joinDots path.segments

/-- What a part says outside its brackets. -/
@[ext]
structure Head where
  keyword : Option AggType
  path : Path

def Head.text (head : Head) : List Char :=
  match head.keyword with
  | some type => type.keyword.toList ++ ':' :: head.path.text
  | none => head.path.text

mutual

inductive Part where
  | bare (head : Head)
  | bracketed (head : Head) (body : Derivation)

/-- What follows the first part. -/
inductive Rest where
  | done (after : Blank)
  | more (gap : Blank) (wide : gap.chars ≠ []) (part : Part) (rest : Rest)

inductive Derivation where
  | mk (before : Blank) (first : Part) (rest : Rest)

end

mutual

def Part.text : Part → List Char
  | .bare head => head.text
  | .bracketed head body => head.text ++ ('[' :: body.text ++ [']'])

def Rest.text : Rest → List Char
  | .done after => after.chars
  | .more gap _ part rest => gap.chars ++ (part.text ++ rest.text)

def Derivation.text : Derivation → List Char
  | .mk before first rest => before.chars ++ (first.text ++ rest.text)

end

def Path.namePath (path : Path) : NamePath where
  scope := path.scope.map fun segment => String.ofList segment.chars
  name := String.ofList path.name.chars

/-- A part without a keyword is a value. -/
def Head.type (head : Head) : AggType :=
  head.keyword.getD .value

mutual

def Part.sub : Part → SubAgg
  | .bare head => .bare head.type head.path.namePath
  | .bracketed head body =>
    .bracketed head.type head.path.namePath (String.ofList (Text.trim body.text)) body.subs

def Rest.subs : Rest → List SubAgg
  | .done _ => []
  | .more _ _ part rest => part.sub :: rest.subs

def Derivation.subs : Derivation → List SubAgg
  | .mk _ first rest => first.sub :: rest.subs

end

/-- The tree of a derivation: its parts in their order, and its text without the white
space around it. -/
def Derivation.expression (d : Derivation) : Expression :=
  ⟨String.ofList (Text.trim d.text), d.subs⟩

end AggFlatten.Grammar
