import AggFlatten.Proofs.Expression.Request

/-! Where a part stands in an expression: among others, and possibly in the brackets of one of
them, however deep. What is around it is a text on either side. -/
namespace AggFlatten.Grammar

/-- What follows the first part, with one part left open. -/
inductive RestContext where
  | here (gap : Blank) (wide : gap.chars ≠ []) (rest : Rest)
  | later (gap : Blank) (wide : gap.chars ≠ []) (part : Part) (further : RestContext)

/-- An expression with one part left open. -/
inductive Context where
  | first (before : Blank) (rest : Rest)
  | later (before : Blank) (first : Part) (further : RestContext)
  | inside (outer : Context) (head : Head) (inner : Context)

namespace RestContext

def fill : RestContext → Part → Rest
  | here gap wide rest, part => .more gap wide part rest
  | later gap wide other further, part => .more gap wide other (further.fill part)

def front : RestContext → List Char
  | here gap _ _ => gap.chars
  | later gap _ other further => gap.chars ++ (other.text ++ further.front)

def back : RestContext → List Char
  | here _ _ rest => rest.text
  | later _ _ _ further => further.back

theorem text_fill (context : RestContext) (part : Part) :
    (context.fill part).text = context.front ++ part.text ++ context.back := by
  induction context with
  | here gap wide rest => simp [fill, front, back, Rest.text]
  | later gap wide other further ih => simp [fill, front, back, Rest.text, ih]

end RestContext

namespace Context

def fill : Context → Part → Derivation
  | first before rest, part => .mk before part rest
  | later before other further, part => .mk before other (further.fill part)
  | inside outer head inner, part => outer.fill (.bracketed head (inner.fill part))

def front : Context → List Char
  | first before _ => before.chars
  | later before other further => before.chars ++ (other.text ++ further.front)
  | inside outer head inner => outer.front ++ (head.text ++ '[' :: inner.front)

def back : Context → List Char
  | first _ rest => rest.text
  | later _ _ further => further.back
  | inside outer _ inner => inner.back ++ ']' :: outer.back

theorem text_fill (context : Context) (part : Part) :
    (context.fill part).text = context.front ++ part.text ++ context.back := by
  induction context generalizing part with
  | first before rest => simp [fill, front, back, Derivation.text]
  | later before other further =>
    simp [fill, front, back, Derivation.text, RestContext.text_fill]
  | inside outer head inner outer_ih inner_ih =>
    simp [fill, front, back, outer_ih, Part.text, inner_ih]

/-- The text with this part in the place that is left open. -/
def around (context : Context) (part : Part) : String :=
  String.ofList (context.front ++ part.text ++ context.back)

theorem parse_around (context : Context) (part : Part) :
    Expression.parse (context.around part) = .ok (context.fill part).expression := by
  rw [around, ← text_fill, parse_text]

end Context

end AggFlatten.Grammar
