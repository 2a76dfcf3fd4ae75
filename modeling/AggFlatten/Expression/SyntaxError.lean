/-! What can be wrong with the text of an expression. -/
namespace AggFlatten

inductive Malformation where
  | noTypeAndName
  | textAfterBracket
deriving DecidableEq

inductive SyntaxError where
  | empty
  /-- The place of the bracket, in characters. -/
  | unbalanced (position : Nat)
  | unknownType (keyword : String)
  | invalidName (token name : String)
  | malformed (token : String) (reason : Malformation)
deriving DecidableEq

def Malformation.message : Malformation → String
  | noTypeAndName => "expected 'type:name'"
  | textAfterBracket => "unexpected text after ']'"

def SyntaxError.message : SyntaxError → String
  | empty => "empty expression"
  | unbalanced position => "unbalanced bracket at position " ++ toString position
  | unknownType keyword => "unknown aggregation type '" ++ keyword ++ "'"
  | invalidName token name => "invalid name '" ++ name ++ "' in '" ++ token ++ "'"
  | malformed token reason => "malformed sub-expression '" ++ token ++ "': " ++ reason.message

end AggFlatten
