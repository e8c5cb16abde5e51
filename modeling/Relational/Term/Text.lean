import Relational.Decimal.Text
import Relational.Term.List

/-!
# Text of a term

Lists are written in parentheses with their items apart by spaces, and a tail that is not the empty list
stands behind a lone dot. The text is first a list of characters, about which one can reason, and then
a string.
-/

namespace Relational

/-- The characters of an atom. A symbol is written as it is. -/
def Atom.chars : Atom → List Char
  | .nil => ['(', ')']
  | .bool true => ['#', 't']
  | .bool false => ['#', 'f']
  | .int n => Decimal.intChars n
  | .float x => Decimal.floatChars x
  | .sym name => name.toList
  | .reified k => '_' :: '.' :: Nat.toDigits 10 k

/-- The characters of a variable. -/
def Var.chars (x : Var) : List Char :=
  '?' :: Nat.toDigits 10 x.id

namespace Term

mutual
/-- The characters of a term. -/
def chars : Term Var → List Char
  | .atom a => a.chars
  | .var x => x.chars
  | .pair a d => '(' :: a.chars ++ d.tailChars

/-- The characters of a term that stands behind the first item of a list, with the closing
parenthesis. -/
def tailChars : Term Var → List Char
  | .atom .nil => [')']
  | .atom a => [' ', '.', ' '] ++ a.chars ++ [')']
  | .var x => [' ', '.', ' '] ++ x.chars ++ [')']
  | .pair a d => ' ' :: a.chars ++ d.tailChars
end

/-- The text of a term. -/
def text (t : Term Var) : String := String.ofList t.chars

instance : ToString (Term Var) := ⟨text⟩

end Term

/-- The text of a variable. -/
def Var.text (x : Var) : String := String.ofList x.chars

instance : ToString Var := ⟨Var.text⟩

/-- What a shape error says. -/
def ShapeError.message : ShapeError Var → String
  | .notAPair part t => part.name ++ ": " ++ t.text ++ " is not a pair"
  | .improperList tail => "improper list ending in " ++ tail.text

end Relational
