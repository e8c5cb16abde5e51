import Relational.Term.Text
import Relational.Subst.Basic

/-!
# Text of a substitution

The bindings stand in braces, the most recent first.
-/

namespace Relational

namespace Subst

/-- The text of one binding. -/
def bindingText (b : Var × Term Var) : String :=
  b.1.text ++ ": " ++ b.2.text

/-- The text of a substitution. -/
def text (s : Subst) : String :=
  "\x7b" ++ ", ".intercalate (s.bindings.map bindingText) ++ "\x7d"

instance : ToString Subst := ⟨text⟩

end Subst

end Relational
