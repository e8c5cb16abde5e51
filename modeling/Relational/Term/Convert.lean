import Relational.Term.List

/-!
# Values as terms

Which ordinary values stand for a term, and for which one.
-/

namespace Relational

/-- Values of type `α` stand for terms over `ν`. -/
class ToTerm (α : Type) (ν : outParam Type) where
  /-- The term that a value stands for. -/
  toTerm : α → Term ν

export ToTerm (toTerm)

variable {α β ν : Type}

/-- The unit value is the empty list. -/
instance : ToTerm Unit Var := ⟨fun _ => .nil⟩

instance : ToTerm Bool Var := ⟨.bool⟩

instance : ToTerm Int Var := ⟨.int⟩

instance : ToTerm Float Var := ⟨.float⟩

/-- A string is a symbol. -/
instance : ToTerm String Var := ⟨.sym⟩

instance : ToTerm Var Var := ⟨.var⟩

instance : ToTerm Atom Var := ⟨.atom⟩

instance : ToTerm (Term ν) ν := ⟨id⟩

/-- A pair of values is the pair of their terms. -/
instance [ToTerm α ν] [ToTerm β ν] : ToTerm (α × β) ν :=
  ⟨fun v => .pair (toTerm v.1) (toTerm v.2)⟩

/-- A list of values is the proper list of their terms. -/
instance [ToTerm α ν] : ToTerm (List α) ν :=
  ⟨fun vs => .list (vs.map toTerm)⟩

end Relational
