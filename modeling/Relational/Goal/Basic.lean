import Relational.Term.Basic

/-!
# Goals

A goal says what is to hold of some terms. It is written down as data: the variables that it introduces
itself are referred to by how far out they were introduced, so a goal has no names and can be put into
another one by shifting its references.
-/

namespace Relational

/-! ## Terms of a goal -/

/-- What stands for a variable in a goal: a variable of the search, or the variable or argument bound `i`
places further out. -/
inductive Ref where
  | free (x : Var)
  | bound (i : Nat)
deriving DecidableEq

namespace Ref

/-- The same reference inside `n` more bound variables. -/
def shift (n : Nat) : Ref → Ref
  | .free x => .free x
  | .bound i => .bound (i + n)

/-- The term that a reference stands for where the bound places hold the terms of `env`. A place that
is not there reads as the empty list. -/
def eval (env : List (Term Var)) : Ref → Term Var
  | .free x => .var x
  | .bound i => env.getD i .nil

theorem eval_shift (xs env : List (Term Var)) (r : Ref) :
    (r.shift xs.length).eval (xs ++ env) = r.eval env := by
  cases r with
  | free x => rfl
  | bound i => simp [shift, eval, List.getD_eq_getElem?_getD, List.getElem?_append_right]

end Ref

/-- A term as it stands in a goal. -/
abbrev Expr := Term Ref

namespace Expr

/-- The variable or argument bound `i` places out. -/
def bound (i : Nat) : Expr := .var (.bound i)

/-- The same term inside `n` more bound variables. -/
def weaken (n : Nat) (e : Expr) : Expr := e.map (Ref.shift n)

/-- The term that an expression stands for where the bound places hold the terms of `env`. -/
def eval (env : List (Term Var)) (e : Expr) : Term Var := e.bind (Ref.eval env)

/-- Inside more places, a shifted expression stands for what it stood for outside them. -/
theorem eval_weaken (xs env : List (Term Var)) (e : Expr) :
    (e.weaken xs.length).eval (xs ++ env) = e.eval env := by
  simp only [eval, weaken, Term.map_eq_bind, Term.bind_bind, Term.bind, Ref.eval_shift]

end Expr

/-! ## Goals -/

/-- The relations that a goal may call: the recursive ones of the library and those of a program, whose
names have type `ρ`. -/
inductive Rel (ρ : Type) where
  | never
  | always
  | member
  | append
  | named (name : ρ)
deriving DecidableEq

/-- What is to hold. -/
inductive Goal (ρ : Type) where
  /-- Two terms are equal. -/
  | eq (u v : Expr)
  | succeed
  | fail
  /-- Both goals hold. -/
  | conj (g h : Goal ρ)
  /-- One of the goals holds. -/
  | disj (g h : Goal ρ)
  /-- The goal holds for some value of a new variable, which is its innermost place. -/
  | fresh (g : Goal ρ)
  /-- The goal holds; the search pauses before it. -/
  | delay (g : Goal ρ)
  /-- A relation holds of the arguments; the search pauses before it. -/
  | call (rel : Rel ρ) (args : List Expr)

namespace Goal

variable {ρ : Type}

instance : Inhabited (Goal ρ) := ⟨.succeed⟩

/-- All the goals hold. They nest to the right, and the last one stands as it is. -/
def conjAll : List (Goal ρ) → Goal ρ
  | [] => .succeed
  | [g] => g
  | g :: gs => .conj g (conjAll gs)

/-- One of the goals holds. They nest to the right, and the last one stands as it is. -/
def disjAll : List (Goal ρ) → Goal ρ
  | [] => .fail
  | [g] => g
  | g :: gs => .disj g (disjAll gs)

/-- The goal holds for some values of `n` new variables. The last of them is the innermost place. -/
def freshN : (n : Nat) → Goal ρ → Goal ρ
  | 0, g => g
  | n + 1, g => .fresh (freshN n g)

/-- A search that never finds anything and never ends. -/
def never : Goal ρ := .call .never []

/-- A search that succeeds again and again. -/
def always : Goal ρ := .call .always []

end Goal

end Relational
