import Relational.Goal.Basic

/-!
# Goals about lists

The relations between lists and their parts. They run in every direction: which of the arguments are known
does not matter.
-/

namespace Relational

namespace Goal

variable {ρ : Type}

/-! ## Pairs -/

/-- The pair of `a` and `d` is `p`. -/
def cons (a d p : Expr) : Goal ρ := .eq (.pair a d) p

/-- The first half of `p` is `a`. -/
def car (p a : Expr) : Goal ρ :=
  .fresh (cons (a.weaken 1) (.bound 0) (p.weaken 1))

/-- The second half of `p` is `d`. -/
def cdr (p d : Expr) : Goal ρ :=
  .fresh (cons (.bound 0) (d.weaken 1) (p.weaken 1))

/-- The empty list is `l`. -/
def isNil (l : Expr) : Goal ρ := .eq .nil l

/-- Some pair is `p`. -/
def isPair (p : Expr) : Goal ρ :=
  .freshN 2 (cons (.bound 1) (.bound 0) (p.weaken 2))

/-! ## Lists -/

/-- An item of the list `l` is `x`: its first one, or one of the rest. -/
def member (x l : Expr) : Goal ρ :=
  .disj (car l x)
    (.fresh (.conj (cdr (l.weaken 1) (.bound 0)) (.call .member [x.weaken 1, .bound 0])))

/-- The items of the list `l` in front of `t` are `out`: `l` is empty and `t` is `out`, or `l` and `out`
begin with the same item and the rests are so related. -/
def append (l t out : Expr) : Goal ρ :=
  .disj (.conj (isNil l) (.eq t out))
    (.freshN 3 (conjAll [
      cons (.bound 2) (.bound 1) (l.weaken 3),
      cons (.bound 2) (.bound 0) (out.weaken 3),
      .call .append [.bound 1, t.weaken 3, .bound 0]]))

end Goal

/-! ## Definitions of relations -/

/-- The goals that the relations of a program stand for. The arguments are the bound places in order, and
nothing else is in sight. -/
abbrev Program (ρ : Type) := ρ → Goal ρ

/-- The goal that a relation stands for. -/
def Program.body {ρ : Type} (p : Program ρ) : Rel ρ → Goal ρ
  | .never => .never
  | .always => .disj .succeed .always
  | .member => .member (.bound 0) (.bound 1)
  | .append => .append (.bound 0) (.bound 1) (.bound 2)
  | .named name => p name

end Relational
