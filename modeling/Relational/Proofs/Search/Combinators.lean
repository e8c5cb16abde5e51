import Relational.Goal.Search

/-!
# Searches

Any function from states to streams of answers can stand where a goal is applied. The combinators make such
functions out of others, whatever these do, and a goal that is written down is applied by the combinators of
its parts.
-/

namespace Relational

variable {ρ : Type}

/-- What applying a goal does: the answers from each state on. -/
abbrev Search (ρ : Type) := State → Answers ρ

namespace Search

def succeed : Search ρ := fun s => .single s

def fail : Search ρ := fun _ => .empty

/-- Searches on from every answer of the first search. -/
def conj (f g : Search ρ) : Search ρ := fun s => (f s).bind g

/-- Takes the answers of both searches. -/
def disj (f g : Search ρ) : Search ρ := fun s => (f s).merge (g s)

/-- All the searches one behind the other. They nest to the right, and the last one stands as it is. -/
def conjAll : List (Search ρ) → Search ρ
  | [] => succeed
  | [f] => f
  | f :: fs => conj f (conjAll fs)

/-- All the searches side by side. They nest to the right, and the last one stands as it is. -/
def disjAll : List (Search ρ) → Search ρ
  | [] => fail
  | [f] => f
  | f :: fs => disj f (disjAll fs)

@[simp] theorem conjAll_cons_cons (f g : Search ρ) (fs : List (Search ρ)) :
    conjAll (f :: g :: fs) = conj f (conjAll (g :: fs)) := rfl

@[simp] theorem disjAll_cons_cons (f g : Search ρ) (fs : List (Search ρ)) :
    disjAll (f :: g :: fs) = disj f (disjAll (g :: fs)) := rfl

end Search

namespace Goal

theorem applyIn_conjAll (p : Program ρ) (gs : List (Goal ρ)) (env : List (Term Var)) :
    (conjAll gs).applyIn p env = Search.conjAll (gs.map fun g => g.applyIn p env) := by
  match gs with
  | [] => rfl
  | [g] => rfl
  | g :: h :: gs => exact congrArg (Search.conj (g.applyIn p env)) (applyIn_conjAll p (h :: gs) env)

theorem applyIn_disjAll (p : Program ρ) (gs : List (Goal ρ)) (env : List (Term Var)) :
    (disjAll gs).applyIn p env = Search.disjAll (gs.map fun g => g.applyIn p env) := by
  match gs with
  | [] => rfl
  | [g] => rfl
  | g :: h :: gs => exact congrArg (Search.disj (g.applyIn p env)) (applyIn_disjAll p (h :: gs) env)

theorem applyIn_foldr_conj (p : Program ρ) (gs : List (Goal ρ)) (env : List (Term Var)) :
    (gs.foldr conj succeed).applyIn p env =
      (gs.map fun g => g.applyIn p env).foldr Search.conj Search.succeed := by
  induction gs with
  | nil => rfl
  | cons g gs ih =>
    rw [List.map_cons, List.foldr_cons, List.foldr_cons, ← ih]
    rfl

theorem applyIn_foldr_disj (p : Program ρ) (gs : List (Goal ρ)) (env : List (Term Var)) :
    (gs.foldr disj fail).applyIn p env =
      (gs.map fun g => g.applyIn p env).foldr Search.disj Search.fail := by
  induction gs with
  | nil => rfl
  | cons g gs ih =>
    rw [List.map_cons, List.foldr_cons, List.foldr_cons, ← ih]
    rfl

end Goal

end Relational
