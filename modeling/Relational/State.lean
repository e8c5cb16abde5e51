import Relational.Subst.Text
import Relational.Subst.Unify
import Relational.Subst.Reify

/-!
# States of a search

A state is what a search knows at one point: the bindings found so far, and the number that the next new
variable gets. Numbers go up by one, so a new variable differs from all before it.
-/

namespace Relational

/-- The bindings found so far and the number of the next variable. -/
structure State where
  subst : Subst
  counter : Nat

namespace State

/-- The state in which a search starts. -/
def empty : State := ⟨Subst.empty, 0⟩

instance : Inhabited State := ⟨empty⟩

/-- States are equal when their bindings, in order, and their counters are. -/
instance : BEq State := ⟨fun s r => s.subst == r.subst && s.counter == r.counter⟩

/-- The same counter with other bindings. -/
def withSubst (s : State) (subst : Subst) : State := { s with subst }

/-- A new variable, and the state after it. Numbers never run out here, where a counter of fixed width would
end at its last number. -/
def freshVar (s : State) : Var × State :=
  (⟨s.counter⟩, { s with counter := s.counter + 1 })

/-- New variables in the order of their numbers, and the state after them. -/
def freshVars : (n : Nat) → State → List Var × State
  | 0, s => ([], s)
  | n + 1, s =>
    let (x, s) := s.freshVar
    let (xs, s) := freshVars n s
    (x :: xs, s)

/-- The state after two terms have been unified. -/
def unify (s : State) (u v : Term Var) : Except Failure State :=
  (s.subst.unify u v).map s.withSubst

/-- The term that the bindings give for `t`. -/
def reify (s : State) (t : Term Var) : Option (Term Var) := s.subst.reify t

/-- The term that the bindings give for the first variable of a search. -/
def reifyFirst (s : State) : Option (Term Var) := s.reify (.var ⟨0⟩)

/-- The text of a state. -/
def text (s : State) : String :=
  "State \x7b subs: " ++ s.subst.text ++ ", counter: " ++ toString s.counter ++ " \x7d"

instance : ToString State := ⟨text⟩

@[simp] theorem counter_withSubst (s : State) (r : Subst) : (s.withSubst r).counter = s.counter := rfl

@[simp] theorem subst_withSubst (s : State) (r : Subst) : (s.withSubst r).subst = r := rfl

theorem freshVars_fst (n : Nat) (s : State) :
    (s.freshVars n).1 = (List.range' s.counter n).map Var.mk := by
  induction n generalizing s with
  | zero => rfl
  | succ n ih => simp [freshVars, freshVar, ih, List.range'_succ]

theorem freshVars_snd (n : Nat) (s : State) :
    (s.freshVars n).2 = ⟨s.subst, s.counter + n⟩ := by
  induction n generalizing s with
  | zero => rfl
  | succ n ih => simp [freshVars, freshVar, ih, Nat.add_comm n 1, Nat.add_assoc]

end State

end Relational
