import Relational.Proofs.Search.Combinators
import Mathlib.Logic.Function.Iterate

/-!
# New variables

A goal with several new variables is its body, run with the variables from the counter on and in the state
behind them. How the variables reach the body makes no difference: they may come one after another into the
places of a goal that is written down, or gather in a list that a function takes to the search to be made.
-/

namespace Relational

variable {ρ : Type}

namespace Search

/-- Introduces a variable and goes on with the search that `f` makes of it. -/
def fresh (f : Var → Search ρ) : Search ρ := fun s =>
  let (x, s) := s.freshVar
  f x s

/-- Introduces `n` more variables, each behind those introduced before, and goes on with the search that `f`
makes of all. -/
def freshBehind : (n : Nat) → (introduced : List Var) → (List Var → Search ρ) → Search ρ
  | 0, introduced, f => f introduced
  | n + 1, introduced, f => fresh fun x => freshBehind n (introduced ++ [x]) f

/-- Introduces `n` variables and goes on with the search that `f` makes of them. -/
def freshN (n : Nat) (f : List Var → Search ρ) : Search ρ := freshBehind n [] f

/-- `n` uses of `fresh`, one inside the other. -/
def freshNested : (n : Nat) → (List Var → Search ρ) → Search ρ
  | 0, f => f []
  | n + 1, f => fresh fun x => freshNested n fun xs => f (x :: xs)

theorem fresh_apply (f : Var → Search ρ) (s : State) :
    fresh f s = f ⟨s.counter⟩ ⟨s.subst, s.counter + 1⟩ := rfl

/-- Whatever has been introduced already stays in front, in its order. -/
theorem freshBehind_eq_freshNested (n : Nat) (introduced : List Var) (f : List Var → Search ρ) :
    freshBehind n introduced f = freshNested n fun xs => f (introduced ++ xs) := by
  induction n generalizing introduced with
  | zero => rw [freshBehind, freshNested, List.append_nil]
  | succ n ih => simp only [freshBehind, freshNested, ih, List.append_assoc, List.singleton_append]

theorem freshN_eq_freshNested (n : Nat) (f : List Var → Search ρ) : freshN n f = freshNested n f :=
  freshBehind_eq_freshNested n [] f

example (f : List Var → Search ρ) : freshN 3 f = fresh fun x => fresh fun y => fresh fun z => f [x, y, z] :=
  rfl

theorem freshNested_apply (n : Nat) (f : List Var → Search ρ) (s : State) :
    freshNested n f s = f ((List.range' s.counter n).map Var.mk) ⟨s.subst, s.counter + n⟩ := by
  induction n generalizing f s with
  | zero => rfl
  | succ n ih =>
    rw [freshNested, fresh_apply, ih, List.range'_succ, List.map_cons, Nat.add_assoc, Nat.add_comm 1 n]

theorem freshN_apply (n : Nat) (f : List Var → Search ρ) (s : State) :
    freshN n f s = f ((List.range' s.counter n).map Var.mk) ⟨s.subst, s.counter + n⟩ := by
  rw [freshN_eq_freshNested, freshNested_apply]

end Search

namespace Goal

theorem freshN_eq_iterate (n : Nat) (g : Goal ρ) : freshN n g = fresh^[n] g := by
  induction n with
  | zero => rfl
  | succ n ih => rw [freshN, ih, Function.iterate_succ_apply']

/-- The places of a goal hold its new variables, the last one innermost. -/
theorem applyIn_freshN (p : Program ρ) (n : Nat) (g : Goal ρ) (env : List (Term Var)) :
    (freshN n g).applyIn p env =
      Search.freshN n fun xs => g.applyIn p ((xs.map Term.var).reverse ++ env) := by
  rw [Search.freshN_eq_freshNested]
  induction n generalizing env with
  | zero => rfl
  | succ n ih =>
    funext s
    simp only [freshN, applyIn, ih, Search.freshNested, Search.fresh, List.map_cons, List.reverse_cons,
      List.append_assoc, List.singleton_append]

end Goal

/-- New variables are handed out consecutively and in order. A goal with `n` new variables gives in every state
the stream that its body gives for the variables from the counter on, in the state with the same bindings
and a counter that is `n` higher; so it is with every function that takes the variables, and with every goal
that has places for them. Either is `n` uses of `fresh`, one inside the other. The variables are distinct,
and each has a lower number than those behind it. -/
theorem new_variables_in_order (n : Nat) :
    (∀ f : List Var → Search ρ,
      (∀ s, Search.freshN n f s = f ((List.range' s.counter n).map Var.mk) ⟨s.subst, s.counter + n⟩) ∧
      Search.freshN n f = Search.freshNested n f) ∧
    (∀ (p : Program ρ) (g : Goal ρ) (env : List (Term Var)),
      (∀ s, (Goal.freshN n g).applyIn p env s =
        g.applyIn p (((List.range' s.counter n).map fun i => Term.var ⟨i⟩).reverse ++ env)
          ⟨s.subst, s.counter + n⟩) ∧
      Goal.freshN n g = Goal.fresh^[n] g ∧
      (Goal.freshN n g).applyIn p env =
        Search.freshN n fun xs => g.applyIn p ((xs.map Term.var).reverse ++ env)) ∧
    ∀ c, ((List.range' c n).map Var.mk).Nodup ∧
      ((List.range' c n).map Var.mk).Pairwise fun x y => x.id < y.id := by
  refine ⟨fun f => ⟨Search.freshN_apply n f, Search.freshN_eq_freshNested n f⟩,
    fun p g env => ⟨fun s => ?_, Goal.freshN_eq_iterate n g, Goal.applyIn_freshN p n g env⟩, fun c => ?_⟩
  · rw [Goal.applyIn_freshN, Search.freshN_apply, List.map_map]
    rfl
  · have horder : ((List.range' c n).map Var.mk).Pairwise fun x y => x.id < y.id :=
      List.pairwise_map.2 List.pairwise_lt_range'
    exact ⟨horder.imp fun h hxy => Nat.ne_of_lt h (congrArg Var.id hxy), horder⟩

end Relational
