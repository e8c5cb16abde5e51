import Relational.Proofs.Search.Validity
import Relational.Proofs.Subst.Locality

/-!
# Equations in a search

An equation has one answer or none, and it has them at once unless its unification is endless. The goals on
the halves of a pair are equations in which a new variable stands for the other half.
-/

namespace Relational

namespace Stream

variable {κ α : Type}

theorem single_merge (x : α) (s : Stream κ α) : (single x).merge s = .cons x s := rfl

theorem single_bind (x : α) (g : α → Stream κ α) : (single x).bind g = (g x).merge .empty := rfl

end Stream

variable {ρ : Type} {r q : Subst} {u v : Term Var}

/-! ## Equations -/

/-- The answers of an equation. -/
def State.equate (s : State) (u v : Term Var) : Answers ρ :=
  match s.unify u v with
  | .ok s => .single s
  | .error .clash => .empty
  | .error .endless => Goal.endless s

theorem State.equate_ok (c : Nat) (h : r.UnifiesTo u v (some q)) :
    (State.equate ⟨r, c⟩ u v : Answers ρ) = .single ⟨q, c⟩ := by
  rw [equate, State.unify, Subst.unify_eq_ok_iff.2 h]
  rfl

theorem State.equate_clash (c : Nat) (h : r.UnifiesTo u v none) :
    (State.equate ⟨r, c⟩ u v : Answers ρ) = .empty := by
  rw [equate, State.unify, Subst.unify_eq_clash_iff.2 h]
  rfl

/-! ## New variables -/

theorem State.agreeBelow_extend (s : State) (w : Term Var) :
    Subst.AgreeBelow s.counter s.subst (s.subst.extend ⟨s.counter⟩ w) :=
  (Subst.AgreeBelow.refl _ _).extend_new (x := ⟨s.counter⟩) le_rfl w

namespace State.Valid

variable {s : State} {e : Term Var}

theorem below_of_lookup_extend (hs : s.Valid) {x : Var} {w t : Term Var} (hw : w.Below s.counter)
    (ht : (s.subst.extend ⟨s.counter⟩ w).lookup x = some t) : t.Below s.counter := by
  rw [Subst.lookup_extend] at ht
  split at ht
  · exact Option.some.inj ht ▸ hw
  · exact hs.below ht

/-- A new variable takes the value of a term. -/
theorem unifiesTo_new (hs : s.Valid) (he : e.Below s.counter) : ∃ w : Term Var, w.Below s.counter ∧
    s.subst.UnifiesTo (.var ⟨s.counter⟩) e (some (s.subst.extend ⟨s.counter⟩ w)) ∧
    (s.subst.extend ⟨s.counter⟩ w).walk e = (s.subst.extend ⟨s.counter⟩ w).walk (.var ⟨s.counter⟩) := by
  obtain ⟨w, hw⟩ := Option.isSome_iff_exists.1 (hs.chainFree.walk_isSome e)
  have hwc := hs.closed.below_of_walk he hw
  have hnew : s.subst.lookup ⟨s.counter⟩ = none := hs.unbound le_rfl
  have hne : w ≠ .var ⟨s.counter⟩ := by
    rintro rfl
    exact Nat.lt_irrefl _ (Term.below_var.1 hwc)
  refine ⟨w, hwc, .left (Subst.walk_of_unbound hnew) hw hne, ?_⟩
  rw [Subst.walk_of_lookup (Subst.lookup_extend_self ..)]
  exact Subst.walk_eq_of_walk (fun _ _ => Subst.lookup_extend_of_eq_some hnew) hw

end State.Valid

/-! ## Halves of a pair -/

namespace Goal

theorem applyIn_car (p : Program ρ) (l a : Expr) (env : List (Term Var)) (s : State) :
    (car l a).applyIn p env s =
      State.equate ⟨s.subst, s.counter + 1⟩ (.pair (a.eval env) (.var ⟨s.counter⟩)) (l.eval env) := by
  rw [← Expr.eval_weaken [.var ⟨s.counter⟩] env a, ← Expr.eval_weaken [.var ⟨s.counter⟩] env l]
  rfl

theorem applyIn_cdr (p : Program ρ) (l d : Expr) (env : List (Term Var)) (s : State) :
    (cdr l d).applyIn p env s =
      State.equate ⟨s.subst, s.counter + 1⟩ (.pair (.var ⟨s.counter⟩) (d.eval env)) (l.eval env) := by
  rw [← Expr.eval_weaken [.var ⟨s.counter⟩] env d, ← Expr.eval_weaken [.var ⟨s.counter⟩] env l]
  rfl

end Goal

end Relational
