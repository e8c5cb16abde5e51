import Relational.Subst.Basic

/-!
# Unification

Extends a substitution so that two terms become equal under it, by as few bindings as possible. A
variable may be bound to a term that contains it, and a later unification may then go round for ever;
this outcome is `endless`, apart from a `clash` of terms that cannot be made equal.
-/

namespace Relational

/-- Why a unification has no result. -/
inductive Failure where
  /-- Two different atoms, or an atom and a pair, stand in the same place. -/
  | clash
  /-- The comparison never ends. -/
  | endless
deriving DecidableEq

namespace Subst

/-- Unifies two terms, going at most `n` levels deep, where the second halves of two pairs lie one level
below the pairs as the first halves do. The values of the terms are compared: a variable on the left is
bound to the right-hand side, otherwise one on the right to the left-hand side, and first halves are
unified before second halves. -/
def unifyWithin : (n : Nat) → Subst → Term Var → Term Var → Except Failure Subst
  | 0, _, _, _ => .error .endless
  | n + 1, s, u, v =>
    match s.walk u, s.walk v with
    | some (.var x), some (.var y) => .ok (if x = y then s else s.extend x (.var y))
    | some (.var x), some t => .ok (s.extend x t)
    | some t, some (.var y) => .ok (s.extend y t)
    | some (.pair a d), some (.pair b e) =>
      match unifyWithin n s a b with
      | .ok s => unifyWithin n s d e
      | .error failure => .error failure
    | some (.atom a), some (.atom b) => if a == b then .ok s else .error .clash
    | some _, some _ => .error .clash
    | _, _ => .error .endless

/-- More depth does not change an outcome. -/
theorem unifyWithin_mono {m n : Nat} (h : m ≤ n) {s : Subst} {u v : Term Var}
    (hm : unifyWithin m s u v ≠ .error .endless) : unifyWithin n s u v = unifyWithin m s u v := by
  induction m generalizing n s u v with
  | zero => exact absurd rfl hm
  | succ m ih =>
    obtain ⟨n, rfl⟩ : ∃ k, n = k + 1 := ⟨n - 1, by omega⟩
    have hmn : m ≤ n := by omega
    simp only [unifyWithin] at hm ⊢
    split <;> simp_all
    rename_i a d b e _ _
    -- The first halves end as well, since an endless one would have been the outcome.
    have hab : unifyWithin m s a b ≠ .error .endless := by
      intro hab
      rw [hab] at hm
      exact hm rfl
    rw [ih hmn hab]
    split <;> simp_all

/-- A depth that a unification exceeds only if it never ends. On the way down both terms are subterms
of `u`, `v` or a bound term, and a bound variable is bound for good, so a deeper descent would come back
to the same two terms under the same bindings. -/
def depthBound (s : Subst) (u v : Term Var) : Nat :=
  Nat.pow (u.size + v.size + s.bindings.foldr (fun b n => b.2.size + n) 0 + 1) 3

/-- A depth that is tried before the exact bound is worked out. -/
def shallow : Nat := 1000000

/-- Unifies two terms. -/
def unify (s : Subst) (u v : Term Var) : Except Failure Subst :=
  match unifyWithin shallow s u v with
  | .error .endless => unifyWithin (s.depthBound u v) s u v
  | outcome => outcome

end Subst

end Relational
