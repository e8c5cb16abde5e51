import Relational.Proofs.Search.Branch
import Relational.Proofs.Stream.Receiving
import Relational.Proofs.Subst.Depth

/-!
# Searches that hang

Terms are unified without an occurs check, so a variable may come to stand for a list that goes round in a
circle, and two such lists are compared for ever. This is the only way in which a search can fail to
respond: as long as the unifications come to an end, so does all that is computed between two pauses.
-/

namespace Relational

open Relation (ReflTransGen)

variable {ρ : Type} {p : Program ρ} {s : State}

/-! ## Circular lists -/

/-- Comparing circular lists never ends, not even that of a circular list with itself. -/
theorem Subst.unify_circular {s : Subst} {x y : Var} {a b : Term Var}
    (hx : s.lookup x = some (.pair a (.var x))) (hy : s.lookup y = some (.pair b (.var y)))
    (hab : s.UnifiesTo a b (some s)) : s.unify (.var x) (.var y) = .error .endless := by
  have hwx : s.walk (.var x) = some (.pair a (.var x)) := walk_of_lookup hx
  have hwy : s.walk (.var y) = some (.pair b (.var y)) := walk_of_lookup hy
  by_contra hends
  obtain ⟨o, ho⟩ := unify_ne_endless_iff.1 hends
  generalize hu : Term.var x = u at ho
  generalize hv : Term.var y = v at ho
  generalize hr : s = r at ho
  induction ho with
  | first hwu hwv hfirst =>
    subst hu hv hr
    cases hwx.symm.trans hwu
    cases hwy.symm.trans hwv
    cases hab.unique hfirst
  | pair hwu hwv hfirst _ _ ih =>
    subst hu hv hr
    cases hwx.symm.trans hwu
    cases hwy.symm.trans hwv
    -- The items add nothing, so the comparison is back where it began.
    cases hab.unique hfirst
    exact ih rfl rfl rfl
  | clash hwu hwv hclash =>
    subst hu hv hr
    cases hwx.symm.trans hwu
    cases hwy.symm.trans hwv
    cases hclash
  | same hwu | left hwu | atom hwu =>
    subst hu hr
    cases hwx.symm.trans hwu
  | right _ hwv =>
    subst hv hr
    cases hwy.symm.trans hwv

/-- The first variable stands for a circular list of ones. -/
def State.circular : State := ⟨Subst.empty.extend ⟨0⟩ (.pair (.int 1) (.var ⟨0⟩)), 1⟩

theorem State.unify_circular : circular.unify (.var ⟨0⟩) (.var ⟨0⟩) = .error .endless := by
  have hlist : circular.subst.lookup ⟨0⟩ = some (.pair (.int 1) (.var ⟨0⟩)) := Subst.lookup_extend_self ..
  have hitem : circular.subst.UnifiesTo (.int 1) (.int 1) (some circular.subst) := .atom rfl rfl rfl
  rw [unify, Subst.unify_circular hlist hlist hitem]
  rfl

theorem Goal.hangs_circular (p : Program ρ) (env : List (Term Var)) :
    ((eq (.var (.free ⟨0⟩)) (.var (.free ⟨0⟩))).applyIn p env .circular).hangs = true := by
  have heval : Expr.eval env (.var (.free ⟨0⟩)) = .var ⟨0⟩ := rfl
  rw [applyIn, heval, State.unify_circular]
  rfl

/-! ## What a search waits for -/

namespace Job

/-- Every unification that the job leads to comes to an end. -/
def Settles (p : Program ρ) (job : Job ρ) : Prop :=
  ∀ u v env t, ReflTransGen (Applies p) job ⟨.eq u v, env, t⟩ →
    t.unify (u.eval env) (v.eval env) ≠ .error .endless

theorem Settles.of_applies {job job' : Job ρ} (h : job.Settles p) (ha : Applies p job job') :
    job'.Settles p :=
  fun u v env t ht => h u v env t (.head ha ht)

theorem Settles.responds_applyIn (n : Nat) (g : Goal ρ) {env : List (Term Var)} {s : State}
    (h : Settles p ⟨g, env, s⟩) : (g.applyIn p env s).Responds (Job.run p) n := by
  match n, g with
  | n, .eq u v =>
    have hends := h u v env s .refl
    rw [Goal.applyIn]
    cases hunify : s.unify (u.eval env) (v.eval env) with
    | ok r => exact Stream.responds_of_ended rfl n
    | error failure =>
      cases failure with
      | clash => exact Stream.responds_of_ended rfl n
      | endless => exact (hends hunify).elim
  | n, .succeed | n, .fail => exact Stream.responds_of_ended rfl n
  | n, .conj g h' =>
    exact (responds_applyIn n g (h.of_applies .first)).bind fun r hr =>
      responds_applyIn n h' (h.of_applies (.second hr))
  | n, .disj g h' =>
    exact (responds_applyIn n g (h.of_applies .left)).merge (responds_applyIn n h' (h.of_applies .right))
  | n, .fresh g => exact responds_applyIn n g (h.of_applies .fresh)
  | 0, .delay _ | 0, .call _ _ => exact Stream.responds_zero _
  | n + 1, .delay g =>
    exact Stream.responds_suspended.2 ⟨rfl, responds_applyIn n g (h.of_applies .delay)⟩
  | n + 1, .call rel args =>
    exact Stream.responds_suspended.2 ⟨rfl, responds_applyIn n (p.body rel) (h.of_applies .call)⟩
termination_by (n, g)

/-- A search that always responds needs all the goals that it applies to respond too. -/
theorem responds_of_applies {job job' : Job ρ} (ha : Applies p job job')
    (h : ∀ n, (job.run p).Responds (Job.run p) n) (n : Nat) : (job'.run p).Responds (Job.run p) n := by
  cases ha with
  | first => exact (Stream.responds_of_bind h n).1
  | second ht => exact (Stream.responds_of_bind h _).2 _ ht n
  | left => exact (Stream.Responds.of_merge (h (2 * n))).1.mono (by omega)
  | right => exact (Stream.Responds.of_merge (h (2 * n))).2.mono (by omega)
  | fresh => exact h n
  | delay | call => exact (Stream.responds_suspended.1 (h (n + 1))).2

/-- A search responds however often it is resumed if and only if all its unifications come to an end. -/
theorem responds_iff (job : Job ρ) : (∀ n, (job.run p).Responds (Job.run p) n) ↔ job.Settles p := by
  constructor
  · intro h u v env t ht hendless
    induction ht using ReflTransGen.head_induction_on with
    | refl =>
      have hhangs := (h 1).hangs_eq
      rw [run, Goal.applyIn, hendless] at hhangs
      cases hhangs
    | head ha _ ih => exact ih (responds_of_applies ha h)
  · exact fun h n => h.responds_applyIn n job.goal

end Job

end Relational
