import Relational.Proofs.Subst.Depth

/-!
# Sequences of unifications

A substitution that unifications have built one after another from the empty one binds no variable twice,
and no chain of its bindings comes back to where it began, though a variable may lie in the term that it
is bound to. So every term has a value under it.
-/

namespace Relational

namespace Subst

variable {P : Term Var → Prop} {s q r : Subst} {u v : Term Var} {es fs : List (Term Var × Term Var)}

/-- Unifies the two terms of every equation, one equation after another. -/
def unifyAll (s : Subst) (es : List (Term Var × Term Var)) : Except Failure Subst :=
  es.foldlM (fun s e => s.unify e.1 e.2) s

@[simp] theorem unifyAll_nil : s.unifyAll [] = .ok r ↔ s = r := by
  simp [unifyAll, pure, Except.pure]

theorem unifyAll_cons :
    s.unifyAll ((u, v) :: es) = .ok r ↔ ∃ q, s.unify u v = .ok q ∧ q.unifyAll es = .ok r := by
  simp only [unifyAll, List.foldlM_cons, bind, Except.bind]
  cases s.unify u v <;> simp

theorem unifyAll_append :
    s.unifyAll (es ++ fs) = .ok r ↔ ∃ q, s.unifyAll es = .ok q ∧ q.unifyAll fs = .ok r := by
  simp only [unifyAll, List.foldlM_append, bind, Except.bind]
  cases es.foldlM (fun s e => s.unify e.1 e.2) s <;> simp

/-- What a unification adds, many unifications add. -/
theorem grows_of_unifyAll (h : s.unifyAll es = .ok r) (hs : Closed P s)
    (hes : ∀ e ∈ es, P e.1 ∧ P e.2) : Grows P s r := by
  induction es generalizing s with
  | nil => exact unifyAll_nil.1 h ▸ .refl
  | cons e es ih =>
    obtain ⟨q, hq, hr⟩ := unifyAll_cons.1 h
    obtain ⟨⟨hu, hv⟩, hes⟩ := List.forall_mem_cons.1 hes
    have hgrows := (unify_eq_ok_iff.1 hq).grows hs hu hv
    exact hgrows.trans (ih hr (hgrows.closed hs) hes)

theorem chainFree_of_unifyAll (h : s.unifyAll es = .ok r) (hs : s.ChainFree) : r.ChainFree :=
  (grows_of_unifyAll (P := fun _ => True) h (.univ s) fun _ _ => ⟨trivial, trivial⟩).chainFree hs

/-! ## Safety of walks -/

/-- What unifications build from the empty substitution. No variable is bound twice; every unification on
the way keeps the bindings that it finds and binds variables that were unbound; and no chain of bindings
of variables to variables has a loop. Therefore every term has a value, which is no bound variable and
is its own value. -/
theorem walk_of_unifyAll (h : empty.unifyAll es = .ok r) :
    (r.bindings.map Prod.fst).Nodup ∧
    (∀ pre u v post, es = pre ++ (u, v) :: post → ∃ s q new,
      empty.unifyAll pre = .ok s ∧ s.unify u v = .ok q ∧ q.unifyAll post = .ok r ∧
      q.bindings = new ++ s.bindings ∧ ∀ b ∈ new, s.lookup b.1 = none) ∧
    r.ChainFree ∧
    ∀ t, ∃ w, r.walk t = some w ∧ r.IsValue w ∧ r.walk w = some w := by
  have hgrows : Grows (fun _ => True) empty r :=
    grows_of_unifyAll h (.univ _) fun _ _ => ⟨trivial, trivial⟩
  have hchain : r.ChainFree := chainFree_of_unifyAll h chainFree_empty
  refine ⟨?_, fun pre u v post hes => ?_, hchain, fun t => ?_⟩
  · obtain ⟨new, hnew, hnodup, -⟩ := hgrows.exists_append
    rw [hnew]
    simpa [empty] using hnodup
  · subst hes
    obtain ⟨s, hs, hrest⟩ := unifyAll_append.1 h
    obtain ⟨q, hq, hr⟩ := unifyAll_cons.1 hrest
    have hcall := (unify_eq_ok_iff.1 hq).grows (P := fun _ => True) (.univ s) trivial trivial
    obtain ⟨new, hnew, -, hunbound⟩ := hcall.exists_append
    exact ⟨s, q, new, hs, hq, hr, hnew, fun b hb => (hunbound b hb).1⟩
  · obtain ⟨w, hw⟩ := Option.isSome_iff_exists.1 (hchain.walk_isSome t)
    have hvalue := isValue_of_walk hw
    exact ⟨w, hw, hvalue, walk_of_isValue hvalue⟩

/-- A variable that is bound to a pair with itself in it, and another one that stands for it. -/
theorem walk_of_unifyAll_cycle :
    let r := (empty.extend ⟨0⟩ (.pair (.var ⟨0⟩) .nil)).extend ⟨1⟩ (.pair (.var ⟨0⟩) .nil)
    empty.unifyAll [(.var ⟨0⟩, .pair (.var ⟨0⟩) .nil), (.var ⟨1⟩, .var ⟨0⟩)] = .ok r ∧
      ∃ w, r.walk (.var ⟨1⟩) = some w ∧ r.IsValue w ∧ r.walk w = some w := by
  intro r
  have h : empty.unifyAll [(.var ⟨0⟩, .pair (.var ⟨0⟩) .nil), (.var ⟨1⟩, .var ⟨0⟩)] = .ok r := by
    refine unifyAll_cons.2 ⟨_, unify_eq_ok_iff.2 (unifiesTo_of_unifyWithin (n := 1) rfl), ?_⟩
    exact unifyAll_cons.2 ⟨_, unify_eq_ok_iff.2 (unifiesTo_of_unifyWithin (n := 1) rfl), rfl⟩
  obtain ⟨-, -, -, hwalk⟩ := walk_of_unifyAll h
  exact ⟨h, hwalk (.var ⟨1⟩)⟩

end Subst

end Relational
