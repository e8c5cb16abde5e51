import Relational.Proofs.Subst.Depth
import Relational.Proofs.Subst.Twins
import Relational.Proofs.Term.Equality

/-!
# Symmetry of unification

Two unifications of the same terms, one of them the other way round and under a twin substitution, take the
same course. Only where two open variables meet do they bind in opposite directions, so the results are
twins again.
-/

namespace Relational

namespace Subst

variable {s a b r q : Subst} {u v t w : Term Var} {o : Option Subst}

theorem clashes_symm (h : clashes t w = true) : clashes w t = true := by
  cases t with
  | atom x =>
    cases w with
    | atom y =>
      simp only [clashes] at h ⊢
      rwa [BEq.comm]
    | _ => exact h
  | _ => cases w <;> exact h

theorem not_var_of_clashes (h : clashes t w = true) : (∀ x, t ≠ .var x) ∧ ∀ x, w ≠ .var x := by
  refine ⟨?_, ?_⟩ <;> rintro x rfl
  · cases h
  · cases t <;> cases h

/-! ## Unifications in lockstep -/

theorem UnifiesTo.symm (h : UnifiesTo a u v o) (hab : Twins a b) :
    ∃ p, UnifiesTo b v u p ∧ Option.Rel Twins o p := by
  induction h generalizing b with
  | @same a u v x hu hv =>
    obtain ⟨y, hy⟩ := hab.exists_var hu
    exact ⟨some b, .same ((hab.walk_var_iff hu hy).1 hv) hy, .some hab⟩
  | @left a u v t x hu hv ne =>
    obtain ⟨x', hx'⟩ := hab.exists_var hu
    cases t with
    | var y =>
      -- Two open variables meet. The other way round it is the one of `v` that gets bound.
      obtain ⟨y', hy'⟩ := hab.exists_var hv
      have hyx : y ≠ x := fun h => ne (congrArg Term.var h)
      have hxy' : x' ≠ y' := by
        rintro rfl
        have hu' : a.walk u = some (.var y) := (hab.walk_var_iff hv hy').2 hx'
        exact hyx (Term.var.inj (Option.some.inj (hu'.symm.trans hu)))
      have ne' : (.var x' : Term Var) ≠ .var y' := fun h => hxy' (Term.var.inj h)
      exact ⟨_, .left hy' hx' ne', .some (hab.extend_var hu hv hyx hx' hy' hxy')⟩
    | _ =>
      have hv' := (hab.walk_iff (by simp)).1 hv
      exact ⟨_, .right hv' hx' (by simp), .some (hab.extend_value hu hx' (by simp))⟩
  | right hu hv ht =>
    obtain ⟨y', hy'⟩ := hab.exists_var hv
    have hu' := (hab.walk_iff ht).1 hu
    exact ⟨_, .left hy' hu' (ht y'), .some (hab.extend_value hv hy' ht)⟩
  | atom hu hv heq =>
    have hu' := (hab.walk_iff (by simp)).1 hu
    have hv' := (hab.walk_iff (by simp)).1 hv
    exact ⟨some b, .atom hv' hu' (BEq.symm heq), .some hab⟩
  | clash hu hv htw =>
    obtain ⟨ht, hw⟩ := not_var_of_clashes htw
    exact ⟨none, .clash ((hab.walk_iff hw).1 hv) ((hab.walk_iff ht).1 hu) (clashes_symm htw), .none⟩
  | first hu hv _ ih =>
    have hu' := (hab.walk_iff (by simp)).1 hu
    have hv' := (hab.walk_iff (by simp)).1 hv
    obtain ⟨p, hp, hrel⟩ := ih hab
    cases hrel
    exact ⟨none, .first hv' hu' hp, .none⟩
  | pair hu hv _ _ ihab ihde =>
    have hu' := (hab.walk_iff (by simp)).1 hu
    have hv' := (hab.walk_iff (by simp)).1 hv
    obtain ⟨p, hp, hrel⟩ := ihab hab
    cases hrel with
    | some hrq =>
      obtain ⟨p', hp', hrel'⟩ := ihde hrq
      exact ⟨p', .pair hv' hu' hp hp', hrel'⟩

/-! ## Symmetry -/

/-- Unification is symmetric up to the choice of the variables that stand for others. Both ways round it
ends or neither way, with the same outcome. Two results have as many bindings; they agree on the value of
every term that has one and on which terms stand for the same open variable; and they reify alike. -/
theorem unify_symm (hs : s.ChainFree) (u v : Term Var) :
    (s.unify u v ≠ .error .endless ↔ s.unify v u ≠ .error .endless) ∧
    (s.unify u v = .error .clash ↔ s.unify v u = .error .clash) ∧
    ∀ a b, s.unify u v = .ok a → s.unify v u = .ok b →
      a.size = b.size ∧
      (∀ t, (∃ w, (∀ x, w ≠ .var x) ∧ a.walk t = some w ∧ b.walk t = some w) ∨
        ∃ x y, a.walk t = some (.var x) ∧ a.lookup x = none ∧
          b.walk t = some (.var y) ∧ b.lookup y = none) ∧
      (∀ t t', a.SameVar t t' ↔ b.SameVar t t') ∧
      ∀ t, a.reify t = b.reify t := by
  have hsymm {u v : Term Var} {o : Option Subst} (h : UnifiesTo s u v o) :
      ∃ p, UnifiesTo s v u p ∧ Option.Rel Twins o p := h.symm (.refl hs)
  have hends {u v : Term Var} (h : ∃ o, UnifiesTo s u v o) : ∃ o, UnifiesTo s v u o := by
    obtain ⟨o, ho⟩ := h
    obtain ⟨p, hp, -⟩ := hsymm ho
    exact ⟨p, hp⟩
  have hclash {u v : Term Var} (h : s.unify u v = .error .clash) : s.unify v u = .error .clash := by
    obtain ⟨p, hp, hrel⟩ := hsymm (unify_eq_clash_iff.1 h)
    cases hrel
    exact unify_eq_clash_iff.2 hp
  refine ⟨?_, ⟨hclash, hclash⟩, fun a b ha hb => ?_⟩
  · rw [unify_ne_endless_iff, unify_ne_endless_iff]
    exact ⟨hends, hends⟩
  · have htwins : Twins a b := by
      obtain ⟨p, hp, hrel⟩ := hsymm (unify_eq_ok_iff.1 ha)
      have hb' : p = some b := outcome_inj ((unify_eq_outcome_iff.2 hp).symm.trans hb)
      subst hb'
      cases hrel with
      | some h => exact h
    exact ⟨htwins.size_eq, htwins.walk_cases, fun _ _ => htwins.sameVar_iff, htwins.reify_eq⟩

/-- Two variables meet in both orders, under a substitution with a binding. -/
theorem unify_symm_two_vars :
    let s := empty.extend ⟨2⟩ (.var ⟨0⟩)
    s.ChainFree ∧
    s.unify (.var ⟨2⟩) (.var ⟨1⟩) = .ok (s.extend ⟨0⟩ (.var ⟨1⟩)) ∧
    s.unify (.var ⟨1⟩) (.var ⟨2⟩) = .ok (s.extend ⟨1⟩ (.var ⟨0⟩)) ∧
    ∀ t, (s.extend ⟨0⟩ (.var ⟨1⟩)).reify t = (s.extend ⟨1⟩ (.var ⟨0⟩)).reify t := by
  intro s
  have hs : s.ChainFree := chainFree_empty.extend (fun _ _ => rfl) (by simp)
  have h : s.unify (.var ⟨2⟩) (.var ⟨1⟩) = .ok (s.extend ⟨0⟩ (.var ⟨1⟩)) :=
    unify_eq_ok_iff.2 (unifiesTo_of_unifyWithin (n := 1) rfl)
  have h' : s.unify (.var ⟨1⟩) (.var ⟨2⟩) = .ok (s.extend ⟨1⟩ (.var ⟨0⟩)) :=
    unify_eq_ok_iff.2 (unifiesTo_of_unifyWithin (n := 1) rfl)
  obtain ⟨-, -, hresults⟩ := unify_symm hs (.var ⟨2⟩) (.var ⟨1⟩)
  obtain ⟨-, -, -, hreify⟩ := hresults _ _ h h'
  exact ⟨hs, h, h', hreify⟩

end Subst

end Relational
