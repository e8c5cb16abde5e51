import Relational.Proofs.Search.Answers
import Relational.Proofs.Search.Validity
import Relational.Proofs.Subst.Resolution

/-!
# Answers add to what is known

A search only ever adds bindings of unbound variables and makes new variables. So an answer keeps every
binding of the state in which the search began, and it tells no two terms apart that were the same there.
-/

namespace Relational

variable {ρ : Type} {p : Program ρ} {g : Goal ρ} {env : List (Term Var)} {s t r : State} {n : Nat}

/-! ## Extensions of a state -/

/-- `r` has the bindings of `s` and maybe more of variables that were unbound, and a counter that is
not behind. -/
structure State.Extends (s r : State) : Prop where
  grows : Subst.Grows (fun _ => True) s.subst r.subst
  counter_le : s.counter ≤ r.counter

namespace State.Extends

theorem refl : s.Extends s := ⟨.refl, Nat.le_refl _⟩

theorem trans (h₁ : s.Extends t) (h₂ : t.Extends r) : s.Extends r :=
  ⟨h₁.grows.trans h₂.grows, h₁.counter_le.trans h₂.counter_le⟩

theorem freshVar : s.Extends s.freshVar.2 := ⟨.refl, Nat.le_succ _⟩

theorem unify {u v : Term Var} (h : s.unify u v = .ok r) : s.Extends r := by
  obtain ⟨q, hq, rfl⟩ := State.unify_eq_ok h
  exact ⟨hq.grows (.univ _) trivial trivial, Nat.le_refl _⟩

end State.Extends

theorem Derivation.extends (d : Derivation p g env s r) : s.Extends r := by
  induction d with
  | eq h => exact .unify h
  | succeed => exact .refl
  | conj _ _ ihg ihh => exact ihg.trans ihh
  | left _ ih | right _ ih | delay _ ih | call _ ih => exact ih
  | fresh _ ih => exact State.Extends.freshVar.trans ih

/-! ## Answers -/

/-- Every answer of a search extends the state in which the search began. The old bindings stand behind the
new ones and are still the ones that are found; the counter has not gone back; and when the answer is
acyclic, resolving a term in the old state first makes no difference, so terms that resolved alike there
resolve alike in the answer. -/
theorem mem_delivered_extends (h : r ∈ (g.apply p s).delivered (Job.run p) n) :
    s.subst.bindings <:+ r.subst.bindings ∧ s.counter ≤ r.counter ∧
    (∀ x t, s.subst.lookup x = some t → r.subst.lookup x = some t) ∧
    (r.subst.Acyclic →
      (∀ t, ∃ v w, s.subst.resolve t = some v ∧ r.subst.resolve v = some w ∧
        r.subst.resolve t = some w) ∧
      ∀ t u, s.subst.resolve t = s.subst.resolve u → r.subst.resolve t = r.subst.resolve u) := by
  obtain ⟨d⟩ := mem_delivered_iff.1 ⟨n, h⟩
  obtain ⟨hgrows, hcounter⟩ := d.extends
  have hlookup (x : Var) (t : Term Var) (hx : s.subst.lookup x = some t) :
      r.subst.lookup x = some t := hgrows.lookup_eq_some hx
  refine ⟨hgrows.suffix, hcounter, hlookup, fun hr => ?_⟩
  have hresolve (t : Term Var) : ∃ v w, s.subst.resolve t = some v ∧ r.subst.resolve v = some w ∧
      r.subst.resolve t = some w := by
    obtain ⟨v, hv⟩ := (hr.of_lookup hlookup).exists_resolvesTo t
    obtain ⟨w, hw⟩ := hr.exists_resolvesTo t
    exact ⟨v, w, Subst.resolve_eq_some_iff.2 hv,
      Subst.resolve_eq_some_iff.2 ((hv.resolvesTo_iff hlookup).1 hw), Subst.resolve_eq_some_iff.2 hw⟩
  refine ⟨hresolve, fun t u htu => ?_⟩
  obtain ⟨v, w, hv, hvw, ht⟩ := hresolve t
  obtain ⟨v', w', hv', hvw', hu⟩ := hresolve u
  obtain rfl : v = v' := Option.some.inj (hv.symm.trans (htu.trans hv'))
  rw [ht, hu, ← hvw, hvw']

/-- A search that binds the second variable, which the first one leads to, to a list of a new one. -/
theorem mem_delivered_extends_list :
    let s : State := ⟨Subst.empty.extend ⟨0⟩ (.pair (.var ⟨1⟩) .nil), 2⟩
    let r : State := ⟨s.subst.extend ⟨1⟩ (.pair (.var ⟨2⟩) .nil), 3⟩
    let g : Goal Empty := .fresh (.delay (.eq (.var (.free ⟨1⟩)) (.pair (Expr.bound 0) .nil)))
    (∃ n, r ∈ (g.apply nofun s).delivered (Job.run nofun) n) ∧ r.subst.Acyclic ∧
      s.subst.bindings <:+ r.subst.bindings ∧
      ∀ t, ∃ v w, s.subst.resolve t = some v ∧ r.subst.resolve v = some w ∧
        r.subst.resolve t = some w := by
  intro s r g
  have hunify : s.freshVar.2.unify (.var ⟨1⟩) (.pair (.var ⟨2⟩) .nil) = .ok r :=
    State.unify_of_unifiesTo (Subst.unifiesTo_of_unifyWithin (n := 1) rfl)
  obtain ⟨n, hn⟩ : ∃ n, r ∈ (g.apply nofun s).delivered (Job.run nofun) n :=
    mem_delivered_iff.2 ⟨.fresh (.delay (.eq hunify))⟩
  have hr : r.subst.Acyclic := by
    -- Variables are bound to terms of later ones only.
    refine Subst.acyclic_of_rank Var.id ?_
    rintro x y ⟨t, ht, hy⟩
    simp only [r, s, Subst.lookup_extend] at ht
    split at ht
    · obtain rfl := Option.some.inj ht
      simp_all [Term.vars, Term.nil]
    · split at ht
      · obtain rfl := Option.some.inj ht
        simp_all [Term.vars, Term.nil]
      · cases ht
  obtain ⟨hsuffix, -, -, hresolve⟩ := mem_delivered_extends hn
  exact ⟨⟨n, hn⟩, hr, hsuffix, (hresolve hr).1⟩

end Relational
