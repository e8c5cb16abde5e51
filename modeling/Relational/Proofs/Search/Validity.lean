import Relational.Proofs.Search.Derivation
import Relational.Proofs.Search.Meaning
import Relational.Proofs.Subst.Solutions

/-!
# Valid states

The counter of a state is ahead of all its variables, so a variable with the number of the counter is new.
Derivations keep it so.
-/

namespace Relational

variable {ρ : Type} {p : Program ρ} {g : Goal ρ} {θ η : Assignment} {env : List (Term Var)}
  {s r : State} {c : Nat} {x : Var}

theorem State.freshVar_below (henv : ∀ t ∈ env, t.Below s.counter) :
    ∀ t ∈ .var s.freshVar.1 :: env, t.Below s.freshVar.2.counter := by
  refine List.forall_mem_cons.2 ⟨fun x hx => ?_, fun t ht => (henv t ht).mono (Nat.le_succ _)⟩
  obtain rfl : x = s.freshVar.1 := by simpa [Term.vars] using hx
  exact Nat.lt_succ_self _

/-- The variables of the bindings have numbers below the counter, and no chain of bindings of variables to
variables comes back to where it began. -/
structure State.Valid (s : State) : Prop where
  key_lt {x : Var} {t : Term Var} : s.subst.lookup x = some t → x.id < s.counter
  below {x : Var} {t : Term Var} : s.subst.lookup x = some t → t.Below s.counter
  chainFree : s.subst.ChainFree

namespace State.Valid

theorem empty : State.empty.Valid where
  key_lt := nofun
  below := nofun
  chainFree := Subst.chainFree_empty

theorem freshVar (h : s.Valid) : s.freshVar.2.Valid where
  key_lt hx := (h.key_lt hx).trans (Nat.lt_succ_self _)
  below ht := (h.below ht).mono (Nat.le_succ _)
  chainFree := h.chainFree

/-- A variable stands for another one. -/
theorem of_alias {x y : Var} (hx : x.id < c) (hy : y.id < c) (hxy : x ≠ y) :
    (State.mk (Subst.empty.extend x (.var y)) c).Valid := by
  have hlookup {z : Var} {t : Term Var} (h : (Subst.empty.extend x (.var y)).lookup z = some t) :
      z = x ∧ t = .var y := by
    rw [Subst.lookup_extend] at h
    split at h
    · exact ⟨‹_›, (Option.some.inj h).symm⟩
    · cases h
  have hne : (.var y : Term Var) ≠ .var x := fun h => hxy (Term.var.inj h).symm
  exact ⟨fun hz => (hlookup hz).1 ▸ hx, fun ht => (hlookup ht).2 ▸ Term.below_var.2 hy,
    fun z hz => Subst.chainFree_empty z (Subst.Grows.loop_of_extend (fun _ _ => rfl) hne hz)⟩

theorem closed (h : s.Valid) : Subst.Closed (Term.Below s.counter) s.subst where
  first had x hx := had x (List.mem_append_left _ hx)
  second had x hx := had x (List.mem_append_right _ hx)
  lookup _ ht := h.below ht

theorem unbound (h : s.Valid) (hx : s.counter ≤ x.id) : s.subst.lookup x = none := by
  by_contra hne
  obtain ⟨t, ht⟩ := Option.ne_none_iff_exists'.1 hne
  exact absurd (h.key_lt ht) (Nat.not_lt.2 hx)

theorem grows (h : s.Valid) {q : Subst} (hq : Subst.Grows (Term.Below s.counter) s.subst q) :
    (s.withSubst q).Valid := by
  refine ⟨fun {x t} hx => ?_, fun {x t} ht => ?_, hq.chainFree h.chainFree⟩
  · induction hq with
    | refl => exact h.key_lt hx
    | bind _ _ _ _ key _ ih =>
      simp only [State.subst_withSubst, Subst.lookup_extend] at hx
      split at hx
      · rename_i hxy
        exact key x (by simp [Term.vars, hxy])
      · exact ih hx
  · induction hq with
    | refl => exact h.below ht
    | bind _ _ _ _ _ term ih =>
      simp only [State.subst_withSubst, Subst.lookup_extend] at ht
      split at ht
      · exact Option.some.inj ht ▸ term
      · exact ih ht

theorem unify (h : s.Valid) {u v : Term Var} {q : Subst} (hq : s.subst.UnifiesTo u v (some q))
    (hu : u.Below s.counter) (hv : v.Below s.counter) : (s.withSubst q).Valid :=
  h.grows (hq.grows h.closed hu hv)

/-- Solutions of a valid state may take any values on the variables to come. -/
theorem solves_congr (h : s.Valid) (hη : θ.Agree s.counter η) (hθ : θ.Solves s.subst) :
    η.Solves s.subst := by
  intro x t hx
  rw [← hη x (h.key_lt hx), ← hη.term_eq (h.below hx)]
  exact hθ x t hx

end State.Valid

theorem State.unify_eq_ok {u v : Term Var} (h : s.unify u v = .ok r) :
    ∃ q, s.subst.UnifiesTo u v (some q) ∧ r = s.withSubst q := by
  rw [State.unify] at h
  cases hq : s.subst.unify u v with
  | ok q =>
    rw [hq] at h
    exact ⟨q, Subst.unify_eq_ok_iff.1 hq, (Except.ok.inj h).symm⟩
  | error e =>
    rw [hq] at h
    cases h

theorem State.unify_of_unifiesTo {u v : Term Var} {q : Subst} (h : s.subst.UnifiesTo u v (some q)) :
    s.unify u v = .ok (s.withSubst q) := by
  rw [State.unify, Subst.unify_eq_ok_iff.2 h]
  rfl

/-- Derivations lead from valid states to valid states and do not give a number twice. -/
theorem Derivation.valid (d : Derivation p g env s r) (hs : s.Valid) (hg : g.Below p c)
    (hc : c ≤ s.counter) (henv : ∀ t ∈ env, t.Below s.counter) : r.Valid ∧ s.counter ≤ r.counter := by
  induction d with
  | eq h =>
    obtain ⟨q, hq, rfl⟩ := State.unify_eq_ok h
    have hu := Expr.eval_below (hg.eq.1.mono hc) henv
    have hv := Expr.eval_below (hg.eq.2.mono hc) henv
    exact ⟨hs.unify hq hu hv, Nat.le_refl _⟩
  | succeed => exact ⟨hs, Nat.le_refl _⟩
  | conj _ _ ihg ihh =>
    obtain ⟨ht, hst⟩ := ihg hs hg.conj.1 hc henv
    obtain ⟨hr, htr⟩ := ihh ht hg.conj.2 (hc.trans hst) fun t h => (henv t h).mono hst
    exact ⟨hr, hst.trans htr⟩
  | left _ ih => exact ih hs hg.disj.1 hc henv
  | right _ ih => exact ih hs hg.disj.2 hc henv
  | fresh _ ih =>
    obtain ⟨hr, hsr⟩ := ih hs.freshVar hg.fresh (hc.trans (Nat.le_succ _)) (State.freshVar_below henv)
    exact ⟨hr, (Nat.le_succ _).trans hsr⟩
  | delay _ ih => exact ih hs hg.delay hc henv
  | call _ ih =>
    obtain ⟨hargs, hbody⟩ := hg.call
    exact ih hs hbody hc (Expr.map_eval_below (fun e he => (hargs e he).mono hc) henv)

end Relational
