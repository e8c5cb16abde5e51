import Relational.Proofs.Search.Equations
import Relational.Proofs.Subst.Ground

/-!
# Terms that go through a search

A term that a new variable is made equal to comes out of the search as it went in, and nothing else that is
known changes.
-/

namespace Relational

namespace State.Valid

variable {s : State} {t w : Term Var}

/-- A binding of a new variable makes no difference to the terms without it. -/
theorem reifiesLike_extend (hs : s.Valid) (hw : w.Below s.counter) :
    Subst.ReifiesLike s.counter s.subst (s.subst.extend ⟨s.counter⟩ w) :=
  Subst.Mirrors.reifiesLike (.of_agreeBelow (agreeBelow_extend s w) fun _ => hs.below_of_lookup_extend hw)
    hs.closed

/-- A new variable that is made equal to a term stands for what the term stands for. -/
theorem exists_reify_new (hs : s.Valid) (hacyclic : s.subst.Acyclic) (ht : t.Below s.counter) :
    ∃ q : Subst, s.subst.UnifiesTo (.var ⟨s.counter⟩) t (some q) ∧
      q.reify (.var ⟨s.counter⟩) = s.subst.reify t ∧
      ∀ u : Term Var, u.Below s.counter → q.reify u = s.subst.reify u := by
  obtain ⟨w, hw, hunify, hwalk⟩ := hs.unifiesTo_new ht
  obtain ⟨hq, hlike⟩ := hs.reifiesLike_extend hw hacyclic
  refine ⟨_, hunify, ?_, hlike⟩
  obtain ⟨v, hv⟩ := hq.exists_resolvesTo t
  obtain ⟨value, hvalue⟩ := Option.isSome_iff_exists.1 (hq.chainFree.walk_isSome t)
  have hnew := (Subst.resolvesTo_of_walk (hwalk.symm.trans hvalue)).2 ((Subst.resolvesTo_of_walk hvalue).1 hv)
  rw [← hlike t ht, Subst.reify_of_resolvesTo hnew, Subst.reify_of_resolvesTo hv]

end State.Valid

namespace Goal

variable {ρ : Type}

theorem applyIn_fresh_eq (p : Program ρ) (t : Expr) {env : List (Term Var)} {s : State} {q : Subst}
    (h : s.subst.UnifiesTo (.var ⟨s.counter⟩) (t.eval env) (some q)) :
    (fresh (eq (Expr.bound 0) (t.weaken 1))).applyIn p env s = .single ⟨q, s.counter + 1⟩ := by
  rw [← Expr.eval_weaken [.var ⟨s.counter⟩] env t] at h
  exact State.equate_ok (s.counter + 1) h

/-- A term that a new variable is made equal to goes through a search unchanged. Where the bindings of a state
are acyclic, there is one answer, at once; in it the new variable reifies to what the term reifies to in
the state, and so does every term over the variables of the state. A term without variables is the answer
to a search for it from the empty state. -/
theorem round_trip (p : Program ρ) :
    (∀ (t : Expr) (env : List (Term Var)) (s : State), s.Valid → s.subst.Acyclic →
      (t.eval env).Below s.counter →
      ∃ q, (fresh (eq (Expr.bound 0) (t.weaken 1))).applyIn p env s = .single q ∧
        (∃ w, s.reify (t.eval env) = some w ∧ q.reify (.var ⟨s.counter⟩) = some w) ∧
        ∀ u : Term Var, u.Below s.counter → ∃ w, s.reify u = some w ∧ q.reify u = some w) ∧
    ∀ t : Ground, ∃ q, (∀ steps, (fresh (eq (Expr.bound 0) t.embed)).runAll p (steps + 1) = some [q]) ∧
      q.reifyFirst = some t.embed := by
  constructor
  · intro t env s hs hacyclic ht
    obtain ⟨q, hunify, hnew, hold⟩ := hs.exists_reify_new hacyclic ht
    have hreify (u : Term Var) : ∃ w, s.reify u = some w := by
      obtain ⟨w, hw⟩ := hacyclic.exists_resolvesTo u
      exact ⟨_, Subst.reify_of_resolvesTo hw⟩
    refine ⟨⟨q, s.counter + 1⟩, applyIn_fresh_eq p t hunify, ?_, fun u hu => ?_⟩
    · obtain ⟨w, hw⟩ := hreify (t.eval env)
      exact ⟨w, hw, hnew.trans hw⟩
    · obtain ⟨w, hw⟩ := hreify u
      exact ⟨w, hw, (hold u hu).trans hw⟩
  · intro t
    have hunify : Subst.empty.UnifiesTo (.var ⟨0⟩) (Expr.eval [.var ⟨0⟩] t.embed)
        (some (Subst.empty.extend ⟨0⟩ t.embed)) := by
      rw [Ground.eval_embed]
      exact .left rfl (Ground.walk_embed _ t) (t.embed_ne_var _)
    have hanswers : (fresh (eq (Expr.bound 0) t.embed)).answers p =
        .single ⟨Subst.empty.extend ⟨0⟩ t.embed, 1⟩ := State.equate_ok 1 hunify
    refine ⟨⟨Subst.empty.extend ⟨0⟩ t.embed, 1⟩, fun steps => ?_, ?_⟩
    · rw [runAll, hanswers]
      cases steps <;> rfl
    · exact Ground.reify_of_resolvesTo (.bound (Subst.lookup_extend_self ..) (t.resolvesTo_embed _))

/-- A term that resolves through a binding, beside an alias of one of its variables. -/
theorem round_trip_alias :
    let s : State := ⟨(Subst.empty.extend ⟨1⟩ (.var ⟨0⟩)).extend ⟨2⟩ (.pair (.var ⟨1⟩) (.int 5)), 3⟩
    let t : Expr := .pair (.var (.free ⟨2⟩)) (.var (.free ⟨0⟩))
    s.Valid ∧ s.subst.Acyclic ∧
      ∃ q, (fresh (eq (Expr.bound 0) (t.weaken 1)) : Goal Empty).apply nofun s = .single q ∧
        q.reify (.var ⟨3⟩) = some (.pair (.pair (.reified 0) (.int 5)) (.reified 0)) ∧
        q.reify (.var ⟨1⟩) = some (.reified 0) := by
  intro s t
  let r : State := ⟨Subst.empty.extend ⟨1⟩ (.var ⟨0⟩), 3⟩
  have hr : r.Valid := .of_alias (by decide) (by decide) (by decide)
  have hs : s.Valid := hr.unify (u := .var ⟨2⟩) (v := .pair (.var ⟨1⟩) (.int 5))
    (.left (Subst.walk_of_unbound rfl) (Subst.walk_pair ..) nofun)
    (Term.below_var.2 (by decide)) (Term.below_pair.2 ⟨Term.below_var.2 (by decide), Term.below_atom⟩)
  have hacyclic : s.subst.Acyclic := by
    have hsubst : r.subst.Acyclic := Subst.acyclic_alias (by decide)
    exact (Subst.acyclic_extend_iff hsubst rfl (.pair (.bound rfl (.unbound rfl)) .atom)).2 (by decide)
  have ht : (t.eval []).Below s.counter :=
    Term.below_pair.2 ⟨Term.below_var.2 (by decide), Term.below_var.2 (by decide)⟩
  obtain ⟨q, hq, ⟨w, hsw, hqw⟩, hold⟩ := (round_trip (ρ := Empty) nofun).1 t [] s hs hacyclic ht
  obtain ⟨w', hsw', hqw'⟩ := hold (.var ⟨1⟩) (Term.below_var.2 (by decide))
  exact ⟨hs, hacyclic, q, hq, hqw.trans (hsw.symm.trans rfl), hqw'.trans (hsw'.symm.trans rfl)⟩

end Goal

end Relational
