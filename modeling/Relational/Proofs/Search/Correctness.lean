import Relational.Proofs.Search.Answers
import Relational.Proofs.Search.Validity

/-!
# Search and meaning

The answers of a search say what its goal means: the assignments that can be extended to solutions of an
answer are those for which the goal holds.
-/

namespace Relational

variable {ρ : Type} {p : Program ρ} {g : Goal ρ} {θ η ζ : Assignment} {vals : List Ground}
  {env : List (Term Var)} {s r : State} {t : Term Var} {c k : Nat} {x : Var}

/-! ## Soundness -/

/-- A solution of the state to which a derivation leads solves the state from which it leads, and the goal
holds for it. -/
theorem Derivation.holds (d : Derivation p g env s r) (hr : θ.Solves r.subst) :
    Holds p θ g (env.map θ.term) ∧ θ.Solves s.subst := by
  induction d with
  | @eq u v env s r h =>
    obtain ⟨q, hq, rfl⟩ := State.unify_eq_ok h
    obtain ⟨hs, huv⟩ := hq.solves_some_iff.1 hr
    exact ⟨.eq (by rwa [Expr.value_map, Expr.value_map]), hs⟩
  | succeed => exact ⟨.succeed, hr⟩
  | conj _ _ ihg ihh =>
    obtain ⟨hh, ht⟩ := ihh hr
    obtain ⟨hg, hs⟩ := ihg ht
    exact ⟨.conj hg hh, hs⟩
  | left _ ih => exact ⟨.left (ih hr).1, (ih hr).2⟩
  | right _ ih => exact ⟨.right (ih hr).1, (ih hr).2⟩
  | @fresh g env s r _ ih =>
    obtain ⟨hg, hs⟩ := ih hr
    exact ⟨.fresh _ (θ.hasNan_value ⟨s.counter⟩) hg, hs⟩
  | delay _ ih => exact ⟨.delay (ih hr).1, (ih hr).2⟩
  | @call rel args env s r _ ih =>
    obtain ⟨hbody, hs⟩ := ih hr
    refine ⟨.call ?_, hs⟩
    simpa only [List.map_map, Function.comp_def, Expr.value_map] using hbody

/-! ## Completeness -/

/-- Where a goal holds, a derivation leads to a state that this does not rule out. The assignment `η` has
values for the variables made so far, and agrees with `θ` on those that the goal is about. -/
theorem Holds.exists_derivation (h : Holds p θ g vals) (hs : s.Valid) (hg : g.Below p c)
    (hc : c ≤ s.counter) (henv : ∀ t ∈ env, t.Below s.counter) (hη : θ.Agree c η)
    (hvals : env.map η.term = vals) (hsolves : η.Solves s.subst) :
    ∃ r, Nonempty (Derivation p g env s r) ∧
      ∃ ζ : Assignment, ζ.Solves r.subst ∧ η.Agree s.counter ζ := by
  induction h generalizing env s η with
  | @eq u v vals h =>
    obtain ⟨hu, hv⟩ := hg.eq
    have huv : (η.term (u.eval env) == η.term (v.eval env)) = true := by
      rwa [← Expr.value_map, ← Expr.value_map, hvals, ← Expr.value_congr hu hη,
        ← Expr.value_congr hv hη]
    obtain ⟨q, hq⟩ := Subst.unifiesTo_of_solves hs.chainFree hsolves huv
    exact ⟨_, ⟨.eq (State.unify_of_unifiesTo hq)⟩, η, hq.solves_some_iff.2 ⟨hsolves, huv⟩, .refl⟩
  | succeed => exact ⟨s, ⟨.succeed⟩, η, hsolves, .refl⟩
  | conj _ _ ihg ihh =>
    obtain ⟨t, ⟨dg⟩, ζ, hζ, hηζ⟩ := ihg hs hg.conj.1 hc henv hη hvals hsolves
    obtain ⟨ht, hst⟩ := dg.valid hs hg.conj.1 hc henv
    -- The second goal starts where the first one has left its own new variables with values.
    obtain ⟨r, ⟨dh⟩, ξ, hξ, hζξ⟩ := ihh ht hg.conj.2 (hc.trans hst)
      (fun t h => (henv t h).mono hst) (hη.trans (hηζ.mono hc)) ((hηζ.map_eq henv).symm.trans hvals) hζ
    exact ⟨r, ⟨.conj dg dh⟩, ξ, hξ, hηζ.trans (hζξ.mono hst)⟩
  | left _ ih =>
    obtain ⟨r, ⟨d⟩, hr⟩ := ih hs hg.disj.1 hc henv hη hvals hsolves
    exact ⟨r, ⟨.left d⟩, hr⟩
  | right _ ih =>
    obtain ⟨r, ⟨d⟩, hr⟩ := ih hs hg.disj.2 hc henv hη hvals hsolves
    exact ⟨r, ⟨.right d⟩, hr⟩
  | @fresh g vals t ht _ ih =>
    let η' := η.update s.freshVar.1 t ht
    have hη' : η.Agree s.counter η' := .update η (x := s.freshVar.1) (Nat.le_refl _) ht
    have hvals' : (.var s.freshVar.1 :: env).map η'.term = t :: vals := by
      rw [List.map_cons, ← hη'.map_eq henv, hvals, Assignment.term_var, Assignment.value_update_self]
    obtain ⟨r, ⟨d⟩, ζ, hζ, hηζ⟩ := ih hs.freshVar hg.fresh (hc.trans (Nat.le_succ _))
      (State.freshVar_below henv) (hη.trans (hη'.mono hc)) hvals' (hs.solves_congr hη' hsolves)
    exact ⟨r, ⟨.fresh d⟩, ζ, hζ, hη'.trans (hηζ.mono (Nat.le_succ _))⟩
  | delay _ ih =>
    obtain ⟨r, ⟨d⟩, hr⟩ := ih hs hg.delay hc henv hη hvals hsolves
    exact ⟨r, ⟨.delay d⟩, hr⟩
  | @call rel args vals _ ih =>
    obtain ⟨hargs, hbody⟩ := hg.call
    have hvals' : (args.map fun e => e.eval env).map η.term = args.map fun e => e.value θ vals := by
      rw [List.map_map, ← hvals]
      refine List.map_congr_left fun e he => ?_
      rw [Expr.value_congr (hargs e he) hη, Expr.value_map, Function.comp_apply]
    obtain ⟨r, ⟨d⟩, hr⟩ := ih hs hbody hc
      (Expr.map_eval_below (fun e he => (hargs e he).mono hc) henv) hη hvals' hsolves
    exact ⟨r, ⟨.call d⟩, hr⟩

/-! ## Correctness -/

/-- A goal holds for a solution of a valid state if and only if the search from this state delivers, after
finitely many pauses, an answer with a solution that has the same values for the variables made so far. This
is about all that following the stream meets. Where the unifications met come to an end, it is what the
search hands out; where one of them does not, the search hands out nothing from there on. -/
theorem holds_iff_delivers (hs : s.Valid) (hg : g.Below p s.counter) (hθ : θ.Solves s.subst) :
    Holds p θ g [] ↔ ∃ n, ∃ r ∈ (g.apply p s).delivered (Job.run p) n,
      ∃ η : Assignment, η.Solves r.subst ∧ ∀ x, x.id < s.counter → η.value x = θ.value x := by
  constructor
  · intro h
    obtain ⟨r, hr, η, hη, hagree⟩ :=
      h.exists_derivation hs hg (Nat.le_refl _) (List.forall_mem_nil _) .refl rfl hθ
    obtain ⟨n, hn⟩ := mem_delivered_iff.2 hr
    exact ⟨n, r, hn, η, hη, fun x hx => (hagree x hx).symm⟩
  · rintro ⟨n, r, hr, η, hη, hagree⟩
    obtain ⟨d⟩ := mem_delivered_iff.1 ⟨n, hr⟩
    exact (d.holds hη).1.congr hg hagree

/-- The list of a value that equals the first variable. -/
def listOfFirst : Goal Empty :=
  .fresh (.conj (.eq (Expr.bound 0) (.var (.free ⟨0⟩)))
    (.delay (.eq (.var (.free ⟨1⟩)) (.pair (Expr.bound 0) .nil))))

/-- Two variables, the first of which is bound to a number. -/
def firstBound : State := ⟨Subst.empty.extend ⟨0⟩ (.int 1), 2⟩

theorem lookup_firstBound {x : Var} {t : Term Var} (h : firstBound.subst.lookup x = some t) :
    x = ⟨0⟩ ∧ t = .int 1 := by
  simp only [firstBound, Subst.lookup_extend] at h
  split at h
  · exact ⟨‹_›, (Option.some.inj h).symm⟩
  · cases h

theorem holds_iff_delivers_listOfFirst :
    let θ := (Assignment.const (.int 1) rfl).update ⟨1⟩ (.pair (.int 1) .nil) rfl
    Holds nofun θ listOfFirst [] ∧
      ∃ n, ∃ r ∈ (listOfFirst.apply nofun firstBound).delivered (Job.run nofun) n,
        ∃ η : Assignment, η.Solves r.subst ∧ ∀ x, x.id < 2 → η.value x = θ.value x := by
  intro θ
  have hs : firstBound.Valid := by
    refine ⟨fun h => ?_, fun h => ?_, fun x hx => ?_⟩
    · obtain ⟨rfl, -⟩ := lookup_firstBound h
      decide
    · obtain ⟨-, rfl⟩ := lookup_firstBound h
      nofun
    · obtain ⟨z, hz, -⟩ := Relation.TransGen.head'_iff.1 hx
      cases (lookup_firstBound hz).2
  have hg : listOfFirst.Below nofun 2 := by
    intro x hx
    cases hx with
    | fresh hx =>
      cases hx with
      | conjLeft hx => rcases hx with h | h <;> simp_all [Expr.bound, Term.vars]
      | conjRight hx =>
        cases hx with
        | delay hx => rcases hx with h | h <;> simp_all [Expr.bound, Term.nil, Term.vars]
  have hθ : θ.Solves firstBound.subst := by
    intro x t h
    obtain ⟨rfl, rfl⟩ := lookup_firstBound h
    rfl
  have h : Holds nofun θ listOfFirst [] :=
    .fresh (.int 1) rfl (.conj (.eq rfl) (.delay (.eq rfl)))
  exact ⟨h, (holds_iff_delivers hs hg hθ).1 h⟩

end Relational
