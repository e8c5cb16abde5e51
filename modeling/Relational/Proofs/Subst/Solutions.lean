import Relational.Proofs.Subst.Depth
import Relational.Proofs.Term.Assignment

/-!
# Solutions

An assignment solves a substitution when it gives every bound variable the value of its term. Unification
narrows the solutions of a substitution down to those that make two terms equal: it fails when there are
none, and it ends whenever there is one.
-/

namespace Relational

open Relation (TransGen)

variable {θ : Assignment} {s r : Subst} {u v t w : Term Var} {x y : Var} {o : Option Subst}

/-- Every bound variable has the value of the term that it is bound to. -/
def Assignment.Solves (θ : Assignment) (s : Subst) : Prop :=
  ∀ x t, s.lookup x = some t → (θ.value x == θ.term t) = true

namespace Assignment

theorem solves_extend (hx : s.lookup x = none) :
    θ.Solves (s.extend x t) ↔ θ.Solves s ∧ (θ.value x == θ.term t) = true := by
  constructor
  · intro h
    exact ⟨fun y w hy => h y w (Subst.lookup_extend_of_eq_some hx hy),
      h x t (by simp)⟩
  · rintro ⟨hs, ht⟩ y w hy
    rw [Subst.lookup_extend] at hy
    split at hy
    · subst y
      exact Option.some.inj hy ▸ ht
    · exact hs y w hy

/-- In a solution a term and its value under the substitution are equal to the same terms. -/
theorem Solves.beq_walk (hs : θ.Solves s) (ht : s.walk t = some v) (w : Ground) :
    (θ.term v == w) = (θ.term t == w) :=
  Subst.walk_closed (P := fun v => (θ.term v == w) = (θ.term t == w))
    (fun x t hx hl => (BEq.congr_left (hs x t hl)).symm.trans hx) ht rfl

theorem Solves.beq_walk_walk (hs : θ.Solves s) (hu : s.walk u = some t) (hv : s.walk v = some w) :
    (θ.term u == θ.term v) = (θ.term t == θ.term w) := by
  rw [← hs.beq_walk hu, BEq.comm, ← hs.beq_walk hv, BEq.comm]

end Assignment

/-! ## Solutions of a unification -/

theorem Subst.UnifiesTo.solves_iff (h : s.UnifiesTo u v o) (θ : Assignment) :
    (∃ r ∈ o, θ.Solves r) ↔ θ.Solves s ∧ (θ.term u == θ.term v) = true := by
  induction h with
  | same hu hv =>
    simp only [Option.mem_some_iff, exists_eq_left']
    refine (and_iff_left_of_imp fun hs => ?_).symm
    simp [hs.beq_walk_walk hu hv]
  | left hu hv ne =>
    simp only [Option.mem_some_iff, exists_eq_left',
      Assignment.solves_extend (Subst.isValue_of_walk hu _ rfl)]
    refine and_congr_right fun hs => ?_
    rw [hs.beq_walk_walk hu hv, Assignment.term_var]
  | right hu hv ht =>
    simp only [Option.mem_some_iff, exists_eq_left',
      Assignment.solves_extend (Subst.isValue_of_walk hv _ rfl)]
    refine and_congr_right fun hs => ?_
    rw [hs.beq_walk_walk hu hv, Assignment.term_var, BEq.comm]
  | atom hu hv hab =>
    simp only [Option.mem_some_iff, exists_eq_left']
    refine (and_iff_left_of_imp fun hs => ?_).symm
    rw [hs.beq_walk_walk hu hv]
    exact hab
  | @clash s u v t w hu hv htw =>
    simp only [Option.not_mem_none, false_and, exists_false, false_iff, not_and]
    intro hs
    rw [hs.beq_walk_walk hu hv]
    cases t <;> cases w <;> simp_all [Subst.clashes]
  | first hu hv _ ih =>
    simp only [Option.not_mem_none, false_and, exists_false, false_iff, not_and] at ih ⊢
    intro hs
    rw [hs.beq_walk_walk hu hv, Assignment.term_pair, Assignment.term_pair, Term.pair_beq_pair,
      Bool.and_eq_true]
    exact fun h => ih hs h.1
  | pair hu hv _ _ ihab ihde =>
    simp only [Option.mem_some_iff, exists_eq_left'] at ihab
    rw [ihde, ihab, and_assoc]
    refine and_congr_right fun hs => ?_
    rw [hs.beq_walk_walk hu hv, Assignment.term_pair, Assignment.term_pair, Term.pair_beq_pair,
      Bool.and_eq_true]

theorem Subst.UnifiesTo.solves_some_iff (h : s.UnifiesTo u v (some r)) :
    θ.Solves r ↔ θ.Solves s ∧ (θ.term u == θ.term v) = true := by
  simpa using h.solves_iff θ

theorem Subst.UnifiesTo.beq_eq_false (h : s.UnifiesTo u v none) (hs : θ.Solves s) :
    (θ.term u == θ.term v) = false := by
  simpa [hs] using h.solves_iff θ

/-! ## Unifications that must end -/

/-- When some solution makes the two terms equal, their unification ends. -/
theorem Subst.unifiesTo_of_solves (hc : s.ChainFree) (hs : θ.Solves s)
    (huv : (θ.term u == θ.term v) = true) : ∃ r, s.UnifiesTo u v (some r) := by
  -- Both halves of a pair have values smaller than that of the pair.
  induction hn : (θ.term u).size using Nat.strong_induction_on generalizing s u v with
  | _ n ih =>
    obtain ⟨t, ht⟩ := Option.isSome_iff_exists.1 (hc.walk_isSome u)
    obtain ⟨w, hw⟩ := Option.isSome_iff_exists.1 (hc.walk_isSome v)
    have htw : (θ.term t == θ.term w) = true := (hs.beq_walk_walk ht hw).symm.trans huv
    have hsize : (θ.term t).size = n := by
      have htv : (θ.term t == θ.term v) = true := (hs.beq_walk ht _).trans huv
      rw [← hn, Term.size_eq_of_beq htv, Term.size_eq_of_beq huv]
    cases t with
    | var x =>
      by_cases hwx : w = .var x
      · exact ⟨s, .same ht (hwx ▸ hw)⟩
      · exact ⟨_, .left ht hw hwx⟩
    | atom a =>
      cases w with
      | var y => exact ⟨_, .right ht hw nofun⟩
      | atom b => exact ⟨s, .atom ht hw htw⟩
      | pair b e => simp at htw
    | pair a d =>
      cases w with
      | var y => exact ⟨_, .right ht hw nofun⟩
      | atom b => simp at htw
      | pair b e =>
        simp only [Assignment.term_pair, Term.size] at hsize
        simp only [Assignment.term_pair, Term.pair_beq_pair, Bool.and_eq_true] at htw
        obtain ⟨r, hr⟩ := ih _ (by omega) hc hs htw.1 rfl
        have hrs := hr.solves_some_iff.2 ⟨hs, htw.1⟩
        obtain ⟨q, hq⟩ := ih _ (by omega) (hr.chainFree hc) hrs htw.2 rfl
        exact ⟨q, .pair ht hw hr hq⟩

/-! ## Cycles -/

/-- What is found in the term of a variable has a smaller value, unless it is that term. -/
theorem Assignment.Solves.size_lt_or_alias (hs : θ.Solves s) (h : s.LeadsTo x y) :
    (θ.value y).size < (θ.value x).size ∨ s.Alias x y ∧ (θ.value y).size = (θ.value x).size := by
  obtain ⟨t, ht, hy⟩ := h
  have hsize := Term.size_eq_of_beq (hs x t ht)
  cases t with
  | atom => simp [Term.vars] at hy
  | var z =>
    obtain rfl : y = z := by simpa [Term.vars] using hy
    exact .inr ⟨ht, hsize.symm⟩
  | pair a d =>
    simp only [Term.vars, List.mem_append] at hy
    simp only [Assignment.term_pair, Term.size] at hsize
    rcases hy with hy | hy
    · have := θ.size_value_le hy
      exact .inl (by omega)
    · have := θ.size_value_le hy
      exact .inl (by omega)

theorem Assignment.Solves.size_lt_or_transGen (hs : θ.Solves s) (h : TransGen s.LeadsTo x y) :
    (θ.value y).size < (θ.value x).size ∨
      TransGen s.Alias x y ∧ (θ.value y).size = (θ.value x).size := by
  induction h with
  | single h =>
    rcases hs.size_lt_or_alias h with h | ⟨h, hsize⟩
    · exact .inl h
    · exact .inr ⟨.single h, hsize⟩
  | tail _ h ih =>
    rcases ih with ih | ⟨ih, hsize⟩ <;> rcases hs.size_lt_or_alias h with h | ⟨h, hsize'⟩
    · exact .inl (by omega)
    · exact .inl (by omega)
    · exact .inl (by omega)
    · exact .inr ⟨ih.tail h, by omega⟩

/-- A solution takes a variable back to itself along its aliases only. -/
theorem Assignment.Solves.alias_of_cycle (hs : θ.Solves s) (h : TransGen s.LeadsTo x x) :
    TransGen s.Alias x x := by
  rcases hs.size_lt_or_transGen h with h | ⟨h, -⟩
  · omega
  · exact h

/-! ## Common solutions -/

namespace Subst

/-- Unification computes the common solutions of a substitution and an equation. A result solves the
substitution and makes the two terms equal, and in the most general way; a failure means that this
cannot be done. There is no occurs check, but a result in which a newly bound variable lies below itself
has no solutions. -/
theorem unify_solutions (s : Subst) (u v : Term Var) :
    (∀ r, s.unify u v = .ok r →
      (∀ θ : Assignment, θ.Solves r ↔ θ.Solves s ∧ (θ.term u == θ.term v) = true) ∧
      ∀ x, s.lookup x = none → TransGen r.LeadsTo x x → ∀ θ : Assignment, ¬θ.Solves r) ∧
    (s.unify u v = .error .clash →
      ∀ θ : Assignment, θ.Solves s → (θ.term u == θ.term v) = false) := by
  refine ⟨fun r h => ?_, fun h θ => (unify_eq_clash_iff.1 h).beq_eq_false⟩
  have hr : s.UnifiesTo u v (some r) := unify_eq_ok_iff.1 h
  refine ⟨fun θ => hr.solves_some_iff, fun x hx hcycle θ hθ => ?_⟩
  have hgrows : Grows (fun _ => True) s r := hr.grows (.univ s) trivial trivial
  have hloop : TransGen s.Alias x x := hgrows.loop (hθ.alias_of_cycle hcycle)
  simpa [hx] using TransGen.isSome hloop

/-- Two zeros with different signs agree, a variable bound to a pair that contains it has no value, and a
NaN does not even equal itself. -/
theorem unify_solutions_zero_cycle_nan :
    (∀ θ : Assignment,
      θ.Solves ((empty.extend ⟨1⟩ (.float 0)).extend ⟨0⟩ (.float 0)) ↔
        θ.Solves (empty.extend ⟨1⟩ (.float 0)) ∧
          (θ.term (.pair (.var ⟨0⟩) (.var ⟨1⟩)) == θ.term (.pair (.var ⟨1⟩) (.float (-0)))) = true) ∧
    (∀ θ : Assignment, ¬θ.Solves (empty.extend ⟨0⟩ (.pair (.var ⟨0⟩) .nil))) ∧
    ∀ θ : Assignment, θ.Solves empty →
      (θ.term (.float (0 / 0)) == θ.term (.float (0 / 0))) = false := by
  obtain ⟨hzero, -⟩ := unify_solutions (empty.extend ⟨1⟩ (.float 0)) (.pair (.var ⟨0⟩) (.var ⟨1⟩))
    (.pair (.var ⟨1⟩) (.float (-0)))
  obtain ⟨hcycle, -⟩ := unify_solutions empty (.var ⟨0⟩) (.pair (.var ⟨0⟩) .nil)
  obtain ⟨-, hnan⟩ := unify_solutions empty (.float (0 / 0)) (.float (0 / 0))
  refine ⟨(hzero _ ?_).1, (hcycle _ ?_).2 ⟨0⟩ rfl ?_, hnan ?_⟩
  · exact unify_eq_ok_iff.2 (unifiesTo_of_unifyWithin (n := 2) rfl)
  · exact unify_eq_ok_iff.2 (unifiesTo_of_unifyWithin (n := 1) rfl)
  · exact .single ⟨_, rfl, by decide⟩
  · exact unify_eq_clash_iff.2 (unifiesTo_of_unifyWithin (n := 1) rfl)

end Subst

end Relational
