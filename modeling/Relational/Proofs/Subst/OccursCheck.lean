import Relational.Proofs.Subst.Order
import Relational.Proofs.Subst.Reach

/-!
# Unification with an occurs check

The same unification, except that it refuses to bind a variable to a term in which the variable is found
once bindings are resolved. It keeps a substitution acyclic, and therefore it ends: every call below a call
is made with more bindings, of which there are finitely many to come, or with smaller resolved terms. Where
it does not refuse, the unchecked unification has the same outcome; where it does, there is no solution.
-/

namespace Relational

/-- How a unification with an occurs check stops without a result. -/
inductive Refusal where
  | failed (failure : Failure)
  | cyclic
deriving DecidableEq

namespace Subst

variable {P : Term Var → Prop} {s r : Subst} {x y : Var} {t u v w : Term Var} {m n k : Nat}

/-- Is `x` found in what `t` resolves to? -/
def occurs (s : Subst) (x : Var) (t : Term Var) : Bool :=
  (s.resolve t).any fun w => decide (x ∈ w.vars)

/-- Binds a variable unless it occurs in the term. -/
def extendChecked (s : Subst) (x : Var) (t : Term Var) : Except Refusal Subst :=
  if s.occurs x t then .error .cyclic else .ok (s.extend x t)

/-- Takes the steps of `unifyWithin`, but checks every variable that it binds. -/
def unifyChecked : (n : Nat) → Subst → Term Var → Term Var → Except Refusal Subst
  | 0, _, _, _ => .error (.failed .endless)
  | n + 1, s, u, v =>
    match s.walk u, s.walk v with
    | some (.var x), some (.var y) => if x = y then .ok s else s.extendChecked x (.var y)
    | some (.var x), some t => s.extendChecked x t
    | some t, some (.var y) => s.extendChecked y t
    | some (.pair a d), some (.pair b e) =>
      match unifyChecked n s a b with
      | .ok s => unifyChecked n s d e
      | .error refusal => .error refusal
    | some (.atom a), some (.atom b) => if a == b then .ok s else .error (.failed .clash)
    | some _, some _ => .error (.failed .clash)
    | _, _ => .error (.failed .endless)

theorem unifyChecked_mono (h : m ≤ n) (hm : unifyChecked m s u v ≠ .error (.failed .endless)) :
    unifyChecked n s u v = unifyChecked m s u v := by
  induction m generalizing n s u v with
  | zero => exact absurd rfl hm
  | succ m ih =>
    obtain ⟨n, rfl⟩ : ∃ k, n = k + 1 := ⟨n - 1, by omega⟩
    have hmn : m ≤ n := by omega
    simp only [unifyChecked] at hm ⊢
    split <;> simp_all
    rename_i a d b e _ _
    have hab : unifyChecked m s a b ≠ .error (.failed .endless) := by
      intro hab
      rw [hab] at hm
      exact hm rfl
    rw [ih hmn hab]
    split <;> simp_all

/-! ## Warranted outcomes -/

/-- The outcome of a checked unification agrees with the rules of unification. -/
inductive Warranted (s : Subst) (u v : Term Var) : Except Refusal Subst → Prop where
  | ok {r : Subst} (h : UnifiesTo s u v (some r)) (hr : r.Acyclic) : Warranted s u v (.ok r)
  | clash (h : UnifiesTo s u v none) : Warranted s u v (.error (.failed .clash))
  | cyclic (h : ∀ θ : Assignment, θ.Solves s → (θ.term u == θ.term v) = false) :
      Warranted s u v (.error .cyclic)
  | endless : Warranted s u v (.error (.failed .endless))

/-- A binding is refused only when no solution gives the variable the value of the term. -/
theorem extendChecked_cases (hs : s.Acyclic) (hx : s.lookup x = none) (ht : s.IsValue t)
    (ne : t ≠ .var x) :
    s.extendChecked x t = .ok (s.extend x t) ∧ (s.extend x t).Acyclic ∨
      s.extendChecked x t = .error .cyclic ∧
        ∀ θ : Assignment, θ.Solves s → (θ.value x == θ.term t) = false := by
  obtain ⟨w, hw⟩ := hs.exists_resolvesTo t
  have hoccurs : s.occurs x t = decide (x ∈ w.vars) := by
    rw [occurs, resolve_eq_some_iff.2 hw, Option.any_some]
  by_cases hxw : x ∈ w.vars
  · refine .inr ⟨by simp [extendChecked, hoccurs, hxw], fun θ hθ => ?_⟩
    by_contra hne
    have hsolves : θ.Solves (s.extend x t) :=
      (Assignment.solves_extend hx).2 ⟨hθ, by simpa using hne⟩
    exact (acyclic_extend_iff hs hx hw).1 (hsolves.acyclic (hs.chainFree.extend ht ne)) hxw
  · exact .inl ⟨by simp [extendChecked, hoccurs, hxw], (acyclic_extend_iff hs hx hw).2 hxw⟩

theorem Warranted.extend_left (hs : s.Acyclic) (hu : s.walk u = some (.var x)) (hv : s.walk v = some t)
    (ne : t ≠ .var x) : Warranted s u v (s.extendChecked x t) := by
  have hx := isValue_of_walk hu x rfl
  rcases extendChecked_cases hs hx (isValue_of_walk hv) ne with ⟨h, hr⟩ | ⟨h, hθ⟩ <;> rw [h]
  · exact .ok (.left hu hv ne) hr
  · exact .cyclic fun θ hs => (hs.beq_walk_walk hu hv).trans (hθ θ hs)

theorem Warranted.extend_right (hs : s.Acyclic) (hu : s.walk u = some t)
    (hv : s.walk v = some (.var y)) (ht : ∀ x, t ≠ .var x) :
    Warranted s u v (s.extendChecked y t) := by
  have hy := isValue_of_walk hv y rfl
  rcases extendChecked_cases hs hy (isValue_of_walk hu) (ht y) with ⟨h, hr⟩ | ⟨h, hθ⟩ <;> rw [h]
  · exact .ok (.right hu hv ht) hr
  · refine .cyclic fun θ hs => ?_
    rw [hs.beq_walk_walk hu hv, BEq.comm]
    exact hθ θ hs

/-- Whatever stops the first halves stops the pairs, and a result is passed on to the second halves. -/
theorem Warranted.pair {a d b e : Term Var} {o : Except Refusal Subst}
    (hu : s.walk u = some (.pair a d)) (hv : s.walk v = some (.pair b e))
    (hab : UnifiesTo s a b (some r)) (hde : Warranted r d e o) : Warranted s u v o := by
  cases hde with
  | ok h hr => exact .ok (.pair hu hv hab h) hr
  | clash h => exact .clash (.pair hu hv hab h)
  | endless => exact .endless
  | cyclic h =>
    refine .cyclic fun θ hθ => ?_
    rw [hθ.beq_walk_walk hu hv, Assignment.term_pair, Assignment.term_pair, Term.pair_beq_pair]
    by_cases hab' : (θ.term a == θ.term b) = true
    · rw [h θ (hab.solves_some_iff.2 ⟨hθ, hab'⟩), Bool.and_false]
    · rw [Bool.eq_false_iff.2 hab', Bool.false_and]

theorem Warranted.first {a d b e : Term Var} {refusal : Refusal}
    (hu : s.walk u = some (.pair a d)) (hv : s.walk v = some (.pair b e))
    (hab : Warranted s a b (.error refusal)) : Warranted s u v (.error refusal) := by
  cases hab with
  | clash h => exact .clash (.first hu hv h)
  | endless => exact .endless
  | cyclic h =>
    refine .cyclic fun θ hθ => ?_
    rw [hθ.beq_walk_walk hu hv, Assignment.term_pair, Assignment.term_pair, Term.pair_beq_pair, h θ hθ,
      Bool.false_and]

theorem unifyChecked_warranted (hs : s.Acyclic) (n : Nat) (u v : Term Var) :
    Warranted s u v (unifyChecked n s u v) := by
  induction n generalizing s u v with
  | zero => exact .endless
  | succ n ih =>
    rw [unifyChecked]
    split
    case h_1 x y hu hv =>
      split
      · subst x
        exact .ok (.same hu hv) hs
      · exact .extend_left hs hu hv (by simp_all [eq_comm])
    case h_2 x t ht hu hv => exact .extend_left hs hu hv (ht x)
    case h_3 t y ht hu hv => exact .extend_right hs hu hv ht
    case h_4 a d b e hu hv =>
      have hab := ih hs a b
      split
      · rename_i r hr
        rw [hr] at hab
        cases hab with
        | ok hab hra => exact .pair hu hv hab (ih hra d e)
      · rename_i refusal hr
        rw [hr] at hab
        exact .first hu hv hab
    case h_5 a b hu hv =>
      split
      · exact .ok (.atom hu hv ‹_›) hs
      · exact .clash (.clash hu hv (by simp_all [clashes]))
    case h_6 t w _ ht hw hpairs hatoms hu hv =>
      exact .clash (.clash hu hv (clashes_eq_true ht hw hpairs hatoms))
    case h_7 => exact .endless

/-! ## Termination -/

/-- The checked unification of two terms has an outcome within some depth. -/
def Ends (s : Subst) (u v : Term Var) : Prop :=
  ∃ n, unifyChecked n s u v ≠ .error (.failed .endless)

theorem extendChecked_ne_endless : s.extendChecked x t ≠ .error (.failed .endless) := by
  unfold extendChecked
  split <;> simp

theorem Ends.of_leaf (hu : s.walk u = some t) (hv : s.walk v = some w)
    (h : ∀ a d b e, t = .pair a d → w ≠ .pair b e) : s.Ends u v := by
  refine ⟨1, ?_⟩
  cases t with
  | var x =>
    cases w with
    | var y =>
      simp only [unifyChecked, hu, hv]
      split
      · simp
      · exact extendChecked_ne_endless
    | _ => simp [unifyChecked, hu, hv, extendChecked_ne_endless]
  | atom a =>
    cases w with
    | var y => simp [unifyChecked, hu, hv, extendChecked_ne_endless]
    | atom b =>
      simp only [unifyChecked, hu, hv]
      split <;> simp
    | pair b e => simp [unifyChecked, hu, hv]
  | pair a d =>
    cases w with
    | var y => simp [unifyChecked, hu, hv, extendChecked_ne_endless]
    | atom b => simp [unifyChecked, hu, hv]
    | pair b e => exact (h a d b e rfl rfl).elim

theorem Ends.of_pair {a d b e : Term Var} (hu : s.walk u = some (.pair a d))
    (hv : s.walk v = some (.pair b e)) (hab : s.Ends a b)
    (hde : ∀ m r, unifyChecked m s a b = .ok r → r.Ends d e) : s.Ends u v := by
  obtain ⟨m, hm⟩ := hab
  cases hr : unifyChecked m s a b with
  | error refusal =>
    refine ⟨m + 1, ?_⟩
    simpa only [unifyChecked, hu, hv, hr] using hr ▸ hm
  | ok r =>
    obtain ⟨n, hn⟩ := hde m r hr
    refine ⟨max m n + 1, ?_⟩
    simp only [unifyChecked, hu, hv, unifyChecked_mono (Nat.le_max_left m n) hm, hr,
      unifyChecked_mono (Nat.le_max_right m n) hn]
    exact hn

/-- Second halves are unified with more bindings, of which at most `k` can be added, or with the same
ones; and the terms of which the resolved left-hand side consists become smaller. -/
theorem ends_of_grows (hs : s.Acyclic) (hP : Closed P s) (hu : P u) (hv : P v)
    (hk : ∀ r, Grows P s r → r.size ≤ s.size + k) : s.Ends u v := by
  induction k using Nat.strong_induction_on generalizing s u v with
  | _ k more =>
    obtain ⟨w, hw⟩ := hs.exists_resolvesTo u
    induction hw using ResolvesTo.walk_induction generalizing v with
    | atom _ hwu | var _ hwu =>
      obtain ⟨t, ht⟩ := Option.isSome_iff_exists.1 (hs.chainFree.walk_isSome v)
      exact .of_leaf hwu ht (by simp)
    | @pair u a d _ _ _ _ _ hwu iha ihd =>
      obtain ⟨t, ht⟩ := Option.isSome_iff_exists.1 (hs.chainFree.walk_isSome v)
      cases t with
      | atom | var => exact .of_leaf hwu ht (by simp)
      | pair b e =>
        have hu := walk_closed (fun _ _ => hP.lookup) hwu hu
        have hv := walk_closed (fun _ _ => hP.lookup) ht hv
        refine .of_pair hwu ht (iha (hP.first hu) (hP.first hv)) fun m r hr => ?_
        have hwarranted := hr ▸ unifyChecked_warranted hs m a b
        cases hwarranted with
        | ok hab hra =>
          have hgrows := hab.grows hP (hP.first hu) (hP.first hv)
          by_cases hsize : r.size = s.size
          · rw [hgrows.eq_of_size hsize]
            exact ihd (hP.second hu) (hP.second hv)
          · have hge := hgrows.suffix.length_le
            have hle := hk r hgrows
            simp only [size] at hge hle hsize
            refine more (s.size + k - r.size) (by simp only [size]; omega) hra (hgrows.closed hP)
              (hP.second hu) (hP.second hv) fun q hq => ?_
            have := hk q (hgrows.trans hq)
            omega

theorem Acyclic.ends (hs : s.Acyclic) (u v : Term Var) : s.Ends u v :=
  ends_of_grows hs (pool_closed s u v) (left_mem_pool s u v) (right_mem_pool s u v)
    fun _ hr => hr.size_le fun _ ht => ht

/-! ## Checked and unchecked unification -/

/-- Under an acyclic substitution the checked unification always comes to an end. Unless it refuses a
cyclic binding, the unchecked one has the same outcome, a result being acyclic again; and if it does, no
solution of the substitution makes the two terms equal. -/
theorem exists_unifyChecked (hs : s.Acyclic) (u v : Term Var) :
    ∃ n o, (∀ m, n ≤ m → unifyChecked m s u v = o) ∧ o ≠ .error (.failed .endless) ∧
      (∀ r, o = .ok r → s.unify u v = .ok r ∧ r.Acyclic) ∧
      (∀ failure, o = .error (.failed failure) → s.unify u v = .error failure) ∧
      (o = .error .cyclic → ∀ θ : Assignment, θ.Solves s → (θ.term u == θ.term v) = false) := by
  obtain ⟨n, hn⟩ := hs.ends u v
  refine ⟨n, unifyChecked n s u v, fun m hm => unifyChecked_mono hm hn, hn, ?_⟩
  have hwarranted := unifyChecked_warranted hs n u v
  generalize unifyChecked n s u v = o at hn hwarranted ⊢
  cases hwarranted with
  | ok h hr =>
    refine ⟨?_, nofun, nofun⟩
    rintro _ ⟨⟩
    exact ⟨unify_eq_ok_iff.2 h, hr⟩
  | clash h =>
    refine ⟨nofun, ?_, nofun⟩
    rintro _ ⟨⟩
    exact unify_eq_clash_iff.2 h
  | cyclic h => exact ⟨nofun, nofun, fun _ => h⟩
  | endless => exact (hn rfl).elim

/-- The variable 2 is found in what is to become its term only through the bindings of 0 and 1. Without the
check, the two terms unify. -/
theorem exists_unifyChecked_cyclic :
    let s := empty.extend ⟨1⟩ (.pair (.var ⟨2⟩) .nil)
    let u : Term Var := .pair (.var ⟨0⟩) (.var ⟨1⟩)
    let v : Term Var := .pair (.pair (.var ⟨1⟩) .nil) (.pair (.var ⟨0⟩) .nil)
    s.Acyclic ∧ unifyChecked 3 s u v = .error .cyclic ∧ (∃ r, s.unify u v = .ok r) ∧
      ∀ θ : Assignment, θ.Solves s → (θ.term u == θ.term v) = false := by
  intro s u v
  have hs : s.Acyclic :=
    (acyclic_extend_iff acyclic_empty rfl (.of_unbound fun _ _ => rfl)).2 (by decide)
  have hcyclic : unifyChecked 3 s u v = .error .cyclic := rfl
  obtain ⟨n, o, ho, -, -, -, hnone⟩ := exists_unifyChecked hs u v
  have hcyclic' : o = .error .cyclic := by
    rw [← ho (max n 3) (Nat.le_max_left n 3), unifyChecked_mono (Nat.le_max_right n 3), hcyclic]
    simp [hcyclic]
  exact ⟨hs, hcyclic, ⟨_, unify_eq_ok_iff.2 (unifiesTo_of_unifyWithin (n := 4) rfl)⟩, hnone hcyclic'⟩

end Subst

end Relational
