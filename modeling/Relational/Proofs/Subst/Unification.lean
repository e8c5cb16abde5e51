import Relational.Proofs.Subst.Growth
import Relational.Subst.Unify

/-!
# Unifications that end

The rules by which a unification comes to its outcome, without a bound on the depth. Every outcome that a
bounded unification has is reached by the rules, and a bound that suffices can be read off their use.
-/

namespace Relational

namespace Subst

variable {P : Term Var → Prop} {s r : Subst} {u v : Term Var} {o : Option Subst}

/-- Can no binding make the two terms equal, to judge by what they are at the top? -/
def clashes : Term Var → Term Var → Bool
  | .atom a, .atom b => !(a == b)
  | .atom _, .pair _ _ | .pair _ _, .atom _ => true
  | _, _ => false

theorem clashes_eq_true {t w : Term Var} (ht : ∀ x, t ≠ .var x) (hw : ∀ y, w ≠ .var y)
    (hpairs : ∀ a d b e, t = .pair a d → w ≠ .pair b e) (hatoms : ∀ a b, t = .atom a → w ≠ .atom b) :
    clashes t w = true := by
  cases t with
  | var x => exact (ht x rfl).elim
  | atom a =>
    cases w with
    | var y => exact (hw y rfl).elim
    | atom b => exact (hatoms a b rfl rfl).elim
    | pair b e => rfl
  | pair a d =>
    cases w with
    | var y => exact (hw y rfl).elim
    | atom b => rfl
    | pair b e => exact (hpairs a d b e rfl rfl).elim

/-- The unification of two terms ends, with a substitution or with none. -/
inductive UnifiesTo : Subst → Term Var → Term Var → Option Subst → Prop where
  | same {s : Subst} {u v : Term Var} {x : Var} (hu : s.walk u = some (.var x))
      (hv : s.walk v = some (.var x)) : UnifiesTo s u v (some s)
  | left {s : Subst} {u v t : Term Var} {x : Var} (hu : s.walk u = some (.var x))
      (hv : s.walk v = some t) (ne : t ≠ .var x) : UnifiesTo s u v (some (s.extend x t))
  | right {s : Subst} {u v t : Term Var} {y : Var} (hu : s.walk u = some t)
      (hv : s.walk v = some (.var y)) (ht : ∀ x, t ≠ .var x) :
      UnifiesTo s u v (some (s.extend y t))
  | atom {s : Subst} {u v : Term Var} {a b : Atom} (hu : s.walk u = some (.atom a))
      (hv : s.walk v = some (.atom b)) (hab : (a == b) = true) : UnifiesTo s u v (some s)
  | clash {s : Subst} {u v t w : Term Var} (hu : s.walk u = some t) (hv : s.walk v = some w)
      (htw : clashes t w = true) : UnifiesTo s u v none
  | first {s : Subst} {u v a d b e : Term Var} (hu : s.walk u = some (.pair a d))
      (hv : s.walk v = some (.pair b e)) (hab : UnifiesTo s a b none) : UnifiesTo s u v none
  | pair {s r : Subst} {u v a d b e : Term Var} {o : Option Subst} (hu : s.walk u = some (.pair a d))
      (hv : s.walk v = some (.pair b e)) (hab : UnifiesTo s a b (some r)) (hde : UnifiesTo r d e o) :
      UnifiesTo s u v o

/-- How an end is reported: a missing substitution is a clash. -/
def outcome : Option Subst → Except Failure Subst
  | some r => .ok r
  | none => .error .clash

theorem outcome_ne_endless (o : Option Subst) : outcome o ≠ .error .endless := by
  cases o <;> simp [outcome]

theorem outcome_inj {o q : Option Subst} (h : outcome o = outcome q) : o = q := by
  cases o <;> cases q <;> simp_all [outcome]

/-! ## Bounded unifications -/

theorem unifiesTo_of_unifyWithin {n : Nat} (h : unifyWithin n s u v = outcome o) :
    UnifiesTo s u v o := by
  induction n generalizing s u v o with
  | zero => exact absurd h.symm (outcome_ne_endless o)
  | succ n ih =>
    simp only [unifyWithin] at h
    split at h
    case h_1 x y hu hv =>
      obtain rfl := outcome_inj (q := some _) h.symm
      split
      · subst x
        exact .same hu hv
      · exact .left hu hv (by simp_all [eq_comm])
    case h_2 x t ht hu hv =>
      obtain rfl := outcome_inj (q := some _) h.symm
      exact .left hu hv (ht x)
    case h_3 t y ht hu hv =>
      obtain rfl := outcome_inj (q := some _) h.symm
      exact .right hu hv ht
    case h_4 a d b e hu hv =>
      split at h
      · exact .pair hu hv (ih (o := some _) ‹_›) (ih h)
      · rename_i failure hab
        cases failure with
        | clash =>
          obtain rfl := outcome_inj (q := none) h.symm
          exact .first hu hv (ih hab)
        | endless => exact absurd h.symm (outcome_ne_endless o)
    case h_5 a b hu hv =>
      split at h
      · obtain rfl := outcome_inj (q := some _) h.symm
        exact .atom hu hv ‹_›
      · obtain rfl := outcome_inj (q := none) h.symm
        exact .clash hu hv (by simp_all [clashes])
    case h_6 t w _ ht hw hpairs hatoms hu hv =>
      obtain rfl := outcome_inj (q := none) h.symm
      exact .clash hu hv (clashes_eq_true ht hw hpairs hatoms)
    case h_7 => exact absurd h.symm (outcome_ne_endless o)

theorem UnifiesTo.exists_unifyWithin (h : UnifiesTo s u v o) :
    ∃ n, unifyWithin n s u v = outcome o := by
  induction h with
  | same hu hv => exact ⟨1, by simp [unifyWithin, hu, hv, outcome]⟩
  | @left s u v t x hu hv ne =>
    refine ⟨1, ?_⟩
    cases t with
    | var y => simp_all [unifyWithin, outcome, eq_comm]
    | _ => simp [unifyWithin, hu, hv, outcome]
  | @right s u v t y hu hv ht =>
    refine ⟨1, ?_⟩
    cases t with
    | var x => exact (ht x rfl).elim
    | _ => simp [unifyWithin, hu, hv, outcome]
  | atom hu hv hab => exact ⟨1, by simp [unifyWithin, hu, hv, hab, outcome]⟩
  | @clash s u v t w hu hv htw =>
    refine ⟨1, ?_⟩
    cases t <;> cases w <;> simp_all [clashes, unifyWithin, outcome]
  | first hu hv _ ih =>
    obtain ⟨n, hn⟩ := ih
    exact ⟨n + 1, by simp [unifyWithin, hu, hv, hn, outcome]⟩
  | pair hu hv _ _ ihab ihde =>
    obtain ⟨m, hm⟩ := ihab
    obtain ⟨n, hn⟩ := ihde
    -- Both halves end within the greater of the two depths.
    rw [← unifyWithin_mono (Nat.le_max_left m n) (hm ▸ outcome_ne_endless _)] at hm
    rw [← unifyWithin_mono (Nat.le_max_right m n) (hn ▸ outcome_ne_endless _)] at hn
    exact ⟨max m n + 1, by simp [unifyWithin, hu, hv, hm, hn, outcome]⟩

/-! ## What a unification adds -/

/-- A unification binds unbound variables to values, and only terms that its own terms lead to take part. -/
theorem UnifiesTo.grows (h : UnifiesTo s u v (some r)) (hs : Closed P s) (hu : P u) (hv : P v) :
    Grows P s r := by
  generalize ho : some r = o at h
  induction h generalizing r with
  | same => exact Option.some.inj ho ▸ .refl
  | left hwu hwv ne =>
    cases ho
    have hx := walk_closed (fun _ _ => hs.lookup) hwu hu
    have ht := walk_closed (fun _ _ => hs.lookup) hwv hv
    exact .bind .refl (isValue_of_walk hwu _ rfl) (isValue_of_walk hwv) ne hx ht
  | right hwu hwv ht =>
    cases ho
    have ht' := walk_closed (fun _ _ => hs.lookup) hwu hu
    have hy := walk_closed (fun _ _ => hs.lookup) hwv hv
    exact .bind .refl (isValue_of_walk hwv _ rfl) (isValue_of_walk hwu) (ht _) hy ht'
  | atom => exact Option.some.inj ho ▸ .refl
  | clash | first => cases ho
  | pair hwu hwv _ _ ihab ihde =>
    have hu := walk_closed (fun _ _ => hs.lookup) hwu hu
    have hv := walk_closed (fun _ _ => hs.lookup) hwv hv
    have hab := ihab hs (hs.first hu) (hs.first hv) rfl
    exact hab.trans (ihde (hab.closed hs) (hs.second hu) (hs.second hv) ho)

theorem UnifiesTo.grows_univ (h : UnifiesTo s u v (some r)) : Grows (fun _ => True) s r :=
  h.grows (.univ s) trivial trivial

theorem UnifiesTo.chainFree (h : UnifiesTo s u v (some r)) (hs : s.ChainFree) : r.ChainFree :=
  h.grows_univ.chainFree hs

end Subst

end Relational
