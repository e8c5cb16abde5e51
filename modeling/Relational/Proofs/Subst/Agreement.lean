import Relational.Proofs.Subst.Reach
import Relational.Proofs.Term.Equality

/-!
# Unification and equality

Where no variable has to be bound, unification compares terms as `==` does: it adds nothing exactly when the
two resolved terms are equal. Between resolved terms without variables, and between a term and itself, it
binds nothing whatever their atoms are, so that it either adds nothing or clashes.
-/

namespace Relational

namespace Term

variable {ν : Type}

/-- Where one of the terms has a variable, the other has the same one, down to where their shapes part. -/
def Aligned : Term ν → Term ν → Prop
  | .var x, .var y => x = y
  | .var _, _ | _, .var _ => False
  | .pair a d, .pair b e => Aligned a b ∧ Aligned d e
  | _, _ => True

theorem aligned_self (t : Term ν) : t.Aligned t := by
  induction t with
  | atom => trivial
  | var x => rfl
  | pair a d iha ihd => exact ⟨iha, ihd⟩

theorem aligned_of_beq [BEq ν] [LawfulBEq ν] {t w : Term ν} (h : (t == w) = true) : t.Aligned w := by
  induction t generalizing w with
  | atom a =>
    cases w with
    | atom | pair => trivial
    | var => cases h
  | var x =>
    cases w with
    | var y => exact eq_of_beq h
    | atom | pair => cases h
  | pair a d iha ihd =>
    cases w with
    | atom | var => cases h
    | pair b e =>
      simp only [pair_beq_pair, Bool.and_eq_true] at h
      exact ⟨iha h.1, ihd h.2⟩

theorem aligned_of_vars_eq_nil {t w : Term ν} (ht : t.vars = []) (hw : w.vars = []) : t.Aligned w := by
  induction t generalizing w with
  | var x => simp [vars] at ht
  | atom a =>
    cases w with
    | atom | pair => trivial
    | var y => simp [vars] at hw
  | pair a d iha ihd =>
    cases w with
    | atom => trivial
    | var y => simp [vars] at hw
    | pair b e =>
      simp only [vars, List.append_eq_nil_iff] at ht hw
      exact ⟨iha ht.1 hw.1, ihd ht.2 hw.2⟩

end Term

namespace Subst

variable {s r : Subst} {x : Var} {a : Atom} {b e t u v w : Term Var}

/-! ## The value of a term that resolves -/

namespace ResolvesTo

theorem walk_eq (h : s.ResolvesTo t w) (hw : w.isPair = false) : s.walk t = some w := by
  induction h using walk_induction with
  | atom _ ht | var _ ht => exact ht
  | pair => cases hw

theorem walk_pair (h : s.ResolvesTo t (.pair b e)) :
    ∃ a d, s.walk t = some (.pair a d) ∧ s.ResolvesTo a b ∧ s.ResolvesTo d e := by
  generalize hw : Term.pair b e = w at h
  induction h using walk_induction with
  | atom | var => cases hw
  | pair _ ha hd ht =>
    cases hw
    exact ⟨_, _, ht, ha, hd⟩

end ResolvesTo

/-! ## Unifications that bind nothing -/

/-- Terms whose resolved variables stand in the same places unify as `==` compares them. -/
theorem unifiesTo_of_aligned (hu : s.ResolvesTo u t) (hv : s.ResolvesTo v w) (h : t.Aligned w) :
    UnifiesTo s u v (if t == w then some s else none) := by
  induction t generalizing u v w with
  | atom a =>
    cases w with
    | atom b =>
      rw [Term.atom_beq_atom]
      cases hab : a == b with
      | true => exact .atom (hu.walk_eq rfl) (hv.walk_eq rfl) hab
      | false => exact .clash (hu.walk_eq rfl) (hv.walk_eq rfl) (by simp [clashes, hab])
    | var y => exact h.elim
    | pair b e =>
      obtain ⟨_, _, hwv, -, -⟩ := hv.walk_pair
      exact .clash (hu.walk_eq rfl) hwv rfl
  | var x =>
    cases w with
    | var y =>
      obtain rfl : x = y := h
      rw [if_pos (by simp)]
      exact .same (hu.walk_eq rfl) (hv.walk_eq rfl)
    | atom | pair => exact h.elim
  | pair b e ihb ihe =>
    obtain ⟨_, _, hwu, hub, hue⟩ := hu.walk_pair
    cases w with
    | atom => exact .clash hwu (hv.walk_eq rfl) rfl
    | var y => exact h.elim
    | pair c f =>
      obtain ⟨_, _, hwv, hvc, hvf⟩ := hv.walk_pair
      have hfirst := ihb hub hvc h.1
      have hsecond := ihe hue hvf h.2
      rw [Term.pair_beq_pair]
      cases hbc : b == c with
      | true =>
        rw [hbc, if_pos rfl] at hfirst
        exact .pair hwu hwv hfirst hsecond
      | false =>
        rw [hbc, if_neg Bool.false_ne_true] at hfirst
        exact .first hwu hwv hfirst

theorem unify_of_aligned (hu : s.ResolvesTo u t) (hv : s.ResolvesTo v w) (h : t.Aligned w) :
    s.unify u v = if t == w then .ok s else .error .clash := by
  rw [unify_eq_outcome_iff.2 (unifiesTo_of_aligned hu hv h)]
  cases t == w <;> rfl

/-- A unification that adds no binding has compared equal terms. -/
theorem UnifiesTo.beq_of_size (h : UnifiesTo s u v (some r)) (hsize : r.size = s.size)
    (hu : s.ResolvesTo u t) (hv : s.ResolvesTo v w) : (t == w) = true := by
  generalize ho : some r = o at h
  induction h generalizing r t w with
  | same hwu hwv =>
    have hx := ResolvesTo.unbound (isValue_of_walk hwu _ rfl)
    rw [hu.unique ((resolvesTo_of_walk hwu).2 hx), hv.unique ((resolvesTo_of_walk hwv).2 hx)]
    simp
  | atom hwu hwv hab =>
    rw [hu.unique ((resolvesTo_of_walk hwu).2 .atom), hv.unique ((resolvesTo_of_walk hwv).2 .atom)]
    exact hab
  | left | right =>
    cases ho
    simp at hsize
  | clash | first => cases ho
  | @pair s q u v a d b e o hwu hwv hab hde ihab ihde =>
    subst ho
    have hsq : s.size ≤ q.size := hab.grows_univ.suffix.length_le
    have hqr : q.size ≤ r.size := hde.grows_univ.suffix.length_le
    -- Neither half has added a binding, so the second halves were unified under `s` as well.
    have hq : q.size = s.size := by omega
    obtain rfl : q = s := hab.grows_univ.eq_of_size hq
    cases (resolvesTo_of_walk hwu).1 hu with
    | pair hua hud =>
      cases (resolvesTo_of_walk hwv).1 hv with
      | pair hvb hve =>
        rw [Term.pair_beq_pair, ihab hq hua hvb rfl, ihde hsize hud hve rfl]
        rfl

/-! ## Agreement -/

/-- Unification, resolution and equality of terms agree. Under an acyclic substitution a unification adds no
binding exactly when the resolved terms are equal, and it clashes when they are different and have no
variable. So it is `==` on terms without variables, and a term unifies with itself, without a binding,
unless a NaN is in the resolved term. -/
theorem unify_eq_ok_self_iff (hs : s.Acyclic) (u v : Term Var) :
    ∃ t w, s.resolve u = some t ∧ s.resolve v = some w ∧
      (s.unify u v = .ok s ↔ (t == w) = true) ∧
      (t.vars = [] → w.vars = [] → (t == w) = false → s.unify u v = .error .clash) ∧
      (u.vars = [] → v.vars = [] → s.unify u v = if u == v then .ok s else .error .clash) ∧
      s.unify u u = if t.hasNan then .error .clash else .ok s := by
  obtain ⟨t, ht⟩ := hs.exists_resolvesTo u
  obtain ⟨w, hw⟩ := hs.exists_resolvesTo v
  refine ⟨t, w, resolve_eq_some_iff.2 ht, resolve_eq_some_iff.2 hw, ⟨fun h => ?_, fun h => ?_⟩,
    fun htv hwv hne => ?_, fun huv hvv => ?_, ?_⟩
  · exact (unify_eq_ok_iff.1 h).beq_of_size rfl ht hw
  · rw [unify_of_aligned ht hw (Term.aligned_of_beq h), if_pos h]
  · rw [unify_of_aligned ht hw (Term.aligned_of_vars_eq_nil htv hwv), hne]
    rfl
  · have hu : s.ResolvesTo u u := .of_unbound (by simp [huv])
    have hv : s.ResolvesTo v v := .of_unbound (by simp [hvv])
    exact unify_of_aligned hu hv (Term.aligned_of_vars_eq_nil huv hvv)
  · rw [unify_of_aligned ht ht t.aligned_self, Term.beq_self]
    cases t.hasNan <;> rfl

/-- A variable meets the one that it is bound to, and one zero meets the other. A term in which a NaN is
found by way of a variable does not unify with itself. -/
theorem unify_eq_ok_self_iff_alias_zeros_nan :
    let s := (empty.extend ⟨0⟩ (.var ⟨1⟩)).extend ⟨2⟩ (.float (0 / 0))
    let u : Term Var := .pair (.var ⟨0⟩) (.float 0)
    let v : Term Var := .pair (.var ⟨1⟩) (.float (-0))
    let nan : Term Var := .pair (.var ⟨1⟩) (.var ⟨2⟩)
    s.Acyclic ∧ s.unify u v = .ok s ∧ s.unify nan nan = .error .clash := by
  intro s u v nan
  have halias : (empty.extend ⟨0⟩ (.var ⟨1⟩)).Acyclic := acyclic_alias (by decide)
  have hs : s.Acyclic := (acyclic_extend_iff halias rfl .atom).2 (by decide)
  obtain ⟨t, w, ht, hw, hiff, -, -, -⟩ := unify_eq_ok_self_iff hs u v
  obtain rfl : .pair (.var ⟨1⟩) (.float 0) = t := Option.some.inj ht
  obtain rfl : .pair (.var ⟨1⟩) (.float (-0)) = w := Option.some.inj hw
  obtain ⟨t, -, ht, -, -, -, -, hself⟩ := unify_eq_ok_self_iff hs nan nan
  obtain rfl : .pair (.var ⟨1⟩) (.float (0 / 0)) = t := Option.some.inj ht
  exact ⟨hs, hiff.2 rfl, hself⟩

end Subst

end Relational
