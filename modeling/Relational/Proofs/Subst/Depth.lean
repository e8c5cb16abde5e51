import Mathlib.Data.List.ProdSigma
import Mathlib.Data.Nat.Find
import Mathlib.Tactic.Ring
import Relational.Proofs.Subst.Unification

/-!
# Depth of a unification

A unification that ends does so within `depthBound`. A call that needs a certain depth makes a call that
needs one less, so a call that needs depth `n` begins a path of `n` different calls; and there are only so
many, as each is told apart by the number of bindings and two terms of a finite pool. Hence `unify` has an
outcome exactly when the rules of unification reach one, and the outcome is theirs.
-/

namespace Relational

/-! ## Subterms -/

namespace Term

variable {ν : Type}

/-- The term and its halves, all the way down. -/
def subterms : Term ν → List (Term ν)
  | .atom a => [.atom a]
  | .var x => [.var x]
  | .pair a d => .pair a d :: (a.subterms ++ d.subterms)

theorem mem_subterms_self (t : Term ν) : t ∈ t.subterms := by
  cases t <;> simp [subterms]

theorem length_subterms (t : Term ν) : t.subterms.length = t.size := by
  induction t with
  | atom | var => rfl
  | pair a d iha ihd => simp [subterms, size, iha, ihd]

theorem subterms_pair {t a d : Term ν} (h : .pair a d ∈ t.subterms) :
    a ∈ t.subterms ∧ d ∈ t.subterms := by
  induction t with
  | atom | var => simp [subterms] at h
  | pair b e ihb ihe =>
    simp only [subterms, List.mem_cons, List.mem_append, pair.injEq] at h ⊢
    rcases h with ⟨rfl, rfl⟩ | h | h
    · exact ⟨.inr (.inl (mem_subterms_self a)), .inr (.inr (mem_subterms_self d))⟩
    · exact ⟨.inr (.inl (ihb h).1), .inr (.inl (ihb h).2)⟩
    · exact ⟨.inr (.inr (ihe h).1), .inr (.inr (ihe h).2)⟩

end Term

namespace Subst

variable {P : Term Var → Prop} {s r : Subst} {u v : Term Var} {m n : Nat}

/-- The terms that can be met when `u` and `v` are unified. -/
def pool (s : Subst) (u v : Term Var) : List (Term Var) :=
  u.subterms ++ v.subterms ++ s.bindings.flatMap fun b => b.2.subterms

theorem left_mem_pool (s : Subst) (u v : Term Var) : u ∈ s.pool u v := by
  simp [pool, Term.mem_subterms_self]

theorem right_mem_pool (s : Subst) (u v : Term Var) : v ∈ s.pool u v := by
  simp [pool, Term.mem_subterms_self]

theorem length_pool (s : Subst) (u v : Term Var) :
    (s.pool u v).length = u.size + v.size + s.bindings.foldr (fun b n => b.2.size + n) 0 := by
  have hbindings : (s.bindings.flatMap fun b => b.2.subterms).length =
      s.bindings.foldr (fun b n => b.2.size + n) 0 := by
    induction s.bindings with
    | nil => rfl
    | cons b bs ih => simp [Term.length_subterms, ih]
  simp [pool, hbindings, Term.length_subterms, Nat.add_assoc]

theorem pool_pair {a d : Term Var} (h : .pair a d ∈ s.pool u v) : a ∈ s.pool u v ∧ d ∈ s.pool u v := by
  simp only [pool, List.mem_append, List.mem_flatMap] at h ⊢
  rcases h with (h | h) | ⟨b, hb, h⟩
  · exact ⟨.inl (.inl (Term.subterms_pair h).1), .inl (.inl (Term.subterms_pair h).2)⟩
  · exact ⟨.inl (.inr (Term.subterms_pair h).1), .inl (.inr (Term.subterms_pair h).2)⟩
  · exact ⟨.inr ⟨b, hb, (Term.subterms_pair h).1⟩, .inr ⟨b, hb, (Term.subterms_pair h).2⟩⟩

theorem pool_closed (s : Subst) (u v : Term Var) : Closed (· ∈ s.pool u v) s where
  first h := (pool_pair h).1
  second h := (pool_pair h).2
  lookup _ h := by
    simp only [pool, List.mem_append, List.mem_flatMap]
    exact .inr ⟨_, mem_of_lookup h, Term.mem_subterms_self _⟩

/-! ## Paths of calls -/

/-- The unification ends within depth `n + 1` and not within `n`. -/
def Needs (n : Nat) (s : Subst) (u v : Term Var) : Prop :=
  unifyWithin n s u v = .error .endless ∧ unifyWithin (n + 1) s u v ≠ .error .endless

theorem Needs.unique (hm : Needs m s u v) (hn : Needs n s u v) : m = n := by
  by_contra hmn
  rcases Nat.lt_or_gt_of_ne hmn with h | h
  · exact hm.2 ((unifyWithin_mono h hm.2).symm.trans hn.1)
  · exact hn.2 ((unifyWithin_mono h hn.2).symm.trans hm.1)

/-- A unification that needs more than depth one makes a call that needs one less. -/
theorem Needs.call (h : Needs (n + 1) s u v) (hs : Closed P s) (hu : P u) (hv : P v) :
    ∃ r a b, Needs n r a b ∧ Grows P s r ∧ P a ∧ P b := by
  obtain ⟨hend, hne⟩ := h
  rw [unifyWithin] at hend hne
  split at hne
  case h_4 a d b e hwu hwv =>
    have hu := walk_closed (fun _ _ => hs.lookup) hwu hu
    have hv := walk_closed (fun _ _ => hs.lookup) hwv hv
    simp only [hwu, hwv] at hend
    by_cases hab : unifyWithin n s a b = .error .endless
    · refine ⟨s, a, b, ⟨hab, ?_⟩, .refl, hs.first hu, hs.first hv⟩
      intro habs
      simp [habs] at hne
    · -- The first halves end earlier, so it is the second halves that need the depth.
      rw [unifyWithin_mono (Nat.le_succ n) hab] at hne
      cases hr : unifyWithin n s a b with
      | ok r =>
        simp only [hr] at hend hne
        have hgrows := (unifiesTo_of_unifyWithin (o := some r) hr).grows hs (hs.first hu) (hs.first hv)
        exact ⟨r, d, e, ⟨hend, hne⟩, hgrows, hs.second hu, hs.second hv⟩
      | error failure => simp_all
  all_goals simp_all

/-- From a call that needs depth `n + 1` on, there is a path of as many different calls. -/
theorem Needs.path (h : Needs n s u v) (hs : Closed P s) (hu : P u) (hv : P v) :
    ∃ calls : List (Nat × Term Var × Term Var), calls.length = n + 1 ∧ calls.Nodup ∧
      ∀ c ∈ calls, P c.2.1 ∧ P c.2.2 ∧
        ∃ r m, Grows P s r ∧ c.1 = r.size ∧ m ≤ n ∧ Needs m r c.2.1 c.2.2 := by
  induction n generalizing s u v with
  | zero =>
    refine ⟨[(s.size, u, v)], rfl, List.nodup_singleton _, ?_⟩
    simp only [List.mem_singleton, forall_eq]
    exact ⟨hu, hv, s, 0, .refl, rfl, Nat.le_refl 0, h⟩
  | succ n ih =>
    obtain ⟨q, a, b, hq, hgrows, ha, hb⟩ := h.call hs hu hv
    obtain ⟨calls, hlen, hnodup, hcalls⟩ := ih hq (hgrows.closed hs) ha hb
    refine ⟨(s.size, u, v) :: calls, by simp [hlen], List.nodup_cons.2 ⟨fun hmem => ?_, hnodup⟩, ?_⟩
    · -- A later call with as many bindings has the same ones, but it needs less depth.
      obtain ⟨-, -, r, m, hr, hsize, hm, hneeds⟩ := hcalls _ hmem
      obtain rfl := (hgrows.trans hr).eq_of_size hsize.symm
      have := h.unique hneeds
      omega
    · simp only [List.mem_cons, forall_eq_or_imp]
      refine ⟨⟨hu, hv, s, n + 1, .refl, rfl, Nat.le_refl _, h⟩, fun c hc => ?_⟩
      obtain ⟨hc₁, hc₂, r, m, hr, hsize, hm, hneeds⟩ := hcalls c hc
      exact ⟨hc₁, hc₂, r, m, hgrows.trans hr, hsize, by omega, hneeds⟩

theorem Needs.lt_depthBound (h : Needs n s u v) : n < s.depthBound u v := by
  obtain ⟨calls, hlen, hnodup, hcalls⟩ :=
    h.path (pool_closed s u v) (left_mem_pool s u v) (right_mem_pool s u v)
  let k := (s.pool u v).length
  have hsub : calls ⊆ List.range' s.size (k + 1) ×ˢ s.pool u v ×ˢ s.pool u v := by
    rintro ⟨i, a, b⟩ hc
    obtain ⟨ha, hb, r, m, hr, rfl, -, -⟩ := hcalls _ hc
    have hle : r.size ≤ s.size + k := hr.size_le fun t ht => ht
    have hge : s.size ≤ r.size := hr.suffix.length_le
    simp only [List.mem_product, List.mem_range'_1]
    exact ⟨by omega, ha, hb⟩
  have hle : n + 1 ≤ (k + 1) * (k * k) := by
    have := (hnodup.subperm hsub).length_le
    rwa [hlen, List.length_product, List.length_product, List.length_range'] at this
  calc n < (k + 1) * (k * k) := hle
    _ ≤ (k + 1) * ((k + 1) * (k + 1)) :=
      Nat.mul_le_mul_left _ (Nat.mul_le_mul (Nat.le_succ k) (Nat.le_succ k))
    _ = s.depthBound u v := by simp only [k, length_pool, depthBound, Nat.pow_eq]; ring

/-! ## Outcomes -/

/-- A unification that ends within some depth ends within the bound. -/
theorem unifyWithin_depthBound (h : unifyWithin n s u v ≠ .error .endless) :
    unifyWithin (s.depthBound u v) s u v = unifyWithin n s u v := by
  classical
  have hex : ∃ k, unifyWithin k s u v ≠ .error .endless := ⟨n, h⟩
  have hleast {j : Nat} (hj : j < Nat.find hex) : unifyWithin j s u v = .error .endless :=
    not_not.1 (Nat.find_min hex hj)
  have hends := Nat.find_spec hex
  obtain ⟨k, hk⟩ : ∃ k, Nat.find hex = k + 1 := by
    refine Nat.exists_eq_add_one.2 (Nat.pos_of_ne_zero fun h0 => ?_)
    exact hends (h0 ▸ rfl)
  have hneeds : Needs k s u v := ⟨hleast (by omega), hk ▸ hends⟩
  have hle : Nat.find hex ≤ s.depthBound u v := hk ▸ hneeds.lt_depthBound
  rw [unifyWithin_mono hle hends, unifyWithin_mono (Nat.find_min' hex h) hends]

theorem unify_eq_unifyWithin (h : unifyWithin n s u v ≠ .error .endless) :
    s.unify u v = unifyWithin n s u v := by
  rw [← unifyWithin_depthBound h, unify]
  split
  · rfl
  · rename_i hshallow
    exact (unifyWithin_depthBound fun hend => hshallow hend).symm

/-- Unification has an outcome exactly when the rules reach one, and the outcome is theirs. -/
theorem unify_eq_outcome_iff {o : Option Subst} : s.unify u v = outcome o ↔ UnifiesTo s u v o := by
  constructor
  · intro h
    rw [unify] at h
    split at h
    · exact unifiesTo_of_unifyWithin h
    · exact unifiesTo_of_unifyWithin h
  · intro h
    obtain ⟨n, hn⟩ := h.exists_unifyWithin
    rw [unify_eq_unifyWithin (hn ▸ outcome_ne_endless o), hn]

theorem unify_eq_ok_iff : s.unify u v = .ok r ↔ UnifiesTo s u v (some r) :=
  unify_eq_outcome_iff (o := some r)

theorem unify_eq_clash_iff : s.unify u v = .error .clash ↔ UnifiesTo s u v none :=
  unify_eq_outcome_iff (o := none)

theorem UnifiesTo.unique {o o' : Option Subst} (h : s.UnifiesTo u v o) (h' : s.UnifiesTo u v o') : o = o' :=
  outcome_inj ((unify_eq_outcome_iff.2 h).symm.trans (unify_eq_outcome_iff.2 h'))

theorem unifiesTo_toOption (h : s.unify u v ≠ .error .endless) : s.UnifiesTo u v (s.unify u v).toOption := by
  match hr : s.unify u v with
  | .ok r => exact unify_eq_ok_iff.1 hr
  | .error .clash => exact unify_eq_clash_iff.1 hr
  | .error .endless => exact (h hr).elim

theorem unify_ne_endless_iff : s.unify u v ≠ .error .endless ↔ ∃ o, UnifiesTo s u v o := by
  constructor
  · exact fun h => ⟨_, unifiesTo_toOption h⟩
  · rintro ⟨o, ho⟩
    rw [unify_eq_outcome_iff.2 ho]
    exact outcome_ne_endless o

end Subst

end Relational
