import Mathlib.Data.List.Nodup
import Relational.Proofs.Subst.Walk

/-!
# Growth of a substitution

A substitution grows when unbound variables are bound, one at a time, to terms that are no bound variables.
The property `P` says which terms may take part. What such a step keeps is kept by every number of steps.
-/

namespace Relational

namespace Subst

open Relation (TransGen)

variable {P : Term Var → Prop} {s r q : Subst} {x y : Var} {t : Term Var}

/-- `r` comes from `s` by binding unbound variables to values other than themselves. -/
inductive Grows (P : Term Var → Prop) (s : Subst) : Subst → Prop where
  | refl : Grows P s s
  | bind {r : Subst} {x : Var} {t : Term Var} (h : Grows P s r) (unbound : r.lookup x = none)
      (value : r.IsValue t) (ne : t ≠ .var x) (key : P (.var x)) (term : P t) :
      Grows P s (r.extend x t)

namespace Grows

theorem trans (h₁ : Grows P s r) (h₂ : Grows P r q) : Grows P s q := by
  induction h₂ with
  | refl => exact h₁
  | bind _ unbound value ne key term ih => exact .bind ih unbound value ne key term

/-! ## What was there stays there -/

theorem suffix (h : Grows P s r) : s.bindings <:+ r.bindings := by
  induction h with
  | refl => exact List.suffix_rfl
  | bind _ _ _ _ _ _ ih => exact ih.trans (List.suffix_cons ..)

theorem eq_of_size (h : Grows P s r) (hsize : r.size = s.size) : r = s := by
  cases s
  cases r
  exact congrArg Subst.mk (h.suffix.eq_of_length hsize.symm).symm

theorem lookup_eq_some (h : Grows P s r) (hx : s.lookup x = some t) : r.lookup x = some t := by
  induction h with
  | refl => exact hx
  | bind _ unbound _ _ _ _ ih => exact lookup_extend_of_eq_some unbound ih

/-! ## What is new -/

/-- The new bindings are of different variables, which were unbound. -/
theorem exists_append (h : Grows P s r) :
    ∃ new, r.bindings = new ++ s.bindings ∧ (new.map Prod.fst).Nodup ∧
      ∀ b ∈ new, s.lookup b.1 = none ∧ P (.var b.1) ∧ P b.2 := by
  induction h with
  | refl => exact ⟨[], rfl, .nil, nofun⟩
  | @bind r x t h unbound _ _ key term ih =>
    obtain ⟨new, hr, hnodup, hnew⟩ := ih
    have hs : s.lookup x = none := by
      by_contra hx
      obtain ⟨u, hu⟩ := Option.ne_none_iff_exists'.1 hx
      rw [h.lookup_eq_some hu] at unbound
      cases unbound
    have hx : x ∉ new.map Prod.fst := by
      intro hx
      apply not_mem_keys_of_lookup unbound
      rw [hr, List.map_append]
      exact List.mem_append_left _ hx
    exact ⟨(x, t) :: new, by simp [extend, hr], List.nodup_cons.2 ⟨hx, hnodup⟩,
      List.forall_mem_cons.2 ⟨⟨hs, key, term⟩, hnew⟩⟩

theorem mem_bindings {b : Var × Term Var} (h : Grows P s r) (hb : b ∈ r.bindings) :
    b ∈ s.bindings ∨ P (.var b.1) ∧ P b.2 := by
  obtain ⟨new, hr, -, hnew⟩ := h.exists_append
  rw [hr, List.mem_append] at hb
  exact hb.symm.imp_right fun hb => (hnew b hb).2

theorem nodup_keys (h : Grows P s r) (hs : (s.bindings.map Prod.fst).Nodup) :
    (r.bindings.map Prod.fst).Nodup := by
  induction h with
  | refl => exact hs
  | bind _ unbound _ _ _ _ ih => exact List.nodup_cons.2 ⟨not_mem_keys_of_lookup unbound, ih⟩

theorem size_le (h : Grows P s r) {pool : List (Term Var)} (hpool : ∀ t, P t → t ∈ pool) :
    r.size ≤ s.size + pool.length := by
  obtain ⟨new, hr, hnodup, hnew⟩ := h.exists_append
  have hvars : ((new.map Prod.fst).map (Term.var : Var → Term Var)).Nodup :=
    hnodup.map fun _ _ => Term.var.inj
  have hsub : (new.map Prod.fst).map Term.var ⊆ pool := by
    simp only [List.subset_def, List.mem_map, forall_exists_index, and_imp]
    rintro _ _ b hb rfl rfl
    exact hpool _ (hnew b hb).2.1
  have hle := (hvars.subperm hsub).length_le
  simp only [List.length_map] at hle
  simp only [size, hr, List.length_append]
  omega

/-! ## Chains stay free of loops -/

theorem alias_extend (h : (r.extend x t).Alias y z) : r.Alias y z ∨ y = x ∧ t = .var z := by
  unfold Alias at h
  rw [lookup_extend] at h
  split at h
  · exact .inr ⟨‹_›, Option.some.inj h⟩
  · exact .inl h

/-- A new binding closes no loop. -/
theorem loop_of_extend (value : r.IsValue t) (ne : t ≠ .var x)
    (h : TransGen (r.extend x t).Alias y y) : TransGen r.Alias y y := by
  -- A path that takes the new binding has come to an unbound variable.
  have path {a b : Var} (h : TransGen (r.extend x t).Alias a b) :
      TransGen r.Alias a b ∨ t = .var b := by
    induction h with
    | single h =>
      rcases alias_extend h with h | ⟨-, ht⟩
      · exact .inl (.single h)
      · exact .inr ht
    | tail _ h ih =>
      rcases alias_extend h with hold | ⟨-, ht⟩
      · rcases ih with ih | rfl
        · exact .inl (ih.tail hold)
        · simp [Alias, value _ rfl] at hold
      · exact .inr ht
  rcases path h with hy | rfl
  · exact hy
  · obtain ⟨z, hyz, -⟩ := TransGen.head'_iff.1 h
    rcases alias_extend hyz with h | ⟨rfl, -⟩
    · simp [Alias, value _ rfl] at h
    · exact (ne rfl).elim

theorem loop (h : Grows P s r) (hy : TransGen r.Alias y y) : TransGen s.Alias y y := by
  induction h with
  | refl => exact hy
  | bind _ _ value ne _ _ ih => exact ih (loop_of_extend value ne hy)

theorem chainFree (h : Grows P s r) (hs : s.ChainFree) : r.ChainFree :=
  fun y hy => hs y (h.loop hy)

end Grows

/-! ## Closed sets of terms -/

/-- `P` holds of the halves of its pairs and of what its variables are bound to. -/
structure Closed (P : Term Var → Prop) (s : Subst) : Prop where
  first {a d : Term Var} : P (.pair a d) → P a
  second {a d : Term Var} : P (.pair a d) → P d
  lookup {x : Var} {t : Term Var} : P (.var x) → s.lookup x = some t → P t

theorem Closed.univ (s : Subst) : Closed (fun _ => True) s :=
  ⟨fun _ => trivial, fun _ => trivial, fun _ _ => trivial⟩

theorem Grows.closed (h : Grows P s r) (hs : Closed P s) : Closed P r := by
  induction h with
  | refl => exact hs
  | bind _ _ _ _ _ term ih =>
    refine ⟨ih.first, ih.second, fun {y u} hy hu => ?_⟩
    rw [lookup_extend] at hu
    split at hu
    · exact Option.some.inj hu ▸ term
    · exact ih.lookup hy hu

theorem walkWithin_closed {n : Nat} {u v : Term Var} (hs : ∀ x t, P (.var x) → s.lookup x = some t → P t)
    (h : s.walkWithin n u = some v) (hu : P u) : P v := by
  induction n generalizing u with
  | zero =>
    cases u with
    | var x => simp_all [walkWithin]
    | _ => simp_all [walkWithin]
  | succ n ih =>
    cases u with
    | var x =>
      cases hx : s.lookup x with
      | none => simp_all [walkWithin]
      | some t => exact ih (by simpa [walkWithin, hx] using h) (hs x t hu hx)
    | _ => simp_all [walkWithin]

/-- What holds of a term and passes from variables to what they are bound to holds of the term's value. -/
theorem walk_closed {u v : Term Var} (hs : ∀ x t, P (.var x) → s.lookup x = some t → P t)
    (h : s.walk u = some v) (hu : P u) : P v := by
  cases u with
  | var x => exact walkWithin_closed hs h hu
  | _ => exact Option.some.inj h ▸ hu

end Subst

end Relational
