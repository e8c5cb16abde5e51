import Relational.Proofs.Term.Equality

/-!
# Canonical forms

The canonical form of a term has numbers for its variables, in the order in which they first occur. It does
not depend on what the variables are, and two terms that are instances of one another have the same.
-/

namespace Relational

/-! ## Distinct variables -/

/-- `xs` with those variables of a list added at the end that it does not have, each when it first comes. -/
def addVars (xs ys : List Var) : List Var :=
  ys.foldl (fun xs x => if x ∈ xs then xs else xs ++ [x]) xs

section addVars

variable {xs ys : List Var} {x : Var}

theorem addVars_append (xs ys zs : List Var) :
    addVars xs (ys ++ zs) = addVars (addVars xs ys) zs :=
  List.foldl_append

theorem addVars_cons_of_mem (hx : x ∈ xs) (ys : List Var) : addVars xs (x :: ys) = addVars xs ys := by
  rw [addVars, List.foldl_cons, if_pos hx]
  rfl

theorem addVars_cons_of_notMem (hx : x ∉ xs) (ys : List Var) :
    addVars xs (x :: ys) = addVars (xs ++ [x]) ys := by
  rw [addVars, List.foldl_cons, if_neg hx]
  rfl

theorem mem_addVars : x ∈ addVars xs ys ↔ x ∈ xs ∨ x ∈ ys := by
  induction ys generalizing xs with
  | nil => simp [addVars]
  | cons y ys ih =>
    by_cases hy : y ∈ xs
    · rw [addVars_cons_of_mem hy, ih, List.mem_cons]
      grind
    · rw [addVars_cons_of_notMem hy, ih, List.mem_append, List.mem_singleton, List.mem_cons, or_assoc]

theorem nodup_addVars (hxs : xs.Nodup) : (addVars xs ys).Nodup := by
  induction ys generalizing xs with
  | nil => exact hxs
  | cons y ys ih =>
    by_cases hy : y ∈ xs
    · rw [addVars_cons_of_mem hy]
      exact ih hxs
    · rw [addVars_cons_of_notMem hy]
      exact ih (List.nodup_append'.2 ⟨hxs, List.nodup_singleton y, by simpa using hy⟩)

theorem addVars_of_nodup (h : (xs ++ ys).Nodup) : addVars xs ys = xs ++ ys := by
  induction ys generalizing xs with
  | nil => exact xs.append_nil.symm
  | cons y ys ih =>
    have hy : y ∉ xs := fun hy => (List.nodup_append'.1 h).2.2 hy List.mem_cons_self
    rw [addVars_cons_of_notMem hy, ih (by simpa using h), List.append_assoc, List.singleton_append]

theorem addVars_map {f : Var → Var} (hf : ∀ x ∈ xs ++ ys, ∀ y ∈ xs ++ ys, f x = f y → x = y) :
    addVars (xs.map f) (ys.map f) = (addVars xs ys).map f := by
  induction ys generalizing xs with
  | nil => rfl
  | cons y ys ih =>
    have hmem : f y ∈ xs.map f ↔ y ∈ xs := by
      rw [List.mem_map]
      constructor
      · rintro ⟨x, hx, hxy⟩
        rwa [← hf x (by simp [hx]) y (by simp) hxy]
      · exact fun hy => ⟨y, hy, rfl⟩
    rw [List.map_cons]
    by_cases hy : y ∈ xs
    · rw [addVars_cons_of_mem (hmem.2 hy), addVars_cons_of_mem hy]
      exact ih fun x hx z hz => hf x (by grind) z (by grind)
    · rw [addVars_cons_of_notMem (fun h => hy (hmem.1 h)), addVars_cons_of_notMem hy, ← ih, List.map_append]
      · rfl
      · exact fun x hx z hz => hf x (by grind) z (by grind)

theorem idxOf_map {f : Var → Var} (hf : ∀ y ∈ xs, f y = f x → y = x) :
    (xs.map f).idxOf (f x) = xs.idxOf x := by
  induction xs with
  | nil => rfl
  | cons y ys ih =>
    obtain ⟨hy, hys⟩ := List.forall_mem_cons.1 hf
    by_cases hyx : y = x
    · rw [hyx, List.map_cons, List.idxOf_cons_self, List.idxOf_cons_self]
    · rw [List.map_cons, List.idxOf_cons_ne _ fun h => hyx (hy h), List.idxOf_cons_ne _ hyx, ih hys]

end addVars

namespace Term

/-- The variables in the order in which they first occur. -/
def distinctVars (t : Term Var) : List Var := addVars [] t.vars

/-- The term with every variable replaced by its number in the order of first occurrence. -/
def canonical (t : Term Var) : Term Var := t.bind fun x => .reified (t.distinctVars.idxOf x)

variable {t u : Term Var} {x : Var}

theorem mem_distinctVars : x ∈ t.distinctVars ↔ x ∈ t.vars := by
  simp [distinctVars, mem_addVars]

theorem nodup_distinctVars (t : Term Var) : t.distinctVars.Nodup := nodup_addVars .nil

theorem distinctVars_of_nodup (h : t.vars.Nodup) : t.distinctVars = t.vars := addVars_of_nodup h

theorem bind_congr {μ ν : Type} {f g : ν → Term μ} {t : Term ν} (h : ∀ x ∈ t.vars, f x = g x) :
    t.bind f = t.bind g := by
  induction t with
  | atom => rfl
  | var x => exact h x (by simp [vars])
  | pair a d iha ihd =>
    exact congrArg₂ Term.pair (iha fun x hx => h x (List.mem_append_left _ hx))
      (ihd fun x hx => h x (List.mem_append_right _ hx))

theorem vars_map {μ ν : Type} (f : ν → μ) (t : Term ν) : (t.map f).vars = t.vars.map f := by
  induction t with
  | atom | var => rfl
  | pair a d iha ihd => simp [map, vars, iha, ihd]

/-- Renaming the variables apart changes nothing. -/
theorem canonical_map {f : Var → Var} (hf : ∀ x ∈ t.vars, ∀ y ∈ t.vars, f x = f y → x = y) :
    (t.map f).canonical = t.canonical := by
  have hvars : (t.map f).distinctVars = t.distinctVars.map f := by
    rw [distinctVars, vars_map]
    exact @addVars_map [] _ f (by simpa using hf)
  rw [canonical, map_eq_bind, bind_bind, ← map_eq_bind, hvars]
  refine bind_congr fun x hx => congrArg Term.reified (idxOf_map fun y hy h => ?_)
  exact hf y (mem_distinctVars.1 hy) x hx h

/-! ## Equal terms -/

theorem eq_var_of_beq (h : (t == .var x) = true) : t = .var x := by
  cases t with
  | var y =>
    rw [var_beq_var, beq_iff_eq] at h
    rw [h]
  | _ => cases h

theorem vars_eq_of_beq (h : (t == u) = true) : t.vars = u.vars := by
  induction t generalizing u with
  | atom =>
    cases u with
    | atom => rfl
    | _ => cases h
  | var x =>
    cases u with
    | var y =>
      rw [var_beq_var, beq_iff_eq] at h
      rw [h]
    | _ => cases h
  | pair a d iha ihd =>
    cases u with
    | pair b e =>
      rw [pair_beq_pair, Bool.and_eq_true] at h
      rw [vars, vars, iha h.1, ihd h.2]
    | _ => cases h

theorem bind_beq_bind {μ : Type} [BEq μ] {f : Var → Term μ} (hf : ∀ x, (f x == f x) = true)
    (h : (t == u) = true) : (t.bind f == u.bind f) = true := by
  induction t generalizing u with
  | atom =>
    cases u with
    | atom => exact h
    | _ => cases h
  | var x =>
    cases u with
    | var y =>
      rw [var_beq_var, beq_iff_eq] at h
      rw [h]
      exact hf y
    | _ => cases h
  | pair a d iha ihd =>
    cases u with
    | pair b e =>
      rw [pair_beq_pair, Bool.and_eq_true] at h
      rw [bind, bind, pair_beq_pair, iha h.1, ihd h.2]
      rfl
    | _ => cases h

theorem canonical_beq_canonical (h : (t == u) = true) : (t.canonical == u.canonical) = true := by
  rw [canonical, canonical, distinctVars, distinctVars, vars_eq_of_beq h]
  exact bind_beq_bind (fun x => by simp [reified, beq_self, hasNan, Atom.isNan]) h

/-! ## Variants -/

/-- Where two terms are instances of one another, variables stand for variables. -/
theorem var_of_instances {f g : Var → Term Var} (hg : (t.bind g == u) = true)
    (hf : (u.bind f == t) = true) : ∀ x ∈ t.vars, ∃ y, g x = .var y ∧ f y = .var x := by
  induction t generalizing u with
  | atom => simp [vars]
  | var x =>
    simp only [vars, List.mem_singleton, forall_eq]
    cases u with
    | var y => exact ⟨y, eq_var_of_beq hg, eq_var_of_beq hf⟩
    | _ => cases hf
  | pair a d iha ihd =>
    cases u with
    | pair b e =>
      rw [bind, pair_beq_pair, Bool.and_eq_true] at hg hf
      intro x hx
      exact (List.mem_append.1 hx).elim (iha hg.1 hf.1 x) (ihd hg.2 hf.2 x)
    | _ => cases hg

/-- Terms that are instances of one another have equal canonical forms. -/
theorem canonical_beq_of_instances {f g : Var → Term Var} (hg : (t.bind g == u) = true)
    (hf : (u.bind f == t) = true) : (t.canonical == u.canonical) = true := by
  have hvars := var_of_instances hg hf
  let rename (x : Var) : Var := (g x).asVar?.getD x
  have hrename : ∀ x ∈ t.vars, g x = .var (rename x) ∧ f (rename x) = .var x := by
    intro x hx
    obtain ⟨y, hgx, hfy⟩ := hvars x hx
    have hy : rename x = y := by simp [rename, hgx, asVar?]
    rw [hy]
    exact ⟨hgx, hfy⟩
  have hmap : t.bind g = t.map rename := by
    rw [map_eq_bind]
    exact bind_congr fun x hx => (hrename x hx).1
  rw [← canonical_map (f := rename), ← hmap]
  · exact canonical_beq_canonical hg
  · intro x hx y hy hxy
    have hfx := (hrename x hx).2
    rw [hxy, (hrename y hy).2] at hfx
    exact (var.inj hfx).symm

end Term

end Relational
