import Relational.Proofs.Term.Canonical
import Mathlib.Data.Set.Function

/-!
# Variants

Terms are variants when renaming the variables of the one, different ones differently, gives the other. As
long as a term has no names of its own, its canonical form says which terms are its variants: the names in
it are the numbers of its variables.
-/

namespace Relational

/-! ## First occurrences -/

section firstOccurrences

variable {α β : Type} [DecidableEq α] [DecidableEq β] {xs : List α}

theorem eraseDups_append_singleton (xs : List α) (x : α) :
    (xs ++ [x]).eraseDups = if x ∈ xs then xs.eraseDups else xs.eraseDups ++ [x] := by
  rw [List.eraseDups_append]
  split
  · simp [List.removeAll, *]
  · simp [List.removeAll, List.eraseDups_cons, *]

theorem eraseDups_map {f : α → β} (hf : ∀ x ∈ xs, ∀ y ∈ xs, f x = f y → x = y) :
    (xs.map f).eraseDups = xs.eraseDups.map f := by
  induction xs using List.reverseRecOn with
  | nil => rfl
  | append_singleton xs x ih =>
    have hmem : f x ∈ xs.map f ↔ x ∈ xs := by
      rw [List.mem_map]
      constructor
      · rintro ⟨y, hy, hyx⟩
        rwa [← hf y (by simp [hy]) x (by simp) hyx]
      · exact fun hx => ⟨x, hx, rfl⟩
    have hxs := ih fun y hy z hz => hf y (List.mem_append_left _ hy) z (List.mem_append_left _ hz)
    rw [List.map_append, List.map_singleton, eraseDups_append_singleton, eraseDups_append_singleton, hxs]
    simp only [hmem]
    split
    · rfl
    · rw [List.map_append, List.map_singleton]

theorem map_idxOf_self (hxs : xs.Nodup) : xs.map (fun x => xs.idxOf x) = List.range xs.length := by
  refine List.ext_getElem (by simp) fun i hi _ => ?_
  rw [List.getElem_map, List.getElem_range, hxs.idxOf_getElem]

end firstOccurrences

theorem addVars_nil (xs : List Var) : addVars [] xs = xs.eraseDups := by
  induction xs using List.reverseRecOn with
  | nil => rfl
  | append_singleton xs x ih =>
    rw [addVars_append, eraseDups_append_singleton, ih]
    by_cases hx : x ∈ xs
    · rw [if_pos hx, addVars_cons_of_mem (List.mem_eraseDups.2 hx)]
      rfl
    · rw [if_neg hx, addVars_cons_of_notMem fun h => hx (List.mem_eraseDups.1 h)]
      rfl

namespace Term

variable {ν : Type} {f : Var → Var} {t u : Term Var} {x : Var}

/-! ## Names -/

/-- The numbers of the names in a term, in the order in which they stand. -/
def names : Term ν → List Nat
  | .atom (.reified k) => [k]
  | .atom _ | .var _ => []
  | .pair a d => a.names ++ d.names

theorem names_eq_nil_of_pair {a d : Term ν} (h : (pair a d).names = []) : a.names = [] ∧ d.names = [] :=
  List.append_eq_nil_iff.1 h

/-- Replacing the variables by names leaves those names, if there were none before. -/
theorem names_bind_reified (i : Var → Nat) (ht : t.names = []) :
    (t.bind fun x => (.reified (i x) : Term Var)).names = t.vars.map i := by
  induction t with
  | atom => exact ht
  | var => rfl
  | pair a d iha ihd =>
    obtain ⟨ha, hd⟩ := names_eq_nil_of_pair ht
    rw [bind, names, vars, iha ha, ihd hd, List.map_append]

theorem vars_bind_reified (i : Var → Nat) (t : Term Var) :
    (t.bind fun x => (.reified (i x) : Term Var)).vars = [] := by
  induction t with
  | atom | var => rfl
  | pair a d iha ihd => rw [bind, vars, iha, ihd, List.append_nil]

theorem vars_canonical (t : Term Var) : t.canonical.vars = [] := vars_bind_reified _ t

theorem canonical_of_vars_eq_nil (ht : t.vars = []) : t.canonical = t := by
  refine (bind_congr fun x hx => ?_).trans t.bind_var
  rw [ht] at hx
  cases hx

theorem names_canonical (ht : t.names = []) :
    t.canonical.names = t.vars.map fun x => t.distinctVars.idxOf x :=
  names_bind_reified _ ht

/-- The names in a canonical form are the numbers up to that of its variables, and they come in this
order. -/
theorem eraseDups_names_canonical (ht : t.names = []) :
    t.canonical.names.eraseDups = List.range t.vars.eraseDups.length := by
  have hdistinct : t.distinctVars = t.vars.eraseDups := addVars_nil t.vars
  rw [names_canonical ht, eraseDups_map, ← hdistinct]
  · exact map_idxOf_self t.nodup_distinctVars
  · exact fun x hx y _ hxy => (List.idxOf_inj (mem_distinctVars.2 hx)).1 hxy

/-! ## Variants -/

/-- Terms in which numbered variables stand alike are equal up to the variables with the same numbers. -/
theorem map_eq_of_bind_reified {i j : Var → Nat} (ht : t.names = []) (hu : u.names = [])
    (h : (t.bind fun x => (.reified (i x) : Term Var)) = u.bind fun y => .reified (j y))
    (hf : ∀ x ∈ t.vars, ∀ y ∈ u.vars, i x = j y → f x = y) : t.map f = u := by
  induction t generalizing u with
  | atom a =>
    cases u with
    | atom b =>
      obtain rfl : a = b := by simpa [bind] using h
      rfl
    | var y =>
      obtain rfl : a = .reified (j y) := by simpa [bind, reified] using h
      cases ht
    | pair => cases h
  | var x =>
    cases u with
    | atom b =>
      obtain rfl : .reified (i x) = b := by simpa [bind, reified] using h
      cases hu
    | var y =>
      have hxy : i x = j y := by simpa [bind, reified] using h
      rw [map, hf x (by simp [vars]) y (by simp [vars]) hxy]
    | pair => cases h
  | pair a d iha ihd =>
    cases u with
    | atom | var => cases h
    | pair b e =>
      obtain ⟨hab, hde⟩ : a.bind _ = b.bind _ ∧ d.bind _ = e.bind _ := by simpa [bind] using h
      obtain ⟨ha, hd⟩ := names_eq_nil_of_pair ht
      obtain ⟨hb, he⟩ := names_eq_nil_of_pair hu
      rw [map, iha ha hb hab fun x hx y hy =>
          hf x (List.mem_append_left _ hx) y (List.mem_append_left _ hy),
        ihd hd he hde fun x hx y hy => hf x (List.mem_append_right _ hx) y (List.mem_append_right _ hy)]

theorem bijOn_vars_map (hf : Set.InjOn f {x | x ∈ t.vars}) :
    Set.BijOn f {x | x ∈ t.vars} {y | y ∈ (t.map f).vars} := by
  refine ⟨fun x hx => ?_, hf, fun y hy => ?_⟩
  · exact vars_map f t ▸ List.mem_map_of_mem hx
  · exact List.mem_map.1 (vars_map f t ▸ hy)

/-- Terms without names have the same canonical form if and only if they are variants. -/
theorem canonical_eq_canonical_iff (ht : t.names = []) (hu : u.names = []) :
    t.canonical = u.canonical ↔
      ∃ f : Var → Var, Set.BijOn f {x | x ∈ t.vars} {y | y ∈ u.vars} ∧ t.map f = u := by
  constructor
  · intro h
    let f (x : Var) : Var := u.distinctVars.getD (t.distinctVars.idxOf x) x
    have hf {x y : Var} (hy : y ∈ u.vars) (hxy : t.distinctVars.idxOf x = u.distinctVars.idxOf y) :
        f x = y := by
      have hlt := List.idxOf_lt_length_iff.2 (mem_distinctVars.2 hy)
      simp [f, hxy, List.getD_eq_getElem?_getD, List.getElem?_eq_getElem hlt]
    have hmap : t.map f = u := map_eq_of_bind_reified ht hu h fun x _ y hy => hf hy
    -- A variable of `t` has the number of the variable to which `f` takes it.
    have hnumber {x : Var} (hx : x ∈ t.vars) : t.distinctVars.idxOf x = u.distinctVars.idxOf (f x) := by
      have hnames := congrArg names h
      rw [names_canonical ht, names_canonical hu] at hnames
      have hmem : t.distinctVars.idxOf x ∈ u.vars.map fun y => u.distinctVars.idxOf y :=
        hnames ▸ List.mem_map_of_mem hx
      obtain ⟨y, hy, hyx⟩ := List.mem_map.1 hmem
      rw [hf hy hyx.symm, hyx]
    have hinj : Set.InjOn f {x | x ∈ t.vars} := by
      intro x hx y hy hxy
      refine (List.idxOf_inj (mem_distinctVars.2 hx)).1 ?_
      rw [hnumber hx, hnumber hy, hxy]
    exact ⟨f, hmap ▸ bijOn_vars_map hinj, hmap⟩
  · rintro ⟨f, hf, rfl⟩
    exact (canonical_map fun x hx y hy => hf.injOn hx hy).symm

end Term

end Relational
