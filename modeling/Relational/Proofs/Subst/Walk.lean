import Relational.Subst.Basic
import Mathlib.Data.List.Chain
import Mathlib.Data.List.Perm.Subperm

/-!
# Chains of bindings

The value of a term lies at the end of a chain of bindings of variables to variables. Looking for it takes
no more steps than there are bindings unless the chain comes back to one of its variables, and then it
has no end at all.
-/

namespace Relational

namespace Subst

open Relation (ReflTransGen TransGen)

variable {s : Subst} {x y : Var} {t v : Term Var}

/-- `x` is bound to the variable `y`. -/
def Alias (s : Subst) (x y : Var) : Prop := s.lookup x = some (.var y)

/-- `x` is bound to a term in which `y` occurs. -/
def LeadsTo (s : Subst) (x y : Var) : Prop := ∃ t, s.lookup x = some t ∧ y ∈ t.vars

/-- No chain of bindings of variables to variables comes back to where it began. -/
def ChainFree (s : Subst) : Prop := ∀ x, ¬ TransGen s.Alias x x

/-- The chain of bindings that starts at `x` runs into a loop. -/
def Endless (s : Subst) (x : Var) : Prop := ∃ z, ReflTransGen s.Alias x z ∧ TransGen s.Alias z z

/-- The term is no bound variable. -/
def IsValue (s : Subst) (t : Term Var) : Prop := ∀ x, t = .var x → s.lookup x = none

/-! ## Bound variables -/

theorem mem_of_lookup (h : s.lookup x = some t) : (x, t) ∈ s.bindings := by
  obtain ⟨l₁, l₂, hs, -⟩ := List.lookup_eq_some_iff.1 h
  simp [hs]

theorem not_mem_keys_of_lookup (h : s.lookup x = none) : x ∉ s.bindings.map Prod.fst := by
  intro hx
  rw [lookup, List.lookup_eq_none_iff] at h
  obtain ⟨b, hb, rfl⟩ := List.mem_map.1 hx
  simpa using h b hb

@[simp] theorem lookup_extend_self (s : Subst) (x : Var) (t : Term Var) :
    (s.extend x t).lookup x = some t := by
  rw [lookup_extend, if_pos rfl]

theorem lookup_extend_of_ne (h : y ≠ x) : (s.extend x t).lookup y = s.lookup y := by
  rw [lookup_extend, if_neg h]

theorem lookup_extend_of_eq_some (hx : s.lookup x = none) (hy : s.lookup y = some v) :
    (s.extend x t).lookup y = some v := by
  rw [lookup_extend, if_neg, hy]
  rintro rfl
  simp [hx] at hy

theorem Alias.isSome (h : s.Alias x y) : (s.lookup x).isSome = true := by rw [h]; rfl

theorem TransGen.isSome (h : TransGen s.Alias x y) : (s.lookup x).isSome = true := by
  obtain ⟨z, hz, -⟩ := TransGen.head'_iff.1 h
  exact hz.isSome

/-! ## Walks of a given length -/

theorem walkWithin_of_isValue {n : Nat} (h : s.IsValue t) : s.walkWithin n t = some t := by
  cases t with
  | var x => cases n <;> simp [walkWithin, h x rfl]
  | _ => cases n <;> rfl

theorem isValue_of_walkWithin {n : Nat} (h : s.walkWithin n t = some v) : s.IsValue v := by
  induction n generalizing t with
  | zero =>
    rintro y rfl
    cases t with
    | var x =>
      simp only [walkWithin, Option.ite_none_right_eq_some, Option.some.injEq, Term.var.injEq] at h
      simpa [h.2] using h.1
    | _ => simp [walkWithin] at h
  | succ n ih =>
    cases t with
    | var x =>
      cases hx : s.lookup x with
      | none =>
        simp only [walkWithin, hx, Option.some.injEq] at h
        rintro y rfl
        simp_all
      | some u => exact ih (by simpa [walkWithin, hx] using h)
    | _ =>
      simp only [walkWithin, Option.some.injEq] at h
      rintro y rfl
      simp at h

/-- A walk that does not get to the end passes one bound variable more than it has steps. -/
theorem chain_of_walkWithin {n : Nat} (h : s.walkWithin n (.var x) = none) :
    ∃ xs : List Var, xs.length = n ∧ (x :: xs).IsChain s.Alias ∧
      ∀ y ∈ x :: xs, (s.lookup y).isSome = true := by
  induction n generalizing x with
  | zero =>
    refine ⟨[], rfl, .singleton x, ?_⟩
    simpa [walkWithin, Option.isSome_iff_ne_none] using h
  | succ n ih =>
    cases hx : s.lookup x with
    | none => simp [walkWithin, hx] at h
    | some u =>
      simp only [walkWithin, hx] at h
      cases u with
      | var y =>
        obtain ⟨ys, hlen, hchain, hbound⟩ := ih h
        refine ⟨y :: ys, by simp [hlen], .cons_cons hx hchain, ?_⟩
        simp only [List.mem_cons, forall_eq_or_imp] at hbound ⊢
        exact ⟨by simp [hx], hbound⟩
      | _ => cases n <;> simp [walkWithin] at h

theorem walkWithin_of_endless (h : s.Endless x) (n : Nat) : s.walkWithin n (.var x) = none := by
  obtain ⟨z, hxz, hz⟩ := h
  -- Inside the loop every step leads to another variable of a loop.
  have loop (n : Nat) (z : Var) (hz : TransGen s.Alias z z) : s.walkWithin n (.var z) = none := by
    induction n generalizing z with
    | zero => simpa [walkWithin, Option.isSome_iff_ne_none] using TransGen.isSome hz
    | succ n ih =>
      obtain ⟨w, hzw, hwz⟩ := TransGen.head'_iff.1 hz
      simp only [walkWithin, show s.lookup z = some (.var w) from hzw]
      exact ih w (TransGen.tail' hwz hzw)
  induction hxz using ReflTransGen.head_induction_on generalizing n with
  | refl => exact loop n z hz
  | @head x y hxy _ ih =>
    cases n with
    | zero => simpa [walkWithin, Option.isSome_iff_ne_none] using hxy.isSome
    | succ n => simp only [walkWithin, show s.lookup x = some (.var y) from hxy, ih n]

/-- A path through more bound variables than there are bindings runs into a loop. -/
theorem exists_loop_of_isChain {R : Var → Var → Prop} {xs : List Var} (hchain : (x :: xs).IsChain R)
    (hbound : ∀ y ∈ x :: xs, (s.lookup y).isSome = true) (hlen : s.size ≤ xs.length) :
    ∃ z, ReflTransGen R x z ∧ TransGen R z z := by
  by_contra hx
  have hpath : (x :: xs).Pairwise (TransGen R) := (hchain.imp fun _ _ => .single).pairwise
  have hreach : ∀ y ∈ x :: xs, ReflTransGen R x y := by
    simp only [List.mem_cons, forall_eq_or_imp]
    exact ⟨.refl, fun y hy => ((List.pairwise_cons.1 hpath).1 y hy).to_reflTransGen⟩
  have hnodup : (x :: xs).Nodup := by
    refine hpath.imp_of_mem fun {y z} hy _ hyz => ?_
    rintro rfl
    exact hx ⟨y, hreach y hy, hyz⟩
  have hsub : x :: xs ⊆ s.bindings.map Prod.fst := by
    intro y hy
    obtain ⟨t, ht⟩ := Option.isSome_iff_exists.1 (hbound y hy)
    exact List.mem_map_of_mem (mem_of_lookup ht)
  have hle := (hnodup.subperm hsub).length_le
  simp only [List.length_cons, List.length_map] at hle
  simp only [size] at hlen
  omega

/-- A chain that has no loop ends after at most as many steps as there are bindings. -/
theorem endless_of_walkWithin_size (h : s.walkWithin s.size (.var x) = none) : s.Endless x := by
  obtain ⟨xs, hlen, hchain, hbound⟩ := chain_of_walkWithin h
  exact exists_loop_of_isChain hchain hbound hlen.ge

/-! ## Walks -/

theorem walk_eq_none_iff : s.walk (.var x) = none ↔ s.Endless x :=
  ⟨endless_of_walkWithin_size, fun h => walkWithin_of_endless h s.size⟩

theorem walk_of_isValue (h : s.IsValue t) : s.walk t = some t := by
  cases t with
  | var x => exact walkWithin_of_isValue h
  | _ => rfl

theorem walk_of_unbound (h : s.lookup x = none) : s.walk (.var x) = some (.var x) :=
  walk_of_isValue fun _ hx => Term.var.inj hx ▸ h

theorem walk_of_ne_var (h : ∀ x, t ≠ .var x) : s.walk t = some t :=
  walk_of_isValue fun x hx => (h x hx).elim

theorem isValue_of_walk (h : s.walk t = some v) : s.IsValue v := by
  cases t with
  | var x => exact isValue_of_walkWithin h
  | _ =>
    rintro y rfl
    simp [walk] at h

theorem walk_var (s : Subst) (x : Var) :
    s.walk (.var x) = (s.lookup x).elim (some (.var x)) s.walk := by
  cases hx : s.lookup x with
  | none => exact walk_of_unbound hx
  | some t =>
    obtain ⟨n, hn⟩ : ∃ n, s.size = n + 1 := by
      obtain ⟨_ | ⟨b, bs⟩⟩ := s
      · cases hx
      · exact ⟨bs.length, rfl⟩
    have hstep (m : Nat) : s.walkWithin (m + 1) (.var x) = s.walkWithin m t := by
      simp [walkWithin, hx]
    cases t with
    | var y =>
      change s.walkWithin s.size (.var x) = s.walkWithin s.size (.var y)
      cases hy : s.walkWithin n (.var y) with
      | some v => rw [hn, hstep, hy, walkWithin_mono (Nat.le_succ n) hy]
      | none =>
        have hendless : s.Endless x := endless_of_walkWithin_size (by rw [hn, hstep, hy])
        rw [walkWithin_of_endless hendless, ← hstep, walkWithin_of_endless hendless]
    | _ =>
      change s.walkWithin s.size (.var x) = _
      rw [hn, hstep]
      cases n <;> rfl

theorem walk_of_lookup (h : s.lookup x = some t) : s.walk (.var x) = s.walk t := by
  rw [walk_var, h, Option.elim_some]

theorem chainFree_empty : empty.ChainFree :=
  fun _ hx => absurd (TransGen.isSome hx) Bool.false_ne_true

theorem ChainFree.walk_isSome (h : s.ChainFree) (t : Term Var) : (s.walk t).isSome = true := by
  rw [Option.isSome_iff_ne_none]
  cases t with
  | var x =>
    rw [Ne, walk_eq_none_iff]
    rintro ⟨z, -, hz⟩
    exact h z hz
  | _ => simp [walk]

end Subst

end Relational
