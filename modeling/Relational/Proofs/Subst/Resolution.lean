import Mathlib.Data.List.Forall2
import Relational.Proofs.Subst.Growth
import Relational.Subst.Reify

/-!
# Resolved terms

The rules by which a term is resolved, without a bound on the depth. They lead to the term that `resolve`
gives, and they lead to one exactly when no variable of the term comes back to itself through the terms
that variables are bound to.
-/

namespace Relational

open Relation (ReflTransGen TransGen)

theorem Term.bind?_eq_none_iff {ν μ : Type} {f : ν → Option (Term μ)} {t : Term ν} :
    t.bind? f = none ↔ ∃ x ∈ t.vars, f x = none := by
  induction t with
  | atom => simp [bind?, vars]
  | var x => simp [bind?, vars]
  | pair a d iha ihd =>
    simp only [vars, List.mem_append, or_and_right, exists_or, ← iha, ← ihd]
    cases ha : a.bind? f <;> cases hd : d.bind? f <;> simp [bind?, ha, hd]

namespace Subst

variable {s : Subst} {x y : Var} {t u v w : Term Var} {n : Nat}

/-- The term resolves to another one, in which no variable is bound. -/
inductive ResolvesTo (s : Subst) : Term Var → Term Var → Prop where
  | atom {a : Atom} : ResolvesTo s (.atom a) (.atom a)
  | unbound {x : Var} (hx : s.lookup x = none) : ResolvesTo s (.var x) (.var x)
  | bound {x : Var} {t w : Term Var} (hx : s.lookup x = some t) (ht : ResolvesTo s t w) :
      ResolvesTo s (.var x) w
  | pair {a d b e : Term Var} (ha : ResolvesTo s a b) (hd : ResolvesTo s d e) :
      ResolvesTo s (.pair a d) (.pair b e)

/-- No variable comes back to itself through the terms that variables are bound to. -/
def Acyclic (s : Subst) : Prop := ∀ x, ¬TransGen s.LeadsTo x x

namespace ResolvesTo

theorem unique (h : s.ResolvesTo t v) (h' : s.ResolvesTo t w) : v = w := by
  induction h generalizing w with
  | atom =>
    cases h'
    rfl
  | unbound hx =>
    cases h' with
    | unbound => rfl
    | bound hx' => simp [hx] at hx'
  | bound hx _ ih =>
    cases h' with
    | unbound hx' => simp [hx] at hx'
    | bound hx' ht =>
      obtain rfl := Option.some.inj (hx.symm.trans hx')
      exact ih ht
  | pair _ _ iha ihd =>
    cases h' with
    | pair ha hd => rw [iha ha, ihd hd]

theorem unbound_of_mem (h : s.ResolvesTo t w) : ∀ x ∈ w.vars, s.lookup x = none := by
  induction h with
  | atom => simp [Term.vars]
  | unbound hx => simpa [Term.vars] using hx
  | bound _ _ ih => exact ih
  | pair _ _ iha ihd =>
    intro x hx
    exact (List.mem_append.1 hx).elim (iha x) (ihd x)

/-- A resolved term is its own resolution. -/
theorem of_unbound (h : ∀ x ∈ t.vars, s.lookup x = none) : s.ResolvesTo t t := by
  induction t with
  | atom => exact .atom
  | var x => exact .unbound (h x (by simp [Term.vars]))
  | pair a d iha ihd =>
    exact .pair (iha fun x hx => h x (List.mem_append_left _ hx))
      (ihd fun x hx => h x (List.mem_append_right _ hx))

/-- From the variables of a term with a resolution there is no endless way. -/
theorem acc (h : s.ResolvesTo t w) : ∀ x ∈ t.vars, Acc (fun y x => s.LeadsTo x y) x := by
  induction h with
  | atom => simp [Term.vars]
  | @unbound x hx =>
    simp only [Term.vars, List.mem_singleton, forall_eq]
    refine ⟨x, fun y ⟨t, ht, _⟩ => ?_⟩
    simp [hx] at ht
  | @bound x t w hx _ ih =>
    simp only [Term.vars, List.mem_singleton, forall_eq]
    refine ⟨x, fun y ⟨t', ht', hy⟩ => ih y ?_⟩
    rwa [Option.some.inj (hx.symm.trans ht')]
  | pair _ _ iha ihd =>
    intro x hx
    exact (List.mem_append.1 hx).elim (iha x) (ihd x)

end ResolvesTo

/-! ## Bounded resolutions -/

theorem resolvesTo_of_bind? {f : Var → Option (Term Var)}
    (hf : ∀ x v, f x = some v → s.ResolvesTo (.var x) v) (h : t.bind? f = some w) :
    s.ResolvesTo t w := by
  induction t generalizing w with
  | atom => exact Option.some.inj h ▸ .atom
  | var x => exact hf x w h
  | pair a d iha ihd =>
    simp only [Term.bind?, Option.bind_eq_bind, Option.bind_eq_some_iff] at h
    obtain ⟨b, ha, e, hd, hw⟩ := h
    exact Option.some.inj hw ▸ .pair (iha ha) (ihd hd)

theorem resolvesTo_of_resolveWithin (h : s.resolveWithin n t = some w) : s.ResolvesTo t w := by
  induction n generalizing t w with
  | zero =>
    refine resolvesTo_of_bind? (fun x v hx => ?_) h
    simp only [Option.isNone_iff_eq_none, Option.ite_none_right_eq_some, Option.some.injEq] at hx
    exact hx.2 ▸ .unbound hx.1
  | succ n ih =>
    refine resolvesTo_of_bind? (fun x v hx => ?_) h
    cases hl : s.lookup x with
    | none =>
      simp only [hl, Option.some.injEq] at hx
      exact hx ▸ .unbound hl
    | some u =>
      simp only [hl] at hx
      exact .bound hl (ih hx)

/-- A resolution that does not get to the end passes one bound variable more than the depth allows. -/
theorem chain_of_resolveWithin (h : s.resolveWithin n t = none) :
    ∃ x ∈ t.vars, ∃ xs : List Var, xs.length = n ∧ (x :: xs).IsChain s.LeadsTo ∧
      ∀ y ∈ x :: xs, (s.lookup y).isSome = true := by
  induction n generalizing t with
  | zero =>
    obtain ⟨x, hx, hl⟩ := Term.bind?_eq_none_iff.1 h
    refine ⟨x, hx, [], rfl, .singleton x, ?_⟩
    simpa [Option.isSome_iff_ne_none] using hl
  | succ n ih =>
    obtain ⟨x, hx, hl⟩ := Term.bind?_eq_none_iff.1 h
    cases hu : s.lookup x with
    | none => simp [hu] at hl
    | some u =>
      simp only [hu] at hl
      obtain ⟨y, hy, ys, hlen, hchain, hbound⟩ := ih hl
      refine ⟨x, hx, y :: ys, by simp [hlen], .cons_cons ⟨u, hu, hy⟩ hchain, ?_⟩
      exact List.forall_mem_cons.2 ⟨by simp [hu], hbound⟩

/-- When there is no resolution, a variable of the term leads to a loop. -/
theorem loop_of_resolve (h : s.resolve t = none) :
    ∃ x ∈ t.vars, ∃ z, ReflTransGen s.LeadsTo x z ∧ TransGen s.LeadsTo z z := by
  obtain ⟨x, hx, xs, hlen, hchain, hbound⟩ := chain_of_resolveWithin h
  exact ⟨x, hx, exists_loop_of_isChain hchain hbound hlen.ge⟩

/-! ## Resolutions -/

theorem not_loop_of_acc {R : Var → Var → Prop} (h : Acc (fun y x => R x y) x) :
    ¬∃ z, ReflTransGen R x z ∧ TransGen R z z := by
  induction h with
  | intro x _ ih =>
    rintro ⟨z, hxz, hz⟩
    obtain ⟨y, hxy, hloop⟩ : ∃ y, R x y ∧ ∃ z, ReflTransGen R y z ∧ TransGen R z z := by
      rcases ReflTransGen.cases_head hxz with rfl | ⟨y, hxy, hyz⟩
      · obtain ⟨y, hxy, hyx⟩ := TransGen.head'_iff.1 hz
        exact ⟨y, hxy, x, hyx, hz⟩
      · exact ⟨y, hxy, z, hyz, hz⟩
    exact ih y hxy hloop

theorem resolve_eq_some_iff : s.resolve t = some w ↔ s.ResolvesTo t w := by
  refine ⟨resolvesTo_of_resolveWithin, fun h => ?_⟩
  cases hv : s.resolve t with
  | some v => rw [(resolvesTo_of_resolveWithin hv).unique h]
  | none =>
    obtain ⟨x, hx, hloop⟩ := loop_of_resolve hv
    exact (not_loop_of_acc (h.acc x hx) hloop).elim

theorem Acyclic.exists_resolvesTo (h : s.Acyclic) (t : Term Var) : ∃ w, s.ResolvesTo t w := by
  cases hw : s.resolve t with
  | some w => exact ⟨w, resolve_eq_some_iff.1 hw⟩
  | none =>
    obtain ⟨-, -, z, -, hz⟩ := loop_of_resolve hw
    exact (h z hz).elim

/-- What the variable resolves to, or the variable when it resolves to nothing. -/
def resolved (s : Subst) (x : Var) : Term Var := (s.resolve (.var x)).getD (.var x)

theorem resolved_eq (h : s.ResolvesTo (.var x) w) : s.resolved x = w := by
  rw [resolved, resolve_eq_some_iff.2 h, Option.getD_some]

/-- A term resolves by replacing each of its variables. -/
theorem ResolvesTo.eq_bind (h : s.ResolvesTo t w) : t.bind s.resolved = w := by
  induction h with
  | atom => rfl
  | unbound hx => exact resolved_eq (.unbound hx)
  | bound hx ht _ => exact resolved_eq (.bound hx ht)
  | pair _ _ iha ihd => rw [Term.bind, iha, ihd]

theorem Acyclic.resolvesTo (h : s.Acyclic) (t : Term Var) : s.ResolvesTo t (t.bind s.resolved) := by
  obtain ⟨w, hw⟩ := h.exists_resolvesTo t
  rwa [hw.eq_bind]

theorem Acyclic.forall₂_resolvesTo (h : s.Acyclic) (ts : List (Term Var)) :
    List.Forall₂ s.ResolvesTo ts (ts.map (Term.bind s.resolved)) :=
  List.forall₂_map_right_iff.2 (List.forall₂_same.2 fun t _ => h.resolvesTo t)

theorem Acyclic.chainFree (h : s.Acyclic) : s.ChainFree := by
  have halias : s.Alias ≤ s.LeadsTo := fun y z hyz => ⟨_, hyz, List.mem_singleton_self z⟩
  exact fun x hx => h x (TransGen.mono halias x x hx)

/-- A term resolves when each of its variables does. -/
theorem exists_resolvesTo_of_vars (h : ∀ x ∈ t.vars, ∃ w, s.ResolvesTo (.var x) w) :
    ∃ w, s.ResolvesTo t w := by
  induction t with
  | atom a => exact ⟨.atom a, .atom⟩
  | var x => exact h x (List.mem_singleton_self x)
  | pair a d iha ihd =>
    obtain ⟨b, hb⟩ := iha fun x hx => h x (List.mem_append_left _ hx)
    obtain ⟨e, he⟩ := ihd fun x hx => h x (List.mem_append_right _ hx)
    exact ⟨.pair b e, .pair hb he⟩

theorem acyclic_of_exists_resolvesTo (h : ∀ x, ∃ w, s.ResolvesTo (.var x) w) : s.Acyclic := by
  intro x hx
  obtain ⟨w, hw⟩ := h x
  exact not_loop_of_acc (hw.acc x (List.mem_singleton_self x)) ⟨x, .refl, hx⟩

theorem acyclic_empty : empty.Acyclic := by
  intro x hx
  obtain ⟨y, ⟨t, ht, -⟩, -⟩ := TransGen.head'_iff.1 hx
  cases ht

/-- No variable comes back to itself when every step leads to one of a higher rank. -/
theorem acyclic_of_rank (rank : Var → Nat) (h : ∀ x y, s.LeadsTo x y → rank x < rank y) : s.Acyclic := by
  have hpath {x y : Var} (hxy : TransGen s.LeadsTo x y) : rank x < rank y := by
    induction hxy with
    | single hxy => exact h _ _ hxy
    | tail _ hyz ih => exact ih.trans (h _ _ hyz)
  exact fun x hx => Nat.lt_irrefl _ (hpath hx)

/-! ## Resolutions and values -/

theorem resolvesTo_var (hx : s.lookup x = some t) : s.ResolvesTo (.var x) w ↔ s.ResolvesTo t w := by
  constructor
  · rintro (_ | hu | ⟨hu, ht⟩)
    · simp [hx] at hu
    · rwa [Option.some.inj (hx.symm.trans hu)]
  · exact .bound hx

/-- Where bindings are added, a term resolves to what its former value resolves to. -/
theorem resolvesTo_iff_of_walk {r : Subst} (hr : ∀ y u, s.lookup y = some u → r.lookup y = some u)
    (h : s.walk t = some v) : r.ResolvesTo t w ↔ r.ResolvesTo v w :=
  walk_closed (P := fun v => r.ResolvesTo t w ↔ r.ResolvesTo v w)
    (fun _ _ ht hx => ht.trans (resolvesTo_var (hr _ _ hx))) h .rfl

/-- A term resolves to what its value resolves to. -/
theorem resolvesTo_of_walk (h : s.walk t = some v) : s.ResolvesTo t w ↔ s.ResolvesTo v w :=
  resolvesTo_iff_of_walk (fun _ _ hy => hy) h

/-- Induction on a resolution that goes to the value of a term at once. -/
theorem ResolvesTo.walk_induction {motive : ∀ t w, s.ResolvesTo t w → Prop}
    (atom : ∀ {t a} (h : s.ResolvesTo t (.atom a)), s.walk t = some (.atom a) → motive t _ h)
    (var : ∀ {t x} (h : s.ResolvesTo t (.var x)), s.walk t = some (.var x) → motive t _ h)
    (pair : ∀ {t a d b e} (h : s.ResolvesTo t (.pair b e)) (ha : s.ResolvesTo a b)
      (hd : s.ResolvesTo d e), s.walk t = some (.pair a d) → motive a b ha → motive d e hd →
      motive t _ h)
    (h : s.ResolvesTo t w) : motive t w h := by
  -- Every term with the same value is as good as the one that is resolved.
  suffices ∀ u (hu : s.ResolvesTo u w), s.walk u = s.walk t → motive u w hu from this t h rfl
  induction h with
  | atom => exact fun u hu heq => atom hu heq
  | unbound hx => exact fun u hu heq => var hu (heq.trans (by rw [walk_var, hx, Option.elim_none]))
  | bound hx _ ih => exact fun u hu heq => ih u hu (heq.trans (by rw [walk_var, hx, Option.elim_some]))
  | pair ha hd iha ihd => exact fun u hu heq => pair hu ha hd heq (iha _ ha rfl) (ihd _ hd rfl)

/-! ## More bindings -/

/-- Where bindings are added, a term resolves to what its former resolution resolves to. -/
theorem ResolvesTo.resolvesTo_iff {r : Subst} (hr : ∀ y u, s.lookup y = some u → r.lookup y = some u)
    (h : s.ResolvesTo t v) : r.ResolvesTo t w ↔ r.ResolvesTo v w := by
  induction h generalizing w with
  | atom | unbound => rfl
  | bound hx _ ih => rw [resolvesTo_var (hr _ _ hx), ih]
  | pair _ _ iha ihd =>
    constructor
    · rintro (_ | _ | _ | ⟨ha, hd⟩)
      exact .pair (iha.1 ha) (ihd.1 hd)
    · rintro (_ | _ | _ | ⟨ha, hd⟩)
      exact .pair (iha.2 ha) (ihd.2 hd)

theorem leadsTo_le {r : Subst} (hr : ∀ y u, s.lookup y = some u → r.lookup y = some u) :
    s.LeadsTo ≤ r.LeadsTo :=
  fun y _ ⟨u, hu, hz⟩ => ⟨u, hr y u hu, hz⟩

theorem Acyclic.of_lookup {r : Subst} (h : r.Acyclic)
    (hr : ∀ y u, s.lookup y = some u → r.lookup y = some u) : s.Acyclic :=
  fun x hx => h x (TransGen.mono (leadsTo_le hr) x x hx)

end Subst

end Relational
