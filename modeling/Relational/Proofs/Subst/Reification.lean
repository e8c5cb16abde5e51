import Relational.Proofs.Subst.Naming
import Relational.Proofs.Term.Variants
import Mathlib.Logic.Equiv.Basic

/-!
# Reified terms

Where the bindings and a term have no names of their own, the reified term stands for all variants of the
resolved one: it depends on nothing else, and it is different for terms that are no variants.
-/

namespace Relational

namespace Subst

variable {s s₁ s₂ : Subst} {t t₁ t₂ v w : Term Var}

/-- No variable is bound to a term with a name in it. -/
def NameFree (s : Subst) : Prop := ∀ x t, s.lookup x = some t → t.names = []

theorem NameFree.resolvesTo (hs : s.NameFree) (h : s.ResolvesTo t w) (ht : t.names = []) :
    w.names = [] := by
  induction h with
  | atom => exact ht
  | unbound => rfl
  | bound hx _ ih => exact ih (hs _ _ hx)
  | pair _ _ iha ihd =>
    obtain ⟨ha, hd⟩ := Term.names_eq_nil_of_pair ht
    rw [Term.names, iha ha, ihd hd, List.append_nil]

theorem reify_of_resolvesTo (h : s.ResolvesTo t v) : s.reify t = some v.canonical := by
  rw [reify_eq, resolve_eq_some_iff.2 h, Option.map_some]

/-- A term without variables stays as it is. -/
theorem reify_of_vars_eq_nil (s : Subst) (ht : t.vars = []) : s.reify t = some t := by
  have hself : s.ResolvesTo t t := .of_unbound (by simp [ht])
  rw [reify_of_resolvesTo hself, Term.canonical_of_vars_eq_nil ht]

/-- Reified terms are canonical. Under acyclic substitutions every term has one, and two of them are the same
if and only if a bijection between the variables of the resolved terms takes one into the other. There
is no variable in a reified term; the names in it are numbered from zero on in the order in which they
first occur, one for each variable of the resolved term; and reifying it again changes nothing. -/
theorem reify_eq_reify_iff (h₁ : s₁.Acyclic) (h₂ : s₂.Acyclic) (hs₁ : s₁.NameFree) (hs₂ : s₂.NameFree)
    (ht₁ : t₁.names = []) (ht₂ : t₂.names = []) :
    ∃ v₁ v₂ w₁ w₂, s₁.resolve t₁ = some v₁ ∧ s₂.resolve t₂ = some v₂ ∧
      s₁.reify t₁ = some w₁ ∧ s₂.reify t₂ = some w₂ ∧
      (w₁ = w₂ ↔ ∃ f : Var → Var, Set.BijOn f {x | x ∈ v₁.vars} {y | y ∈ v₂.vars} ∧ v₁.map f = v₂) ∧
      w₁.vars = [] ∧ w₁.names.eraseDups = List.range v₁.vars.eraseDups.length ∧
      ∀ s : Subst, s.reify w₁ = some w₁ := by
  obtain ⟨v₁, hv₁⟩ := h₁.exists_resolvesTo t₁
  obtain ⟨v₂, hv₂⟩ := h₂.exists_resolvesTo t₂
  have hnames₁ : v₁.names = [] := hs₁.resolvesTo hv₁ ht₁
  have hnames₂ : v₂.names = [] := hs₂.resolvesTo hv₂ ht₂
  have hvars : v₁.canonical.vars = [] := v₁.vars_canonical
  exact ⟨v₁, v₂, v₁.canonical, v₂.canonical, resolve_eq_some_iff.2 hv₁, resolve_eq_some_iff.2 hv₂,
    reify_of_resolvesTo hv₁, reify_of_resolvesTo hv₂, Term.canonical_eq_canonical_iff hnames₁ hnames₂,
    hvars, Term.eraseDups_names_canonical hnames₁, fun s => s.reify_of_vars_eq_nil hvars⟩

/-- Two variables that stand for one another in opposite directions, beside a third one. -/
theorem reify_eq_reify_iff_aliases :
    let s₁ := empty.extend ⟨1⟩ (.var ⟨2⟩)
    let s₂ := empty.extend ⟨2⟩ (.var ⟨1⟩)
    let t : Term Var := .pair (.pair (.var ⟨1⟩) (.var ⟨0⟩)) (.var ⟨2⟩)
    s₁.Acyclic ∧ s₂.Acyclic ∧ s₁.NameFree ∧ s₂.NameFree ∧ t.names = [] ∧
      ∃ w, s₁.reify t = some w ∧ s₂.reify t = some w ∧ w.names.eraseDups = [0, 1] := by
  intro s₁ s₂ t
  have hlookup {x y z : Var} {u : Term Var} (h : (empty.extend x (.var y)).lookup z = some u) :
      z = x ∧ u = .var y := by
    rw [lookup_extend] at h
    split at h
    · exact ⟨‹_›, (Option.some.inj h).symm⟩
    · cases h
  have hacyclic {x y : Var} (hxy : x ≠ y) : (empty.extend x (.var y)).Acyclic := by
    refine acyclic_of_rank (fun z => if z = x then 0 else 1) ?_
    rintro z z' ⟨u, hu, hz'⟩
    obtain ⟨rfl, rfl⟩ := hlookup hu
    obtain rfl : z' = y := by simpa [Term.vars] using hz'
    simp [hxy.symm]
  have hnames {x y : Var} : (empty.extend x (.var y)).NameFree := by
    intro z u hu
    rw [(hlookup hu).2]
    rfl
  have h₁ : s₁.Acyclic := hacyclic (by decide)
  have h₂ : s₂.Acyclic := hacyclic (by decide)
  have ht : t.names = [] := rfl
  refine ⟨h₁, h₂, hnames, hnames, ht, ?_⟩
  obtain ⟨v₁, v₂, w₁, w₂, hv₁, hv₂, hw₁, hw₂, hiff, -, hrange, -⟩ :=
    reify_eq_reify_iff h₁ h₂ hnames hnames ht ht
  obtain rfl : .pair (.pair (.var ⟨2⟩) (.var ⟨0⟩)) (.var ⟨2⟩) = v₁ := Option.some.inj hv₁
  obtain rfl : .pair (.pair (.var ⟨1⟩) (.var ⟨0⟩)) (.var ⟨1⟩) = v₂ := Option.some.inj hv₂
  have hswap := Term.bijOn_vars_map (t := .pair (.pair (.var ⟨2⟩) (.var ⟨0⟩)) (.var ⟨2⟩))
    (Equiv.swap (⟨1⟩ : Var) ⟨2⟩).injective.injOn
  obtain rfl : w₁ = w₂ := hiff.2 ⟨Equiv.swap ⟨1⟩ ⟨2⟩, hswap, rfl⟩
  exact ⟨w₁, hw₁, hw₂, hrange⟩

end Subst

end Relational
