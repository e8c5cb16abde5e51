import Relational.Proofs.Subst.Reach
import Relational.Proofs.Subst.Reification
import Relational.Proofs.Term.Assignment

/-!
# The first variables

What is done with terms over the first `c` variables depends on the bindings of these alone. Where two
substitutions agree on them, unifications have the same outcome. And a substitution that has new variables
in the place of some open ones still reifies terms alike.
-/

namespace Relational

theorem Var.ne_of_lt_of_le {x y : Var} {c : Nat} (hx : x.id < c) (hy : c ≤ y.id) : y ≠ x := by
  rintro rfl
  exact Nat.not_lt.2 hy hx

namespace Subst

variable {s q r : Subst} {t u v w : Term Var} {x : Var} {f : Var → Var} {c : Nat} {o : Option Subst}

/-! ## Agreement -/

/-- The first `c` variables have the same bindings. -/
def AgreeBelow (c : Nat) (s q : Subst) : Prop := ∀ x : Var, x.id < c → q.lookup x = s.lookup x

theorem Closed.below_of_lookup (hs : Closed (Term.Below c) s) (hx : x.id < c)
    (ht : s.lookup x = some t) : t.Below c :=
  hs.lookup (Term.below_var.2 hx) ht

theorem Closed.lt_of_reaches (hs : Closed (Term.Below c) s) (ht : t.Below c) (hx : s.Reaches t x) :
    x.id < c := by
  refine hx.of_closed (Q := fun x => x.id < c) ?_ ht
  rintro x y hx ⟨u, hu, hy⟩
  exact hs.below_of_lookup hx hu y hy

theorem Closed.below_of_walk (hs : Closed (Term.Below c) s) (ht : t.Below c) (hw : s.walk t = some w) :
    w.Below c :=
  walk_closed (fun _ _ => hs.lookup) hw ht

namespace AgreeBelow

theorem refl (c : Nat) (s : Subst) : AgreeBelow c s s := fun _ _ => rfl

theorem symm (h : AgreeBelow c s q) : AgreeBelow c q s := fun x hx => (h x hx).symm

theorem closed (h : AgreeBelow c s q) (hs : Closed (Term.Below c) s) : Closed (Term.Below c) q where
  first := hs.first
  second := hs.second
  lookup hx ht := hs.lookup hx ((h _ (Term.below_var.1 hx)).symm.trans ht)

theorem extend (h : AgreeBelow c s q) (x : Var) (t : Term Var) :
    AgreeBelow c (s.extend x t) (q.extend x t) := by
  intro y hy
  rw [lookup_extend, lookup_extend, h y hy]

theorem extend_new (h : AgreeBelow c s q) (hx : c ≤ x.id) (t : Term Var) :
    AgreeBelow c s (q.extend x t) := by
  intro y hy
  rw [lookup_extend_of_ne (Var.ne_of_lt_of_le hy hx).symm, h y hy]

theorem walk (h : AgreeBelow c s q) (hs : Closed (Term.Below c) s) (ht : t.Below c)
    (hw : s.walk t = some w) : q.walk t = some w :=
  walk_of_reaches (fun x hx => h x (hs.lt_of_reaches ht hx)) hw

end AgreeBelow

/-- A unification depends on the values of its terms alone. -/
theorem UnifiesTo.of_walk {u' v' : Term Var} (h : s.UnifiesTo u v o) (hu : s.walk u' = s.walk u)
    (hv : s.walk v' = s.walk v) : s.UnifiesTo u' v' o := by
  cases h with
  | same h₁ h₂ => exact .same (hu.trans h₁) (hv.trans h₂)
  | left h₁ h₂ ne => exact .left (hu.trans h₁) (hv.trans h₂) ne
  | right h₁ h₂ ht => exact .right (hu.trans h₁) (hv.trans h₂) ht
  | atom h₁ h₂ hab => exact .atom (hu.trans h₁) (hv.trans h₂) hab
  | clash h₁ h₂ htw => exact .clash (hu.trans h₁) (hv.trans h₂) htw
  | first h₁ h₂ hab => exact .first (hu.trans h₁) (hv.trans h₂) hab
  | pair h₁ h₂ hab hde => exact .pair (hu.trans h₁) (hv.trans h₂) hab hde

/-- The bindings of the first `c` variables. -/
def restrict (s : Subst) (c : Nat) : Subst := ⟨s.bindings.filter fun b => b.1.id < c⟩

theorem restrict_extend (hx : x.id < c) (s : Subst) (t : Term Var) :
    (s.extend x t).restrict c = (s.restrict c).extend x t := by
  simp [restrict, extend, hx]

theorem restrict_extend_new (hx : c ≤ x.id) (s : Subst) (t : Term Var) :
    (s.extend x t).restrict c = s.restrict c := by
  simp [restrict, extend, hx]

theorem restrict_eq_self (h : ∀ b ∈ s.bindings, b.1.id < c) : s.restrict c = s :=
  congrArg Subst.mk (List.filter_eq_self.2 fun b hb => decide_eq_true (h b hb))

theorem agreeBelow_restrict (c : Nat) (s : Subst) : AgreeBelow c (s.restrict c) s := by
  obtain ⟨bindings⟩ := s
  intro x hx
  induction bindings with
  | nil => rfl
  | cons b bindings ih =>
    change (extend ⟨bindings⟩ b.1 b.2).lookup x = ((extend ⟨bindings⟩ b.1 b.2).restrict c).lookup x
    rcases lt_or_ge b.1.id c with hb | hb
    · rw [restrict_extend hb, lookup_extend, lookup_extend, ih]
    · rw [restrict_extend_new hb, lookup_extend_of_ne (Var.ne_of_lt_of_le hx hb).symm, ih]

/-- `r` comes from `s`, and `r'` from `q`, by the same new bindings, all of them of the first `c`
variables. -/
def SameNew (c : Nat) (s q r r' : Subst) : Prop :=
  ∃ new, r.bindings = new ++ s.bindings ∧ r'.bindings = new ++ q.bindings ∧ ∀ b ∈ new, b.1.id < c

namespace SameNew

variable {r' p p' : Subst}

theorem refl (c : Nat) (s q : Subst) : SameNew c s q s q := ⟨[], rfl, rfl, nofun⟩

theorem extend (hx : x.id < c) (s q : Subst) (t : Term Var) :
    SameNew c s q (s.extend x t) (q.extend x t) :=
  ⟨[(x, t)], rfl, rfl, by simpa using hx⟩

theorem trans (h : SameNew c s q r r') (h' : SameNew c r r' p p') : SameNew c s q p p' := by
  obtain ⟨new, hr, hr', hnew⟩ := h
  obtain ⟨newer, hp, hp', hnewer⟩ := h'
  refine ⟨newer ++ new, ?_, ?_, List.forall_mem_append.2 ⟨hnewer, hnew⟩⟩
  · rw [hp, hr, List.append_assoc]
  · rw [hp', hr', List.append_assoc]

theorem agreeBelow (h : SameNew c s q r r') (hq : AgreeBelow c s q) : AgreeBelow c r r' := by
  obtain ⟨new, hr, hr', -⟩ := h
  intro y hy
  rw [lookup, lookup, hr, hr', List.lookup_append, List.lookup_append]
  exact congrArg _ (hq y hy)

theorem lookup_eq (h : SameNew c s q r r') (hx : c ≤ x.id) : r'.lookup x = q.lookup x := by
  obtain ⟨new, -, hr', hnew⟩ := h
  refine lookup_of_notMem_new hr' fun hmem => ?_
  obtain ⟨b, hb, rfl⟩ := List.mem_map.1 hmem
  exact Nat.not_lt.2 hx (hnew b hb)

theorem restrict_eq (h : SameNew c s q r r') (hq : q.restrict c = s) : r'.restrict c = r := by
  obtain ⟨new, hr, hr', hnew⟩ := h
  have hkeep : new.filter (fun b => b.1.id < c) = new :=
    List.filter_eq_self.2 fun b hb => decide_eq_true (hnew b hb)
  have hold : q.bindings.filter (fun b => b.1.id < c) = s.bindings := congrArg Subst.bindings hq
  rw [restrict, hr', List.filter_append, hkeep, hold, ← hr]

end SameNew

/-- Unifying two terms over the first `c` variables adds the same bindings wherever these variables have the
same ones. -/
theorem UnifiesTo.exists_sameNew (h : s.UnifiesTo u v o) (hs : Closed (Term.Below c) s) (hu : u.Below c)
    (hv : v.Below c) (hq : AgreeBelow c s q) :
    ∃ o', q.UnifiesTo u v o' ∧ Option.Rel (SameNew c s q) o o' := by
  induction h generalizing q with
  | same hwu hwv => exact ⟨_, .same (hq.walk hs hu hwu) (hq.walk hs hv hwv), .some (.refl c _ q)⟩
  | left hwu hwv ne =>
    have hx := Term.below_var.1 (hs.below_of_walk hu hwu)
    exact ⟨_, .left (hq.walk hs hu hwu) (hq.walk hs hv hwv) ne, .some (.extend hx _ q _)⟩
  | right hwu hwv ht =>
    have hy := Term.below_var.1 (hs.below_of_walk hv hwv)
    exact ⟨_, .right (hq.walk hs hu hwu) (hq.walk hs hv hwv) ht, .some (.extend hy _ q _)⟩
  | atom hwu hwv hab => exact ⟨_, .atom (hq.walk hs hu hwu) (hq.walk hs hv hwv) hab, .some (.refl c _ q)⟩
  | clash hwu hwv htw => exact ⟨_, .clash (hq.walk hs hu hwu) (hq.walk hs hv hwv) htw, .none⟩
  | first hwu hwv _ ih =>
    have hab := Term.below_pair.1 (hs.below_of_walk hu hwu)
    have hde := Term.below_pair.1 (hs.below_of_walk hv hwv)
    obtain ⟨_, hfirst, hrel⟩ := ih hs hab.1 hde.1 hq
    cases hrel
    exact ⟨_, .first (hq.walk hs hu hwu) (hq.walk hs hv hwv) hfirst, .none⟩
  | pair hwu hwv hfirst _ ihab ihde =>
    have hab := Term.below_pair.1 (hs.below_of_walk hu hwu)
    have hde := Term.below_pair.1 (hs.below_of_walk hv hwv)
    obtain ⟨_, hfirst', hrel⟩ := ihab hs hab.1 hde.1 hq
    cases hrel with
    | some hsame =>
      have hclosed := (hfirst.grows hs hab.1 hde.1).closed hs
      obtain ⟨o', hsecond', hrel'⟩ := ihde hclosed hab.2 hde.2 (hsame.agreeBelow hq)
      refine ⟨o', .pair (hq.walk hs hu hwu) (hq.walk hs hv hwv) hfirst' hsecond', ?_⟩
      cases hrel' with
      | none => exact .none
      | some hsame' => exact .some (hsame.trans hsame')

/-- Unifying two terms over the first `c` variables does the same to these variables wherever they have the
same bindings, and it does nothing to the others. -/
theorem UnifiesTo.of_agreeBelow (h : s.UnifiesTo u v o) (hs : Closed (Term.Below c) s) (hu : u.Below c)
    (hv : v.Below c) (hq : AgreeBelow c s q) :
    ∃ o', q.UnifiesTo u v o' ∧ Option.Rel
      (fun r r' => AgreeBelow c r r' ∧ ∀ x : Var, c ≤ x.id → r'.lookup x = q.lookup x) o o' := by
  obtain ⟨o', ho', hrel⟩ := h.exists_sameNew hs hu hv hq
  refine ⟨o', ho', ?_⟩
  cases hrel with
  | none => exact .none
  | some hsame => exact .some ⟨hsame.agreeBelow hq, fun _ => hsame.lookup_eq⟩

/-! ## The same reified terms -/

/-- Unless `r` has a cycle, `q` has none either, and it reifies terms over the first `c` variables as `r`
does. -/
def ReifiesLike (c : Nat) (r q : Subst) : Prop :=
  r.Acyclic → q.Acyclic ∧ ∀ u : Term Var, u.Below c → q.reify u = r.reify u

theorem ReifiesLike.refl (c : Nat) (r : Subst) : ReifiesLike c r r := fun h => ⟨h, fun _ _ => rfl⟩

theorem ReifiesLike.trans {k : Nat} (h : ReifiesLike c r s) (hck : c ≤ k) (h' : ReifiesLike k s q) :
    ReifiesLike c r q := by
  intro hr
  obtain ⟨hs, hsr⟩ := h hr
  obtain ⟨hq, hqs⟩ := h' hs
  exact ⟨hq, fun u hu => (hqs u (hu.mono hck)).trans (hsr u hu)⟩

/-- Under `q` the first `c` variables stand for what they stand for under `r`, and `f` says which variables are
in the place of the open ones. -/
structure Mirrors (c : Nat) (f : Var → Var) (r q : Subst) : Prop where
  unbound {x : Var} (hx : x.id < c) (h : r.lookup x = none) : q.ResolvesTo (.var x) (.var (f x))
  bound {x : Var} {t w : Term Var} (hx : x.id < c) (h : r.lookup x = some t) (ht : q.ResolvesTo t w) :
    q.ResolvesTo (.var x) w
  injective {x y : Var} (hx : x.id < c) (hy : y.id < c) (h : f x = f y) : x = y
  new {x : Var} {t : Term Var} (hx : c ≤ x.id) (h : q.lookup x = some t) : t.Below c

namespace Mirrors

theorem of_agreeBelow (h : AgreeBelow c r q)
    (new : ∀ {x : Var} {t : Term Var}, c ≤ x.id → q.lookup x = some t → t.Below c) :
    Mirrors c id r q where
  unbound hx hr := .unbound ((h _ hx).trans hr)
  bound hx hr ht := .bound ((h _ hx).trans hr) ht
  injective _ _ h := h
  new := new

theorem resolvesTo (h : Mirrors c f r q) (hr : Closed (Term.Below c) r) (hu : u.Below c)
    (hw : r.ResolvesTo u w) : q.ResolvesTo u (w.map f) := by
  induction hw with
  | atom => exact .atom
  | unbound hx => exact h.unbound (Term.below_var.1 hu) hx
  | bound hx _ ih =>
    have hxc := Term.below_var.1 hu
    exact h.bound hxc hx (ih (hr.below_of_lookup hxc hx))
  | pair _ _ iha ihd =>
    obtain ⟨ha, hd⟩ := Term.below_pair.1 hu
    exact .pair (iha ha) (ihd hd)

theorem reifiesLike (h : Mirrors c f r q) (hr : Closed (Term.Below c) r) : ReifiesLike c r q := by
  intro hacyclic
  have hresolves (u : Term Var) (hu : u.Below c) :
      ∃ w, r.ResolvesTo u w ∧ q.ResolvesTo u (w.map f) := by
    obtain ⟨w, hw⟩ := hacyclic.exists_resolvesTo u
    exact ⟨w, hw, h.resolvesTo hr hu hw⟩
  constructor
  · apply acyclic_of_exists_resolvesTo
    intro x
    rcases lt_or_ge x.id c with hx | hx
    · obtain ⟨w, -, hw⟩ := hresolves (.var x) (Term.below_var.2 hx)
      exact ⟨_, hw⟩
    · cases hl : q.lookup x with
      | none => exact ⟨_, .unbound hl⟩
      | some t =>
        obtain ⟨w, -, hw⟩ := hresolves t (h.new hx hl)
        exact ⟨_, .bound hl hw⟩
  · intro u hu
    obtain ⟨w, hrw, hqw⟩ := hresolves u hu
    have hbelow {x : Var} (hx : x ∈ w.vars) : x.id < c := hr.lt_of_reaches hu (hrw.reaches hx)
    rw [reify_of_resolvesTo hrw, reify_of_resolvesTo hqw, Term.canonical_map]
    exact fun x hx y hy => h.injective (hbelow hx) (hbelow hy)

end Mirrors

end Subst

end Relational
