import Relational.Proofs.Subst.Locality

/-!
# Unification by way of new variables

The equation of a pair and a term can be taken apart: first the term is unified with a pair of new
variables, of which one stands for the first half, and then the second half with the other variable. This
fails when the equation fails, and otherwise it leads to the same reified terms.
-/

namespace Relational

namespace Subst

variable {s q r : Subst} {t u v w d e : Term Var} {x y z : Var} {f : Var → Var} {c : Nat}
  {o : Option Subst}

/-- Binding an open variable to a pair whose second half stands for it leads to a cycle. -/
theorem not_acyclic_extend_pair (hz : s.lookup z = none) (hd : s.walk d = some (.var z)) :
    ¬(s.extend z (.pair e d)).Acyclic := by
  intro h
  have hs : s.Acyclic := h.of_lookup fun _ _ => lookup_extend_of_eq_some hz
  obtain ⟨w, hw⟩ := hs.exists_resolvesTo e
  have hdz : s.ResolvesTo d (.var z) := (resolvesTo_of_walk hd).2 (.unbound hz)
  have hloop := (acyclic_extend_iff hs hz (.pair hw hdz)).1 h
  simp [Term.vars] at hloop

/-! ## An equation taken apart -/

/-- The terms `t` and `y` can be put in the place of the halves of a pair: in `q`, which agrees with `s` on the
first `c` variables, `t` stands for the first half `e`, and `y` is a new variable. -/
structure Detour (c : Nat) (s q : Subst) (e t : Term Var) (y : Var) : Prop where
  closed : Closed (Term.Below c) s
  chainFree : s.ChainFree
  agree : AgreeBelow c s q
  new {z : Var} {t : Term Var} (hz : c ≤ z.id) (h : q.lookup z = some t) : t.Below c
  below : e.Below c
  walk_eq : q.walk t = s.walk e
  unbound : q.lookup y = none
  le : c ≤ y.id

namespace Detour

variable {a b : Term Var} {q' : Subst}

theorem ne (h : Detour c s q e t y) (hz : z.id < c) : y ≠ z := Var.ne_of_lt_of_le hz h.le

theorem walk_left (h : Detour c s q e t y) : q.walk t = q.walk e := by
  obtain ⟨w, hw⟩ := Option.isSome_iff_exists.1 (h.chainFree.walk_isSome e)
  rw [h.walk_eq, hw, h.agree.walk h.closed h.below hw]

/-- When the term is a pair, the second new variable is bound to its second half. -/
theorem of_pair (h : Detour c s q e t y) (hd : d.Below c) (hv : v.Below c)
    (hwv : s.walk v = some (.pair a b)) (hfirst : s.UnifiesTo e a (some r)) (hsecond : r.UnifiesTo d b o) :
    ∃ q₁ o', q.UnifiesTo (.pair t (.var y)) v (some q₁) ∧ q₁.UnifiesTo d (.var y) o' ∧
      Option.Rel (fun r r' => ReifiesLike c r r') o o' := by
  obtain ⟨ha, hb⟩ := Term.below_pair.1 (h.closed.below_of_walk hv hwv)
  have hclosed : Closed (Term.Below c) r := (hfirst.grows h.closed h.below ha).closed h.closed
  obtain ⟨_, hfirst', hrel⟩ := hfirst.of_agreeBelow h.closed h.below ha h.agree
  cases hrel with
  | @some _ q' hq' =>
    obtain ⟨hagree, hothers⟩ := hq'
    obtain ⟨w, hw⟩ := Option.isSome_iff_exists.1 ((hfirst.chainFree h.chainFree).walk_isSome b)
    have hwc : w.Below c := hclosed.below_of_walk hb hw
    have hy : q'.lookup y = none := (hothers y h.le).trans h.unbound
    have hwy : w ≠ .var y := by
      rintro rfl
      exact h.ne (Term.below_var.1 hwc) rfl
    have hagree₁ : AgreeBelow c r (q'.extend y w) := hagree.extend_new h.le w
    obtain ⟨o', hsecond', hrel⟩ := hsecond.of_agreeBelow hclosed hd hb hagree₁
    have hwalk : (q'.extend y w).walk (.var y) = (q'.extend y w).walk b := by
      rw [walk_of_lookup (lookup_extend_self ..), hagree₁.walk hclosed hb hw]
      exact hagree₁.walk hclosed hwc (walk_of_isValue (isValue_of_walk hw))
    refine ⟨q'.extend y w, o', ?_, hsecond'.of_walk rfl hwalk, ?_⟩
    · refine .pair (walk_pair ..) (h.agree.walk h.closed hv hwv) (hfirst'.of_walk h.walk_left rfl) ?_
      exact .left (walk_of_unbound hy) (hagree.walk hclosed hb hw) hwy
    · cases hrel with
      | none => exact .none
      | some h₂ =>
        refine .some (Mirrors.reifiesLike (.of_agreeBelow h₂.1 fun {z t} hz hl => ?_)
          ((hsecond.grows hclosed hd hb).closed hclosed))
        rw [h₂.2 z hz, lookup_extend] at hl
        split at hl
        · exact Option.some.inj hl ▸ hwc
        · exact h.new hz ((hothers z hz).symm.trans hl)

/-- When the term is an open variable `z`, this is bound to the pair of new variables. -/
theorem mirrors (h : Detour c s q e t y) (hq : ∀ i t, q.lookup i = some t → q'.lookup i = some t)
    (hz : q'.lookup z = some (.pair t (.var y)))
    (hy : ∀ w, q'.ResolvesTo d w → q'.ResolvesTo (.var y) w)
    (unbound : ∀ i : Var, i.id < c → i ≠ z → q.lookup i = none → q'.ResolvesTo (.var i) (.var (f i)))
    (injective : ∀ i j : Var, i.id < c → j.id < c → f i = f j → i = j)
    (new : ∀ (i : Var) t, c ≤ i.id → q'.lookup i = some t → t.Below c) :
    Mirrors c f (s.extend z (.pair e d)) q' where
  unbound {i} hi hr := by
    rw [lookup_extend] at hr
    split at hr
    · cases hr
    · exact unbound i hi ‹_› ((h.agree i hi).trans hr)
  bound {i t w} hi hr ht := by
    rw [lookup_extend] at hr
    split at hr
    · subst i
      cases hr
      cases ht with
      | pair he hd =>
        obtain ⟨w, hw⟩ := Option.isSome_iff_exists.1 (h.chainFree.walk_isSome e)
        have hx := (resolvesTo_iff_of_walk hq (h.walk_eq.trans hw)).2
          ((resolvesTo_iff_of_walk hq (h.agree.walk h.closed h.below hw)).1 he)
        exact .bound hz (.pair hx (hy _ hd))
    · exact .bound (hq i t ((h.agree i hi).trans hr)) ht
  injective := injective _ _
  new := new _ _

/-- The second half has a value of its own, to which `y` is bound. -/
theorem mirrors_value (h : Detour c s q e t y) (hz : q.lookup z = none) (hzc : z.id < c)
    (hd : q.walk d = some w) (hwc : w.Below c) :
    Mirrors c id (s.extend z (.pair e d)) ((q.extend z (.pair t (.var y))).extend y w) := by
  have hy : (q.extend z (.pair t (.var y))).lookup y = none :=
    (lookup_extend_of_ne (h.ne hzc)).trans h.unbound
  have hq (i : Var) (u : Term Var) (hi : q.lookup i = some u) :
      ((q.extend z (.pair t (.var y))).extend y w).lookup i = some u :=
    lookup_extend_of_eq_some hy (lookup_extend_of_eq_some hz hi)
  refine h.mirrors hq ?_ (fun w' hw' => ?_) (fun i hi hiz hiq => .unbound ?_) (fun _ _ _ _ h => h)
    fun i t hi ht => ?_
  · exact lookup_extend_of_eq_some hy (lookup_extend_self ..)
  · exact .bound (lookup_extend_self ..) ((resolvesTo_iff_of_walk hq hd).1 hw')
  · rw [lookup_extend_of_ne (h.ne hi).symm, lookup_extend_of_ne hiz, hiq]
  · rw [lookup_extend, lookup_extend_of_ne (Var.ne_of_lt_of_le hzc hi)] at ht
    split at ht
    · exact Option.some.inj ht ▸ hwc
    · exact h.new hi ht

/-- The second half stands for an open variable, which is bound to `y`. -/
theorem mirrors_alias {k : Var} (h : Detour c s q e t y) (hz : q.lookup z = none) (hzc : z.id < c)
    (hd : q.walk d = some (.var k)) (hkz : k ≠ z) (hkc : k.id < c) :
    Mirrors c (fun i => if i = k then y else i) (s.extend z (.pair e d))
      ((q.extend z (.pair t (.var y))).extend k (.var y)) := by
  have hk : (q.extend z (.pair t (.var y))).lookup k = none := by
    rw [lookup_extend_of_ne hkz, isValue_of_walk hd k rfl]
  have hky : ((q.extend z (.pair t (.var y))).extend k (.var y)).lookup k = some (.var y) :=
    lookup_extend_self ..
  have hq (i : Var) (u : Term Var) (hi : q.lookup i = some u) :
      ((q.extend z (.pair t (.var y))).extend k (.var y)).lookup i = some u :=
    lookup_extend_of_eq_some hk (lookup_extend_of_eq_some hz hi)
  refine h.mirrors hq ?_ (fun w hw => ?_) (fun i hi hiz hiq => ?_) (fun i j hi hj hij => ?_)
    fun i t hi ht => ?_
  · exact lookup_extend_of_eq_some hk (lookup_extend_self ..)
  · exact (resolvesTo_var hky).1 ((resolvesTo_iff_of_walk hq hd).1 hw)
  · split
    · subst i
      refine .bound hky (.unbound ?_)
      rw [lookup_extend_of_ne (h.ne hkc), lookup_extend_of_ne (h.ne hzc), h.unbound]
    · refine .unbound ?_
      rw [lookup_extend_of_ne ‹_›, lookup_extend_of_ne hiz, hiq]
  · have hne {l : Var} (hl : l.id < c) : y ≠ l := h.ne hl
    grind
  · rw [lookup_extend_of_ne (Var.ne_of_lt_of_le hkc hi),
      lookup_extend_of_ne (Var.ne_of_lt_of_le hzc hi)] at ht
    exact h.new hi ht

theorem of_var (h : Detour c s q e t y) (hd : d.Below c) (hv : v.Below c)
    (hwv : s.walk v = some (.var z)) :
    ∃ q₁ q₂, q.UnifiesTo (.pair t (.var y)) v (some q₁) ∧ q₁.UnifiesTo d (.var y) (some q₂) ∧
      ReifiesLike c (s.extend z (.pair e d)) q₂ := by
  have hzc : z.id < c := Term.below_var.1 (h.closed.below_of_walk hv hwv)
  have hz : s.lookup z = none := isValue_of_walk hwv z rfl
  have hzq : q.lookup z = none := (h.agree z hzc).trans hz
  let q₁ := q.extend z (.pair t (.var y))
  have hq₁ : q.UnifiesTo (.pair t (.var y)) v (some q₁) :=
    .right (walk_pair ..) (h.agree.walk h.closed hv hwv) nofun
  have hy : q₁.walk (.var y) = some (.var y) :=
    walk_of_unbound ((lookup_extend_of_ne (h.ne hzc)).trans h.unbound)
  obtain ⟨w, hw⟩ := Option.isSome_iff_exists.1 (h.chainFree.walk_isSome d)
  have hwc : w.Below c := h.closed.below_of_walk hd hw
  have hqw : q.walk d = some w := h.agree.walk h.closed hd hw
  have hwalk : q₁.walk d = q₁.walk w := walk_eq_of_walk (fun _ _ => lookup_extend_of_eq_some hzq) hqw
  have hclosed : Closed (Term.Below c) (s.extend z (.pair e d)) := by
    have hgrows : Grows (Term.Below c) s (s.extend z (.pair e d)) :=
      .bind .refl hz nofun nofun (Term.below_var.2 hzc) (Term.below_pair.2 ⟨h.below, hd⟩)
    exact hgrows.closed h.closed
  have hvalue : w ≠ .var z → q₁.walk w = some w := by
    intro hwz
    apply walk_of_isValue
    rintro k rfl
    rw [lookup_extend_of_ne fun hkz => hwz (congrArg _ hkz), isValue_of_walk hqw k rfl]
  by_cases hwz : w = .var z
  · -- `z` is found in the second half, so the equation leads to a cycle.
    subst hwz
    rw [walk_of_lookup (lookup_extend_self ..), walk_pair] at hwalk
    exact ⟨q₁, _, hq₁, .right hwalk hy nofun, fun hr => (not_acyclic_extend_pair hz hw hr).elim⟩
  · rw [hvalue hwz] at hwalk
    cases w with
    | var k =>
      have hkc : k.id < c := Term.below_var.1 hwc
      have hyk : (.var y : Term Var) ≠ .var k := fun hyk => h.ne hkc (Term.var.inj hyk)
      have hmirrors := h.mirrors_alias hzq hzc hqw (fun hkz => hwz (congrArg _ hkz)) hkc
      exact ⟨q₁, _, hq₁, .left hwalk hy hyk, hmirrors.reifiesLike hclosed⟩
    | atom | pair =>
      have hmirrors := h.mirrors_value hzq hzc hqw hwc
      exact ⟨q₁, _, hq₁, .right hwalk hy nofun, hmirrors.reifiesLike hclosed⟩

/-- An equation that has a result has one by way of the new variables, with the same reified terms. -/
theorem unifiesTo (h : Detour c s q e t y) (hd : d.Below c) (hv : v.Below c)
    (huv : s.UnifiesTo (.pair e d) v (some r)) :
    ∃ q₁ q₂, q.UnifiesTo (.pair t (.var y)) v (some q₁) ∧ q₁.UnifiesTo d (.var y) (some q₂) ∧
      ReifiesLike c r q₂ := by
  generalize ho : some r = o at huv
  cases huv with
  | same hu | left hu | atom hu => cases hu
  | right hu hwv =>
    cases hu
    cases ho
    exact h.of_var hd hv hwv
  | clash | first => cases ho
  | pair hu hwv hfirst hsecond =>
    cases hu
    obtain ⟨q₁, o', hq₁, hq₂, hrel⟩ := h.of_pair hd hv hwv hfirst hsecond
    cases ho
    cases hrel with
    | some hlike => exact ⟨q₁, _, hq₁, hq₂, hlike⟩

/-- An equation that clashes does so by way of the new variables, at the latest in the second half. -/
theorem clash (h : Detour c s q e t y) (hd : d.Below c) (hv : v.Below c)
    (huv : s.UnifiesTo (.pair e d) v none) :
    q.UnifiesTo (.pair t (.var y)) v none ∨
      ∃ q₁, q.UnifiesTo (.pair t (.var y)) v (some q₁) ∧ q₁.UnifiesTo d (.var y) none := by
  generalize ho : none = o at huv
  cases huv with
  | same hu | left hu | atom hu => cases hu
  | right => cases ho
  | @clash _ _ _ _ w hu hwv htw =>
    cases hu
    refine .inl (.clash (walk_pair ..) (h.agree.walk h.closed hv hwv) ?_)
    cases w with
    | atom => rfl
    | var | pair => cases htw
  | first hu hwv hfirst =>
    cases hu
    have ha := (Term.below_pair.1 (h.closed.below_of_walk hv hwv)).1
    obtain ⟨_, hfirst', hrel⟩ := hfirst.of_agreeBelow h.closed h.below ha h.agree
    cases hrel
    exact .inl (.first (walk_pair ..) (h.agree.walk h.closed hv hwv) (hfirst'.of_walk h.walk_left rfl))
  | pair hu hwv hfirst hsecond =>
    cases hu
    obtain ⟨q₁, o', hq₁, hq₂, hrel⟩ := h.of_pair hd hv hwv hfirst hsecond
    cases ho
    cases hrel
    exact .inr ⟨q₁, hq₁, hq₂⟩

end Detour

/-- A new variable stands for the first half, another one is left for the second half. -/
theorem Detour.of_new (hs : Closed (Term.Below c) s) (hc : s.ChainFree)
    (hnew : ∀ x : Var, c ≤ x.id → s.lookup x = none) (he : e.Below c) (hd : d.Below c)
    (hw : s.walk e = some w) :
    Detour c s ((s.extend ⟨c⟩ w).extend ⟨c + 1⟩ d) e (.var ⟨c⟩) ⟨c + 2⟩ := by
  have hwc : w.Below c := hs.below_of_walk he hw
  have hagree : AgreeBelow c s ((s.extend ⟨c⟩ w).extend ⟨c + 1⟩ d) :=
    ((AgreeBelow.refl c s).extend_new le_rfl w).extend_new (Nat.le_succ c) d
  have hfirst : ((s.extend ⟨c⟩ w).extend ⟨c + 1⟩ d).lookup ⟨c⟩ = some w := by
    rw [lookup_extend_of_ne (by simp), lookup_extend_self]
  refine ⟨hs, hc, hagree, fun {z t} hz hl => ?_, he, ?_, ?_, Nat.le_add_right c 2⟩
  · rw [lookup_extend, lookup_extend, hnew z hz] at hl
    grind
  · rw [walk_of_lookup hfirst, hw]
    exact hagree.walk hs hwc (walk_of_isValue (isValue_of_walk hw))
  · rw [lookup_extend_of_ne (by simp), lookup_extend_of_ne (by simp), hnew _ (Nat.le_add_right c 2)]

/-- A pair whose second half is no variable is taken apart by a pair of new variables. -/
theorem exists_detour (hs : Closed (Term.Below c) s) (hc : s.ChainFree)
    (hnew : ∀ x : Var, c ≤ x.id → s.lookup x = none) (hu : u.Below c)
    (hwu : s.walk u = some (.pair e d)) (hd : ∀ x, d ≠ .var x) :
    ∃ q, s.UnifiesTo (.pair (.var ⟨c⟩) (.var ⟨c + 1⟩)) u (some q) ∧ Detour c s q e (.var ⟨c⟩) ⟨c + 2⟩ ∧
      q.walk (.var ⟨c + 1⟩) = some d := by
  obtain ⟨he, hdc⟩ := Term.below_pair.1 (hs.below_of_walk hu hwu)
  obtain ⟨w, hw⟩ := Option.isSome_iff_exists.1 (hc.walk_isSome e)
  have hwc : w ≠ .var ⟨c⟩ := by
    rintro rfl
    exact Nat.lt_irrefl c (Term.below_var.1 (hs.below_of_walk he hw))
  have hfirst : s.UnifiesTo (.var ⟨c⟩) e (some (s.extend ⟨c⟩ w)) :=
    .left (walk_of_unbound (hnew _ le_rfl)) hw hwc
  have hunbound : (s.extend ⟨c⟩ w).lookup ⟨c + 1⟩ = none := by
    rw [lookup_extend_of_ne (by simp), hnew _ (Nat.le_succ c)]
  have hsecond : (s.extend ⟨c⟩ w).UnifiesTo (.var ⟨c + 1⟩) d (some ((s.extend ⟨c⟩ w).extend ⟨c + 1⟩ d)) :=
    .left (walk_of_unbound hunbound) (walk_of_ne_var hd) (hd _)
  refine ⟨_, .pair (walk_pair ..) hwu hfirst hsecond, .of_new hs hc hnew he hdc hw, ?_⟩
  rw [walk_of_lookup (lookup_extend_self ..), walk_of_ne_var hd]

end Subst

end Relational
