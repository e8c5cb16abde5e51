import Relational.Proofs.Search.Answers
import Relational.Proofs.Search.Equations
import Relational.Proofs.Search.Immediate
import Relational.Proofs.Subst.Detour

/-!
# The halves of a pair

That a term is the pair of two others can be said in one equation or in two, one for each half. The two
equations leave a new variable in the place of the half that they do not speak of, and their bindings
are others; but they fail where the one equation fails, and otherwise they lead to the same reified terms.
-/

namespace Relational

/-! ## Equations of pairs -/

namespace Subst.UnifiesTo

variable {s q : Subst} {u v a b d e : Term Var} {x : Var} {o : Option Subst}

/-- The equation of two pairs is one of their first halves and then one of their second halves. -/
theorem pair_cases (h : s.UnifiesTo u v o) (hu : s.walk u = some (.pair a d))
    (hv : s.walk v = some (.pair b e)) :
    s.UnifiesTo a b none ∨ ∃ r, s.UnifiesTo a b (some r) ∧ r.UnifiesTo d e o := by
  cases h with
  | same hu' | left hu' | atom hu' => cases hu.symm.trans hu'
  | right _ hv' => cases hv.symm.trans hv'
  | clash hu' hv' htw =>
    cases hu.symm.trans hu'
    cases hv.symm.trans hv'
    cases htw
  | first hu' hv' hab =>
    cases hu.symm.trans hu'
    cases hv.symm.trans hv'
    exact .inl hab
  | pair hu' hv' hab hde =>
    cases hu.symm.trans hu'
    cases hv.symm.trans hv'
    exact .inr ⟨_, hab, hde⟩

end Subst.UnifiesTo

namespace State.Valid

variable {s : State} {q r : Subst} {a b d e u : Term Var} {o : Option Subst}

/-! ## The second half -/

/-- When a term is a pair, the equation of its second half can be written with a new variable for the
first. -/
theorem second_half (hs : s.Valid) (hd : d.Below s.counter) (hu : u.Below s.counter)
    (hwu : s.subst.walk u = some (.pair b e)) (h : s.subst.UnifiesTo d e o) :
    ∃ o', s.subst.UnifiesTo (.pair (.var ⟨s.counter⟩) d) u o' ∧
      Option.Rel (Subst.ReifiesLike s.counter) o o' := by
  obtain ⟨hb, he⟩ := Term.below_pair.1 (hs.closed.below_of_walk hu hwu)
  obtain ⟨w, hwc, hfirst, -⟩ := hs.unifiesTo_new hb
  obtain ⟨o', ho', hrel⟩ := h.of_agreeBelow hs.closed hd he (agreeBelow_extend s w)
  refine ⟨o', .pair (Subst.walk_pair ..) hwu hfirst ho', ?_⟩
  cases hrel with
  | none => exact .none
  | some h₂ =>
    refine .some (Subst.Mirrors.reifiesLike (.of_agreeBelow h₂.1 fun {z t} hz hl => ?_)
      ((h.grows hs.closed hd he).closed hs.closed))
    rw [h₂.2 z hz] at hl
    exact hs.below_of_lookup_extend hwc hl

theorem exists_of_second_half (hs : s.Valid) (hd : d.Below s.counter) (hu : u.Below s.counter)
    (hwu : s.subst.walk u = some (.pair b e))
    (h : s.subst.UnifiesTo (.pair (.var ⟨s.counter⟩) d) u o) : ∃ o', s.subst.UnifiesTo d e o' := by
  obtain ⟨hb, he⟩ := Term.below_pair.1 (hs.closed.below_of_walk hu hwu)
  obtain ⟨w, -, hfirst, -⟩ := hs.unifiesTo_new hb
  rcases h.pair_cases (Subst.walk_pair ..) hwu with hnone | ⟨r, hr, hsecond⟩
  · cases hfirst.unique hnone
  · obtain rfl := Option.some.inj (hfirst.unique hr)
    have hagree := agreeBelow_extend s w
    obtain ⟨o', ho', -⟩ := hsecond.of_agreeBelow (hagree.closed hs.closed) hd he hagree.symm
    exact ⟨o', ho'⟩

/-! ## The first half -/

theorem first_half (hs : s.Valid) (ha : a.Below s.counter) (hu : u.Below s.counter)
    (h : s.subst.UnifiesTo (.pair a (.var ⟨s.counter⟩)) u (some q)) : (State.mk q (s.counter + 1)).Valid :=
  hs.freshVar.unify h
    (Term.below_pair.2 ⟨ha.mono (Nat.le_succ _), Term.below_var.2 (Nat.lt_succ_self _)⟩)
    (hu.mono (Nat.le_succ _))

/-- The first equation makes the term a pair, whose second half has the value of the new variable. -/
theorem exists_pair_of_first_half (hs : s.Valid) (ha : a.Below s.counter) (hu : u.Below s.counter)
    (h : s.subst.UnifiesTo (.pair a (.var ⟨s.counter⟩)) u (some q)) :
    ∃ b e, q.walk u = some (.pair b e) ∧ q.walk e = q.walk (.var ⟨s.counter⟩) := by
  have hgrows (y : Var) (t : Term Var) (hy : s.subst.lookup y = some t) : q.lookup y = some t :=
    h.grows_univ.lookup_eq_some hy
  obtain ⟨w, hw⟩ := Option.isSome_iff_exists.1 (hs.chainFree.walk_isSome u)
  have hwalk : q.walk u = q.walk w := Subst.walk_eq_of_walk hgrows hw
  cases w with
  | atom =>
    cases h.unique (.clash (Subst.walk_pair ..) hw rfl)
  | var z =>
    obtain rfl := Option.some.inj (h.unique (.right (Subst.walk_pair ..) hw nofun))
    refine ⟨a, .var ⟨s.counter⟩, ?_, rfl⟩
    rw [hwalk, Subst.walk_of_lookup (Subst.lookup_extend_self ..), Subst.walk_pair]
  | pair b e =>
    refine ⟨b, e, hwalk, ?_⟩
    obtain ⟨hb, he⟩ := Term.below_pair.1 (hs.closed.below_of_walk hu hw)
    rcases h.pair_cases (Subst.walk_pair ..) hw with hnone | ⟨r, hfirst, hnew⟩
    · cases h.unique (.first (Subst.walk_pair ..) hw hnone)
    · have hr : (s.withSubst r).Valid := hs.unify hfirst ha hb
      obtain ⟨w, -, hnew', hwalk'⟩ := hr.unifiesTo_new he
      obtain rfl := Option.some.inj (hnew.unique hnew')
      exact hwalk'

/-- When both equations of the halves end, the one equation does. -/
theorem exists_of_halves (hs : s.Valid) (ha : a.Below s.counter) (hd : d.Below s.counter)
    (hu : u.Below s.counter) (h : s.subst.UnifiesTo (.pair a (.var ⟨s.counter⟩)) u (some q))
    (h' : q.UnifiesTo (.pair (.var ⟨s.counter + 1⟩) d) u o) : ∃ o', s.subst.UnifiesTo (.pair a d) u o' := by
  obtain ⟨w, hw⟩ := Option.isSome_iff_exists.1 (hs.chainFree.walk_isSome u)
  cases w with
  | atom => exact ⟨none, .clash (Subst.walk_pair ..) hw rfl⟩
  | var z => exact ⟨_, .right (Subst.walk_pair ..) hw nofun⟩
  | pair b e =>
    obtain ⟨hb, he⟩ := Term.below_pair.1 (hs.closed.below_of_walk hu hw)
    rcases h.pair_cases (Subst.walk_pair ..) hw with hnone | ⟨r, hfirst, hnew⟩
    · exact ⟨none, .first (Subst.walk_pair ..) hw hnone⟩
    · have hr : (s.withSubst r).Valid := hs.unify hfirst ha hb
      have hwalk : q.walk u = some (.pair b e) :=
        Subst.walk_eq_of_walk (fun _ _ => h.grows_univ.lookup_eq_some) hw
      obtain ⟨o', hsecond⟩ :=
        (hs.first_half ha hu h).exists_of_second_half (hd.mono (Nat.le_succ _)) (hu.mono (Nat.le_succ _)) hwalk h'
      -- The new variable is the only difference between `r` and `q`.
      have hagree : Subst.AgreeBelow s.counter r q := by
        obtain ⟨w, -, hnew', -⟩ := hr.unifiesTo_new he
        obtain rfl := Option.some.inj (hnew.unique hnew')
        exact agreeBelow_extend (s.withSubst r) w
      obtain ⟨o'', ho'', -⟩ := hsecond.of_agreeBelow (hagree.closed hr.closed) hd he hagree.symm
      exact ⟨o'', .pair (Subst.walk_pair ..) hw hfirst ho''⟩

/-! ## Both halves -/

theorem detour (hs : s.Valid) (ha : a.Below s.counter) :
    Subst.Detour s.counter s.subst s.subst a a ⟨s.counter⟩ where
  closed := hs.closed
  chainFree := hs.chainFree
  agree := .refl _ _
  new _ hl := hs.below hl
  below := ha
  walk_eq := rfl
  unbound := hs.unbound le_rfl
  le := le_rfl

/-- What the second half has to be under the first equation can be said with a new variable for the first
half. -/
theorem second_half_of_var (hs : s.Valid) (ha : a.Below s.counter) (hd : d.Below s.counter)
    (hu : u.Below s.counter) (h : s.subst.UnifiesTo (.pair a (.var ⟨s.counter⟩)) u (some q))
    (h' : q.UnifiesTo d (.var ⟨s.counter⟩) o) :
    ∃ o', q.UnifiesTo (.pair (.var ⟨s.counter + 1⟩) d) u o' ∧
      Option.Rel (Subst.ReifiesLike (s.counter + 1)) o o' := by
  obtain ⟨b, e, hpair, hwalk⟩ := hs.exists_pair_of_first_half ha hu h
  exact (hs.first_half ha hu h).second_half (hd.mono (Nat.le_succ _)) (hu.mono (Nat.le_succ _)) hpair
    (h'.of_walk rfl hwalk)

theorem halves_of_ok (hs : s.Valid) (ha : a.Below s.counter) (hd : d.Below s.counter)
    (hu : u.Below s.counter) (h : s.subst.UnifiesTo (.pair a d) u (some r)) :
    ∃ q₁ q₂, s.subst.UnifiesTo (.pair a (.var ⟨s.counter⟩)) u (some q₁) ∧
      q₁.UnifiesTo (.pair (.var ⟨s.counter + 1⟩) d) u (some q₂) ∧
      Subst.ReifiesLike s.counter r q₂ := by
  obtain ⟨q₁, q₂, h₁, h₂, hlike⟩ := (hs.detour ha).unifiesTo hd hu h
  obtain ⟨_, h₂', hrel⟩ := hs.second_half_of_var ha hd hu h₁ h₂
  cases hrel with
  | some hlike' => exact ⟨q₁, _, h₁, h₂', hlike.trans (Nat.le_succ _) hlike'⟩

theorem halves_of_clash (hs : s.Valid) (ha : a.Below s.counter) (hd : d.Below s.counter)
    (hu : u.Below s.counter) (h : s.subst.UnifiesTo (.pair a d) u none) :
    s.subst.UnifiesTo (.pair a (.var ⟨s.counter⟩)) u none ∨
      ∃ q, s.subst.UnifiesTo (.pair a (.var ⟨s.counter⟩)) u (some q) ∧
        q.UnifiesTo (.pair (.var ⟨s.counter + 1⟩) d) u none := by
  rcases (hs.detour ha).clash hd hu h with h₁ | ⟨q, h₁, h₂⟩
  · exact .inl h₁
  · obtain ⟨_, h₂', hrel⟩ := hs.second_half_of_var ha hd hu h₁ h₂
    cases hrel
    exact .inr ⟨q, h₁, h₂'⟩

end State.Valid

/-! ## Goals on both halves -/

theorem State.unify_ne_endless_iff {s : State} {u v : Term Var} :
    s.unify u v ≠ .error .endless ↔ ∃ o, s.subst.UnifiesTo u v o := by
  rw [← Subst.unify_ne_endless_iff, State.unify]
  cases s.subst.unify u v <;> simp [Except.map]

namespace Goal

variable {ρ : Type} {p : Program ρ} {s : State} {q : Subst} {a d u : Expr} {env : List (Term Var)}
  {o : Option Subst}

theorem applyIn_halves (p : Program ρ)
    (h : s.subst.UnifiesTo (.pair (a.eval env) (.var ⟨s.counter⟩)) (u.eval env) (some q))
    (h' : q.UnifiesTo (.pair (.var ⟨s.counter + 1⟩) (d.eval env)) (u.eval env) o) :
    (conj (car u a) (cdr u d)).applyIn p env s = .ofList (o.toList.map fun r => ⟨r, s.counter + 2⟩) := by
  rw [applyIn, applyIn_car, State.equate_ok _ h, Stream.single_bind, applyIn_cdr]
  cases o with
  | none =>
    rw [State.equate_clash _ h']
    rfl
  | some r =>
    rw [State.equate_ok _ h']
    rfl

theorem applyIn_halves_of_clash (p : Program ρ) (d : Expr)
    (h : s.subst.UnifiesTo (.pair (a.eval env) (.var ⟨s.counter⟩)) (u.eval env) none) :
    (conj (car u a) (cdr u d)).applyIn p env s = .empty := by
  rw [applyIn, applyIn_car, State.equate_clash _ h]
  rfl

theorem settles_car : (car u a : Goal ρ).Settles env s ↔
    ∃ o, s.subst.UnifiesTo (.pair (a.eval env) (.var ⟨s.counter⟩)) (u.eval env) o := by
  rw [← Expr.eval_weaken [.var ⟨s.counter⟩] env a, ← Expr.eval_weaken [.var ⟨s.counter⟩] env u]
  exact State.unify_ne_endless_iff

theorem settles_cdr : (cdr u d : Goal ρ).Settles env s ↔
    ∃ o, s.subst.UnifiesTo (.pair (.var ⟨s.counter⟩) (d.eval env)) (u.eval env) o := by
  rw [← Expr.eval_weaken [.var ⟨s.counter⟩] env d, ← Expr.eval_weaken [.var ⟨s.counter⟩] env u]
  exact State.unify_ne_endless_iff

theorem results_eq_of_unifiesTo {u v : Expr} (h : s.subst.UnifiesTo (u.eval env) (v.eval env) (some q)) :
    (Goal.eq u v : Goal ρ).results env s = [s.withSubst q] := by
  rw [results, State.unify_of_unifiesTo h]

theorem mem_results_car
    (h : s.subst.UnifiesTo (.pair (a.eval env) (.var ⟨s.counter⟩)) (u.eval env) (some q)) :
    ⟨q, s.counter + 1⟩ ∈ (car u a : Goal ρ).results env s := by
  rw [← Expr.eval_weaken [.var ⟨s.counter⟩] env a, ← Expr.eval_weaken [.var ⟨s.counter⟩] env u] at h
  have hresults : (car u a : Goal ρ).results env s = [s.freshVar.2.withSubst q] :=
    results_eq_of_unifiesTo (ρ := ρ) h
  rw [hresults]
  exact List.mem_singleton_self _

/-- The equation of a pair and the two goals on its halves have the same answers. -/
theorem conj_car_cdr (p : Program ρ) (a d u : Expr) (env : List (Term Var)) (hs : s.Valid)
    (ha : (a.eval env).Below s.counter) (hd : (d.eval env).Below s.counter)
    (hu : (u.eval env).Below s.counter) :
    (∀ n, ∀ r ∈ ((cons a d u).applyIn p env s).delivered (Job.run p) n, r.subst.Acyclic →
      ∃ q, (conj (car u a) (cdr u d)).applyIn p env s = .single q ∧
        ∀ t : Term Var, t.Below s.counter → ∃ w, r.reify t = some w ∧ q.reify t = some w) ∧
    ((∀ n, ((cons a d u).applyIn p env s).delivered (Job.run p) n = []) →
      (conj (car u a) (cdr u d) : Goal ρ).Settles env s →
      (conj (car u a) (cdr u d)).applyIn p env s = .empty) := by
  constructor
  · intro n r hr hacyclic
    obtain ⟨derivation⟩ := mem_delivered_iff.1 ⟨n, hr⟩
    obtain ⟨r, hunify, rfl⟩ : ∃ q, s.subst.UnifiesTo (.pair (a.eval env) (d.eval env)) (u.eval env) (some q) ∧
        r = s.withSubst q := by
      cases derivation with
      | eq h => exact State.unify_eq_ok h
    obtain ⟨q₁, q₂, h₁, h₂, hlike⟩ := hs.halves_of_ok ha hd hu hunify
    refine ⟨⟨q₂, s.counter + 2⟩, applyIn_halves p h₁ h₂, fun t ht => ?_⟩
    obtain ⟨w, hw⟩ := hacyclic.exists_resolvesTo t
    have hreify := Subst.reify_of_resolvesTo hw
    exact ⟨_, hreify, ((hlike hacyclic).2 t ht).trans hreify⟩
  · rintro hnone ⟨hcar, hcdr⟩
    obtain ⟨o₁, h₁⟩ := settles_car.1 hcar
    cases o₁ with
    | none => exact applyIn_halves_of_clash p d h₁
    | some q =>
      obtain ⟨o₂, h₂⟩ := settles_cdr.1 (hcdr _ (mem_results_car h₁))
      obtain ⟨o, ho⟩ := hs.exists_of_halves ha hd hu h₁ h₂
      cases o with
      | some r =>
        have hanswer : (cons a d u).applyIn p env s = .single (s.withSubst r) := State.equate_ok s.counter ho
        have hdelivered := hnone 1
        rw [hanswer] at hdelivered
        cases hdelivered
      | none =>
        rcases hs.halves_of_clash ha hd hu ho with h | ⟨q, h, h'⟩
        · exact applyIn_halves_of_clash p d h
        · exact applyIn_halves p h h'

/-- The halves of an open variable are two variables that stand for one another. -/
theorem conj_car_cdr_alias :
    let s : State := ⟨Subst.empty.extend ⟨1⟩ (.var ⟨0⟩), 3⟩
    let a : Expr := .var (.free ⟨1⟩)
    let d : Expr := .var (.free ⟨0⟩)
    let u : Expr := .var (.free ⟨2⟩)
    s.Valid ∧ ∃ q, (conj (car u a) (cdr u d) : Goal Empty).apply nofun s = .single q ∧
      q.reify (.var ⟨2⟩) = some (.pair (.reified 0) (.reified 0)) := by
  intro s a d u
  have hs : s.Valid := .of_alias (by decide) (by decide) (by decide)
  have hbelow (i : Nat) (hi : i < 3) : (Expr.eval [] (.var (.free ⟨i⟩))).Below s.counter := Term.below_var.2 hi
  let r := s.withSubst (s.subst.extend ⟨2⟩ (.pair (.var ⟨1⟩) (.var ⟨0⟩)))
  have hr : r ∈ ((cons a d u : Goal Empty).applyIn nofun [] s).delivered (Job.run nofun) 1 := by
    have hunify : s.subst.UnifiesTo (.pair (.var ⟨1⟩) (.var ⟨0⟩)) (.var ⟨2⟩) (some r.subst) :=
      .right (Subst.walk_pair ..) (Subst.walk_of_unbound rfl) nofun
    have hanswer : (cons a d u : Goal Empty).applyIn nofun [] s = .single r := State.equate_ok 3 hunify
    rw [hanswer]
    exact List.mem_singleton_self r
  have hacyclic : r.subst.Acyclic := by
    have hsubst : s.subst.Acyclic := Subst.acyclic_alias (by decide)
    exact (Subst.acyclic_extend_iff hsubst rfl (.pair (.bound rfl (.unbound rfl)) (.unbound rfl))).2 (by decide)
  obtain ⟨q, hq, hreify⟩ := (conj_car_cdr (ρ := Empty) nofun a d u [] hs (hbelow 1 (by decide))
    (hbelow 0 (by decide)) (hbelow 2 (by decide))).1 1 r hr hacyclic
  obtain ⟨w, hrw, hqw⟩ := hreify (.var ⟨2⟩) (Term.below_var.2 (by decide))
  exact ⟨hs, q, hq, hqw.trans (hrw.symm.trans rfl)⟩

end Goal

end Relational
