import Relational.Proofs.Search.Equations
import Relational.Proofs.Stream.Blocks
import Relational.Proofs.Subst.Detour

/-!
# Appending to a known list

When the items of a list are known, only one of the two ways to append to it can be gone at every item. The
search pauses once for each item at most, and in the end it has done what unifying the whole list with the
result does, by way of three new variables for each item.
-/

namespace Relational

/-! ## Streams with an end -/

namespace Stream

variable {κ α : Type} {run : κ → Stream κ α} {xs : List α} {m n : Nat}

/-- The stream delivers the items `xs` and ends after at most `n` pauses. -/
def Yields (run : κ → Stream κ α) (n : Nat) (xs : List α) (s : Stream κ α) : Prop :=
  ∃ k ≤ n, s.EndsIn run k ∧ s.delivered run (k + 1) = xs

theorem yields_empty (n : Nat) : (empty : Stream κ α).Yields run n [] :=
  ⟨0, n.zero_le, endsIn_zero.2 rfl, rfl⟩

theorem yields_single (n : Nat) (x : α) : (single x : Stream κ α).Yields run n [x] :=
  ⟨0, n.zero_le, endsIn_zero.2 rfl, rfl⟩

theorem Yields.suspended {work : Work κ α} (h : (work.resume run).Yields run n xs) :
    (suspended work).Yields run (n + 1) xs := by
  obtain ⟨k, hk, hends, hxs⟩ := h
  refine ⟨k + 1, Nat.succ_le_succ hk, endsIn_suspended.2 ⟨k, rfl, hends⟩, ?_⟩
  rw [delivered_suspended, hxs]

end Stream

variable {ρ : Type} {p : Program ρ} {s : State} {q : Subst} {u v e d : Term Var} {es : List (Term Var)}
  {l t out : Expr} {env : List (Term Var)}

/-! ## One item -/

namespace Goal

/-- What is left to do behind the first item. The second new variable stands for the rest of the list and the
third one for the rest of the result. -/
def appendRest (p : Program ρ) (t : Term Var) (c : Nat) (s : State) : Job ρ :=
  ⟨p.body .append, [.var ⟨c + 1⟩, t, .var ⟨c + 2⟩], s⟩

theorem applyIn_append (p : Program ρ) (l t out : Expr) (env : List (Term Var)) (s : State) :
    (append l t out).applyIn p env s =
      ((s.equate .nil (l.eval env)).bind fun s => s.equate (t.eval env) (out.eval env)).merge
        ((State.equate ⟨s.subst, s.counter + 3⟩ (.pair (.var ⟨s.counter⟩) (.var ⟨s.counter + 1⟩))
          (l.eval env)).bind fun r =>
            (r.equate (.pair (.var ⟨s.counter⟩) (.var ⟨s.counter + 2⟩)) (out.eval env)).bind fun r =>
              (appendRest p (t.eval env) s.counter r).wait) := by
  have heval (e : Expr) (x y z : Term Var) : (e.weaken 3).eval (x :: y :: z :: env) = e.eval env :=
    Expr.eval_weaken [x, y, z] env e
  rw [append, applyIn, applyIn]
  congr 1
  simp only [freshN, conjAll, cons, applyIn, State.freshVar, heval, List.map]
  rfl

theorem applyIn_append_nil (p : Program ρ) (t out : Expr)
    (hl : s.subst.walk (l.eval env) = some .nil) :
    (append l t out).applyIn p env s =
      ((s.equate (t.eval env) (out.eval env)).merge .empty).merge .empty := by
  have hbase : s.subst.UnifiesTo .nil (l.eval env) (some s.subst) := .atom (Subst.walk_atom ..) hl rfl
  have hstep : s.subst.UnifiesTo (.pair (.var ⟨s.counter⟩) (.var ⟨s.counter + 1⟩)) (l.eval env) none :=
    .clash (Subst.walk_pair ..) hl rfl
  rw [applyIn_append, State.equate_ok _ hbase, State.equate_clash _ hstep]
  rfl

theorem applyIn_append_cons (p : Program ρ) (t out : Expr) (hs : s.Valid)
    (hlc : (l.eval env).Below s.counter) (hl : s.subst.walk (l.eval env) = some (.pair e d))
    (hd : ∀ x, d ≠ .var x) :
    ∃ q : Subst, (State.mk q (s.counter + 3)).Valid ∧ q.walk (.var ⟨s.counter + 1⟩) = some d ∧
      Subst.Detour s.counter s.subst q e (.var ⟨s.counter⟩) ⟨s.counter + 2⟩ ∧
      (append l t out).applyIn p env s =
        ((State.equate ⟨q, s.counter + 3⟩ (.pair (.var ⟨s.counter⟩) (.var ⟨s.counter + 2⟩))
          (out.eval env)).bind fun r => (appendRest p (t.eval env) s.counter r).wait).merge .empty := by
  obtain ⟨q, hq, hdetour, hwalk⟩ := Subst.exists_detour hs.closed hs.chainFree (fun _ => hs.unbound) hlc hl hd
  have hs' : (State.mk s.subst (s.counter + 3)).Valid := hs.freshVar.freshVar.freshVar
  have hvalid := hs'.unify hq (by simp) (hlc.mono (Nat.le_add_right _ 3))
  have hbase : s.subst.UnifiesTo .nil (l.eval env) none := .clash (Subst.walk_atom ..) hl rfl
  refine ⟨q, hvalid, hwalk, hdetour, ?_⟩
  rw [applyIn_append, State.equate_clash _ hbase, State.equate_ok _ hq]
  rfl

/-! ## All items -/

/-- The search for the end of a known list does what one unification does. -/
theorem yields_append (p : Program ρ) (l t out : Expr) (env : List (Term Var)) {o : Option Subst}
    (hs : s.Valid) (hl : s.subst.walk (l.eval env) = some (.list es))
    (hlc : (l.eval env).Below s.counter) (ht : (t.eval env).Below s.counter)
    (hout : (out.eval env).Below s.counter)
    (h : s.subst.UnifiesTo (.dotted es (t.eval env)) (out.eval env) o) :
    ∃ qs : List State, List.Forall₂ (fun r q => Subst.ReifiesLike s.counter r q.subst) o.toList qs ∧
      ((append l t out).applyIn p env s).Yields (Job.run p) es.length qs := by
  induction es generalizing l t out env s o with
  | nil =>
    rw [Term.dotted_nil] at h
    rw [applyIn_append_nil p t out hl]
    cases o with
    | none =>
      rw [State.equate_clash _ h]
      exact ⟨[], .nil, Stream.yields_empty 0⟩
    | some r =>
      rw [State.equate_ok _ h]
      exact ⟨[s.withSubst r], .cons (.refl _ _) .nil, Stream.yields_single 0 _⟩
  | cons e es ih =>
    obtain ⟨q, hq, hwalk, hdetour, hrun⟩ := applyIn_append_cons p t out hs hlc hl (Term.list_ne_var es)
    have hitems := Term.below_pair.1 (hs.closed.below_of_walk hlc hl)
    have hrest : (Term.dotted es (t.eval env)).Below s.counter :=
      Term.below_dotted.2 ⟨(Term.below_dotted.1 hitems.2).1, ht⟩
    -- The search goes on from what the first item has led to.
    have hstep {q₁ : Subst} {o' : Option Subst}
        (h₁ : q.UnifiesTo (.pair (.var ⟨s.counter⟩) (.var ⟨s.counter + 2⟩)) (out.eval env) (some q₁))
        (h₂ : q₁.UnifiesTo (.dotted es (t.eval env)) (.var ⟨s.counter + 2⟩) o') :
        ∃ qs : List State,
          List.Forall₂ (fun r q => Subst.ReifiesLike (s.counter + 3) r q.subst) o'.toList qs ∧
          ((append l t out).applyIn p env s).Yields (Job.run p) (es.length + 1) qs := by
      have hwalk₁ : q₁.walk (.var ⟨s.counter + 1⟩) = some (.list es) := by
        rw [Subst.walk_eq_of_walk (fun _ _ => h₁.grows_univ.lookup_eq_some) hwalk]
        exact Subst.walk_of_ne_var (Term.list_ne_var es)
      have hvalid : (State.mk q₁ (s.counter + 3)).Valid :=
        hq.unify h₁ (by simp) (hout.mono (Nat.le_add_right _ 3))
      obtain ⟨qs, hlike, hyields⟩ := ih (.bound 0) (.bound 1) (.bound 2)
        [.var ⟨s.counter + 1⟩, t.eval env, .var ⟨s.counter + 2⟩] hvalid hwalk₁
        (Term.below_var.2 (by simp)) (ht.mono (Nat.le_add_right _ 3)) (Term.below_var.2 (by simp)) h₂
      refine ⟨qs, hlike, ?_⟩
      rw [hrun, State.equate_ok _ h₁]
      exact Stream.Yields.suspended hyields
    cases o with
    | some r =>
      obtain ⟨q₁, q₂, h₁, h₂, hlike⟩ := hdetour.unifiesTo hrest hout h
      obtain ⟨qs, hqs, hyields⟩ := hstep h₁ h₂
      cases hqs with
      | cons hlike' hnil =>
        cases hnil
        exact ⟨_, .cons (hlike.trans (Nat.le_add_right _ 3) hlike') .nil, hyields⟩
    | none =>
      rcases hdetour.clash hrest hout h with h₁ | ⟨q₁, h₁, h₂⟩
      · rw [hrun, State.equate_clash _ h₁]
        exact ⟨[], .nil, Stream.yields_empty _⟩
      · obtain ⟨qs, hqs, hyields⟩ := hstep h₁ h₂
        cases hqs
        exact ⟨[], .nil, hyields⟩

/-- Appending to a known list is one unification. Where unifying the whole list with `out` clashes, nothing is
delivered; where it has a result, there is one answer, and unless the result has a cycle, the answer reifies
every term over the variables of the state to the same term. The search ends after at most one pause for
each item. -/
theorem append_list (p : Program ρ) (l t out : Expr) (env : List (Term Var)) (hs : s.Valid)
    (hl : l.eval env = .list es)
    (hes : ∀ e ∈ es, e.Below s.counter) (ht : (t.eval env).Below s.counter)
    (hout : (out.eval env).Below s.counter) :
    (s.subst.unify (.dotted es (t.eval env)) (out.eval env) = .error .clash →
      ∃ k ≤ es.length, ((append l t out).applyIn p env s).EndsIn (Job.run p) k ∧
        ((append l t out).applyIn p env s).delivered (Job.run p) (k + 1) = []) ∧
    ∀ r, s.subst.unify (.dotted es (t.eval env)) (out.eval env) = .ok r →
      ∃ k ≤ es.length, ∃ q, ((append l t out).applyIn p env s).EndsIn (Job.run p) k ∧
        ((append l t out).applyIn p env s).delivered (Job.run p) (k + 1) = [q] ∧
        (r.Acyclic → ∀ u : Term Var, u.Below s.counter →
          ∃ w, r.reify u = some w ∧ q.subst.reify u = some w) := by
  have hwalk : s.subst.walk (l.eval env) = some (.list es) := by
    rw [hl, Subst.walk_of_ne_var (Term.list_ne_var es)]
  have hlc : (l.eval env).Below s.counter := by
    rw [hl]
    exact Term.below_dotted.2 ⟨hes, Term.below_atom⟩
  constructor
  · intro hclash
    obtain ⟨qs, hqs, hyields⟩ :=
      yields_append p l t out env hs hwalk hlc ht hout (Subst.unify_eq_clash_iff.1 hclash)
    cases hqs
    exact hyields
  · intro r hr
    obtain ⟨qs, hqs, k, hk, hends, hdelivered⟩ :=
      yields_append p l t out env hs hwalk hlc ht hout (Subst.unify_eq_ok_iff.1 hr)
    cases hqs with
    | @cons _ q _ _ hlike hnil =>
      cases hnil
      refine ⟨k, hk, q, hends, hdelivered, fun hacyclic u hu => ?_⟩
      obtain ⟨w, hw⟩ := hacyclic.exists_resolvesTo u
      have hreify := Subst.reify_of_resolvesTo hw
      exact ⟨_, hreify, ((hlike hacyclic).2 u hu).trans hreify⟩

/-- The first item and the tail stand for one open variable. -/
theorem append_list_alias :
    let s : State := ⟨Subst.empty.extend ⟨1⟩ (.var ⟨0⟩), 3⟩
    let g : Goal Empty := append (.list [.var (.free ⟨1⟩), .int 5]) (.var (.free ⟨0⟩)) (.var (.free ⟨2⟩))
    s.Valid ∧ ∃ k ≤ 2, ∃ q, (g.apply nofun s).EndsIn (Job.run nofun) k ∧
      (g.apply nofun s).delivered (Job.run nofun) (k + 1) = [q] ∧
      q.subst.reify (.var ⟨2⟩) = some (.pair (.reified 0) (.pair (.int 5) (.reified 0))) := by
  intro s g
  have hs : s.Valid := .of_alias (by decide) (by decide) (by decide)
  let r := s.subst.extend ⟨2⟩ (.dotted [.var ⟨1⟩, .int 5] (.var ⟨0⟩))
  have hr : s.subst.unify (.dotted [.var ⟨1⟩, .int 5] (.var ⟨0⟩)) (.var ⟨2⟩) = .ok r :=
    Subst.unify_eq_ok_iff.2 (Subst.unifiesTo_of_unifyWithin (n := 1) rfl)
  have hacyclic : r.Acyclic := by
    have hsubst : s.subst.Acyclic := Subst.acyclic_alias (by decide)
    have hresolves : s.subst.ResolvesTo (.dotted [.var ⟨1⟩, .int 5] (.var ⟨0⟩))
        (.dotted [.var ⟨0⟩, .int 5] (.var ⟨0⟩)) :=
      .pair (.bound rfl (.unbound rfl)) (.pair .atom (.unbound rfl))
    exact (Subst.acyclic_extend_iff hsubst rfl hresolves).2 (by decide)
  have hes : ∀ e ∈ [Term.var ⟨1⟩, .int 5], e.Below s.counter := by simp [s, Term.int]
  obtain ⟨-, hok⟩ := append_list (ρ := Empty) nofun (.list [.var (.free ⟨1⟩), .int 5]) (.var (.free ⟨0⟩))
    (.var (.free ⟨2⟩)) [] hs rfl hes (Term.below_var.2 (by decide)) (Term.below_var.2 (by decide))
  obtain ⟨k, hk, q, hends, hdelivered, hreify⟩ := hok r hr
  obtain ⟨w, hrw, hqw⟩ := hreify hacyclic (.var ⟨2⟩) (Term.below_var.2 (by decide))
  exact ⟨hs, k, hk, q, hends, hdelivered, hqw.trans (hrw.symm.trans rfl)⟩

end Goal

end Relational
