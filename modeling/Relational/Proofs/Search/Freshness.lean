import Relational.Proofs.Search.Branch
import Relational.Proofs.Search.Validity
import Relational.Proofs.Subst.Twins

/-!
# New variables are new

On every branch of a search the counter stays ahead of whatever the branch knows: the bindings of its
state, the goals that it has still to run, and the variables that it has made. A new variable has the number
of the counter, so it is none of these.
-/

namespace Relational

open Relation (ReflTransGen)

variable {ρ : Type} {p : Program ρ} {g : Goal ρ} {s : State} {c k : Nat} {x : Var}

/-! ## Orderly states -/

/-- All variables of the bindings, bound ones and those of the terms, have numbers below the counter. -/
def State.WellScoped (s : State) : Prop :=
  ∀ b ∈ s.subst.bindings, b.1.id < s.counter ∧ b.2.Below s.counter

/-- A state is well scoped, binds no variable twice and has no loop of variables bound to variables. -/
structure State.Orderly (s : State) : Prop where
  wellScoped : s.WellScoped
  nodup : (s.subst.bindings.map Prod.fst).Nodup
  chainFree : s.subst.ChainFree

theorem State.ne_freshVar (h : x.id < s.counter) : x ≠ s.freshVar.1 := by
  rintro rfl
  exact Nat.lt_irrefl _ h

theorem State.WellScoped.freshVar_not_mem (h : s.WellScoped) :
    ∀ b ∈ s.subst.bindings, b.1 ≠ s.freshVar.1 ∧ s.freshVar.1 ∉ b.2.vars := by
  intro b hb
  obtain ⟨hkey, hterm⟩ := h b hb
  exact ⟨State.ne_freshVar hkey, fun hx => State.ne_freshVar (hterm _ hx) rfl⟩

namespace State.Orderly

theorem valid (h : s.Orderly) : s.Valid where
  key_lt hx := (h.wellScoped _ (Subst.mem_of_lookup hx)).1
  below ht := (h.wellScoped _ (Subst.mem_of_lookup ht)).2
  chainFree := h.chainFree

theorem freshVar (h : s.Orderly) : s.freshVar.2.Orderly where
  wellScoped b hb := by
    obtain ⟨hkey, hterm⟩ := h.wellScoped b hb
    exact ⟨hkey.trans (Nat.lt_succ_self _), hterm.mono (Nat.le_succ _)⟩
  nodup := h.nodup
  chainFree := h.chainFree

theorem grows (h : s.Orderly) {q : Subst} (hq : Subst.Grows (Term.Below s.counter) s.subst q) :
    (s.withSubst q).Orderly where
  wellScoped b hb := by
    rcases hq.mem_bindings hb with hb | ⟨hkey, hterm⟩
    · exact h.wellScoped b hb
    · exact ⟨hkey b.1 (by simp [Term.vars]), hterm⟩
  nodup := hq.nodup_keys h.nodup
  chainFree := hq.chainFree h.chainFree

end State.Orderly

/-! ## Orderly branches -/

/-- The variable occurs in the goal, in what it calls, or in the terms of its bound places. -/
def Task.Mentions (p : Program ρ) (x : Var) (task : Task ρ) : Prop :=
  task.goal.Mentions p x ∨ ∃ t ∈ task.env, x ∈ t.vars

/-- All variables of the task have numbers below `c`. -/
structure Task.Below (p : Program ρ) (c : Nat) (task : Task ρ) : Prop where
  goal : task.goal.Below p c
  env : ∀ t ∈ task.env, t.Below c

theorem Task.Below.mono {task : Task ρ} (h : task.Below p c) (hck : c ≤ k) : task.Below p k :=
  ⟨h.goal.mono hck, fun t ht => (h.env t ht).mono hck⟩

theorem Task.Below.lt_of_mentions {task : Task ρ} (h : task.Below p c) (hx : task.Mentions p x) :
    x.id < c := by
  rcases hx with hx | ⟨t, ht, hx⟩
  · exact h.goal x hx
  · exact h.env t ht x hx

/-- The counter is ahead of the state, of everything still to be run and of all variables made. -/
structure Branch.Orderly (p : Program ρ) (b : Branch ρ) : Prop where
  state : b.state.Orderly
  todo : ∀ task ∈ b.todo, task.Below p b.state.counter
  made : ∀ x ∈ b.made, x.id < b.state.counter

namespace Branch.Orderly

variable {b b' : Branch ρ} {task : Task ρ} {rest : List (Task ρ)} {made : List Var}

theorem start (hs : s.Orderly) (hg : g.Below p s.counter) : (Branch.start g s).Orderly p :=
  ⟨hs, List.forall_mem_singleton.2 ⟨hg, nofun⟩, nofun⟩

theorem head (h : Orderly p ⟨task :: rest, s, made⟩) : task.Below p s.counter :=
  h.todo task (List.mem_cons_self ..)

theorem tail (h : Orderly p ⟨task :: rest, s, made⟩) : Orderly p ⟨rest, s, made⟩ :=
  ⟨h.state, fun task ht => h.todo task (List.mem_cons_of_mem _ ht), h.made⟩

theorem push (h : Orderly p ⟨rest, s, made⟩) (ht : task.Below p s.counter) :
    Orderly p ⟨task :: rest, s, made⟩ :=
  ⟨h.state, List.forall_mem_cons.2 ⟨ht, h.todo⟩, h.made⟩

/-- The new variable has the old counter for its number, and the counter is one ahead of it afterwards. -/
theorem freshVar (h : Orderly p ⟨rest, s, made⟩) :
    Orderly p ⟨rest, s.freshVar.2, s.freshVar.1 :: made⟩ where
  state := h.state.freshVar
  todo task ht := (h.todo task ht).mono (Nat.le_succ _)
  made := List.forall_mem_cons.2
    ⟨Nat.lt_succ_self _, fun x hx => (h.made x hx).trans (Nat.lt_succ_self _)⟩

theorem step (hb : b.Orderly p) (h : Branch.Step p b b') : b'.Orderly p := by
  cases h with
  | eq h =>
    obtain ⟨hg, henv⟩ := hb.head
    obtain ⟨q, hq, rfl⟩ := State.unify_eq_ok h
    have hu := Expr.eval_below hg.eq.1 henv
    have hv := Expr.eval_below hg.eq.2 henv
    exact ⟨hb.state.grows (hq.grows hb.state.valid.closed hu hv), hb.tail.todo, hb.made⟩
  | succeed => exact hb.tail
  | conj =>
    obtain ⟨hg, henv⟩ := hb.head
    exact .push (.push hb.tail ⟨hg.conj.2, henv⟩) ⟨hg.conj.1, henv⟩
  | left =>
    obtain ⟨hg, henv⟩ := hb.head
    exact hb.tail.push ⟨hg.disj.1, henv⟩
  | right =>
    obtain ⟨hg, henv⟩ := hb.head
    exact hb.tail.push ⟨hg.disj.2, henv⟩
  | fresh =>
    obtain ⟨hg, henv⟩ := hb.head
    exact hb.tail.freshVar.push ⟨hg.fresh.mono (Nat.le_succ _), State.freshVar_below henv⟩
  | delay =>
    obtain ⟨hg, henv⟩ := hb.head
    exact hb.tail.push ⟨hg.delay, henv⟩
  | call =>
    obtain ⟨hg, henv⟩ := hb.head
    obtain ⟨hargs, hbody⟩ := hg.call
    exact hb.tail.push ⟨hbody, Expr.map_eval_below hargs henv⟩

theorem steps (hb : b.Orderly p) (h : ReflTransGen (Branch.Step p) b b') : b'.Orderly p := by
  induction h with
  | refl => exact hb
  | tail _ h ih => exact ih.step h

end Branch.Orderly

/-! ## Fresh variables -/

/-- A search from an orderly state whose counter is ahead of the goal delivers orderly states only, and they
are the ends of its branches. Wherever it comes to make a variable, it is on some branch, and on every branch
that comes there this variable stands in no binding of the state and in no goal still to be run, and is
none of those made before. Several variables at once are made one after another. Other branches count
from the same counter, so they may well make a variable of the same number. -/
theorem freshVar_unused (hs : s.Orderly) (hg : g.Below p s.counter) :
    (∀ n, ∀ r ∈ (g.apply p s).delivered (Job.run p) n, r.Orderly) ∧
    (∀ r, (∃ n, r ∈ (g.apply p s).delivered (Job.run p) n) ↔
      ∃ made, ReflTransGen (Branch.Step p) (.start g s) ⟨[], r, made⟩) ∧
    (∀ body env t, ReflTransGen (Job.Applies p) ⟨g, [], s⟩ ⟨.fresh body, env, t⟩ →
      ∃ rest made, ReflTransGen (Branch.Step p) (.start g s) ⟨⟨.fresh body, env⟩ :: rest, t, made⟩) ∧
    ∀ body env rest t made,
      ReflTransGen (Branch.Step p) (.start g s) ⟨⟨.fresh body, env⟩ :: rest, t, made⟩ →
        (∀ b ∈ t.subst.bindings, b.1 ≠ t.freshVar.1 ∧ t.freshVar.1 ∉ b.2.vars) ∧
        (∀ task ∈ ⟨.fresh body, env⟩ :: rest, ¬task.Mentions p t.freshVar.1) ∧
        t.freshVar.1 ∉ made := by
  have hstart := Branch.Orderly.start hs hg
  refine ⟨fun n r hr => ?_, fun r => mem_delivered_iff_branch,
    fun body env t h => Branch.exists_of_applies h, ?_⟩
  · obtain ⟨made, h⟩ := mem_delivered_iff_branch.1 ⟨n, hr⟩
    exact (hstart.steps h).state
  · intro body env rest t made h
    obtain ⟨ht, htodo, hmade⟩ := hstart.steps h
    refine ⟨ht.wellScoped.freshVar_not_mem, fun task htask hx => ?_, fun hx => ?_⟩
    · exact State.ne_freshVar ((htodo task htask).lt_of_mentions hx) rfl
    · exact State.ne_freshVar (hmade _ hx) rfl

/-- The second variable that a search makes, from a state with a binding. -/
theorem freshVar_unused_second :
    let p : Program Empty := nofun
    let s : State := ⟨Subst.empty.extend ⟨0⟩ (.pair (.var ⟨1⟩) .nil), 2⟩
    let t : State := ⟨s.subst.extend ⟨2⟩ .nil, 3⟩
    let body : Goal Empty := .call .append [.bound 0, .bound 0, .nil]
    let g : Goal Empty := .conj (.fresh (.eq (.bound 0) .nil)) (.fresh body)
    s.Orderly ∧ g.Below p s.counter ∧
      ReflTransGen (Branch.Step p) (.start g s) ⟨[⟨.fresh body, []⟩], t, [⟨2⟩]⟩ ∧
      (∀ b ∈ t.subst.bindings, b.1 ≠ ⟨3⟩ ∧ ⟨3⟩ ∉ b.2.vars) ∧
      ¬Task.Mentions p ⟨3⟩ ⟨.fresh body, []⟩ ∧ ⟨3⟩ ∉ [Var.mk 2] := by
  intro p s t body g
  have hs : s.Orderly := by
    refine ⟨?_, List.nodup_singleton _, Subst.chainFree_empty.extend (fun _ _ => rfl) (by simp)⟩
    simp [s, State.WellScoped, Subst.extend, Subst.empty, Term.Below, Term.vars, Term.nil]
  have hg : g.Below p s.counter :=
    fun x hx => absurd hx (Goal.not_mentions_of_isClosed (fun name => name.elim) rfl)
  have hunify : s.freshVar.2.unify (.var ⟨2⟩) .nil = .ok t :=
    State.unify_of_unifiesTo (Subst.unifiesTo_of_unifyWithin (n := 1) rfl)
  have hpath : ReflTransGen (Branch.Step p) (.start g s) ⟨[⟨.fresh body, []⟩], t, [⟨2⟩]⟩ :=
    .head .conj (.head .fresh (.single (.eq hunify)))
  obtain ⟨hbindings, htodo, hmade⟩ := (freshVar_unused hs hg).2.2.2 _ _ _ _ _ hpath
  exact ⟨hs, hg, hpath, hbindings, htodo _ (List.mem_singleton_self _), hmade⟩

end Relational
