import Relational.Proofs.Search.Answers
import Mathlib.Logic.Relation

/-!
# Branches

One branch of a search at a time: it takes one side of every disjunction, has a state, and keeps the goals
that are still to be run in it. This loses none of the search. Where a branch has nothing more to run there
is an answer, and every goal that the search applies is the next one of some branch.
-/

namespace Relational

open Relation (ReflTransGen)

variable {ρ : Type} {p : Program ρ} {g : Goal ρ} {env : List (Term Var)} {s r : State}
  {made : List Var}

/-! ## Steps of a branch -/

/-- A goal that is to be run, with the terms of its bound places. -/
structure Task (ρ : Type) where
  goal : Goal ρ
  env : List (Term Var)

/-- The goals still to be run one after another, the state in which the first of them is to be run, and the
variables made on the way there, the latest first. -/
structure Branch (ρ : Type) where
  todo : List (Task ρ)
  state : State
  made : List Var

namespace Branch

/-- Nothing has been run yet. -/
def start (g : Goal ρ) (s : State) : Branch ρ := ⟨[⟨g, []⟩], s, []⟩

/-- One step of a branch. There is none where the next goal fails and where its unification is endless. -/
inductive Step (p : Program ρ) : Branch ρ → Branch ρ → Prop where
  | eq {u v : Expr} {env : List (Term Var)} {rest : List (Task ρ)} {s r : State} {made : List Var}
      (h : s.unify (u.eval env) (v.eval env) = .ok r) :
      Step p ⟨⟨.eq u v, env⟩ :: rest, s, made⟩ ⟨rest, r, made⟩
  | succeed {env : List (Term Var)} {rest : List (Task ρ)} {s : State} {made : List Var} :
      Step p ⟨⟨.succeed, env⟩ :: rest, s, made⟩ ⟨rest, s, made⟩
  | conj {g h : Goal ρ} {env : List (Term Var)} {rest : List (Task ρ)} {s : State} {made : List Var} :
      Step p ⟨⟨.conj g h, env⟩ :: rest, s, made⟩ ⟨⟨g, env⟩ :: ⟨h, env⟩ :: rest, s, made⟩
  | left {g h : Goal ρ} {env : List (Term Var)} {rest : List (Task ρ)} {s : State} {made : List Var} :
      Step p ⟨⟨.disj g h, env⟩ :: rest, s, made⟩ ⟨⟨g, env⟩ :: rest, s, made⟩
  | right {g h : Goal ρ} {env : List (Term Var)} {rest : List (Task ρ)} {s : State} {made : List Var} :
      Step p ⟨⟨.disj g h, env⟩ :: rest, s, made⟩ ⟨⟨h, env⟩ :: rest, s, made⟩
  | fresh {g : Goal ρ} {env : List (Term Var)} {rest : List (Task ρ)} {s : State} {made : List Var} :
      Step p ⟨⟨.fresh g, env⟩ :: rest, s, made⟩
        ⟨⟨g, .var s.freshVar.1 :: env⟩ :: rest, s.freshVar.2, s.freshVar.1 :: made⟩
  | delay {g : Goal ρ} {env : List (Term Var)} {rest : List (Task ρ)} {s : State} {made : List Var} :
      Step p ⟨⟨.delay g, env⟩ :: rest, s, made⟩ ⟨⟨g, env⟩ :: rest, s, made⟩
  | call {rel : Rel ρ} {args : List Expr} {env : List (Term Var)} {rest : List (Task ρ)} {s : State}
      {made : List Var} :
      Step p ⟨⟨.call rel args, env⟩ :: rest, s, made⟩
        ⟨⟨p.body rel, args.map fun e => e.eval env⟩ :: rest, s, made⟩

end Branch

/-! ## Branches and derivations -/

/-- A branch can run a goal in the way that a derivation says and then go on with the rest. -/
theorem Derivation.steps (d : Derivation p g env s r) (rest : List (Task ρ)) (made : List Var) :
    ∃ made', ReflTransGen (Branch.Step p) ⟨⟨g, env⟩ :: rest, s, made⟩ ⟨rest, r, made'⟩ := by
  induction d generalizing rest made with
  | eq h => exact ⟨made, .single (.eq h)⟩
  | succeed => exact ⟨made, .single .succeed⟩
  | @conj g h env s t r _ _ ihg ihh =>
    obtain ⟨made₁, hg⟩ := ihg (⟨h, env⟩ :: rest) made
    obtain ⟨made₂, hh⟩ := ihh rest made₁
    exact ⟨made₂, .head .conj (hg.trans hh)⟩
  | left _ ih =>
    obtain ⟨made', hg⟩ := ih rest made
    exact ⟨made', .head .left hg⟩
  | right _ ih =>
    obtain ⟨made', hh⟩ := ih rest made
    exact ⟨made', .head .right hh⟩
  | @fresh g env s r _ ih =>
    obtain ⟨made', hg⟩ := ih rest (s.freshVar.1 :: made)
    exact ⟨made', .head .fresh hg⟩
  | delay _ ih =>
    obtain ⟨made', hg⟩ := ih rest made
    exact ⟨made', .head .delay hg⟩
  | call _ ih =>
    obtain ⟨made', hg⟩ := ih rest made
    exact ⟨made', .head .call hg⟩

/-- There are derivations of the goals one after another that lead from `s` to `r`. -/
def DerivesAll (p : Program ρ) : List (Task ρ) → State → State → Prop
  | [], s, r => s = r
  | task :: rest, s, r =>
    ∃ t, Nonempty (Derivation p task.goal task.env s t) ∧ DerivesAll p rest t r

theorem Branch.Step.derivesAll {b c : Branch ρ} (h : Branch.Step p b c)
    (hc : DerivesAll p c.todo c.state r) : DerivesAll p b.todo b.state r := by
  cases h with
  | eq h => exact ⟨_, ⟨.eq h⟩, hc⟩
  | succeed => exact ⟨_, ⟨.succeed⟩, hc⟩
  | conj =>
    obtain ⟨t, ⟨dg⟩, t', ⟨dh⟩, hr⟩ := hc
    exact ⟨t', ⟨.conj dg dh⟩, hr⟩
  | left =>
    obtain ⟨t, ⟨d⟩, hr⟩ := hc
    exact ⟨t, ⟨.left d⟩, hr⟩
  | right =>
    obtain ⟨t, ⟨d⟩, hr⟩ := hc
    exact ⟨t, ⟨.right d⟩, hr⟩
  | fresh =>
    obtain ⟨t, ⟨d⟩, hr⟩ := hc
    exact ⟨t, ⟨.fresh d⟩, hr⟩
  | delay =>
    obtain ⟨t, ⟨d⟩, hr⟩ := hc
    exact ⟨t, ⟨.delay d⟩, hr⟩
  | call =>
    obtain ⟨t, ⟨d⟩, hr⟩ := hc
    exact ⟨t, ⟨.call d⟩, hr⟩

theorem Branch.derivesAll_of_steps {b : Branch ρ}
    (h : ReflTransGen (Branch.Step p) b ⟨[], r, made⟩) : DerivesAll p b.todo b.state r := by
  induction h using ReflTransGen.head_induction_on with
  | refl => exact rfl
  | head h _ ih => exact h.derivesAll ih

/-- The answers of a search are the states in which its branches have run everything. -/
theorem mem_delivered_iff_branch :
    (∃ n, r ∈ (g.apply p s).delivered (Job.run p) n) ↔
      ∃ made, ReflTransGen (Branch.Step p) (.start g s) ⟨[], r, made⟩ := by
  rw [Goal.apply, mem_delivered_iff]
  constructor
  · rintro ⟨d⟩
    exact d.steps [] []
  · rintro ⟨made, h⟩
    obtain ⟨_, hd, rfl⟩ := Branch.derivesAll_of_steps h
    exact hd

/-! ## Branches and applied goals -/

/-- Applying the one goal applies the other one, at once, after a pause or to an answer. An equation applies
no other goal, whether or not its unification comes to an end. -/
inductive Job.Applies (p : Program ρ) : Job ρ → Job ρ → Prop where
  | first {g h : Goal ρ} {env : List (Term Var)} {s : State} :
      Applies p ⟨.conj g h, env, s⟩ ⟨g, env, s⟩
  | second {g h : Goal ρ} {env : List (Term Var)} {s t : State} {n : Nat}
      (ht : t ∈ (g.applyIn p env s).delivered (Job.run p) n) :
      Applies p ⟨.conj g h, env, s⟩ ⟨h, env, t⟩
  | left {g h : Goal ρ} {env : List (Term Var)} {s : State} :
      Applies p ⟨.disj g h, env, s⟩ ⟨g, env, s⟩
  | right {g h : Goal ρ} {env : List (Term Var)} {s : State} :
      Applies p ⟨.disj g h, env, s⟩ ⟨h, env, s⟩
  | fresh {g : Goal ρ} {env : List (Term Var)} {s : State} :
      Applies p ⟨.fresh g, env, s⟩ ⟨g, .var s.freshVar.1 :: env, s.freshVar.2⟩
  | delay {g : Goal ρ} {env : List (Term Var)} {s : State} :
      Applies p ⟨.delay g, env, s⟩ ⟨g, env, s⟩
  | call {rel : Rel ρ} {args : List Expr} {env : List (Term Var)} {s : State} :
      Applies p ⟨.call rel args, env, s⟩ ⟨p.body rel, args.map fun e => e.eval env, s⟩

/-- Every goal that a search applies to a state is the next one of a branch with this state. -/
theorem Branch.exists_of_applies {job : Job ρ} (h : ReflTransGen (Job.Applies p) ⟨g, [], s⟩ job) :
    ∃ rest made, ReflTransGen (Branch.Step p) (.start g s)
      ⟨⟨job.goal, job.env⟩ :: rest, job.state, made⟩ := by
  induction h with
  | refl => exact ⟨[], [], .refl⟩
  | tail _ h ih =>
    obtain ⟨rest, made, hb⟩ := ih
    cases h with
    | @first g h env s => exact ⟨⟨h, env⟩ :: rest, made, hb.tail .conj⟩
    | @second g h env s t n ht =>
      -- The branch runs the first goal up to this answer.
      obtain ⟨d⟩ := mem_delivered_iff.1 ⟨n, ht⟩
      obtain ⟨made', hd⟩ := d.steps (⟨h, env⟩ :: rest) made
      exact ⟨rest, made', (hb.tail .conj).trans hd⟩
    | left => exact ⟨rest, made, hb.tail .left⟩
    | right => exact ⟨rest, made, hb.tail .right⟩
    | @fresh g env s => exact ⟨rest, s.freshVar.1 :: made, hb.tail .fresh⟩
    | delay => exact ⟨rest, made, hb.tail .delay⟩
    | call => exact ⟨rest, made, hb.tail .call⟩

end Relational
