import Relational.Proofs.Search.Meaning
import Relational.Proofs.Stream.Lockstep
import Relational.Proofs.Subst.Renaming
import Relational.Goal.Search

/-!
# The numbering of variables

A search without free variables does not depend on the number that its first new variable gets: from
another counter on it goes the same way, with all numbers shifted.
-/

namespace Relational

variable {ρ : Type} {p : Program ρ} {g : Goal ρ} {env : List (Term Var)} {s : State}

/-! ## Shifted states -/

/-- The variable whose number is higher by `c`. -/
def Var.shift (c : Nat) (x : Var) : Var := ⟨x.id + c⟩

theorem Var.shift_injective (c : Nat) : Function.Injective (Var.shift c) := by
  rintro ⟨m⟩ ⟨n⟩ h
  simpa [Var.shift] using h

namespace State

/-- The state with `c` added to the numbers of all its variables and to its counter. -/
def shift (c : Nat) (s : State) : State := ⟨s.subst.rename (Var.shift c), s.counter + c⟩

theorem freshVar_shift (c : Nat) (s : State) :
    (s.shift c).freshVar = (s.freshVar.1.shift c, s.freshVar.2.shift c) := by
  simp [freshVar, shift, Var.shift, Nat.add_right_comm]

theorem unify_shift (c : Nat) (s : State) (u v : Term Var) :
    (s.shift c).unify (u.map (Var.shift c)) (v.map (Var.shift c)) = (s.unify u v).map (shift c) := by
  have hsubst := Subst.unify_rename (Var.shift_injective c) s.subst u v
  rw [unify, unify, shift, hsubst]
  cases s.subst.unify u v <;> rfl

theorem reify_shift (c : Nat) (s : State) (t : Term Var) :
    (s.shift c).reify (t.map (Var.shift c)) = s.reify t :=
  Subst.reify_rename (Var.shift_injective c) s.subst t

end State

/-! ## Shifted searches -/

/-- Without free variables an expression stands for a term in which the variables are those of the bound
places. -/
theorem Expr.eval_map {e : Expr} (he : e.Below 0) (f : Var → Var) (env : List (Term Var)) :
    e.eval (env.map (Term.map f)) = (e.eval env).map f := by
  induction e with
  | atom => rfl
  | var r =>
    cases r with
    | free x => exact (Nat.not_lt_zero _ (he x (by simp [Term.vars]))).elim
    | bound i =>
      simp only [eval, Term.bind, Ref.eval, List.getD_eq_getElem?_getD, List.getElem?_map]
      cases env[i]? <;> rfl
  | pair a d iha ihd =>
    have ha := iha fun x hx => he x (List.mem_append_left _ hx)
    have hd := ihd fun x hx => he x (List.mem_append_right _ hx)
    exact congrArg₂ Term.pair ha hd

theorem lockstep_never (p : Program ρ) (c n : Nat) (s : State) :
    Stream.Lockstep (Job.run p) (Job.run p) (State.shift c) n (Job.wait ⟨.never, [], s⟩)
      (Job.wait ⟨.never, [], s.shift c⟩) := by
  induction n with
  | zero => exact .pause rfl
  | succ n ih => exact .resume rfl ih

theorem lockstep_endless (p : Program ρ) (c n : Nat) (s : State) :
    Stream.Lockstep (Job.run p) (Job.run p) (State.shift c) n (Goal.endless s)
      (Goal.endless (s.shift c)) := by
  cases n with
  | zero => exact .pause rfl
  | succ n => exact .resume rfl (lockstep_never p c n s)

/-- A goal leads to shifted states when its bound places and the state are shifted. -/
theorem lockstep_applyIn (p : Program ρ) (c n : Nat) (g : Goal ρ) (env : List (Term Var)) (s : State)
    (hg : g.Below p 0) :
    Stream.Lockstep (Job.run p) (Job.run p) (State.shift c) n (g.applyIn p env s)
      (g.applyIn p (env.map (Term.map (Var.shift c))) (s.shift c)) := by
  match n, g with
  | n, .eq u v =>
    obtain ⟨hu, hv⟩ := hg.eq
    rw [Goal.applyIn, Goal.applyIn, Expr.eval_map hu, Expr.eval_map hv, State.unify_shift]
    cases s.unify (u.eval env) (v.eval env) with
    | ok r => exact .cons .empty
    | error failure =>
      cases failure with
      | clash => exact .empty
      | endless => exact lockstep_endless p c n s
  | n, .succeed => exact .cons .empty
  | n, .fail => exact .empty
  | n, .conj g h =>
    obtain ⟨hg, hh⟩ := hg.conj
    exact (lockstep_applyIn p c n g env s hg).bind fun t => lockstep_applyIn p c n h env t hh
  | n, .disj g h =>
    obtain ⟨hg, hh⟩ := hg.disj
    exact (lockstep_applyIn p c n g env s hg).merge (lockstep_applyIn p c n h env s hh)
  | n, .fresh g =>
    rw [Goal.applyIn, Goal.applyIn, State.freshVar_shift]
    exact lockstep_applyIn p c n g (.var s.freshVar.1 :: env) s.freshVar.2 hg.fresh
  | 0, .delay _ | 0, .call _ _ => exact .pause rfl
  | n + 1, .delay g => exact .resume rfl (lockstep_applyIn p c n g env s hg.delay)
  | n + 1, .call rel args =>
    obtain ⟨hargs, hbody⟩ := hg.call
    have hmap : (args.map fun e => e.eval (env.map (Term.map (Var.shift c)))) =
        (args.map fun e => e.eval env).map (Term.map (Var.shift c)) := by
      rw [List.map_map]
      exact List.map_congr_left fun e he => Expr.eval_map (hargs e he) _ env
    rw [Goal.applyIn, Goal.applyIn, hmap]
    exact .resume rfl (lockstep_applyIn p c n (p.body rel) _ s hbody)
termination_by (n, g)

/-- A search without free variables does not depend on where the numbering starts. From the counter `c` on
it meets items and pauses at the same places as from the empty state, and its answers are those from there
with `c` added to the numbers of all variables and to the counter; and the variable that is `c` further
reifies to the same term, or neither does. -/
theorem trace_apply_shift (hg : ∀ x, ¬g.Mentions p x) (c : Nat) :
    (∀ n, (g.apply p ⟨.empty, c⟩).trace (Job.run p) n =
      ((g.apply p .empty).trace (Job.run p) n).map (Mark.map (State.shift c))) ∧
    ∀ (r : State) (k : Nat), (r.shift c).reify (.var ⟨c + k⟩) = r.reify (.var ⟨k⟩) := by
  refine ⟨fun n => ?_, fun r k => ?_⟩
  · have hbelow : g.Below p 0 := fun x hx => (hg x hx).elim
    have hstart : State.empty.shift c = ⟨.empty, c⟩ := congrArg (State.mk .empty) (Nat.zero_add c)
    have hlockstep := lockstep_applyIn p c n g [] .empty hbelow
    rw [hstart] at hlockstep
    exact hlockstep.trace_eq
  · rw [Nat.add_comm]
    exact r.reify_shift c (.var ⟨k⟩)

/-- The ways of splitting a list in two, with the first new variables numbered 0 and 1 or 5 and 6. -/
theorem trace_apply_shift_append :
    let g : Goal Empty :=
      .fresh (.fresh (.call .append [Expr.bound 1, Expr.bound 0, Term.list [.int 1, .int 2]]))
    (∀ x, ¬g.Mentions nofun x) ∧
      (g.apply nofun ⟨.empty, 5⟩).trace (Job.run nofun) 40 =
        ((g.apply nofun .empty).trace (Job.run nofun) 40).map (Mark.map (State.shift 5)) ∧
      ∀ r : State, (r.shift 5).reify (.var ⟨6⟩) = r.reify (.var ⟨1⟩) := by
  intro g
  have hg : ∀ x, ¬g.Mentions nofun x := fun _ => Goal.not_mentions_of_isClosed nofun rfl
  obtain ⟨htrace, hreify⟩ := trace_apply_shift hg 5
  exact ⟨hg, htrace 40, fun r => hreify r 1⟩

end Relational
