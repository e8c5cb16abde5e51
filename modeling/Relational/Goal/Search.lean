import Relational.Goal.Lists
import Relational.State
import Relational.Stream.Draw
import Relational.Stream.Strict

/-!
# Search

Applying a goal to a state gives the stream of the states in which the goal holds. Goals that pause become
jobs, the keys of this stream, and a job is taken up where its pause is resumed.
-/

namespace Relational

variable {ρ : Type}

/-- A goal that waits in a state to be applied, with the terms of its bound places. -/
structure Job (ρ : Type) where
  goal : Goal ρ
  env : List (Term Var)
  state : State

/-- The states that a search delivers. -/
abbrev Answers (ρ : Type) := Stream (Job ρ) State

/-- The answers that come when the job is taken up after a pause. -/
def Job.wait (job : Job ρ) : Answers ρ := .suspended (.start job)

namespace Goal

/-- What stands for the answers of an equation whose unification is endless. -/
def endless (s : State) : Answers ρ := .suspended (.endless (.start ⟨.never, [], s⟩))

/-- The states in which a goal holds, from a state and the terms of the goal's bound places on. Unifying may
not come to an end, and then no stream is ever handed out: this one `hangs`, as does every merge or bind that
needs it, and only by way of `Stream.computed` are answers read. A function that follows the stream past
the mark takes such an equation for one that pauses for ever. -/
def applyIn (p : Program ρ) : Goal ρ → List (Term Var) → State → Answers ρ
  | .eq u v, env, s =>
    match s.unify (u.eval env) (v.eval env) with
    | .ok s => .single s
    | .error .clash => .empty
    | .error .endless => endless s
  | .succeed, _, s => .single s
  | .fail, _, _ => .empty
  | .conj g h, env, s => (g.applyIn p env s).bind fun s => h.applyIn p env s
  | .disj g h, env, s => (g.applyIn p env s).merge (h.applyIn p env s)
  | .fresh g, env, s =>
    let (x, s) := s.freshVar
    g.applyIn p (.var x :: env) s
  | .delay g, env, s => Job.wait ⟨g, env, s⟩
  | .call rel args, env, s => Job.wait ⟨p.body rel, args.map fun e => e.eval env, s⟩

/-- The states in which a goal without bound places of its own holds. -/
def apply (p : Program ρ) (g : Goal ρ) (s : State) : Answers ρ := g.applyIn p [] s

end Goal

/-- The answers of a job. -/
def Job.run (p : Program ρ) (job : Job ρ) : Answers ρ :=
  job.goal.applyIn p job.env job.state

namespace Goal

/-- All the answers from the empty state. -/
def answers (p : Program ρ) (g : Goal ρ) : Answers ρ := g.apply p .empty

/-- The first `n` answers from the empty state. -/
def run (p : Program ρ) (g : Goal ρ) (steps n : Nat) : Option (List State) :=
  (g.answers p).computed.bind (Stream.take (Stream.strictly (Job.run p)) steps n)

/-- All the answers from the empty state, if they come to an end. -/
def runAll (p : Program ρ) (g : Goal ρ) (steps : Nat) : Option (List State) :=
  (g.answers p).computed.bind (Stream.takeAll (Stream.strictly (Job.run p)) steps)

end Goal

end Relational
