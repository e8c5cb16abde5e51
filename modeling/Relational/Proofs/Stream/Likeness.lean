import Relational.Proofs.Stream.Lockstep

/-!
# Streams alike

A stream is like another one when following the two meets pauses and the end at the same places, items that
a map takes into one another, and endless computations in front of the same pauses. Such streams are in
lockstep however often they are resumed, so what a bind makes of them is alike too.
-/

namespace Relational

namespace Stream

variable {κ' κ β α : Type} {run' : κ' → Stream κ' β} {run : κ → Stream κ α} {f : β → α}
  {s' t' : Stream κ' β} {s t : Stream κ α}

/-- The first `n` steps along the two streams meet the same, up to `f` on the items. -/
inductive AlikeFor (run' : κ' → Stream κ' β) (run : κ → Stream κ α) (f : β → α) :
    Nat → Stream κ' β → Stream κ α → Prop where
  | zero {s' : Stream κ' β} {s : Stream κ α} : AlikeFor run' run f 0 s' s
  | empty {n : Nat} : AlikeFor run' run f n .empty .empty
  | cons {n : Nat} {x : β} {s' : Stream κ' β} {s : Stream κ α} (h : AlikeFor run' run f n s' s) :
      AlikeFor run' run f (n + 1) (.cons x s') (.cons (f x) s)
  | suspended {n : Nat} {work' : Work κ' β} {work : Work κ α} (hangs : work'.hangs = work.hangs)
      (h : AlikeFor run' run f n (work'.resume run') (work.resume run)) :
      AlikeFor run' run f (n + 1) (.suspended work') (.suspended work)

/-- All steps along the two streams meet the same, up to `f` on the items. -/
def Alike (run' : κ' → Stream κ' β) (run : κ → Stream κ α) (f : β → α) (s' : Stream κ' β)
    (s : Stream κ α) : Prop :=
  ∀ n, AlikeFor run' run f n s' s

namespace Alike

theorem of_cons {x : β} {y : α} (h : Alike run' run f (.cons x s') (.cons y s)) :
    Alike run' run f s' s := by
  intro n
  cases h (n + 1) with
  | cons h => exact h

theorem of_suspended {work' : Work κ' β} {work : Work κ α}
    (h : Alike run' run f (.suspended work') (.suspended work)) :
    Alike run' run f (work'.resume run') (work.resume run) := by
  intro n
  cases h (n + 1) with
  | suspended _ h => exact h

/-- Streams are alike if and only if they are in lockstep up to every pause. -/
theorem iff_lockstep : Alike run' run f s' s ↔ ∀ n, Lockstep run' run f n s' s := by
  constructor
  · intro h n
    induction n using Nat.strong_induction_on generalizing s' s with
    | _ n ih =>
      induction s' using ready_induction generalizing s with
      | empty =>
        cases h 1
        exact .empty
      | cons x t' iht =>
        cases h 1
        exact .cons (iht h.of_cons)
      | suspended work' =>
        cases h 1 with
        | suspended hangs =>
          cases n with
          | zero => exact .pause hangs
          | succ n => exact .resume hangs (ih n (Nat.lt_succ_self _) h.of_suspended)
  · intro h n
    induction n generalizing s' s with
    | zero => exact .zero
    | succ n ih =>
      cases h 1 with
      | empty => exact .empty
      | cons => exact .cons (ih fun m => (h m).of_cons)
      | resume hangs => exact .suspended hangs (ih fun m => (h (m + 1)).of_resume)

theorem merge (hs : Alike run' run f s' s) (ht : Alike run' run f t' t) :
    Alike run' run f (s'.merge t') (s.merge t) :=
  iff_lockstep.2 fun n => (iff_lockstep.1 hs n).merge (iff_lockstep.1 ht n)

theorem bind {g' : β → Stream κ' β} {g : α → Stream κ α} (hs : Alike run' run f s' s)
    (hg : ∀ x, Alike run' run f (g' x) (g (f x))) : Alike run' run f (s'.bind g') (s.bind g) :=
  iff_lockstep.2 fun n => (iff_lockstep.1 hs n).bind fun x => iff_lockstep.1 (hg x) n

theorem map_delivered (h : Alike run' run f s' s) (n : Nat) :
    (s'.delivered run' n).map f = s.delivered run n := by
  induction n generalizing s' s with
  | zero => rfl
  | succ n ih =>
    induction s' using ready_induction generalizing s with
    | empty =>
      cases h 1
      rw [delivered_empty, delivered_empty, List.map_nil]
    | cons x t' iht =>
      cases h 1
      rw [delivered_cons, delivered_cons, List.map_cons, iht h.of_cons]
    | suspended work' =>
      cases h 1
      rw [delivered_suspended, delivered_suspended, ih h.of_suspended]

theorem endsIn_iff (h : Alike run' run f s' s) (n : Nat) : s'.EndsIn run' n ↔ s.EndsIn run n := by
  induction n using Nat.strong_induction_on generalizing s' s with
  | _ n ih =>
    induction s' using ready_induction generalizing s with
    | empty =>
      cases h 1
      rw [endsIn_iff_zero pending?_empty, endsIn_iff_zero pending?_empty]
    | cons x t' iht =>
      cases h 1
      rw [endsIn_cons, endsIn_cons, iht h.of_cons]
    | suspended work' =>
      cases h 1
      rw [endsIn_suspended, endsIn_suspended]
      refine exists_congr fun k => and_congr_right fun hk => ?_
      exact ih k (hk ▸ Nat.lt_succ_self k) h.of_suspended

/-- Streams alike up to no change of the items have the same traces. -/
theorem trace_eq {run' : κ' → Stream κ' α} {s' : Stream κ' α} (h : Alike run' run id s' s) (n : Nat) :
    s'.trace run' n = s.trace run n := by
  rw [(iff_lockstep.1 h n).trace_eq, List.map_congr_left fun m _ => m.map_id, List.map_id']

end Alike

end Stream

end Relational
