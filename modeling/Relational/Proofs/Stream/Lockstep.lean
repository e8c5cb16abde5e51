import Relational.Proofs.Stream.Blocks
import Relational.Stream.Strict

/-!
# Streams in lockstep

Two streams are in lockstep up to a pause when they meet the same until then, pause for pause, and items
that a map takes into one another, and when computing the one comes to an end wherever computing the other
does. Only pauses are counted, so that it is the same count for a stream and for those that a bind makes of
its items, and lockstep can be shown by induction on it.
-/

namespace Relational

/-- The mark with the item that `f` makes of its item. -/
def Mark.map {β α : Type} (f : β → α) : Mark β → Mark α
  | .item x => .item (f x)
  | .pause => .pause
  | .stop => .stop

theorem Mark.map_id {α : Type} (m : Mark α) : m.map id = m := by
  cases m <;> rfl

namespace Stream

variable {κ' κ β α : Type} {run' : κ' → Stream κ' β} {run : κ → Stream κ α} {f : β → α}
  {s' t' : Stream κ' β} {s t : Stream κ α} {n : Nat}

/-- Until they have been resumed `n` times the two streams meet the same, up to `f` on the items. -/
inductive Lockstep (run' : κ' → Stream κ' β) (run : κ → Stream κ α) (f : β → α) :
    Nat → Stream κ' β → Stream κ α → Prop where
  | empty {n : Nat} : Lockstep run' run f n .empty .empty
  | cons {n : Nat} {x : β} {s' : Stream κ' β} {s : Stream κ α} (h : Lockstep run' run f n s' s) :
      Lockstep run' run f n (.cons x s') (.cons (f x) s)
  | pause {work' : Work κ' β} {work : Work κ α} (hangs : work'.hangs = work.hangs) :
      Lockstep run' run f 0 (.suspended work') (.suspended work)
  | resume {n : Nat} {work' : Work κ' β} {work : Work κ α} (hangs : work'.hangs = work.hangs)
      (h : Lockstep run' run f n (work'.resume run') (work.resume run)) :
      Lockstep run' run f (n + 1) (.suspended work') (.suspended work)

namespace Lockstep

theorem of_cons {x : β} {y : α} (h : Lockstep run' run f n (.cons x s') (.cons y s)) :
    Lockstep run' run f n s' s := by
  cases h with
  | cons h => exact h

theorem of_resume {work' : Work κ' β} {work : Work κ α}
    (h : Lockstep run' run f (n + 1) (.suspended work') (.suspended work)) :
    Lockstep run' run f n (work'.resume run') (work.resume run) := by
  cases h with
  | resume _ h => exact h

theorem hangs_eq (h : Lockstep run' run f n s' s) : s'.hangs = s.hangs := by
  induction h with
  | empty => rfl
  | cons _ ih => exact ih
  | pause hangs => exact hangs
  | resume hangs => exact hangs

theorem of_succ (h : Lockstep run' run f (n + 1) s' s) : Lockstep run' run f n s' s := by
  generalize hm : n + 1 = m at h
  induction h generalizing n with
  | empty => exact .empty
  | cons _ ih => exact .cons (ih hm)
  | pause => cases hm
  | resume hangs _ ih =>
    obtain rfl := Nat.succ.inj hm
    cases n with
    | zero => exact .pause hangs
    | succ n => exact .resume hangs (ih rfl)

theorem merge (hs : Lockstep run' run f n s' s) (ht : Lockstep run' run f n t' t) :
    Lockstep run' run f n (s'.merge t') (s.merge t) := by
  induction n using Nat.strong_induction_on generalizing s' s t' t with
  | _ n ih =>
    induction s' using ready_induction generalizing s with
    | empty =>
      cases hs
      exact ht
    | cons x s' ihs =>
      cases hs with
      | cons hs => exact .cons (ihs hs)
    | suspended work' =>
      have hhangs {work : Work κ α} (hwork : work'.hangs = work.hangs) :
          (Work.merge t' work').hangs = (Work.merge t work).hangs := congrArg₂ (· || ·) ht.hangs_eq hwork
      cases hs with
      | pause hwork => exact .pause (hhangs hwork)
      | resume hwork hs => exact .resume (hhangs hwork) (ih _ (Nat.lt_succ_self _) ht.of_succ hs)

theorem bind {g' : β → Stream κ' β} {g : α → Stream κ α} (hs : Lockstep run' run f n s' s)
    (hg : ∀ x, Lockstep run' run f n (g' x) (g (f x))) :
    Lockstep run' run f n (s'.bind g') (s.bind g) := by
  induction n using Nat.strong_induction_on generalizing s' s with
  | _ n ih =>
    induction s' using ready_induction generalizing s with
    | empty =>
      cases hs
      exact .empty
    | cons x s' ihs =>
      cases hs with
      | cons hs => exact (hg x).merge (ihs hs)
    | suspended work' =>
      cases hs with
      | pause hwork => exact .pause hwork
      | resume hwork hs => exact .resume hwork (ih _ (Nat.lt_succ_self _) hs fun x => (hg x).of_succ)

/-- Streams in lockstep have the same traces, since so many steps meet at most as many pauses. -/
theorem trace_eq (h : Lockstep run' run f n s' s) :
    s.trace run n = (s'.trace run' n).map (Mark.map f) := by
  induction n generalizing s' s with
  | zero => rfl
  | succ n ih =>
    cases h with
    | empty => rfl
    | cons h =>
      rw [trace, trace, List.map_cons, ih h.of_succ]
      rfl
    | resume _ h =>
      rw [trace, trace, List.map_cons, ih h]
      rfl

end Lockstep

end Stream

end Relational
