import Relational.Stream.Basic

/-!
# Traces

What one meets when a stream is followed step by step: its items and its pauses, in order. Two streams
with the same traces cannot be told apart by reading them.
-/

namespace Relational

/-- What one step along a stream meets. -/
inductive Mark (α : Type) where
  | item (x : α)
  | pause
  | stop
deriving DecidableEq

namespace Stream

variable {κ α : Type} (unfold : κ → Stream κ α)

/-- The stream behind its next item or pause. -/
def step : Stream κ α → Stream κ α
  | .empty => .empty
  | .cons _ s => s
  | .suspended work => work.resume unfold

/-- What the first `n` steps meet. The end is met once. -/
def trace : (n : Nat) → Stream κ α → List (Mark α)
  | 0, _ => []
  | _ + 1, .empty => [.stop]
  | n + 1, .cons x s => .item x :: trace n s
  | n + 1, .suspended work => .pause :: trace n (work.resume unfold)

/-- The stream behind its first `n` steps. -/
def after : (n : Nat) → Stream κ α → Stream κ α
  | 0, s => s
  | n + 1, s => after n (s.step unfold)

/-! ## Blocks -/

/-- The items at hand. -/
def ready : Stream κ α → List α
  | .cons x s => x :: s.ready
  | _ => []

/-- What is left to do behind the items at hand, unless the stream ends there. -/
def pending? : Stream κ α → Option (Work κ α)
  | .empty => none
  | .cons _ s => s.pending?
  | .suspended work => some work

/-- The stream behind its first `i` pauses, or `none` if it ends before. -/
def resumed? : (i : Nat) → Stream κ α → Option (Stream κ α)
  | 0, s => some s
  | i + 1, s => s.pending?.bind fun work => resumed? i (work.resume unfold)

/-- The items that a stream delivers after its `i`-th pause and before the next one; there are none once
it has ended. -/
def block (i : Nat) (s : Stream κ α) : List α :=
  ((resumed? unfold i s).map ready).getD []

end Stream

end Relational
