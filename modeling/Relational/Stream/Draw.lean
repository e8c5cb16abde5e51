import Relational.Stream.Basic

/-!
# Drawing items from a stream

A stream may be resumed for ever without delivering an item, so every way of reading one takes the number
of steps that it may spend and has no result when they run out. A step passes one item or one pause, so
the steps that suffice say how far a stream has been read: none of these functions looks further
than it has to.
-/

namespace Relational

namespace Stream

variable {κ α : Type} (unfold : κ → Stream κ α)

/-! ## The next item -/

/-- Resumes a stream until it is no longer suspended. -/
def force : (steps : Nat) → Stream κ α → Option (Stream κ α)
  | 0, .suspended _ => none
  | steps + 1, .suspended work => force steps (work.resume unfold)
  | _, s => some s

/-- The item at the front of a stream and the stream behind it. -/
def uncons? : Stream κ α → Option (α × Stream κ α)
  | .cons x s => some (x, s)
  | _ => none

/-- The next item and the stream behind it, or `none` at the end. -/
def pull (steps : Nat) (s : Stream κ α) : Option (Option (α × Stream κ α)) :=
  (force unfold steps s).map uncons?

/-- One call of an iterator: the next item, or `none` at the end, where the iterator stays. -/
def next (steps : Nat) (s : Stream κ α) : Option (Option α × Stream κ α) :=
  (pull unfold steps s).map fun
    | some (x, s) => (some x, s)
    | none => (none, .empty)

/-- The answers to `n` calls of an iterator, each of which may spend all the steps. -/
def nexts (steps : Nat) : (n : Nat) → Stream κ α → Option (List (Option α))
  | 0, _ => some []
  | n + 1, s => do
    let (x, s) ← next unfold steps s
    return x :: (← nexts steps n s)

/-! ## Many items -/

/-- The first `n` items, or all of them if there are fewer. -/
def take : (steps : Nat) → (n : Nat) → Stream κ α → Option (List α)
  | _, 0, _ => some []
  | _, _ + 1, .empty => some []
  | 0, _ + 1, _ => none
  | steps + 1, n + 1, .cons x s => (take steps n s).map (x :: ·)
  | steps + 1, n + 1, .suspended work => take steps (n + 1) (work.resume unfold)

/-- All items of a stream that ends. -/
def takeAll : (steps : Nat) → Stream κ α → Option (List α)
  | _, .empty => some []
  | 0, _ => none
  | steps + 1, .cons x s => (takeAll steps s).map (x :: ·)
  | steps + 1, .suspended work => takeAll steps (work.resume unfold)

end Stream

end Relational
