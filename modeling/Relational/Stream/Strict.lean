import Relational.Stream.Basic

/-!
# Streams that are never there

A stream is handed out when all of it up to the next pause has been computed. If some part of this
computation does not come to an end, there is no stream at all: what other parts would have
contributed is not delivered either, and whoever waits for it waits for ever. So a stream is read by way of
`computed`, and resumed by way of `strictly`, which look for such parts wherever they may be.
-/

namespace Relational

variable {κ α : Type}

mutual
/-- Does computing the stream up to its next pause never come to an end? -/
def Stream.hangs : Stream κ α → Bool
  | .empty => false
  | .cons _ s => s.hangs
  | .suspended work => work.hangs

/-- Is there an endless computation in what work has been prepared with? -/
def Work.hangs : Work κ α → Bool
  | .later s => s.hangs
  | .start _ => false
  | .merge s work => s.hangs || work.hangs
  | .bind work _ => work.hangs
  | .endless _ => true
end

namespace Stream

/-- The same items, and at the pause its work as a key. -/
def guarded : Stream κ α → Stream (Option (Work κ α)) α
  | .empty => .empty
  | .cons x s => .cons x s.guarded
  | .suspended work => .suspended (.start (some work))

/-- The stream as it is handed out, or `none` if it never is. -/
def computed (s : Stream κ α) : Option (Stream (Option (Work κ α)) α) :=
  if s.hangs then none else some s.guarded

/-- The stream for one who waits for it. The key `none` stands for waiting in vain. -/
def strict (s : Stream κ α) : Stream (Option (Work κ α)) α :=
  s.computed.getD (.suspended (.start none))

/-- What comes of resuming, where the work is `unfold`ed. -/
def strictly (unfold : κ → Stream κ α) : Option (Work κ α) → Stream (Option (Work κ α)) α
  | some work => (work.resume unfold).strict
  | none => .suspended (.start none)

end Stream

end Relational
