import Relational.Stream.Basic

/-!
# Streams as they stand

What can be said of a stream without resuming it: whether it shows the same items as another, and its
text.
-/

namespace Relational

namespace Stream

variable {κ α : Type}

/-- Streams are equal when both end, with equal items, and neither is suspended on the way. -/
protected def beq [BEq α] : Stream κ α → Stream κ α → Bool
  | .empty, .empty => true
  | .cons x s, .cons y t => x == y && s.beq t
  | _, _ => false

instance [BEq α] : BEq (Stream κ α) := ⟨Stream.beq⟩

/-- The words of a stream's text: its items at hand, and dots when it is suspended behind them. -/
def words [ToString α] : Stream κ α → List String
  | .empty => []
  | .cons x s => toString x :: s.words
  | .suspended _ => ["..."]

/-- The text of a stream. -/
def text [ToString α] (s : Stream κ α) : String :=
  "(" ++ " ".intercalate s.words ++ ")"

instance [ToString α] : ToString (Stream κ α) := ⟨text⟩

end Stream

end Relational
