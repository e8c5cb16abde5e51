/-!
# Streams

A stream delivers items one after another and may be infinite. It holds the items that are at hand and
then either ends or is suspended: more may follow once it is resumed. What a suspended stream has yet to
do is written down as data, so a stream can be inspected, and an infinite one is a finite value. The leaves
of this work are keys of type `κ`; a function `unfold` that the callers fix says which stream a key stands
for.

All functions on streams are total. Work that no resumption would ever get through is marked as
`Work.endless`, and the marks tell which streams there are to be had.
-/

namespace Relational

mutual
/-- Items of type `α` that come with pauses between them. -/
inductive Stream (κ α : Type) where
  | empty
  | cons (head : α) (rest : Stream κ α)
  | suspended (work : Work κ α)

/-- What a suspended stream does when it is resumed. -/
inductive Work (κ α : Type) where
  /-- Goes on as a stream that is there already. -/
  | later (s : Stream κ α)
  /-- Goes on as the stream that a key stands for. -/
  | start (key : κ)
  /-- Does `work` and merges what comes of it into `s`. -/
  | merge (s : Stream κ α) (work : Work κ α)
  /-- Does `work` and hands every item that comes of it to `g`. -/
  | bind (work : Work κ α) (g : α → Stream κ α)
  /-- Stands in a stream that is never there, since computing it does not come to an end. Who follows the
  stream all the same finds `work`. -/
  | endless (work : Work κ α)
end

namespace Stream

variable {κ α : Type}

instance : Inhabited (Stream κ α) := ⟨.empty⟩

/-- The stream of one item. -/
def single (x : α) : Stream κ α := .cons x .empty

/-- The items of a list, all at hand. -/
def ofList (xs : List α) : Stream κ α := xs.foldr .cons .empty

/-- Has the stream ended? A suspended stream has not, though nothing may follow. -/
def isEmpty : Stream κ α → Bool
  | .empty => true
  | _ => false

/-! ## Combining streams -/

/-- The items of both streams. Those at hand on the left come first; at a pause the two change places, so
neither can keep the other waiting. -/
def merge : Stream κ α → Stream κ α → Stream κ α
  | .empty, t => t
  | .cons x s, t => .cons x (s.merge t)
  | .suspended work, t => .suspended (.merge t work)

/-- The items of all the streams that `g` gives for the items of a stream, each merged with those of the
later items. -/
def bind : Stream κ α → (α → Stream κ α) → Stream κ α
  | .empty, _ => .empty
  | .cons x s, g => (g x).merge (s.bind g)
  | .suspended work, g => .suspended (.bind work g)

@[simp] theorem empty_merge (t : Stream κ α) : empty.merge t = t := rfl

@[simp] theorem cons_merge (x : α) (s t : Stream κ α) :
    (cons x s).merge t = cons x (s.merge t) := rfl

@[simp] theorem suspended_merge (work : Work κ α) (t : Stream κ α) :
    (suspended work).merge t = suspended (.merge t work) := rfl

@[simp] theorem empty_bind (g : α → Stream κ α) : empty.bind g = empty := rfl

@[simp] theorem cons_bind (x : α) (s : Stream κ α) (g : α → Stream κ α) :
    (cons x s).bind g = (g x).merge (s.bind g) := rfl

@[simp] theorem suspended_bind (work : Work κ α) (g : α → Stream κ α) :
    (suspended work).bind g = suspended (.bind work g) := rfl

end Stream

/-! ## Resuming -/

variable {κ α : Type}

/-- Does the work up to the next stream, resuming once. -/
def Work.resume (unfold : κ → Stream κ α) : Work κ α → Stream κ α
  | .later s => s
  | .start key => unfold key
  | .merge s work => s.merge (work.resume unfold)
  | .bind work g => (work.resume unfold).bind g
  | .endless work => work.resume unfold

/-- Resumes a stream once if it is suspended. -/
def Stream.resume (unfold : κ → Stream κ α) : Stream κ α → Stream κ α
  | .suspended work => work.resume unfold
  | s => s

end Relational
