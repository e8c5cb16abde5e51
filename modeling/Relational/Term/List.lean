import Relational.Term.Basic

/-!
# Lists

A list is a chain of pairs: each first half is an item, and the chain ends in the empty list when the
list is proper and in any other tail when it is not.
-/

namespace Relational

/-! ## Halves of a pair -/

/-- The two halves of a pair, by their list names. -/
inductive Part where
  | car
  | cdr
deriving DecidableEq

namespace Part

/-- The name under which a half is asked for. -/
def name : Part → String
  | .car => "car"
  | .cdr => "cdr"

end Part

/-- Why a term could not be taken apart. -/
inductive ShapeError (ν : Type) where
  /-- A half was asked of a term that is no pair. -/
  | notAPair (part : Part) (t : Term ν)
  /-- A chain of pairs does not end in the empty list but in `tail`. -/
  | improperList (tail : Term ν)
deriving BEq

namespace Term

variable {ν : Type}

/-- The half of a pair that `p` names. -/
def half (p : Part) : Term ν → Except (ShapeError ν) (Term ν)
  | .pair a d => .ok (match p with | .car => a | .cdr => d)
  | t => .error (.notAPair p t)

/-- The first half of a pair. -/
def car (t : Term ν) : Except (ShapeError ν) (Term ν) := t.half .car

/-- The second half of a pair. -/
def cdr (t : Term ν) : Except (ShapeError ν) (Term ν) := t.half .cdr

/-- The part of a term that lies at the end of a path of halves, read from left to right. -/
def at? (t : Term ν) (path : List Part) : Except (ShapeError ν) (Term ν) :=
  path.foldlM (fun t p => t.half p) t

/-! ## Building lists -/

/-- The items in front of a tail. -/
def dotted (items : List (Term ν)) (tail : Term ν) : Term ν :=
  items.foldr .pair tail

/-- The proper list of the items. -/
def list (items : List (Term ν)) : Term ν :=
  dotted items nil

@[simp] theorem dotted_nil (tail : Term ν) : dotted [] tail = tail := rfl

@[simp] theorem dotted_cons (t : Term ν) (items : List (Term ν)) (tail : Term ν) :
    dotted (t :: items) tail = .pair t (dotted items tail) := rfl

theorem dotted_append (xs ys : List (Term ν)) (tail : Term ν) :
    dotted (xs ++ ys) tail = dotted xs (dotted ys tail) :=
  List.foldr_append

@[simp] theorem list_nil : list ([] : List (Term ν)) = nil := rfl

@[simp] theorem list_cons (t : Term ν) (items : List (Term ν)) :
    list (t :: items) = .pair t (list items) := rfl

theorem list_ne_var (items : List (Term ν)) (x : ν) : list items ≠ .var x := by
  cases items <;> exact nofun

theorem bind_dotted {μ : Type} (f : ν → Term μ) (items : List (Term ν)) (tail : Term ν) :
    (dotted items tail).bind f = dotted (items.map fun t => t.bind f) (tail.bind f) := by
  induction items with
  | nil => rfl
  | cons t items ih => simp [bind, ih]

theorem vars_dotted (items : List (Term ν)) (tail : Term ν) :
    (dotted items tail).vars = items.flatMap vars ++ tail.vars := by
  induction items with
  | nil => rfl
  | cons t items ih => simp [vars, ih]

/-! ## Reading lists -/

theorem size_lt_of_cdr {t d : Term ν} (h : t.cdr = .ok d) : d.size < t.size := by
  cases t with
  | atom | var => cases h
  | pair a e =>
    cases h
    simp only [size]
    omega

/-- Collects the items of a list behind those that there are already. -/
def collect (items : Array (Term ν)) (rest : Term ν) : Except (ShapeError ν) (List (Term ν)) :=
  if rest.isNil then .ok items.toList
  else if !rest.isPair then .error (.improperList rest)
  else do
    let item ← rest.car
    match h : rest.cdr with
    | .error e => .error e
    | .ok next =>
      have := size_lt_of_cdr h
      collect (items.push item) next
termination_by rest.size

theorem collect_of_not_isPair (items : Array (Term ν)) {tail : Term ν} (h : tail.isPair = false) :
    collect items tail = if tail.isNil then .ok items.toList else .error (.improperList tail) := by
  rw [collect, h]
  rfl

theorem collect_pair (items : Array (Term ν)) (a d : Term ν) :
    collect items (.pair a d) = collect (items.push a) d := by
  rw [collect]
  rfl

/-- The items of a proper list. -/
def toList (t : Term ν) : Except (ShapeError ν) (List (Term ν)) :=
  collect #[] t

/-- The items of the chain that a term begins with, and the tail behind them. -/
def chain : Term ν → List (Term ν) × Term ν
  | .pair a d => (a :: d.chain.1, d.chain.2)
  | t => ([], t)

theorem dotted_chain (t : Term ν) : dotted t.chain.1 t.chain.2 = t := by
  induction t with
  | atom | var => rfl
  | pair a d _ ihd => simp [chain, ihd]

theorem isPair_chain (t : Term ν) : t.chain.2.isPair = false := by
  induction t with
  | atom | var => rfl
  | pair a d _ ihd => exact ihd

theorem chain_dotted (items : List (Term ν)) {tail : Term ν} (h : tail.isPair = false) :
    (dotted items tail).chain = (items, tail) := by
  induction items with
  | nil => cases tail <;> first | rfl | cases h
  | cons t items ih => simp [chain, ih]

end Term

end Relational
