/-!
# Terms

Atoms, variables and pairs. What stands for a variable is a parameter: a search works on terms over
numbered variables, the text of a goal uses references instead, and a variable-free term has none.
-/

namespace Relational

/-! ## Atoms -/

/-- A constant. `reified k` is the name that an answer gives to its open variable number `k`. -/
inductive Atom where
  | nil
  | bool (b : Bool)
  | int (n : Int)
  | float (x : Float)
  | sym (name : String)
  | reified (k : Nat)

namespace Atom

/-- Atoms are equal when they are of one kind and hold equal values. Floats compare as numbers do, so
the two zeros are equal and a NaN equals nothing. -/
protected def beq : Atom → Atom → Bool
  | .nil, .nil => true
  | .bool a, .bool b => a == b
  | .int m, .int n => m == n
  | .float x, .float y => x == y
  | .sym a, .sym b => a == b
  | .reified j, .reified k => j == k
  | _, _ => false

instance : BEq Atom := ⟨Atom.beq⟩

instance : Inhabited Atom := ⟨.nil⟩

end Atom

/-! ## Variables -/

/-- A logic variable, known by its number alone. -/
structure Var where
  id : Nat
deriving DecidableEq, Ord

/-! ## Terms -/

/-- A term over variables of type `ν`. -/
inductive Term (ν : Type) where
  | atom (a : Atom)
  | var (x : ν)
  | pair (first second : Term ν)

namespace Term

variable {ν μ σ : Type}

instance : Inhabited (Term ν) := ⟨.atom .nil⟩

/-- The empty list. -/
def nil : Term ν := .atom .nil

/-- A truth value as a term. -/
def bool (b : Bool) : Term ν := .atom (.bool b)

/-- An integer as a term. -/
def int (n : Int) : Term ν := .atom (.int n)

/-- A floating-point number as a term. -/
def float (x : Float) : Term ν := .atom (.float x)

/-- A symbol as a term. -/
def sym (name : String) : Term ν := .atom (.sym name)

/-- The name of open variable number `k` as a term. -/
def reified (k : Nat) : Term ν := .atom (.reified k)

/-- Terms are equal when they have the same shape and equal atoms and variables in the same places. -/
protected def beq [BEq ν] : Term ν → Term ν → Bool
  | .atom a, .atom b => a == b
  | .var x, .var y => x == y
  | .pair a d, .pair b e => a.beq b && d.beq e
  | _, _ => false

instance [BEq ν] : BEq (Term ν) := ⟨Term.beq⟩

/-! ## Kinds -/

/-- Is the term a pair? -/
def isPair : Term ν → Bool
  | .pair _ _ => true
  | _ => false

/-- Is the term a variable? -/
def isVar : Term ν → Bool
  | .var _ => true
  | _ => false

/-- Is the term an atom? The empty list is one. -/
def isAtom : Term ν → Bool
  | .atom _ => true
  | _ => false

/-- Is the term the empty list? -/
def isNil : Term ν → Bool
  | .atom .nil => true
  | _ => false

/-- The variable that the term is, if it is one. -/
def asVar? : Term ν → Option ν
  | .var x => some x
  | _ => none

/-- The two halves of the term, if it is a pair. -/
def asPair? : Term ν → Option (Term ν × Term ν)
  | .pair a d => some (a, d)
  | _ => none

/-! ## Replacing and visiting variables -/

/-- Replaces every variable by the term that `f` gives for it. -/
def bind (f : ν → Term μ) : Term ν → Term μ
  | .atom a => .atom a
  | .var x => f x
  | .pair a d => .pair (a.bind f) (d.bind f)

/-- Renames every variable by `f`. -/
def map (f : ν → μ) : Term ν → Term μ
  | .atom a => .atom a
  | .var x => .var (f x)
  | .pair a d => .pair (a.map f) (d.map f)

/-- Replaces every variable by the term that `f` gives for it, or has no result where `f` has none. -/
def bind? (f : ν → Option (Term μ)) : Term ν → Option (Term μ)
  | .atom a => some (.atom a)
  | .var x => f x
  | .pair a d => do return .pair (← a.bind? f) (← d.bind? f)

/-- Visits the variables from left to right, first halves before second halves, with the state that
`f` passes on; it stops where `f` has no result. -/
def foldVars? (f : σ → ν → Option σ) : Term ν → σ → Option σ
  | .atom _, s => some s
  | .var x, s => f s x
  | .pair a d, s => do d.foldVars? f (← a.foldVars? f s)

/-- The variables in the order in which they stand, repetitions included. -/
def vars : Term ν → List ν
  | .atom _ => []
  | .var x => [x]
  | .pair a d => a.vars ++ d.vars

/-- How many atoms, variables and pairs the term is made of. -/
def size : Term ν → Nat
  | .atom _ | .var _ => 1
  | .pair a d => a.size + d.size + 1

@[simp] theorem bind_var (t : Term ν) : t.bind .var = t := by
  induction t with
  | atom | var => rfl
  | pair a d iha ihd => simp [bind, iha, ihd]

theorem bind_bind {κ : Type} (f : ν → Term μ) (g : μ → Term κ) (t : Term ν) :
    (t.bind f).bind g = t.bind fun x => (f x).bind g := by
  induction t with
  | atom | var => rfl
  | pair a d iha ihd => simp [bind, iha, ihd]

theorem map_eq_bind (f : ν → μ) (t : Term ν) : t.map f = t.bind fun x => .var (f x) := by
  induction t with
  | atom | var => rfl
  | pair a d iha ihd => simp [map, bind, iha, ihd]

/-- Replacing keeps its result when the replacements keep theirs. -/
theorem bind?_mono {f g : ν → Option (Term μ)} (h : ∀ x t, f x = some t → g x = some t) {t : Term ν}
    {u : Term μ} (hu : t.bind? f = some u) : t.bind? g = some u := by
  induction t generalizing u with
  | atom => exact hu
  | var x => exact h x u hu
  | pair a d iha ihd =>
    simp only [bind?, Option.bind_eq_bind, Option.bind_eq_some_iff] at hu ⊢
    obtain ⟨a', ha, d', hd, hu⟩ := hu
    exact ⟨a', iha ha, d', ihd hd, hu⟩

theorem size_pos (t : Term ν) : 0 < t.size := by
  cases t <;> simp [size]

end Term

end Relational
