import Relational.Term.Basic

/-!
# Substitutions

A substitution is a list of bindings, the most recent first. Bindings are only ever added, and adding one
checks nothing: a second binding of a variable hides the first, and a term may contain the variable
that it is bound to.
-/

namespace Relational

/-- Bindings of variables to terms, the most recent first. -/
structure Subst where
  bindings : List (Var × Term Var)

namespace Subst

/-- No bindings. -/
def empty : Subst := ⟨[]⟩

instance : EmptyCollection Subst := ⟨empty⟩

instance : Inhabited Subst := ⟨empty⟩

/-- Substitutions are equal when they have equal bindings in the same order. -/
instance : BEq Subst := ⟨fun s r => s.bindings == r.bindings⟩

/-- How many bindings there are, hidden ones included. -/
def size (s : Subst) : Nat := s.bindings.length

/-- Is there no binding? -/
def isEmpty (s : Subst) : Bool := s.bindings.isEmpty

/-- Adds a binding of `x` to `t`. -/
def extend (s : Subst) (x : Var) (t : Term Var) : Subst := ⟨(x, t) :: s.bindings⟩

/-- Adds bindings, the first of the list first. -/
def extendAll (s : Subst) (bindings : List (Var × Term Var)) : Subst :=
  bindings.foldl (fun s b => s.extend b.1 b.2) s

/-- The most recent binding of `x`. -/
def lookup (s : Subst) (x : Var) : Option (Term Var) := s.bindings.lookup x

@[simp] theorem size_empty : empty.size = 0 := rfl

@[simp] theorem size_extend (s : Subst) (x : Var) (t : Term Var) :
    (s.extend x t).size = s.size + 1 := rfl

@[simp] theorem lookup_empty (x : Var) : empty.lookup x = none := rfl

theorem lookup_extend (s : Subst) (x y : Var) (t : Term Var) :
    (s.extend x t).lookup y = if y = x then some t else s.lookup y := by
  by_cases h : y = x
  · simp [lookup, extend, h]
  · simp [lookup, extend, List.lookup_cons, beq_eq_false_iff_ne.2 h, h]

/-! ## The value of a term -/

/-- Follows bindings from a variable to what it is bound to, at most `n` of them. There is no result
when one more would have to be followed. -/
def walkWithin (s : Subst) : (n : Nat) → Term Var → Option (Term Var)
  | 0, .var x => if (s.lookup x).isNone then some (.var x) else none
  | n + 1, .var x =>
    match s.lookup x with
    | none => some (.var x)
    | some t => s.walkWithin n t
  | _, t => some t

/-- The value of a term: the end of the chain of bindings that starts at it, which is an unbound
variable or no variable at all. A chain visits no variable twice unless it never ends, so it is followed
for as many steps as there are bindings; an endless chain has no result. -/
def walk (s : Subst) (t : Term Var) : Option (Term Var) :=
  match t with
  | .var _ => s.walkWithin s.size t
  | _ => some t

@[simp] theorem walk_atom (s : Subst) (a : Atom) : s.walk (.atom a) = some (.atom a) := rfl

@[simp] theorem walk_pair (s : Subst) (a d : Term Var) : s.walk (.pair a d) = some (.pair a d) := rfl

/-- More steps do not change a result. -/
theorem walkWithin_mono {s : Subst} {m n : Nat} (h : m ≤ n) {t v : Term Var}
    (ht : s.walkWithin m t = some v) : s.walkWithin n t = some v := by
  induction m generalizing n t with
  | zero =>
    cases t with
    | var x => cases n <;> cases hx : s.lookup x <;> simp_all [walkWithin]
    | _ => cases n <;> simp_all [walkWithin]
  | succ m ih =>
    obtain ⟨n, rfl⟩ : ∃ k, n = k + 1 := ⟨n - 1, by omega⟩
    cases t with
    | var x =>
      simp only [walkWithin] at ht ⊢
      cases hx : s.lookup x with
      | none => simpa [hx] using ht
      | some u =>
        simp only [hx] at ht ⊢
        exact ih (by omega) ht
    | _ => simpa [walkWithin] using ht

end Subst

end Relational
