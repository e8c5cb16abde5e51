import Relational.Subst.Basic

/-!
# Terms of a solution

A solution is turned back into a term by replacing every variable by its value, all the way down, and then
naming the variables that stay open in the order in which they first occur.
-/

namespace Relational

namespace Subst

/-! ## Resolving -/

/-- Replaces every bound variable of a term by its resolved value, following at most `n` bindings one
below the other. There is no result when more would have to be followed. -/
def resolveWithin (s : Subst) : (n : Nat) → Term Var → Option (Term Var)
  | 0, t => t.bind? fun x => if (s.lookup x).isNone then some (.var x) else none
  | n + 1, t => t.bind? fun x =>
    match s.lookup x with
    | none => some (.var x)
    | some value => s.resolveWithin n value

/-- Replaces every bound variable of a term by its resolved value. Unless a variable is met below itself,
no more bindings lie below one another than there are; if one is, the term has no finite value and there
is no result. -/
def resolve (s : Subst) (t : Term Var) : Option (Term Var) :=
  s.resolveWithin s.size t

/-- More bindings to follow do not change a result. -/
theorem resolveWithin_mono {s : Subst} {m n : Nat} (h : m ≤ n) {t u : Term Var}
    (ht : s.resolveWithin m t = some u) : s.resolveWithin n t = some u := by
  induction m generalizing n t u with
  | zero =>
    cases n with
    | zero => exact ht
    | succ n =>
      refine Term.bind?_mono (fun x v hx => ?_) ht
      cases hl : s.lookup x <;> simp_all
  | succ m ih =>
    obtain ⟨n, rfl⟩ : ∃ k, n = k + 1 := ⟨n - 1, by omega⟩
    refine Term.bind?_mono (fun x v hx => ?_) ht
    cases hl : s.lookup x with
    | none => simpa [hl] using hx
    | some w =>
      simp only [hl] at hx ⊢
      exact ih (by omega) hx

/-! ## Naming -/

/-- Adds a name for every unbound variable of a term, from left to right, following at most `n` bindings
one below the other. The number of a name is the number of bindings before it. -/
def nameWithin : (n : Nat) → Subst → Term Var → Option Subst
  | 0, names, t => t.foldVars? (fun names x =>
      if (names.lookup x).isNone then some (names.extend x (.reified names.size)) else none) names
  | n + 1, names, t => t.foldVars? (fun names x =>
      match names.lookup x with
      | none => some (names.extend x (.reified names.size))
      | some value => nameWithin n names value) names

/-- Adds a name for every unbound variable of a term. Below the bindings that were there before lies at
most the name that is found at a variable's second occurrence. -/
def nameVars (names : Subst) (t : Term Var) : Option Subst :=
  nameWithin (names.size + 1) names t

/-! ## Reifying -/

/-- The term that a solution gives: resolved, and with names for its open variables. There is no result
when the term has no finite value. -/
def reify (s : Subst) (t : Term Var) : Option (Term Var) := do
  let value ← s.resolve t
  let names ← empty.nameVars value
  names.resolve value

end Subst

end Relational
