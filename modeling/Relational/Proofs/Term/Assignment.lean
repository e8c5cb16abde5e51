import Relational.Proofs.Term.Equality
import Relational.Term.List

/-!
# Assignments

An assignment gives every variable a value, which is a variable-free term without a NaN.
-/

namespace Relational

/-- A variable-free term. -/
abbrev Ground := Term Empty

/-- All variables of the term have numbers below `c`. -/
def Term.Below (c : Nat) (t : Term Var) : Prop := ∀ x ∈ t.vars, x.id < c

theorem Term.Below.mono {c k : Nat} {t : Term Var} (h : t.Below c) (hck : c ≤ k) : t.Below k :=
  fun x hx => Nat.lt_of_lt_of_le (h x hx) hck

@[simp] theorem Term.below_atom {c : Nat} {a : Atom} : (Term.atom a).Below c := by simp [Below, vars]

@[simp] theorem Term.below_var {c : Nat} {x : Var} : (Term.var x).Below c ↔ x.id < c := by
  simp [Below, vars]

@[simp] theorem Term.below_pair {c : Nat} {a d : Term Var} :
    (Term.pair a d).Below c ↔ a.Below c ∧ d.Below c :=
  List.forall_mem_append

theorem Term.below_dotted {c : Nat} {items : List (Term Var)} {tail : Term Var} :
    (Term.dotted items tail).Below c ↔ (∀ t ∈ items, t.Below c) ∧ tail.Below c := by
  induction items with
  | nil => simp
  | cons t items ih => simp [ih, and_assoc]

/-- A value for every variable. -/
structure Assignment where
  value : Var → Ground
  hasNan_value : ∀ x, (value x).hasNan = false

namespace Assignment

variable {θ η ζ : Assignment} {c k : Nat} {x : Var}

def term (θ : Assignment) (t : Term Var) : Ground := t.bind θ.value

@[simp] theorem term_atom (a : Atom) : θ.term (.atom a) = .atom a := rfl

@[simp] theorem term_var (x : Var) : θ.term (.var x) = θ.value x := rfl

@[simp] theorem term_pair (a d : Term Var) : θ.term (.pair a d) = .pair (θ.term a) (θ.term d) := rfl

def const (t : Ground) (ht : t.hasNan = false) : Assignment := ⟨fun _ => t, fun _ => ht⟩

def update (θ : Assignment) (x : Var) (t : Ground) (ht : t.hasNan = false) : Assignment where
  value y := if y = x then t else θ.value y
  hasNan_value y := by
    split
    · exact ht
    · exact θ.hasNan_value y

@[simp] theorem value_beq_self (x : Var) : (θ.value x == θ.value x) = true := by
  rw [Term.beq_self, θ.hasNan_value]
  rfl

theorem hasNan_term {t : Term Var} (ht : t.hasNan = false) : (θ.term t).hasNan = false := by
  induction t with
  | atom => exact ht
  | var x => exact θ.hasNan_value x
  | pair a d iha ihd =>
    simp only [Term.hasNan, term_pair, Bool.or_eq_false_iff] at ht ⊢
    exact ⟨iha ht.1, ihd ht.2⟩

theorem term_congr {t : Term Var} (h : ∀ x ∈ t.vars, θ.value x = η.value x) : θ.term t = η.term t := by
  induction t with
  | atom => rfl
  | var x => exact h x (by simp [Term.vars])
  | pair a d iha ihd =>
    simp only [Term.vars, List.mem_append] at h
    rw [term_pair, term_pair, iha fun x hx => h x (.inl hx), ihd fun x hx => h x (.inr hx)]

theorem size_value_le {t : Term Var} {x : Var} (h : x ∈ t.vars) :
    (θ.value x).size ≤ (θ.term t).size := by
  induction t with
  | atom => simp [Term.vars] at h
  | var y =>
    obtain rfl : x = y := by simpa [Term.vars] using h
    exact Nat.le_refl _
  | pair a d iha ihd =>
    simp only [Term.vars, List.mem_append] at h
    simp only [term_pair, Term.size]
    rcases h with h | h
    · have := iha h
      omega
    · have := ihd h
      omega

theorem value_update_self {t : Ground} (ht : t.hasNan = false) : (θ.update x t ht).value x = t :=
  if_pos rfl

/-! ## Values tell terms apart -/

/-- Terms with equal values under every assignment are equal. -/
theorem beq_of_forall_term_beq {t u : Term Var} (h : ∀ θ : Assignment, (θ.term t == θ.term u) = true) :
    (t == u) = true := by
  induction t generalizing u with
  | atom a =>
    cases u with
    | atom b => exact h (const .nil rfl)
    | var y => cases h (const (.pair .nil .nil) rfl)
    | pair b e => cases h (const .nil rfl)
  | var x =>
    cases u with
    | atom b => cases h (const (.pair .nil .nil) rfl)
    | var y =>
      by_contra hne
      have hxy : y ≠ x := by
        rintro rfl
        simp at hne
      have hbeq := h ((const .nil rfl).update x (.pair .nil .nil) rfl)
      simp only [term_var, update, const, if_neg hxy, if_pos] at hbeq
      cases hbeq
    | pair b e => cases h (const .nil rfl)
  | pair a d iha ihd =>
    cases u with
    | atom b => cases h (const .nil rfl)
    | var y => cases h (const .nil rfl)
    | pair b e =>
      simp only [term_pair, Term.pair_beq_pair, Bool.and_eq_true] at h ⊢
      exact ⟨iha fun θ => (h θ).1, ihd fun θ => (h θ).2⟩

/-! ## Agreement -/

/-- The assignments agree on the variables with numbers below `c`. -/
def Agree (c : Nat) (θ η : Assignment) : Prop := ∀ x, x.id < c → θ.value x = η.value x

namespace Agree

theorem refl : θ.Agree c θ := fun _ _ => rfl

theorem trans (h₁ : θ.Agree c η) (h₂ : η.Agree c ζ) : θ.Agree c ζ :=
  fun x hx => (h₁ x hx).trans (h₂ x hx)

theorem mono (h : θ.Agree k η) (hck : c ≤ k) : θ.Agree c η := fun x hx => h x (Nat.lt_of_lt_of_le hx hck)

theorem term_eq {t : Term Var} (h : θ.Agree c η) (ht : t.Below c) : θ.term t = η.term t :=
  term_congr fun x hx => h x (ht x hx)

theorem map_eq {env : List (Term Var)} (h : θ.Agree c η) (henv : ∀ t ∈ env, t.Below c) :
    env.map θ.term = env.map η.term :=
  List.map_congr_left fun t ht => h.term_eq (henv t ht)

theorem update (θ : Assignment) {t : Ground} (hx : c ≤ x.id) (ht : t.hasNan = false) :
    θ.Agree c (θ.update x t ht) := by
  intro y hy
  refine (if_neg ?_).symm
  rintro rfl
  omega

end Agree

end Assignment

end Relational
