import Relational.Term.Basic
import Mathlib

/-!
# Equality of terms

`==` on floats, atoms and terms is symmetric and transitive, and a term is equal to itself unless a NaN
occurs in it.
-/

namespace Relational

/-! ## Floats -/

open Float.Model (UnpackedFloat)

/-- The number that an unpacked float stands for, with one spelling for the two zeros. -/
def number? : UnpackedFloat → Option UnpackedFloat
  | .notANumber => none
  | .zero _ => some (.zero .positive)
  | x => some x

theorem unpacked_beq {x y : UnpackedFloat} :
    x.beq y = true ↔ number? x = number? y ∧ (number? y).isSome = true := by
  rw [UnpackedFloat.beq_iff_ne_notANumber_and_eq]
  cases x with
  | zero s =>
    cases y with
    | zero t => cases s <;> cases t <;> simp [number?]
    | _ => simp [number?]
  | _ => cases y <;> simp [number?]

def floatNumber? (x : Float) : Option UnpackedFloat := number? x.toModel.unpack

theorem float_beq {x y : Float} :
    (x == y) = true ↔ floatNumber? x = floatNumber? y ∧ (floatNumber? y).isSome = true :=
  unpacked_beq

instance instPartialEquivBEqFloat : PartialEquivBEq Float where
  symm h := by
    rw [float_beq] at h ⊢
    exact ⟨h.1.symm, h.1 ▸ h.2⟩
  trans h₁ h₂ := by
    rw [float_beq] at h₁ h₂ ⊢
    exact ⟨h₁.1.trans h₂.1, h₂.2⟩

theorem float_beq_self (x : Float) : (x == x) = !x.isNaN := by
  rw [Bool.eq_iff_iff, float_beq]
  simp only [floatNumber?, Float.isNaN, Float.Model.isNaN, true_and]
  cases x.toModel.unpack <;> simp [number?, UnpackedFloat.isNaN]

/-! ## Atoms -/

def Atom.isNan : Atom → Bool
  | .float x => x.isNaN
  | _ => false

instance : PartialEquivBEq Atom where
  symm {a b} h := by
    change a.beq b = true at h
    change b.beq a = true
    cases a <;> cases b <;> simp only [Atom.beq, Bool.false_eq_true] at h ⊢ <;> exact BEq.symm h
  trans {a b c} h₁ h₂ := by
    change a.beq b = true at h₁
    change b.beq c = true at h₂
    change a.beq c = true
    cases a <;> cases b <;> simp only [Atom.beq, Bool.false_eq_true] at h₁ <;> cases c <;>
      simp only [Atom.beq, Bool.false_eq_true] at h₂ ⊢ <;> exact BEq.trans h₁ h₂

theorem Atom.beq_self (a : Atom) : (a == a) = !a.isNan := by
  change a.beq a = _
  cases a <;> simp [Atom.beq, Atom.isNan, float_beq_self]

/-! ## Terms -/

namespace Term

variable {ν : Type}

/-- Does a NaN occur in the term? -/
def hasNan : Term ν → Bool
  | .atom a => a.isNan
  | .var _ => false
  | .pair a d => a.hasNan || d.hasNan

variable [BEq ν]

@[simp] theorem atom_beq_atom {a b : Atom} : ((atom a : Term ν) == atom b) = (a == b) := rfl

@[simp] theorem var_beq_var {x y : ν} : ((var x : Term ν) == var y) = (x == y) := rfl

@[simp] theorem pair_beq_pair {a d b e : Term ν} : (pair a d == pair b e) = (a == b && d == e) := rfl

@[simp] theorem atom_beq_pair {a : Atom} {b e : Term ν} : (atom a == pair b e) = false := rfl

@[simp] theorem pair_beq_atom {a d : Term ν} {b : Atom} : (pair a d == atom b) = false := rfl

protected theorem beq_symm [PartialEquivBEq ν] {t u : Term ν} (h : (t == u) = true) :
    (u == t) = true := by
  induction t generalizing u with
  | atom a =>
    cases u with
    | atom b =>
      rw [atom_beq_atom] at h ⊢
      exact BEq.symm h
    | _ => cases h
  | var x =>
    cases u with
    | var y =>
      rw [var_beq_var] at h ⊢
      exact BEq.symm h
    | _ => cases h
  | pair a d iha ihd =>
    cases u with
    | pair b e =>
      simp only [pair_beq_pair, Bool.and_eq_true] at h ⊢
      exact ⟨iha h.1, ihd h.2⟩
    | _ => cases h

protected theorem beq_trans [PartialEquivBEq ν] {t u v : Term ν} (h₁ : (t == u) = true)
    (h₂ : (u == v) = true) : (t == v) = true := by
  induction u generalizing t v with
  | atom b =>
    cases t with
    | atom a =>
      cases v with
      | atom c =>
        rw [atom_beq_atom] at h₁ h₂ ⊢
        exact BEq.trans h₁ h₂
      | _ => cases h₂
    | _ => cases h₁
  | var y =>
    cases t with
    | var x =>
      cases v with
      | var z =>
        rw [var_beq_var] at h₁ h₂ ⊢
        exact BEq.trans h₁ h₂
      | _ => cases h₂
    | _ => cases h₁
  | pair b e ihb ihe =>
    cases t with
    | pair a d =>
      cases v with
      | pair c f =>
        simp only [pair_beq_pair, Bool.and_eq_true] at h₁ h₂ ⊢
        exact ⟨ihb h₁.1 h₂.1, ihe h₁.2 h₂.2⟩
      | _ => cases h₂
    | _ => cases h₁

instance [PartialEquivBEq ν] : PartialEquivBEq (Term ν) := ⟨Term.beq_symm, Term.beq_trans⟩

theorem beq_self [ReflBEq ν] (t : Term ν) : (t == t) = !t.hasNan := by
  induction t with
  | atom a => simp [hasNan, Atom.beq_self]
  | var x => simp [hasNan]
  | pair a d iha ihd => simp [hasNan, iha, ihd]

theorem size_eq_of_beq {t u : Term ν} (h : (t == u) = true) : t.size = u.size := by
  induction t generalizing u with
  | atom | var =>
    cases u with
    | atom | var => rfl
    | pair => cases h
  | pair a d iha ihd =>
    cases u with
    | pair b e =>
      simp only [pair_beq_pair, Bool.and_eq_true] at h
      simp only [size, iha h.1, ihd h.2]
    | _ => cases h

end Term

end Relational
