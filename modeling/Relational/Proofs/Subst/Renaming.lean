import Relational.Proofs.Subst.Naming
import Relational.Subst.Unify

/-!
# Renamed substitutions

Nothing that is done with a substitution depends on which variables it is about: when all its variables are
renamed, different ones differently, values, unifications and resolved terms are renamed with them, and
reified terms stay as they are.
-/

namespace Relational

/-! ## Renamed terms -/

namespace Term

variable {ν μ κ : Type} {f : ν → μ}

theorem size_map (f : ν → μ) (t : Term ν) : (t.map f).size = t.size := by
  induction t with
  | atom | var => rfl
  | pair a d iha ihd => simp [map, size, iha, ihd]

theorem bind?_map (f : ν → μ) (g : μ → Option (Term κ)) (t : Term ν) :
    (t.map f).bind? g = t.bind? fun x => g (f x) := by
  induction t with
  | atom | var => rfl
  | pair a d iha ihd => simp [map, bind?, iha, ihd]

theorem map_bind? (f : μ → κ) (g : ν → Option (Term μ)) (t : Term ν) :
    (t.bind? g).map (map f) = t.bind? fun x => (g x).map (map f) := by
  induction t with
  | atom | var => rfl
  | pair a d iha ihd =>
    simp only [bind?, ← iha, ← ihd]
    cases a.bind? g <;> cases d.bind? g <;> rfl

end Term

namespace Subst

variable {f : Var → Var} {s : Subst}

/-- The substitution with all its variables renamed. -/
def rename (f : Var → Var) (s : Subst) : Subst := ⟨s.bindings.map fun b => (f b.1, b.2.map f)⟩

@[simp] theorem size_rename (f : Var → Var) (s : Subst) : (s.rename f).size = s.size := by
  simp [size, rename]

@[simp] theorem rename_extend (f : Var → Var) (s : Subst) (x : Var) (t : Term Var) :
    (s.extend x t).rename f = (s.rename f).extend (f x) (t.map f) := rfl

section injective

variable (hf : Function.Injective f)
include hf

theorem lookup_rename (s : Subst) (x : Var) :
    (s.rename f).lookup (f x) = (s.lookup x).map (Term.map f) := by
  obtain ⟨bs⟩ := s
  induction bs with
  | nil => rfl
  | cons b bs ih =>
    obtain ⟨y, t⟩ := b
    change ((Subst.mk bs).extend y t |>.rename f).lookup (f x) = (((Subst.mk bs).extend y t).lookup x).map _
    simp only [rename_extend, lookup_extend, hf.eq_iff, ih]
    split <;> rfl

/-! ## Values -/

theorem walkWithin_rename (n : Nat) (t : Term Var) :
    (s.rename f).walkWithin n (t.map f) = (s.walkWithin n t).map (Term.map f) := by
  induction n generalizing t with
  | zero =>
    cases t with
    | var x => cases hx : s.lookup x <;> simp [walkWithin, Term.map, lookup_rename hf, hx]
    | _ => rfl
  | succ n ih =>
    cases t with
    | var x => cases hx : s.lookup x <;> simp [walkWithin, Term.map, lookup_rename hf, hx, ih]
    | _ => rfl

theorem walk_rename (s : Subst) (t : Term Var) :
    (s.rename f).walk (t.map f) = (s.walk t).map (Term.map f) := by
  cases t with
  | var x =>
    have h := walkWithin_rename hf (s := s) s.size (.var x)
    simpa [walk, Term.map] using h
  | _ => rfl

/-! ## Unification -/

theorem unifyWithin_rename (n : Nat) (s : Subst) (u v : Term Var) :
    unifyWithin n (s.rename f) (u.map f) (v.map f) = (unifyWithin n s u v).map (rename f) := by
  induction n generalizing s u v with
  | zero => rfl
  | succ n ih =>
    simp only [unifyWithin, walk_rename hf]
    cases s.walk u with
    | none => rfl
    | some t =>
      cases s.walk v with
      | none => cases t <;> rfl
      | some w =>
        cases t with
        | var x =>
          cases w with
          | var y =>
            simp only [Option.map_some, Term.map, hf.eq_iff]
            split <;> rfl
          | _ => rfl
        | atom a =>
          cases w with
          | atom b =>
            simp only [Option.map_some, Term.map]
            split <;> rfl
          | _ => rfl
        | pair a d =>
          cases w with
          | pair b e =>
            simp only [Option.map_some, Term.map, ih]
            cases unifyWithin n s a b with
            | ok r => exact ih r d e
            | error failure => rfl
          | _ => rfl

theorem unify_rename (s : Subst) (u v : Term Var) :
    (s.rename f).unify (u.map f) (v.map f) = (s.unify u v).map (rename f) := by
  have hdepth : (s.rename f).depthBound (u.map f) (v.map f) = s.depthBound u v := by
    simp [depthBound, rename, Term.size_map, List.foldr_map]
  simp only [unify, unifyWithin_rename hf, hdepth]
  cases unifyWithin shallow s u v with
  | ok r => rfl
  | error failure => cases failure <;> rfl

/-! ## Resolved and reified terms -/

theorem resolveWithin_rename (n : Nat) (t : Term Var) :
    (s.rename f).resolveWithin n (t.map f) = (s.resolveWithin n t).map (Term.map f) := by
  induction n generalizing t with
  | zero =>
    rw [resolveWithin, resolveWithin, Term.bind?_map, Term.map_bind?]
    congr 1
    funext x
    cases hx : s.lookup x <;> simp [lookup_rename hf, hx, Term.map]
  | succ n ih =>
    rw [resolveWithin, resolveWithin, Term.bind?_map, Term.map_bind?]
    congr 1
    funext x
    cases hx : s.lookup x <;> simp [lookup_rename hf, hx, Term.map, ih]

theorem resolve_rename (s : Subst) (t : Term Var) :
    (s.rename f).resolve (t.map f) = (s.resolve t).map (Term.map f) := by
  rw [resolve, resolve, size_rename, resolveWithin_rename hf]

/-- Reified terms do not show the variables. -/
theorem reify_rename (s : Subst) (t : Term Var) : (s.rename f).reify (t.map f) = s.reify t := by
  rw [reify_eq, reify_eq, resolve_rename hf, Option.map_map]
  congr 1
  funext w
  exact Term.canonical_map fun x _ y _ hxy => hf hxy

end injective

end Subst

end Relational
