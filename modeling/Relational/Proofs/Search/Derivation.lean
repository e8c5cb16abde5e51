import Relational.Goal.Search
import Relational.Proofs.Counting
import Mathlib.Logic.Equiv.Defs

/-!
# Derivations

How a goal leads from one state to another, without regard to the order in which a search finds this out:
which side of every disjunction was taken, and what was derived in turn from both parts of every
conjunction.
-/

namespace Relational

variable {ρ : Type} {p : Program ρ} {g h : Goal ρ} {env : List (Term Var)} {s t r : State} {n : Nat}

/-- A way in which a goal leads from a state to a state, with the terms of the goal's bound places. -/
inductive Derivation (p : Program ρ) : Goal ρ → List (Term Var) → State → State → Type where
  | eq {u v : Expr} {env : List (Term Var)} {s r : State}
      (h : s.unify (u.eval env) (v.eval env) = .ok r) : Derivation p (.eq u v) env s r
  | succeed {env : List (Term Var)} {s : State} : Derivation p .succeed env s s
  | conj {g h : Goal ρ} {env : List (Term Var)} {s t r : State} (dg : Derivation p g env s t)
      (dh : Derivation p h env t r) : Derivation p (.conj g h) env s r
  | left {g h : Goal ρ} {env : List (Term Var)} {s r : State} (d : Derivation p g env s r) :
      Derivation p (.disj g h) env s r
  | right {g h : Goal ρ} {env : List (Term Var)} {s r : State} (d : Derivation p h env s r) :
      Derivation p (.disj g h) env s r
  | fresh {g : Goal ρ} {env : List (Term Var)} {s r : State}
      (d : Derivation p g (.var s.freshVar.1 :: env) s.freshVar.2 r) :
      Derivation p (.fresh g) env s r
  | delay {g : Goal ρ} {env : List (Term Var)} {s r : State} (d : Derivation p g env s r) :
      Derivation p (.delay g) env s r
  | call {rel : Rel ρ} {args : List Expr} {env : List (Term Var)} {s r : State}
      (d : Derivation p (p.body rel) (args.map fun e => e.eval env) s r) :
      Derivation p (.call rel args) env s r

namespace Derivation

/-- How many pauses lie one inside the other. -/
def depth {g : Goal ρ} {env : List (Term Var)} {s r : State} : Derivation p g env s r → Nat
  | .eq _ | .succeed => 0
  | .conj dg dh => max dg.depth dh.depth
  | .left d | .right d | .fresh d => d.depth
  | .delay d | .call d => d.depth + 1

theorem not_never {g : Goal ρ} (d : Derivation p g env s r) : g ≠ .never := by
  induction d with
  | @call rel args env s r d ih =>
    rintro ⟨⟩
    exact ih rfl
  | _ => nofun

/-- A search that succeeds again and again succeeds at once or after another round. -/
def alwaysEquiv :
    Derivation p .always env s r ≃ Derivation p .succeed [] s r ⊕ Derivation p .always [] s r where
  toFun
    | .call (.left d) => .inl d
    | .call (.right d) => .inr d
  invFun
    | .inl d => .call (.left d)
    | .inr d => .call (.right d)
  left_inv
    | .call (.left _) => rfl
    | .call (.right _) => rfl
  right_inv
    | .inl _ => rfl
    | .inr _ => rfl

end Derivation

/-! ## All derivations up to a depth -/

/-- The derivations from a state in which at most `n` pauses lie one inside the other, with the states to
which they lead. -/
def derivations (p : Program ρ) (n : Nat) (g : Goal ρ) (env : List (Term Var)) (s : State) :
    List ((r : State) × Derivation p g env s r) :=
  match n, g with
  | _, .eq u v =>
    match h : s.unify (u.eval env) (v.eval env) with
    | .ok r => [⟨r, .eq h⟩]
    | .error _ => []
  | _, .succeed => [⟨s, .succeed⟩]
  | _, .fail => []
  | n, .conj g h =>
    (derivations p n g env s).flatMap fun x =>
      (derivations p n h env x.1).map (Sigma.map id fun _ => .conj x.2)
  | n, .disj g h =>
    (derivations p n g env s).map (Sigma.map id fun _ => .left) ++
      (derivations p n h env s).map (Sigma.map id fun _ => .right)
  | n, .fresh g =>
    (derivations p n g (.var s.freshVar.1 :: env) s.freshVar.2).map (Sigma.map id fun _ => .fresh)
  | 0, .delay _ | 0, .call _ _ => []
  | n + 1, .delay g => (derivations p n g env s).map (Sigma.map id fun _ => .delay)
  | n + 1, .call rel args =>
    (derivations p n (p.body rel) (args.map fun e => e.eval env) s).map (Sigma.map id fun _ => .call)
termination_by (n, g)

theorem mem_derivations (d : Derivation p g env s r) (h : d.depth ≤ n) :
    ⟨r, d⟩ ∈ derivations p n g env s := by
  induction d generalizing n with
  | @eq u v env s r hr =>
    rw [derivations]
    split
    · rename_i q hq
      obtain rfl : r = q := by simpa [hr] using hq
      exact List.mem_singleton_self _
    · simp_all
  | succeed => simp [derivations]
  | conj dg dh ihg ihh =>
    obtain ⟨hg, hh⟩ := Nat.max_le.1 h
    rw [derivations]
    exact List.mem_flatMap.2 ⟨_, ihg hg, List.mem_map.2 ⟨_, ihh hh, rfl⟩⟩
  | left d ih =>
    rw [derivations]
    exact List.mem_append_left _ (List.mem_map.2 ⟨_, ih h, rfl⟩)
  | right d ih =>
    rw [derivations]
    exact List.mem_append_right _ (List.mem_map.2 ⟨_, ih h, rfl⟩)
  | fresh d ih =>
    rw [derivations]
    exact List.mem_map.2 ⟨_, ih h, rfl⟩
  | delay d ih =>
    cases n with
    | zero => cases h
    | succ n =>
      rw [derivations]
      exact List.mem_map.2 ⟨_, ih (Nat.le_of_succ_le_succ h), rfl⟩
  | call d ih =>
    cases n with
    | zero => cases h
    | succ n =>
      rw [derivations]
      exact List.mem_map.2 ⟨_, ih (Nat.le_of_succ_le_succ h), rfl⟩

theorem nodup_derivations (p : Program ρ) (n : Nat) (g : Goal ρ) (env : List (Term Var)) (s : State) :
    (derivations p n g env s).Nodup := by
  match n, g with
  | n, .eq u v =>
    rw [derivations]
    split
    · exact List.nodup_singleton _
    · exact List.nodup_nil
  | n, .succeed =>
    rw [derivations]
    exact List.nodup_singleton _
  | n, .fail =>
    rw [derivations]
    exact List.nodup_nil
  | n, .conj g h =>
    rw [derivations]
    refine nodup_flatMap_sigma (H := fun x => Derivation p h env x.1)
      (f := fun x _ => Derivation.conj x.2) (nodup_derivations p n g env s)
      (fun x => nodup_derivations p n h env x.1) (fun x r a b hab => ?_) fun x y r a b hab => ?_
    · cases hab
      rfl
    · obtain ⟨t, dx⟩ := x
      obtain ⟨t', dy⟩ := y
      cases hab
      rfl
  | n, .disj g h =>
    rw [derivations, List.nodup_append']
    refine ⟨?_, ?_, ?_⟩
    · exact nodup_map_sigma (nodup_derivations p n g env s) fun _ _ _ => Derivation.left.inj
    · exact nodup_map_sigma (nodup_derivations p n h env s) fun _ _ _ => Derivation.right.inj
    · simp only [List.disjoint_left, List.mem_map]
      rintro _ ⟨⟨r, a⟩, -, rfl⟩ ⟨⟨q, b⟩, -, hb⟩
      cases hb
  | n, .fresh g =>
    rw [derivations]
    exact nodup_map_sigma (nodup_derivations p n g _ _) fun _ _ _ => Derivation.fresh.inj
  | 0, .delay _ | 0, .call _ _ =>
    rw [derivations]
    exact List.nodup_nil
  | n + 1, .delay g =>
    rw [derivations]
    exact nodup_map_sigma (nodup_derivations p n g env s) fun _ _ _ => Derivation.delay.inj
  | n + 1, .call rel args =>
    rw [derivations]
    exact nodup_map_sigma (nodup_derivations p n (p.body rel) _ s) fun _ _ _ => Derivation.call.inj
termination_by (n, g)

end Relational
