import Relational.Proofs.Search.Validity
import Relational.Proofs.Stream.Blocks

/-!
# Goals that do not pause

A goal without pauses and calls is a program over lists: an equation gives one state or none, alternatives
stand one behind the other, and of two goals the second is run in every state that the first one gives. Its
search has all its answers at hand, in this order.
-/

namespace Relational

/-! ## Streams at hand -/

namespace Stream

variable {κ α : Type} {xs : List α} {f : α → List α} {g : α → Stream κ α}

@[simp] theorem ofList_nil : (ofList [] : Stream κ α) = .empty := rfl

@[simp] theorem ofList_cons (x : α) (xs : List α) :
    (ofList (x :: xs) : Stream κ α) = .cons x (ofList xs) := rfl

theorem ofList_merge (xs ys : List α) :
    (ofList xs : Stream κ α).merge (ofList ys) = ofList (xs ++ ys) := by
  induction xs with
  | nil => rfl
  | cons x xs ih => simp [ih]

theorem ofList_bind (h : ∀ x ∈ xs, g x = ofList (f x)) :
    (ofList xs).bind g = ofList (xs.flatMap f) := by
  induction xs with
  | nil => rfl
  | cons x xs ih =>
    rw [List.forall_mem_cons] at h
    rw [ofList_cons, cons_bind, h.1, ih h.2, ofList_merge, List.flatMap_cons]

end Stream

/-! ## Results -/

namespace Goal

variable {ρ : Type} {p : Program ρ} {g : Goal ρ} {env : List (Term Var)} {s : State}

/-- Does the search for the goal never pause? The goals on pairs and on the empty list are of this kind. -/
def delayFree : Goal ρ → Bool
  | .eq _ _ | .succeed | .fail => true
  | .conj g h | .disj g h => g.delayFree && h.delayFree
  | .fresh g => g.delayFree
  | .delay _ | .call _ _ => false

/-- The states in which a goal holds, as a list. Nothing is said of goals that pause. -/
def results : Goal ρ → List (Term Var) → State → List State
  | .eq u v, env, s =>
    match s.unify (u.eval env) (v.eval env) with
    | .ok r => [r]
    | .error _ => []
  | .succeed, _, s => [s]
  | .fail, _, _ => []
  | .conj g h, env, s => (g.results env s).flatMap fun r => h.results env r
  | .disj g h, env, s => g.results env s ++ h.results env s
  | .fresh g, env, s => g.results (.var s.freshVar.1 :: env) s.freshVar.2
  | .delay _, _, _ | .call _ _, _, _ => []

/-- Every unification that is made on the way to the results comes to an end. -/
def Settles : Goal ρ → List (Term Var) → State → Prop
  | .eq u v, env, s => s.unify (u.eval env) (v.eval env) ≠ .error .endless
  | .conj g h, env, s => g.Settles env s ∧ ∀ r ∈ g.results env s, h.Settles env r
  | .disj g h, env, s => g.Settles env s ∧ h.Settles env s
  | .fresh g, env, s => g.Settles (.var s.freshVar.1 :: env) s.freshVar.2
  | _, _, _ => True

/-! ## Combined goals -/

@[simp] theorem conjAll_cons_cons (g h : Goal ρ) (gs : List (Goal ρ)) :
    conjAll (g :: h :: gs) = .conj g (conjAll (h :: gs)) := rfl

@[simp] theorem disjAll_cons_cons (g h : Goal ρ) (gs : List (Goal ρ)) :
    disjAll (g :: h :: gs) = .disj g (disjAll (h :: gs)) := rfl

theorem delayFree_conjAll (gs : List (Goal ρ)) : (conjAll gs).delayFree = gs.all delayFree := by
  match gs with
  | [] => rfl
  | [g] => simp [conjAll]
  | g :: h :: gs =>
    rw [conjAll_cons_cons, delayFree, delayFree_conjAll (h :: gs)]
    rfl

theorem delayFree_disjAll (gs : List (Goal ρ)) : (disjAll gs).delayFree = gs.all delayFree := by
  match gs with
  | [] => rfl
  | [g] => simp [disjAll]
  | g :: h :: gs =>
    rw [disjAll_cons_cons, delayFree, delayFree_disjAll (h :: gs)]
    rfl

theorem delayFree_freshN (n : Nat) (g : Goal ρ) : (freshN n g).delayFree = g.delayFree := by
  induction n with
  | zero => rfl
  | succ n ih => exact ih

theorem flatMap_results_conjAll (gs : List (Goal ρ)) (env : List (Term Var)) (ss : List State) :
    (ss.flatMap fun s => (conjAll gs).results env s) =
      gs.foldl (fun ss g => ss.flatMap fun s => g.results env s) ss := by
  match gs with
  | [] => simp [conjAll, results]
  | [g] => simp [conjAll]
  | g :: h :: gs =>
    rw [List.foldl_cons, ← flatMap_results_conjAll (h :: gs), List.flatMap_assoc]
    rfl

/-- Each goal is run in all the states that the goals before it have led to. -/
theorem results_conjAll (gs : List (Goal ρ)) (env : List (Term Var)) (s : State) :
    (conjAll gs).results env s = gs.foldl (fun ss g => ss.flatMap fun s => g.results env s) [s] := by
  simpa using flatMap_results_conjAll gs env [s]

theorem results_disjAll (gs : List (Goal ρ)) (env : List (Term Var)) (s : State) :
    (disjAll gs).results env s = gs.flatMap fun g => g.results env s := by
  match gs with
  | [] => rfl
  | [g] => simp [disjAll]
  | g :: h :: gs =>
    rw [disjAll_cons_cons, results, results_disjAll (h :: gs)]
    rfl

/-- The body of a goal with new variables is run where all of them have been made. -/
theorem results_freshN (n : Nat) (g : Goal ρ) (env : List (Term Var)) (s : State) :
    (freshN n g).results env s =
      g.results (((s.freshVars n).1.map Term.var).reverse ++ env) (s.freshVars n).2 := by
  induction n generalizing env s with
  | zero => rfl
  | succ n ih => simp [freshN, results, ih, State.freshVars]

/-! ## Searches without pauses -/

theorem applyIn_eq_ofList (p : Program ρ) (hg : g.delayFree = true) (hs : g.Settles env s) :
    g.applyIn p env s = .ofList (g.results env s) := by
  induction g generalizing env s with
  | eq u v =>
    simp only [Settles] at hs
    simp only [applyIn, results]
    cases hr : s.unify (u.eval env) (v.eval env) with
    | ok r => rfl
    | error failure =>
      cases failure with
      | clash => rfl
      | endless => exact (hs hr).elim
  | succeed | fail => rfl
  | conj g h ihg ihh =>
    simp only [delayFree, Bool.and_eq_true] at hg
    rw [applyIn, ihg hg.1 hs.1, results]
    exact Stream.ofList_bind fun r hr => ihh hg.2 (hs.2 r hr)
  | disj g h ihg ihh =>
    simp only [delayFree, Bool.and_eq_true] at hg
    rw [applyIn, ihg hg.1 hs.1, ihh hg.2 hs.2, Stream.ofList_merge, results]
  | fresh g ih => exact ih hg hs
  | delay | call => cases hg

/-- The search for a goal without pauses has all its answers at hand, and they are the results of the goal
in their order, provided that the unifications on the way end. -/
theorem apply_eq_ofList (p : Program ρ) (hg : g.delayFree = true) (hs : g.Settles [] s) :
    g.apply p s = .ofList (g.results [] s) :=
  applyIn_eq_ofList p hg hs

/-- Two values for the first of two variables, and two ways to go on, one of which fails for the second
value. -/
theorem apply_eq_ofList_choices :
    let g : Goal Empty := .freshN 2 (.conj
      (disjAll [.eq (Expr.bound 1) (.int 1), .fail, .eq (Expr.bound 1) (.int 2)])
      (disjAll [.eq (Expr.bound 0) (Expr.bound 1), car (.pair (.int 1) .nil) (Expr.bound 1)]))
    g.delayFree = true ∧ g.Settles [] .empty ∧
      g.apply nofun .empty = .ofList [
        ⟨(Subst.empty.extend ⟨0⟩ (.int 1)).extend ⟨1⟩ (.int 1), 2⟩,
        ⟨(Subst.empty.extend ⟨0⟩ (.int 1)).extend ⟨2⟩ .nil, 3⟩,
        ⟨(Subst.empty.extend ⟨0⟩ (.int 2)).extend ⟨1⟩ (.int 2), 2⟩] := by
  intro g
  have hg : g.delayFree = true := rfl
  have hs : g.Settles [] .empty := by
    refine ⟨⟨nofun, trivial, nofun⟩, fun r hr => ?_⟩
    rcases hr with _ | ⟨_, _ | ⟨_, ⟨⟩⟩⟩
    · exact ⟨nofun, nofun⟩
    · exact ⟨nofun, nofun⟩
  exact ⟨hg, hs, apply_eq_ofList nofun hg hs⟩

end Goal

end Relational
