import Relational.Proofs.Search.Combinators
import Relational.Proofs.Stream.Receiving

/-!
# Units

Merging with the empty stream and binding to the stream of one item change nothing, not even where a stream
pauses: although a merge turns its streams round at every pause, the empty one is gone after the first. So
it makes no difference that the last of several searches stands as it is where a fold over them would combine
it with success or failure.
-/

namespace Relational

/-! ## Units of streams -/

namespace Stream

variable {κ α : Type} {run : κ → Stream κ α}

namespace Alike

/-- What a function makes of a stream is like it when the function takes the ends and the items over and only
changes what is left to do. -/
theorem of_keeps {f : Stream κ α → Stream κ α} (empty : f .empty = .empty)
    (cons : ∀ x s, f (.cons x s) = .cons x (f s))
    (suspended : ∀ work, ∃ work', f (.suspended work) = .suspended work' ∧ work'.hangs = work.hangs ∧
      work'.resume run = f (work.resume run))
    (s : Stream κ α) : Alike run run id (f s) s := by
  intro n
  induction n generalizing s with
  | zero => exact .zero
  | succ n ih =>
    cases s with
    | empty =>
      rw [empty]
      exact .empty
    | cons x s =>
      rw [cons]
      exact .cons (ih s)
    | suspended work =>
      obtain ⟨work', hwork', hhangs, hresume⟩ := suspended work
      rw [hwork']
      exact .suspended hhangs (hresume ▸ ih (work.resume run))

theorem refl (run : κ → Stream κ α) (s : Stream κ α) : Alike run run id s s :=
  of_keeps (f := id) rfl (fun _ _ => rfl) (fun work => ⟨work, rfl, rfl, rfl⟩) s

theorem bind_single (run : κ → Stream κ α) (s : Stream κ α) : Alike run run id (s.bind single) s :=
  of_keeps (f := fun s => s.bind single) rfl (fun _ _ => rfl)
    (fun work => ⟨.bind work single, rfl, rfl, rfl⟩) s

theorem merge_empty (run : κ → Stream κ α) (s : Stream κ α) : Alike run run id (s.merge .empty) s := by
  intro n
  induction n generalizing s with
  | zero => exact .zero
  | succ n ih =>
    cases s with
    | empty => exact .empty
    | cons x s => exact .cons (ih s)
    | suspended work =>
      -- At this pause the empty stream comes to the left and is gone.
      exact .suspended rfl (refl run (work.resume run) n)

end Alike

end Stream

/-! ## Folds of searches -/

namespace Search

variable {ρ : Type}

theorem alike_foldr_conj (p : Program ρ) (fs : List (Search ρ)) (s : State) :
    Stream.Alike (Job.run p) (Job.run p) id (fs.foldr conj succeed s) (conjAll fs s) := by
  match fs with
  | [] => exact .refl _ _
  | [f] => exact .bind_single _ (f s)
  | f :: g :: fs => exact (Stream.Alike.refl _ (f s)).bind fun r => alike_foldr_conj p (g :: fs) r

theorem alike_foldr_disj (p : Program ρ) (fs : List (Search ρ)) (s : State) :
    Stream.Alike (Job.run p) (Job.run p) id (fs.foldr disj fail s) (disjAll fs s) := by
  match fs with
  | [] => exact .refl _ _
  | [f] => exact .merge_empty _ (f s)
  | f :: g :: fs => exact (Stream.Alike.refl _ (f s)).merge (alike_foldr_disj p (g :: fs) s)

theorem trace_foldr (p : Program ρ) (fs : List (Search ρ)) (s : State) (n : Nat) :
    (conjAll fs s).trace (Job.run p) n = (fs.foldr conj succeed s).trace (Job.run p) n ∧
      (disjAll fs s).trace (Job.run p) n = (fs.foldr disj fail s).trace (Job.run p) n :=
  ⟨((alike_foldr_conj p fs s).trace_eq n).symm, ((alike_foldr_disj p fs s).trace_eq n).symm⟩

theorem trace_strict_foldr (p : Program ρ) (fs : List (Search ρ)) (s : State) (n : Nat) :
    (conjAll fs s).strict.trace (Stream.strictly (Job.run p)) n =
        (fs.foldr conj succeed s).strict.trace (Stream.strictly (Job.run p)) n ∧
      (disjAll fs s).strict.trace (Stream.strictly (Job.run p)) n =
        (fs.foldr disj fail s).strict.trace (Stream.strictly (Job.run p)) n :=
  ⟨((alike_foldr_conj p fs s).strict.trace_eq n).symm, ((alike_foldr_disj p fs s).strict.trace_eq n).symm⟩

end Search

/-! ## Unit laws -/

/-- The unit laws hold for the whole of a stream, items and pauses. The empty stream is a unit of `merge` on
either side, and `single` is one of `bind`. Hence all of several searches, or one of them, goes just as the
right fold that ends in `succeed` or in `fail`, also where it hangs; and so it is with goals. -/
theorem unit_laws :
    (∀ {κ α : Type} (run : κ → Stream κ α) (s : Stream κ α) (n : Nat),
      (s.merge .empty).trace run n = s.trace run n ∧
      (Stream.empty.merge s).trace run n = s.trace run n ∧
      (s.bind .single).trace run n = s.trace run n ∧
      ∀ (x : α) (g : α → Stream κ α), ((Stream.single x).bind g).trace run n = (g x).trace run n) ∧
    (∀ {ρ : Type} (p : Program ρ) (fs : List (Search ρ)) (s : State) (n : Nat),
      ((Search.conjAll fs s).trace (Job.run p) n =
          (fs.foldr Search.conj Search.succeed s).trace (Job.run p) n ∧
        (Search.disjAll fs s).trace (Job.run p) n =
          (fs.foldr Search.disj Search.fail s).trace (Job.run p) n) ∧
      (Search.conjAll fs s).strict.trace (Stream.strictly (Job.run p)) n =
        (fs.foldr Search.conj Search.succeed s).strict.trace (Stream.strictly (Job.run p)) n ∧
      (Search.disjAll fs s).strict.trace (Stream.strictly (Job.run p)) n =
        (fs.foldr Search.disj Search.fail s).strict.trace (Stream.strictly (Job.run p)) n) ∧
    ∀ {ρ : Type} (p : Program ρ) (gs : List (Goal ρ)) (env : List (Term Var)) (s : State) (n : Nat),
      ((Goal.conjAll gs).applyIn p env s).trace (Job.run p) n =
        ((gs.foldr Goal.conj Goal.succeed).applyIn p env s).trace (Job.run p) n ∧
      ((Goal.disjAll gs).applyIn p env s).trace (Job.run p) n =
        ((gs.foldr Goal.disj Goal.fail).applyIn p env s).trace (Job.run p) n := by
  refine ⟨fun run s n => ?_, fun p fs s n => ?_, fun p gs env s n => ?_⟩
  · have hmerge (s : Stream _ _) : (s.merge .empty).trace run n = s.trace run n :=
      (Stream.Alike.merge_empty run s).trace_eq n
    exact ⟨hmerge s, rfl, (Stream.Alike.bind_single run s).trace_eq n, fun x g => hmerge (g x)⟩
  · exact ⟨Search.trace_foldr p fs s n, Search.trace_strict_foldr p fs s n⟩
  · rw [Goal.applyIn_conjAll, Goal.applyIn_disjAll, Goal.applyIn_foldr_conj, Goal.applyIn_foldr_disj]
    exact Search.trace_foldr p _ s n

end Relational
