import Relational.Proofs.Search.Derivation
import Relational.Proofs.Stream.Delivery
import Mathlib.Data.Fintype.Order

/-!
# Answers and derivations

A search delivers every state as often as there are derivations of it, whatever the other branches of the
search do.
-/

namespace Relational

variable {ρ : Type} {p : Program ρ} {g h : Goal ρ} {env : List (Term Var)} {s r : State} {m n : Nat}

/-! ## Derived states -/

/-- The states that are derived with at most `n` pauses one inside the other, each as often as there are
such derivations. -/
def derived (p : Program ρ) (n : Nat) (g : Goal ρ) (env : List (Term Var)) (s : State) :
    Multiset State :=
  ((derivations p n g env s).map Sigma.fst : List State)

theorem derived_eq_of_ok {u v : Expr} (h : s.unify (u.eval env) (v.eval env) = .ok r) :
    derived p n (.eq u v) env s = {r} := by
  rw [derived, derivations]
  split
  · rename_i q hq
    obtain rfl : r = q := by simpa [h] using hq
    rfl
  · simp_all

theorem derived_eq_of_error {u v : Expr} {e : Failure}
    (h : s.unify (u.eval env) (v.eval env) = .error e) : derived p n (.eq u v) env s = 0 := by
  rw [derived, derivations]
  split
  · simp_all
  · rfl

theorem derived_succeed : derived p n .succeed env s = {s} := by
  rw [derived, derivations]
  rfl

theorem derived_fail : derived p n .fail env s = 0 := by
  rw [derived, derivations]
  rfl

theorem derived_conj :
    derived p n (.conj g h) env s = (derived p n g env s).bind fun t => derived p n h env t := by
  simp only [derived, derivations, List.map_flatMap, map_fst_map_sigma, Multiset.coe_bind,
    List.flatMap_map]
  rfl

theorem derived_disj :
    derived p n (.disj g h) env s = derived p n g env s + derived p n h env s := by
  simp only [derived, derivations, List.map_append, map_fst_map_sigma, Multiset.coe_add]

theorem derived_fresh :
    derived p n (.fresh g) env s = derived p n g (.var s.freshVar.1 :: env) s.freshVar.2 := by
  rw [derived, derivations, map_fst_map_sigma]
  rfl

theorem derived_delay : derived p (n + 1) (.delay g) env s = derived p n g env s := by
  rw [derived, derivations, map_fst_map_sigma]
  rfl

theorem derived_call {rel : Rel ρ} {args : List Expr} :
    derived p (n + 1) (.call rel args) env s =
      derived p n (p.body rel) (args.map fun e => e.eval env) s := by
  rw [derived, derivations, map_fst_map_sigma]
  rfl

/-! ## Delivered and derived -/

theorem delivered_wait (p : Program ρ) (n : Nat) (job : Job ρ) :
    job.wait.delivered (Job.run p) (n + 1) = (job.run p).delivered (Job.run p) n :=
  Stream.delivered_suspended _ n

theorem delivered_never (p : Program ρ) (n : Nat) (s : State) :
    (Job.wait ⟨.never, [], s⟩ : Answers ρ).delivered (Job.run p) n = [] := by
  induction n with
  | zero => rfl
  | succ n ih => exact (delivered_wait p n _).trans ih

theorem delivered_endless (p : Program ρ) (n : Nat) (s : State) :
    (Goal.endless s : Answers ρ).delivered (Job.run p) n = [] := by
  cases n with
  | zero => rfl
  | succ n => exact (Stream.delivered_suspended _ n).trans (delivered_never p n s)

theorem delivered_applyIn_le (p : Program ρ) (n : Nat) (g : Goal ρ) (env : List (Term Var))
    (s : State) :
    ((g.applyIn p env s).delivered (Job.run p) n : Multiset State) ≤ derived p n g env s := by
  match n, g with
  | n, .eq u v =>
    rw [Goal.applyIn]
    split
    · rename_i r hr
      rw [derived_eq_of_ok hr]
      exact Stream.delivered_single_le n r
    · rw [Stream.delivered_empty]
      exact Multiset.zero_le _
    · rw [delivered_endless]
      exact Multiset.zero_le _
  | n, .succeed =>
    rw [derived_succeed]
    exact Stream.delivered_single_le n s
  | n, .fail =>
    rw [Goal.applyIn, Stream.delivered_empty]
    exact Multiset.zero_le _
  | n, .conj g h =>
    rw [derived_conj]
    let M : Multiset State := (g.applyIn p env s).delivered (Job.run p) n
    calc (((Goal.conj g h).applyIn p env s).delivered (Job.run p) n : Multiset State)
      _ ≤ M.bind fun t => (h.applyIn p env t).delivered (Job.run p) n :=
        Stream.delivered_bind_le n (g.applyIn p env s) fun t => h.applyIn p env t
      _ ≤ M.bind fun t => derived p n h env t :=
        Multiset.bind_le_bind_right M fun t _ => delivered_applyIn_le p n h env t
      _ ≤ (derived p n g env s).bind fun t => derived p n h env t :=
        Multiset.bind_le_bind_left (delivered_applyIn_le p n g env s) _
  | n, .disj g h =>
    rw [derived_disj]
    exact (Stream.delivered_merge_le n _ _).trans
      (add_le_add (delivered_applyIn_le p n g env s) (delivered_applyIn_le p n h env s))
  | n, .fresh g =>
    rw [derived_fresh]
    exact delivered_applyIn_le p n g _ _
  | 0, .delay _ | 0, .call _ _ => exact Multiset.zero_le _
  | n + 1, .delay g =>
    rw [derived_delay, Goal.applyIn, delivered_wait]
    exact delivered_applyIn_le p n g env s
  | n + 1, .call rel args =>
    rw [derived_call, Goal.applyIn, delivered_wait]
    exact delivered_applyIn_le p n (p.body rel) _ s
termination_by (n, g)

theorem delivers_applyIn (p : Program ρ) (n : Nat) (g : Goal ρ) (env : List (Term Var)) (s : State) :
    (g.applyIn p env s).Delivers (Job.run p) (derived p n g env s) := by
  match n, g with
  | n, .eq u v =>
    cases h : s.unify (u.eval env) (v.eval env) with
    | ok r =>
      rw [derived_eq_of_ok h, Goal.applyIn, h]
      exact Stream.delivers_single r
    | error e =>
      rw [derived_eq_of_error h]
      exact Stream.delivers_zero _
  | n, .succeed =>
    rw [derived_succeed]
    exact Stream.delivers_single s
  | n, .fail =>
    rw [derived_fail]
    exact Stream.delivers_zero _
  | n, .conj g h =>
    rw [derived_conj]
    exact (delivers_applyIn p n g env s).bind fun t => delivers_applyIn p n h env t
  | n, .disj g h =>
    rw [derived_disj]
    exact (delivers_applyIn p n g env s).merge (delivers_applyIn p n h env s)
  | n, .fresh g =>
    rw [derived_fresh]
    exact delivers_applyIn p n g _ _
  | 0, .delay _ | 0, .call _ _ =>
    rw [derived, derivations]
    exact Stream.delivers_zero _
  | n + 1, .delay g =>
    rw [derived_delay]
    exact .suspended (delivers_applyIn p n g env s)
  | n + 1, .call rel args =>
    rw [derived_call]
    exact .suspended (delivers_applyIn p n (p.body rel) _ s)
termination_by (n, g)

theorem mem_delivered_iff :
    (∃ n, r ∈ (g.applyIn p env s).delivered (Job.run p) n) ↔ Nonempty (Derivation p g env s r) := by
  constructor
  · rintro ⟨n, hn⟩
    have hmem : r ∈ derived p n g env s := Multiset.mem_of_le (delivered_applyIn_le p n g env s) hn
    obtain ⟨⟨_, d⟩, -, rfl⟩ := List.mem_map.1 hmem
    exact ⟨d⟩
  · rintro ⟨d⟩
    obtain ⟨n, hn⟩ := delivers_applyIn p d.depth g env s
    have hmem : r ∈ derived p d.depth g env s :=
      List.mem_map.2 ⟨_, mem_derivations d (Nat.le_refl _), rfl⟩
    exact ⟨n, Multiset.mem_of_le hn hmem⟩

/-! ## As often as -/

/-- A search delivers a state at least `m` times if and only if there are `m` different derivations of it.
The states that it delivers before a pause are those of derivations up to some depth, and those of
derivations up to any depth come before some pause. -/
theorem delivers_iff_derivations (p : Program ρ) (g : Goal ρ) (s r : State) (m : Nat) :
    (∃ n, (List.replicate m r).Sublist ((g.apply p s).delivered (Job.run p) n)) ↔
      Nonempty (Fin m ↪ Derivation p g [] s r) := by
  constructor
  · rintro ⟨n, hn⟩
    have hle := delivered_applyIn_le p n g [] s
    exact embedding_of_replicate_subperm (nodup_derivations p n g [] s)
      (hn.subperm.trans (Multiset.coe_le.1 hle))
  · rintro ⟨f⟩
    -- All the derivations together have a largest depth.
    obtain ⟨n, hn⟩ : ∃ n, ∀ i, (f i).depth ≤ n := Finite.exists_le fun i => (f i).depth
    obtain ⟨k, hk⟩ := delivers_applyIn p n g [] s
    have hsub := (replicate_subperm_of_embedding f fun i => mem_derivations (f i) (hn i)).trans
      (Multiset.coe_le.1 hk)
    obtain ⟨l, hl, hsub⟩ := hsub
    obtain rfl := List.perm_replicate.1 hl
    exact ⟨k, hsub⟩

end Relational
