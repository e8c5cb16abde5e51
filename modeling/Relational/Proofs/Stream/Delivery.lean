import Relational.Proofs.Stream.Schedule
import Mathlib.Data.Multiset.Bind

/-!
# What streams deliver in the end

The order of the items depends on the pauses, but which items come, and how often each of them, does not:
a merge delivers what its two streams do, and a bind what the streams of all its items do.
-/

namespace Relational

/-! ## Families of multisets -/

namespace Multiset

variable {α β : Type} {M N : Multiset α} {F G : α → Multiset β}

theorem bind_le_bind_left (h : M ≤ N) (F : α → Multiset β) : M.bind F ≤ N.bind F := by
  obtain ⟨K, rfl⟩ := Multiset.le_iff_exists_add.1 h
  rw [Multiset.add_bind]
  exact Multiset.le_add_right _ _

theorem bind_le_bind_right (M : Multiset α) (h : ∀ x ∈ M, F x ≤ G x) : M.bind F ≤ M.bind G := by
  induction M using Multiset.induction with
  | empty => exact le_rfl
  | cons x M ih =>
    rw [Multiset.cons_bind, Multiset.cons_bind]
    exact add_le_add (h x (Multiset.mem_cons_self x M))
      (ih fun y hy => h y (Multiset.mem_cons_of_mem hy))

end Multiset

namespace Stream

variable {κ α : Type} {run : κ → Stream κ α} {s t : Stream κ α} {work : Work κ α}
  {M N : Multiset α} {m n : Nat}

theorem delivered_le (s : Stream κ α) (h : m ≤ n) :
    (s.delivered run m : Multiset α) ≤ s.delivered run n :=
  Multiset.coe_le.2 (delivered_mono s h).sublist.subperm

/-! ## No more than -/

theorem delivered_single_le (n : Nat) (x : α) :
    ((single x).delivered run n : Multiset α) ≤ {x} := by
  cases n with
  | zero => exact Multiset.zero_le _
  | succ n => rw [single, delivered_cons, delivered_empty, Multiset.coe_singleton]

theorem delivered_merge_le (n : Nat) (s t : Stream κ α) :
    ((s.merge t).delivered run n : Multiset α) ≤
      (s.delivered run n : Multiset α) + t.delivered run n := by
  obtain ⟨p, q, -, hp, -, hq, h⟩ := delivered_merge run n s t
  rw [Multiset.coe_eq_coe.2 h.perm, ← Multiset.coe_add]
  exact add_le_add (delivered_le s hp) (delivered_le t hq)

theorem delivered_bind_le (n : Nat) (s : Stream κ α) (g : α → Stream κ α) :
    ((s.bind g).delivered run n : Multiset α) ≤
      (s.delivered run n : Multiset α).bind fun x => (g x).delivered run n := by
  induction n generalizing s with
  | zero => exact Multiset.zero_le _
  | succ n ih =>
    induction s using ready_induction with
    | empty => simp
    | cons x s ihs =>
      rw [cons_bind, delivered_cons, ← Multiset.cons_coe, Multiset.cons_bind]
      exact (delivered_merge_le (n + 1) (g x) (s.bind g)).trans (add_le_add le_rfl ihs)
    | suspended work =>
      rw [suspended_bind, delivered_suspended, delivered_suspended]
      refine (ih (work.resume run)).trans (Multiset.bind_le_bind_right _ fun x _ => ?_)
      exact delivered_le (g x) (Nat.le_succ n)

/-! ## No less than -/

/-- The items of `M` come, each as often as it is in `M`. -/
def Delivers (run : κ → Stream κ α) (M : Multiset α) (s : Stream κ α) : Prop :=
  ∃ n, M ≤ s.delivered run n

theorem Delivers.mono (h : M ≤ N) (hN : s.Delivers run N) : s.Delivers run M :=
  let ⟨n, hn⟩ := hN
  ⟨n, h.trans hn⟩

theorem delivers_zero (s : Stream κ α) : s.Delivers run 0 := ⟨0, le_rfl⟩

theorem delivers_single (x : α) : (single x).Delivers run {x} := by
  refine ⟨1, ?_⟩
  rw [single, delivered_cons, delivered_empty, Multiset.coe_singleton]

theorem Delivers.suspended (h : (work.resume run).Delivers run M) :
    (suspended work).Delivers run M := by
  obtain ⟨n, hn⟩ := h
  exact ⟨n + 1, by rwa [delivered_suspended]⟩

theorem Delivers.merge (hs : s.Delivers run M) (ht : t.Delivers run N) :
    (s.merge t).Delivers run (M + N) := by
  obtain ⟨m, hm⟩ := hs
  obtain ⟨n, hn⟩ := ht
  -- Each stream has had at least half of the turns.
  obtain ⟨p, q, hp, -, hq, -, h⟩ := delivered_merge run (2 * (m + n)) s t
  refine ⟨2 * (m + n), ?_⟩
  rw [Multiset.coe_eq_coe.2 h.perm, ← Multiset.coe_add]
  exact add_le_add (hm.trans (delivered_le s (by omega))) (hn.trans (delivered_le t (by omega)))

theorem delivers_bind_delivered {g : α → Stream κ α} {F : α → Multiset α}
    (hg : ∀ x, (g x).Delivers run (F x)) (n : Nat) (s : Stream κ α) :
    (s.bind g).Delivers run ((s.delivered run n : Multiset α).bind F) := by
  induction n generalizing s with
  | zero => exact delivers_zero _
  | succ n ih =>
    induction s using ready_induction with
    | empty =>
      rw [delivered_empty]
      exact delivers_zero _
    | cons x s ihs =>
      rw [delivered_cons, ← Multiset.cons_coe, Multiset.cons_bind]
      exact (hg x).merge ihs
    | suspended work =>
      rw [delivered_suspended]
      exact .suspended (ih (work.resume run))

theorem Delivers.bind {g : α → Stream κ α} {F : α → Multiset α} (hs : s.Delivers run M)
    (hg : ∀ x, (g x).Delivers run (F x)) : (s.bind g).Delivers run (M.bind F) := by
  obtain ⟨n, hn⟩ := hs
  exact (delivers_bind_delivered hg n s).mono (Multiset.bind_le_bind_left hn F)

end Stream

end Relational
