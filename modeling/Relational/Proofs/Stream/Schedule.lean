import Relational.Proofs.Stream.Blocks

/-!
# Schedule of a merge

Two merged streams take turns: the blocks of a merge are those of its left stream at even places and those
of its right stream at odd ones, until one of the two ends. The last block of that one and the next
block of the other make one block, and from then on the other stream goes on alone.
-/

namespace Relational

/-! ## Interleavings -/

/-- The third list is made of the other two, with the items of each in their order. -/
inductive Interleaving {α : Type} : List α → List α → List α → Prop where
  | nil : Interleaving [] [] []
  | left {x : α} {xs ys zs : List α} (h : Interleaving xs ys zs) : Interleaving (x :: xs) ys (x :: zs)
  | right {y : α} {xs ys zs : List α} (h : Interleaving xs ys zs) : Interleaving xs (y :: ys) (y :: zs)

namespace Interleaving

variable {α : Type} {xs ys zs : List α}

theorem symm (h : Interleaving xs ys zs) : Interleaving ys xs zs := by
  induction h with
  | nil => exact .nil
  | left _ ih => exact .right ih
  | right _ ih => exact .left ih

theorem append_left (ws : List α) (h : Interleaving xs ys zs) :
    Interleaving (ws ++ xs) ys (ws ++ zs) := by
  induction ws with
  | nil => exact h
  | cons w ws ih => exact .left ih

theorem nil_left (ys : List α) : Interleaving [] ys ys := by
  induction ys with
  | nil => exact .nil
  | cons y ys ih => exact .right ih

theorem sublist_left (h : Interleaving xs ys zs) : xs.Sublist zs := by
  induction h with
  | nil => exact .slnil
  | left _ ih => exact ih.cons_cons _
  | right _ ih => exact ih.cons _

theorem sublist_right (h : Interleaving xs ys zs) : ys.Sublist zs := h.symm.sublist_left

theorem perm (h : Interleaving xs ys zs) : zs.Perm (xs ++ ys) := by
  induction h with
  | nil => exact .nil
  | left _ ih => exact ih.cons _
  | right _ ih => exact (ih.cons _).trans List.perm_middle.symm

end Interleaving

/-! ## Merging at one pause -/

namespace Stream

variable {κ α : Type} {run : κ → Stream κ α} {a b c s t : Stream κ α} {work : Work κ α}
  {i k m n : Nat}

theorem ready_merge (h : s.pending? = some work) (t : Stream κ α) : (s.merge t).ready = s.ready := by
  induction s using ready_induction with
  | empty => cases h
  | cons x s ih => rw [cons_merge, ready_cons, ready_cons, ih h]
  | suspended => rfl

theorem pending?_merge (h : s.pending? = some work) (t : Stream κ α) :
    (s.merge t).pending? = some (.merge t work) := by
  induction s using ready_induction with
  | empty => cases h
  | cons x s ih => exact ih h
  | suspended => cases h; rfl

theorem ready_merge_of_ended (h : s.pending? = none) (t : Stream κ α) :
    (s.merge t).ready = s.ready ++ t.ready := by
  induction s using ready_induction with
  | empty => rfl
  | cons x s ih => rw [cons_merge, ready_cons, ready_cons, ih h, List.cons_append]
  | suspended => cases h

theorem pending?_merge_of_ended (h : s.pending? = none) (t : Stream κ α) :
    (s.merge t).pending? = t.pending? := by
  induction s using ready_induction with
  | empty => rfl
  | cons x s ih => exact ih h
  | suspended => cases h

/-! ## Merging at every pause -/

theorem resumed?_merge_succ (h : a.pending? = some work) (b : Stream κ α) (n : Nat) :
    (a.merge b).resumed? run (n + 1) = (b.merge (work.resume run)).resumed? run n := by
  rw [resumed?_succ, pending?_merge h]
  rfl

theorem resumed?_merge_of_ended (h : a.pending? = none) (b : Stream κ α) (n : Nat) :
    (a.merge b).resumed? run (n + 1) = b.resumed? run (n + 1) := by
  rw [resumed?_succ, pending?_merge_of_ended h, resumed?_succ]

/-- After an even number of pauses the streams have been resumed equally often. -/
theorem resumed?_merge_even (ha : a.resumed? run i = some s) (hb : b.resumed? run i = some t) :
    (a.merge b).resumed? run (2 * i) = some (s.merge t) := by
  induction i generalizing a b with
  | zero =>
    cases ha
    cases hb
    rfl
  | succ i ih =>
    obtain ⟨wa, hwa, ha⟩ := resumed?_succ_eq_some.1 ha
    obtain ⟨wb, hwb, hb⟩ := resumed?_succ_eq_some.1 hb
    rw [show 2 * (i + 1) = 2 * i + 1 + 1 from rfl, resumed?_merge_succ hwa, resumed?_merge_succ hwb]
    exact ih ha hb

/-- After an odd number of pauses the left stream has been resumed once more and stands on the right. -/
theorem resumed?_merge_odd (ha : a.resumed? run (i + 1) = some s)
    (hb : b.resumed? run i = some t) :
    (a.merge b).resumed? run (2 * i + 1) = some (t.merge s) := by
  obtain ⟨wa, hwa, ha⟩ := resumed?_succ_eq_some.1 ha
  rw [resumed?_merge_succ hwa]
  exact resumed?_merge_even hb ha

/-- From the end of its left stream on, a merge is its right stream. -/
theorem block_add_of_merge (h : c.resumed? run m = some (s.merge t)) (hs : s.pending? = none)
    (hb : b.resumed? run n = some t) :
    c.block run m = s.ready ++ b.block run n ∧
      ∀ k, c.block run (m + 1 + k) = b.block run (n + 1 + k) := by
  constructor
  · rw [← Nat.add_zero m, block_of_resumed? h, ← Nat.add_zero n, block_of_resumed? hb, block_zero,
      block_zero, ready_merge_of_ended hs]
  · intro k
    rw [Nat.add_assoc, block_of_resumed? h, Nat.add_assoc, block_of_resumed? hb, Nat.add_comm 1 k,
      block, block, resumed?_merge_of_ended hs]

/-! ## Nothing lost and nothing added -/

theorem delivered_merge (run : κ → Stream κ α) (n : Nat) (a b : Stream κ α) :
    ∃ p q, (n + 1) / 2 ≤ p ∧ p ≤ n ∧ n / 2 ≤ q ∧ q ≤ n ∧
      Interleaving (a.delivered run p) (b.delivered run q) ((a.merge b).delivered run n) := by
  induction n generalizing a b with
  | zero => exact ⟨0, 0, by omega, by omega, by omega, by omega, .nil⟩
  | succ n ih =>
    cases ha : a.pending? with
    | none =>
      refine ⟨n + 1, n + 1, by omega, by omega, by omega, by omega, ?_⟩
      have hmerge : (a.merge b).delivered run (n + 1) = a.ready ++ b.delivered run (n + 1) := by
        cases hb : b.pending? with
        | none =>
          rw [delivered_succ_of_ended ((pending?_merge_of_ended ha b).trans hb),
            delivered_succ_of_ended hb, ready_merge_of_ended ha]
        | some work =>
          rw [delivered_succ ((pending?_merge_of_ended ha b).trans hb), delivered_succ hb,
            ready_merge_of_ended ha, List.append_assoc]
      rw [hmerge, delivered_succ_of_ended ha]
      simpa using (Interleaving.nil_left (b.delivered run (n + 1))).append_left a.ready
    | some work =>
      -- The right stream is on the left from now on, so the two numbers change places.
      obtain ⟨p, q, hp, hp', hq, hq', h⟩ := ih b (work.resume run)
      refine ⟨q + 1, p, by omega, by omega, by omega, by omega, ?_⟩
      rw [delivered_succ (pending?_merge ha b), delivered_succ ha, ready_merge ha]
      exact h.symm.append_left a.ready

/-! ## No starvation -/

theorem delivered_sublist_merge_left (n : Nat) (a b : Stream κ α) :
    (a.delivered run n).Sublist ((a.merge b).delivered run (2 * n - 1)) := by
  obtain ⟨p, q, hp, -, -, -, h⟩ := delivered_merge run (2 * n - 1) a b
  exact (delivered_mono a (by omega)).sublist.trans h.sublist_left

theorem delivered_sublist_merge_right (n : Nat) (a b : Stream κ α) :
    (b.delivered run n).Sublist ((a.merge b).delivered run (2 * n)) := by
  obtain ⟨p, q, -, -, hq, -, h⟩ := delivered_merge run (2 * n) a b
  exact (delivered_mono b (by omega)).sublist.trans h.sublist_right

/-! ## Ends -/

theorem endsIn_merge_of_ended (h : a.pending? = none) (b : Stream κ α) (n : Nat) :
    (a.merge b).EndsIn run n ↔ b.EndsIn run n := by
  cases n with
  | zero => rw [endsIn_zero, endsIn_zero, pending?_merge_of_ended h]
  | succ n => rw [EndsIn, EndsIn, resumed?_merge_of_ended h]

theorem endsIn_merge (k : Nat) (a b : Stream κ α) :
    (a.merge b).EndsIn run k ↔ ∃ m n, k = m + n ∧ a.EndsIn run m ∧ b.EndsIn run n := by
  induction k generalizing a b with
  | zero =>
    constructor
    · intro h
      cases ha : a.pending? with
      | none => exact ⟨0, 0, rfl, endsIn_zero.2 ha, (endsIn_merge_of_ended ha b 0).1 h⟩
      | some work =>
        rw [endsIn_zero, pending?_merge ha] at h
        cases h
    · rintro ⟨m, n, hk, hm, hn⟩
      obtain ⟨rfl, rfl⟩ : m = 0 ∧ n = 0 := by omega
      exact (endsIn_merge_of_ended (endsIn_zero.1 hm) b 0).2 hn
  | succ k ih =>
    cases ha : a.pending? with
    | none =>
      rw [endsIn_merge_of_ended ha]
      constructor
      · exact fun h => ⟨0, k + 1, by omega, endsIn_zero.2 ha, h⟩
      · rintro ⟨m, n, hk, hm, hn⟩
        obtain rfl := (endsIn_iff_zero ha).1 hm
        rwa [hk, Nat.zero_add]
    | some work =>
      rw [endsIn_succ (pending?_merge ha b)]
      refine (ih b (work.resume run)).trans ?_
      constructor
      · rintro ⟨m, n, rfl, hm, hn⟩
        exact ⟨n + 1, m, by omega, (endsIn_succ ha).2 hn, hm⟩
      · rintro ⟨m, n, hk, hm, hn⟩
        cases m with
        | zero => simp [endsIn_zero, ha] at hm
        | succ m => exact ⟨n, m, by omega, hn, (endsIn_succ ha).1 hm⟩

/-! ## Merging with nothing -/

theorem resumed?_merge_empty (s : Stream κ α) (n : Nat) :
    (s.merge .empty).resumed? run (n + 1) = s.resumed? run (n + 1) := by
  cases hs : s.pending? with
  | none => rw [resumed?_merge_of_ended hs, resumed?_succ, resumed?_succ, hs, pending?_empty]
  | some work =>
    rw [resumed?_merge_succ hs, empty_merge, resumed?_succ, hs]
    rfl

theorem block_merge_empty (s : Stream κ α) (i : Nat) : (s.merge .empty).block run i = s.block run i := by
  cases i with
  | zero =>
    cases hs : s.pending? with
    | none => simp [ready_merge_of_ended hs]
    | some work => simp [ready_merge hs]
  | succ i => rw [block, block, resumed?_merge_empty]

theorem endsIn_merge_empty (s : Stream κ α) (n : Nat) : (s.merge .empty).EndsIn run n ↔ s.EndsIn run n := by
  have hempty (k : Nat) : (empty : Stream κ α).EndsIn run k ↔ k = 0 := endsIn_iff_zero pending?_empty
  simp [endsIn_merge, hempty]

/-! ## Schedule -/

theorem Reaches.exists_pending (h : s.Reaches run (n + 1)) :
    ∃ t work, s.resumed? run n = some t ∧ t.pending? = some work := by
  obtain ⟨r, hr⟩ := Option.isSome_iff_exists.1 h
  rw [resumed?_add] at hr
  obtain ⟨t, ht, hr⟩ := Option.bind_eq_some_iff.1 hr
  obtain ⟨work, hwork, -⟩ := resumed?_succ_eq_some.1 hr
  exact ⟨t, work, ht, hwork⟩

theorem block_merge_even (ha : a.Reaches run (i + 1)) (hb : b.Reaches run i) :
    (a.merge b).block run (2 * i) = a.block run i := by
  obtain ⟨s, work, hs, hwork⟩ := ha.exists_pending
  obtain ⟨t, ht⟩ := Option.isSome_iff_exists.1 hb
  rw [block, resumed?_merge_even hs ht, block, hs]
  exact ready_merge hwork t

theorem block_merge_odd (ha : a.Reaches run (i + 1)) (hb : b.Reaches run (i + 1)) :
    (a.merge b).block run (2 * i + 1) = b.block run i := by
  obtain ⟨s, hs⟩ := Option.isSome_iff_exists.1 ha
  obtain ⟨t, work, ht, hwork⟩ := hb.exists_pending
  rw [block, resumed?_merge_odd hs ht, block, ht]
  exact ready_merge hwork s

/-- One item at every pause, without end. -/
def ticks : Stream Unit Nat := .cons 0 (.suspended (.start ()))

/-- One item, and another one after a pause. -/
def twice : Stream Unit Nat := .cons 1 (.suspended (.later (.single 2)))

end Stream

end Relational
