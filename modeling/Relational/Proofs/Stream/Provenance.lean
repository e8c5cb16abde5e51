import Relational.Proofs.Stream.Delivery
import Relational.Proofs.Stream.Likeness

/-!
# Where the items of a bind come from

Every item that a bind delivers comes from one item of its stream. What comes from one item is what that
item's stream delivers, all of it and in its order, and the other items cannot hold it up.
-/

namespace Relational

/-! ## Parts of an interleaving -/

theorem Interleaving.filter {α : Type} {xs ys zs : List α} (h : Interleaving xs ys zs) (p : α → Bool) :
    Interleaving (xs.filter p) (ys.filter p) (zs.filter p) := by
  induction h with
  | nil => exact .nil
  | @left x _ _ _ _ ih =>
    cases hx : p x with
    | true => simpa [hx] using ih.left
    | false => simpa [hx] using ih
  | @right y _ _ _ _ ih =>
    cases hy : p y with
    | true => simpa [hy] using ih.right
    | false => simpa [hy] using ih

theorem Interleaving.eq_of_nil_right {α : Type} {xs zs : List α} (h : Interleaving xs [] zs) : zs = xs := by
  generalize hys : ([] : List α) = ys at h
  induction h with
  | nil => rfl
  | left _ ih => rw [ih hys]
  | right => cases hys

namespace Stream

variable {κ α : Type} {run : κ → Stream κ α} {s t : Stream κ α} {g : α → Stream κ α} {p : α → Bool}
  {x y : α} {k m n q : Nat}

/-! ## What comes from one item -/

theorem exists_of_mem_delivered_bind (h : y ∈ (s.bind g).delivered run n) :
    ∃ x ∈ s.delivered run n, y ∈ (g x).delivered run n :=
  Multiset.mem_bind.1 (Multiset.mem_of_le (delivered_bind_le n s g) h)

/-- The left part of a merge does not hold up the right one when it has nothing that `p` keeps. -/
theorem filter_delivered_merge_right (hs : ∀ q, (s.delivered run q).filter p = []) (n : Nat) :
    ∃ q, n / 2 ≤ q ∧ ((s.merge t).delivered run n).filter p = (t.delivered run q).filter p := by
  obtain ⟨r, q, -, -, hq, -, h⟩ := delivered_merge run n s t
  have hfilter := (h.filter p).symm
  rw [hs r] at hfilter
  exact ⟨q, hq, hfilter.eq_of_nil_right⟩

theorem filter_delivered_merge_left (ht : ∀ q, (t.delivered run q).filter p = []) (n : Nat) :
    ∃ q, (n + 1) / 2 ≤ q ∧ ((s.merge t).delivered run n).filter p = (s.delivered run q).filter p := by
  obtain ⟨q, r, hq, -, -, -, h⟩ := delivered_merge run n s t
  have hfilter := h.filter p
  rw [ht r] at hfilter
  exact ⟨q, hq, hfilter.eq_of_nil_right⟩

theorem filter_delivered_bind_eq_nil
    (h : ∀ i y, s.ItemAt run i y → ∀ q, ∀ z ∈ (g y).delivered run q, p z = false) (n : Nat) :
    ((s.bind g).delivered run n).filter p = [] := by
  rw [List.filter_eq_nil_iff]
  intro z hz
  obtain ⟨y, hy, hz⟩ := exists_of_mem_delivered_bind hz
  obtain ⟨i, hi⟩ := exists_itemAt_of_mem hy
  simp [h i y hi n z hz]

/-- When the `k`-th item of a stream leads to items that satisfy `p` only, and no other item leads to such
items, then the items of a bind that satisfy `p` are those of that one item, and they keep coming. -/
theorem filter_delivered_bind (hk : s.ItemAt run k x)
    (hself : ∀ q, ∀ z ∈ (g x).delivered run q, p z = true)
    (hother : ∀ i y, s.ItemAt run i y → i ≠ k → ∀ q, ∀ z ∈ (g y).delivered run q, p z = false)
    (q₀ : Nat) :
    ∃ N, ∀ n, ∃ q, (N ≤ n → q₀ ≤ q) ∧
      ((s.bind g).delivered run n).filter p = (g x).delivered run q := by
  obtain ⟨m, hm⟩ := hk
  induction m generalizing s k with
  | zero => simp at hm
  | succ m ih =>
    induction s using ready_induction generalizing k with
    | empty => simp at hm
    | cons y t iht =>
      rw [delivered_cons] at hm
      cases k with
      | zero =>
        obtain rfl : y = x := by simpa using hm
        have hrest (q : Nat) : ((t.bind g).delivered run q).filter p = [] := by
          refine filter_delivered_bind_eq_nil (fun i z hi => hother (i + 1) z ?_ i.succ_ne_zero) q
          exact itemAt_cons_succ.2 hi
        refine ⟨2 * q₀, fun n => ?_⟩
        obtain ⟨q, hq, h⟩ := filter_delivered_merge_left (s := g y) hrest n
        exact ⟨q, by omega, h.trans (List.filter_eq_self.2 (hself q))⟩
      | succ k =>
        rw [List.getElem?_cons_succ] at hm
        have hfirst (q : Nat) : ((g y).delivered run q).filter p = [] := by
          refine List.filter_eq_nil_iff.2 fun z hz => ?_
          simp [hother 0 y (itemAt_cons_zero.2 rfl) k.succ_ne_zero.symm q z hz]
        obtain ⟨N, hN⟩ := iht (fun i z hi hik => hother (i + 1) z (itemAt_cons_succ.2 hi) (by omega)) hm
        refine ⟨2 * N, fun n => ?_⟩
        obtain ⟨r, hr, h⟩ := filter_delivered_merge_right hfirst n
        obtain ⟨q, hq, hrest⟩ := hN r
        exact ⟨q, fun hn => hq (by omega), h.trans hrest⟩
    | suspended work =>
      rw [delivered_suspended] at hm
      obtain ⟨N, hN⟩ := ih (fun i z hi => hother i z (itemAt_suspended.2 hi)) hm
      refine ⟨N + 1, fun n => ?_⟩
      cases n with
      | zero => exact ⟨0, by omega, rfl⟩
      | succ n =>
        obtain ⟨q, hq, h⟩ := hN n
        rw [suspended_bind, delivered_suspended]
        exact ⟨q, fun hn => hq (by omega), h⟩

/-! ## Marks -/

/-- The work that is left to do behind the first `count` items of a stream, whose `k`-th item gets the mark
`mark k`. -/
structure MarkedWork (κ α : Type) where
  mark : Nat → Nat
  count : Nat
  work : Work κ α

/-- What is done for the work: it is taken up as a whole, and it hangs if it hangs. -/
def MarkedWork.pause (w : MarkedWork κ α) : Work (MarkedWork κ α) (Nat × α) :=
  if w.work.hangs then .endless (.start w) else .start w

/-- A stream behind `count` items with a mark put on each of its items. -/
def marked (mark : Nat → Nat) : (count : Nat) → Stream κ α → Stream (MarkedWork κ α) (Nat × α)
  | _, .empty => .empty
  | count, .cons x s => .cons (mark count, x) (marked mark (count + 1) s)
  | count, .suspended work => .suspended (MarkedWork.pause ⟨mark, count, work⟩)

/-- Resumes a stream with marks. -/
def MarkedWork.resume (run : κ → Stream κ α) (w : MarkedWork κ α) : Stream (MarkedWork κ α) (Nat × α) :=
  marked w.mark w.count (w.work.resume run)

variable {mark : Nat → Nat} {count : Nat} {b : Nat × α}

theorem MarkedWork.hangs_pause (w : MarkedWork κ α) : w.pause.hangs = w.work.hangs := by
  unfold pause
  split <;> simp_all [Work.hangs]

theorem MarkedWork.resume_pause (run : κ → Stream κ α) (w : MarkedWork κ α) :
    w.pause.resume (MarkedWork.resume run) = w.resume run := by
  unfold pause
  split <;> rfl

theorem alike_marked (run : κ → Stream κ α) (mark : Nat → Nat) (count : Nat) (s : Stream κ α) :
    Alike (MarkedWork.resume run) run Prod.snd (marked mark count s) s := by
  intro n
  induction n generalizing count s with
  | zero => exact .zero
  | succ n ih =>
    cases s with
    | empty => exact .empty
    | cons x s => exact .cons (ih (count + 1) s)
    | suspended work =>
      refine .suspended (MarkedWork.hangs_pause _) ?_
      rw [MarkedWork.resume_pause]
      exact ih count (work.resume run)

theorem delivered_marked (mark : Nat → Nat) (count n : Nat) (s : Stream κ α) :
    (marked mark count s).delivered (MarkedWork.resume run) n =
      (s.delivered run n).mapIdx fun i x => (mark (count + i), x) := by
  induction n generalizing count s with
  | zero => rfl
  | succ n ih =>
    induction s using ready_induction generalizing count with
    | empty => simp [marked]
    | cons x s ihs =>
      rw [marked, delivered_cons, delivered_cons, List.mapIdx_cons, ihs (count + 1)]
      simp only [Nat.add_zero, Nat.add_comm, Nat.add_left_comm]
    | suspended work =>
      rw [marked, delivered_suspended, delivered_suspended, MarkedWork.resume_pause]
      exact ih count (work.resume run)

theorem itemAt_marked :
    (marked mark count s).ItemAt (MarkedWork.resume run) k b ↔
      s.ItemAt run k b.2 ∧ b.1 = mark (count + k) := by
  simp only [ItemAt, delivered_marked, List.getElem?_mapIdx, Option.map_eq_some_iff]
  constructor
  · rintro ⟨n, x, hx, rfl⟩
    exact ⟨⟨n, hx⟩, rfl⟩
  · rintro ⟨⟨n, hx⟩, hb⟩
    exact ⟨n, b.2, hx, Prod.ext hb.symm rfl⟩

theorem mark_of_mem_marked (h : b ∈ (marked mark count s).delivered (MarkedWork.resume run) n) :
    ∃ i, b.1 = mark (count + i) :=
  let ⟨i, hi⟩ := exists_itemAt_of_mem h
  ⟨i, (itemAt_marked.1 hi).2⟩

end Stream

end Relational
