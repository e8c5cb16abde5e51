import Relational.Proofs.Stream.Blocks
import Relational.Proofs.Stream.Drawing

/-!
# Drawing whole blocks

What is drawn from a stream can be read off its blocks: all items of a stream that ends are those up to its
last block, and the first items are to be had as soon as the blocks with so many items are known.
-/

namespace Relational

namespace Stream

variable {κ α : Type} {run : κ → Stream κ α} {s : Stream κ α} {work : Work κ α} {x : α} {xs : List α}
  {k n : Nat}

/-! ## The next mark -/

section Returns

variable {β γ : Type} {f g : Nat → Option β} {y : β}

theorem Returns.map (h : Returns f y) (i : β → γ) : Returns (fun steps => (f steps).map i) (i y) := by
  obtain ⟨m, hm⟩ := h
  exact ⟨m, fun steps hsteps => congrArg (Option.map i) (hm steps hsteps)⟩

/-- One more step is spent. -/
theorem Returns.succ (h : Returns g y) (hfg : ∀ steps, f (steps + 1) = g steps) : Returns f y := by
  refine (returns_sub (k := 1) fun steps hsteps => ?_).2 h
  rw [← hfg, Nat.sub_add_cancel hsteps]

end Returns

theorem returns_takeAll_empty : Returns (takeAll run · .empty) [] :=
  ⟨0, fun steps _ => by cases steps <;> rfl⟩

theorem returns_takeAll_cons (h : Returns (takeAll run · s) xs) :
    Returns (takeAll run · (.cons x s)) (x :: xs) :=
  (h.map (x :: ·)).succ fun _ => rfl

theorem returns_takeAll_suspended (h : Returns (takeAll run · (work.resume run)) xs) :
    Returns (takeAll run · (.suspended work)) xs :=
  h.succ fun _ => rfl

theorem returns_take_zero (s : Stream κ α) : Returns (take run · 0 s) [] :=
  ⟨0, fun steps _ => by cases steps <;> rfl⟩

theorem returns_take_cons (h : Returns (take run · k s) xs) :
    Returns (take run · (k + 1) (.cons x s)) (x :: xs) :=
  (h.map (x :: ·)).succ fun _ => rfl

theorem returns_take_suspended (h : Returns (take run · (k + 1) (work.resume run)) xs) :
    Returns (take run · (k + 1) (.suspended work)) xs :=
  h.succ fun _ => rfl

/-! ## Whole blocks -/

/-- All items of a stream are those of its blocks up to the last one. -/
theorem returns_takeAll (h : s.EndsIn run n) : Returns (takeAll run · s) (s.delivered run (n + 1)) := by
  induction n using Nat.strong_induction_on generalizing s with
  | h n ih =>
    induction s using ready_induction with
    | empty =>
      rw [delivered_empty]
      exact returns_takeAll_empty
    | cons x s ihs =>
      rw [delivered_cons]
      exact returns_takeAll_cons (ihs (endsIn_cons.1 h))
    | suspended work =>
      obtain ⟨k, rfl, hk⟩ := endsIn_suspended.1 h
      rw [delivered_suspended]
      exact returns_takeAll_suspended (ih k (Nat.lt_succ_self k) hk)

/-- The first items of a stream are the first of those that its first blocks have. -/
theorem returns_take (h : k ≤ (s.delivered run n).length) :
    Returns (take run · k s) ((s.delivered run n).take k) := by
  induction n generalizing s k with
  | zero =>
    obtain rfl := Nat.le_zero.1 h
    exact returns_take_zero s
  | succ n ih =>
    induction s using ready_induction generalizing k with
    | empty =>
      rw [delivered_empty] at h ⊢
      obtain rfl := Nat.le_zero.1 h
      exact returns_take_zero _
    | cons x s ihs =>
      rw [delivered_cons] at h ⊢
      cases k with
      | zero => exact returns_take_zero _
      | succ k => exact returns_take_cons (ihs (Nat.le_of_succ_le_succ h))
    | suspended work =>
      rw [delivered_suspended] at h ⊢
      cases k with
      | zero => exact returns_take_zero _
      | succ k => exact returns_take_suspended (ih h)

/-! ## One item in each block -/

theorem delivered_add_block (s : Stream κ α) (n : Nat) :
    s.delivered run (n + 1) = s.delivered run n ++ s.block run n := by
  simp [delivered, List.range_succ]

/-- Where each of the first blocks has one item, these items are delivered in the order of the blocks. -/
theorem map_delivered_of_block {β : Type} {f : α → β} {ys : List β}
    (h : ∀ i y, ys[i]? = some y → (s.block run i).map f = [y]) :
    (s.delivered run ys.length).map f = ys := by
  induction ys using List.reverseRecOn with
  | nil => rfl
  | append_singleton ys y ih =>
    have hlast := h ys.length y (by simp)
    have hbefore : (s.delivered run ys.length).map f = ys := by
      refine ih fun i z hz => h i z ?_
      rw [List.getElem?_append_left (List.getElem?_eq_some_iff.1 hz).1, hz]
    rw [List.length_append, List.length_singleton, delivered_add_block, List.map_append, hbefore, hlast]

theorem delivered_of_block {f : Nat → α} (h : ∀ i, s.block run i = [f i]) (n : Nat) :
    s.delivered run n = (List.range n).map f := by
  induction n with
  | zero => rfl
  | succ n ih => rw [delivered_add_block, ih, h, List.range_succ, List.map_append, List.map_singleton]

end Stream

end Relational
