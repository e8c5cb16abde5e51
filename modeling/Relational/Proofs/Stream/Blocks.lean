import Relational.Stream.Trace
import Mathlib.Data.List.Infix

/-!
# Blocks of a stream

A stream is read as a sequence of blocks: the items at hand, those that come after the first pause, and so
on. The last block of a stream that ends is followed by no pause.
-/

namespace Relational

namespace Stream

variable {κ α : Type} {run : κ → Stream κ α} {s t : Stream κ α} {work : Work κ α} {i m n : Nat}

@[elab_as_elim] theorem ready_induction {motive : Stream κ α → Prop} (empty : motive .empty)
    (cons : ∀ x s, motive s → motive (.cons x s)) (suspended : ∀ work, motive (.suspended work)) :
    ∀ s, motive s
  | .empty => empty
  | .cons x s => cons x s (ready_induction empty cons suspended s)
  | .suspended work => suspended work

@[simp] theorem ready_empty : (empty : Stream κ α).ready = [] := rfl

@[simp] theorem ready_cons (x : α) (s : Stream κ α) : (cons x s).ready = x :: s.ready := rfl

@[simp] theorem ready_suspended (work : Work κ α) : (suspended work).ready = [] := rfl

@[simp] theorem pending?_empty : (empty : Stream κ α).pending? = none := rfl

@[simp] theorem pending?_cons (x : α) (s : Stream κ α) : (cons x s).pending? = s.pending? := rfl

@[simp] theorem pending?_suspended (work : Work κ α) : (suspended work).pending? = some work := rfl

theorem ready_ofList (xs : List α) : (ofList xs : Stream κ α).ready = xs := by
  induction xs with
  | nil => rfl
  | cons x xs ih => exact congrArg (x :: ·) ih

theorem pending?_ofList (xs : List α) : (ofList xs : Stream κ α).pending? = none := by
  induction xs with
  | nil => rfl
  | cons x xs ih => exact ih

/-! ## Counting pauses -/

/-- The stream does not end in a block before block `n`. -/
def Reaches (run : κ → Stream κ α) (n : Nat) (s : Stream κ α) : Prop :=
  (s.resumed? run n).isSome = true

/-- The stream ends in its block `n`, so it pauses `n` times. -/
def EndsIn (run : κ → Stream κ α) (n : Nat) (s : Stream κ α) : Prop :=
  ∃ t, s.resumed? run n = some t ∧ t.pending? = none

@[simp] theorem resumed?_zero (s : Stream κ α) : s.resumed? run 0 = some s := rfl

theorem resumed?_succ (s : Stream κ α) (i : Nat) :
    s.resumed? run (i + 1) =
      s.pending?.bind fun work => (work.resume run).resumed? run i := rfl

theorem resumed?_add (s : Stream κ α) (m n : Nat) :
    s.resumed? run (m + n) = (s.resumed? run m).bind (resumed? run n) := by
  induction m generalizing s with
  | zero => simp
  | succ m ih =>
    rw [Nat.add_right_comm, resumed?_succ, resumed?_succ, Option.bind_assoc]
    simp only [ih]

theorem resumed?_succ_eq_some :
    s.resumed? run (n + 1) = some t ↔
      ∃ work, s.pending? = some work ∧ (work.resume run).resumed? run n = some t :=
  Option.bind_eq_some_iff

theorem endsIn_zero : s.EndsIn run 0 ↔ s.pending? = none := by simp [EndsIn]

theorem endsIn_succ (h : s.pending? = some work) :
    s.EndsIn run (n + 1) ↔ (work.resume run).EndsIn run n := by
  simp [EndsIn, resumed?_succ, h]

theorem endsIn_iff_zero (h : s.pending? = none) : s.EndsIn run n ↔ n = 0 := by
  cases n with
  | zero => simp [endsIn_zero, h]
  | succ n => simp [EndsIn, resumed?_succ, h]

theorem endsIn_suspended :
    (suspended work).EndsIn run n ↔ ∃ k, n = k + 1 ∧ (work.resume run).EndsIn run k := by
  cases n with
  | zero => simp [endsIn_zero]
  | succ n => simp [endsIn_succ (pending?_suspended work)]

theorem endsIn_cons {x : α} : (cons x s).EndsIn run n ↔ s.EndsIn run n := by
  cases n with
  | zero => rw [endsIn_zero, endsIn_zero, pending?_cons]
  | succ n => rw [EndsIn, EndsIn, resumed?_succ, resumed?_succ, pending?_cons]

/-! ## Blocks -/

theorem block_of_resumed? (h : s.resumed? run n = some t) (i : Nat) :
    s.block run (n + i) = t.block run i := by
  simp [block, resumed?_add, h]

@[simp] theorem block_zero (s : Stream κ α) : s.block run 0 = s.ready := rfl

theorem block_succ (h : s.pending? = some work) (i : Nat) :
    s.block run (i + 1) = (work.resume run).block run i := by
  simp [block, resumed?_succ, h]

theorem block_succ_of_ended (h : s.pending? = none) (i : Nat) : s.block run (i + 1) = [] := by
  simp [block, resumed?_succ, h]

theorem block_suspended_succ (work : Work κ α) (i : Nat) :
    (suspended work).block run (i + 1) = (work.resume run).block run i :=
  block_succ (pending?_suspended work) i

theorem block_cons_succ (x : α) (s : Stream κ α) (i : Nat) :
    (cons x s).block run (i + 1) = s.block run (i + 1) := by
  rw [block, block, resumed?_succ, resumed?_succ, pending?_cons]

/-! ## Items of the first blocks -/

/-- The items of the first `n` blocks: what has been delivered before the `n`-th pause is over. -/
def delivered (run : κ → Stream κ α) (n : Nat) (s : Stream κ α) : List α :=
  (List.range n).flatMap fun i => s.block run i

@[simp] theorem delivered_zero (s : Stream κ α) : s.delivered run 0 = [] := rfl

theorem delivered_succ (h : s.pending? = some work) (n : Nat) :
    s.delivered run (n + 1) = s.ready ++ (work.resume run).delivered run n := by
  simp [delivered, List.range_succ_eq_map, List.flatMap_map, block_succ h]

theorem delivered_succ_of_ended (h : s.pending? = none) (n : Nat) :
    s.delivered run (n + 1) = s.ready := by
  simp [delivered, List.range_succ_eq_map, List.flatMap_map, block_succ_of_ended h]

theorem delivered_mono (s : Stream κ α) (h : m ≤ n) :
    s.delivered run m <+: s.delivered run n := by
  obtain ⟨k, rfl⟩ := Nat.exists_eq_add_of_le h
  simp [delivered, List.range_add]

@[simp] theorem delivered_empty (n : Nat) : (empty : Stream κ α).delivered run n = [] := by
  cases n with
  | zero => rfl
  | succ n => exact delivered_succ_of_ended pending?_empty n

theorem delivered_cons (x : α) (s : Stream κ α) (n : Nat) :
    (cons x s).delivered run (n + 1) = x :: s.delivered run (n + 1) := by
  cases hs : s.pending? with
  | none => rw [delivered_succ_of_ended (s := cons x s) hs, delivered_succ_of_ended hs, ready_cons]
  | some work => rw [delivered_succ (s := cons x s) hs, delivered_succ hs, ready_cons, List.cons_append]

theorem delivered_suspended (work : Work κ α) (n : Nat) :
    (suspended work).delivered run (n + 1) = (work.resume run).delivered run n := by
  rw [delivered_succ (pending?_suspended work), ready_suspended, List.nil_append]

/-! ## Items by their places -/

/-- `x` comes behind `k` other items. -/
def ItemAt (run : κ → Stream κ α) (s : Stream κ α) (k : Nat) (x : α) : Prop :=
  ∃ n, (s.delivered run n)[k]? = some x

variable {k : Nat} {x y : α}

theorem getElem?_delivered_mono (h : m ≤ n) (hk : (s.delivered run m)[k]? = some x) :
    (s.delivered run n)[k]? = some x := by
  obtain ⟨hlt, rfl⟩ := List.getElem?_eq_some_iff.1 hk
  exact List.prefix_iff_getElem?.1 (delivered_mono s h) k hlt

theorem ItemAt.exists_succ (h : s.ItemAt run k x) : ∃ n, (s.delivered run (n + 1))[k]? = some x :=
  let ⟨n, hn⟩ := h
  ⟨n, getElem?_delivered_mono n.le_succ hn⟩

theorem exists_itemAt_of_mem (h : x ∈ s.delivered run n) : ∃ k, s.ItemAt run k x :=
  let ⟨k, hk⟩ := List.mem_iff_getElem?.1 h
  ⟨k, n, hk⟩

@[simp] theorem itemAt_cons_zero : (cons y s).ItemAt run 0 x ↔ y = x := by
  constructor
  · intro h
    obtain ⟨n, hn⟩ := h.exists_succ
    simpa [delivered_cons] using hn
  · rintro rfl
    exact ⟨1, by simp [delivered_cons]⟩

@[simp] theorem itemAt_cons_succ : (cons y s).ItemAt run (k + 1) x ↔ s.ItemAt run k x := by
  constructor
  · intro h
    obtain ⟨n, hn⟩ := h.exists_succ
    exact ⟨n + 1, by simpa [delivered_cons] using hn⟩
  · intro h
    obtain ⟨n, hn⟩ := h.exists_succ
    exact ⟨n + 1, by simpa [delivered_cons] using hn⟩

@[simp] theorem itemAt_suspended :
    (suspended work).ItemAt run k x ↔ (work.resume run).ItemAt run k x := by
  constructor
  · intro h
    obtain ⟨n, hn⟩ := h.exists_succ
    exact ⟨n, by simpa [delivered_suspended] using hn⟩
  · rintro ⟨n, hn⟩
    exact ⟨n + 1, by simpa [delivered_suspended] using hn⟩

end Stream

end Relational
