import Relational.Stream.Trace
import Mathlib.Data.List.Infix

/-!
# Items among the marks

The marks of a stream as a reader goes through them: some pauses and an item, some pauses and the next
item, and so on, and maybe some pauses and the end.
-/

namespace Relational

/-! ## Marks -/

namespace Mark

variable {α : Type}

def item? : Mark α → Option α
  | .item x => some x
  | _ => none

def items (ms : List (Mark α)) : List α := ms.filterMap item?

/-- So many pauses and then `m`. -/
def stretch (k : Nat) (m : Mark α) : List (Mark α) := List.replicate k .pause ++ [m]

/-- The marks up to the last of some items, each given with the number of pauses before it. -/
def legs (ws : List (Nat × α)) : List (Mark α) := ws.flatMap fun w => stretch w.1 (.item w.2)

@[simp] theorem stretch_zero (m : Mark α) : stretch 0 m = [m] := rfl

@[simp] theorem stretch_succ (k : Nat) (m : Mark α) : stretch (k + 1) m = .pause :: stretch k m := rfl

@[simp] theorem length_stretch (k : Nat) (m : Mark α) : (stretch k m).length = k + 1 := by
  simp [stretch]

@[simp] theorem legs_nil : legs ([] : List (Nat × α)) = [] := rfl

@[simp] theorem legs_cons (w : Nat × α) (ws : List (Nat × α)) :
    legs (w :: ws) = stretch w.1 (.item w.2) ++ legs ws := rfl

@[simp] theorem items_append (ms ns : List (Mark α)) : items (ms ++ ns) = items ms ++ items ns :=
  List.filterMap_append

@[simp] theorem items_pause_cons (ms : List (Mark α)) : items (.pause :: ms) = items ms := rfl

@[simp] theorem items_stretch_item (k : Nat) (x : α) : items (stretch k (.item x)) = [x] := by
  induction k with
  | zero => rfl
  | succ k ih => simpa using ih

@[simp] theorem items_stretch_stop (k : Nat) : items (stretch k (.stop : Mark α)) = [] := by
  induction k with
  | zero => rfl
  | succ k ih => simpa using ih

@[simp] theorem items_legs (ws : List (Nat × α)) : items (legs ws) = ws.map Prod.snd := by
  induction ws with
  | nil => rfl
  | cons w ws ih => simp [ih]

end Mark

namespace Stream

open Mark

variable {κ α : Type} {run : κ → Stream κ α} {s s' t : Stream κ α} {x : α} {k n q : Nat}
  {ws : List (Nat × α)}

/-! ## Pauses in a row -/

/-- The stream pauses `k` times and is then `t`, which is not suspended. -/
inductive Waits (run : κ → Stream κ α) : Nat → Stream κ α → Stream κ α → Prop where
  | empty : Waits run 0 .empty .empty
  | cons {x : α} {s : Stream κ α} : Waits run 0 (.cons x s) (.cons x s)
  | pause {k : Nat} {work : Work κ α} {t : Stream κ α} (h : Waits run k (work.resume run) t) :
      Waits run (k + 1) (.suspended work) t

namespace Waits

theorem refl (h : Waits run k s t) : Waits run 0 t t := by
  induction h with
  | empty => exact .empty
  | cons => exact .cons
  | pause _ ih => exact ih

theorem not_suspended (h : Waits run k s t) (work : Work κ α) : t ≠ .suspended work := by
  induction h with
  | empty | cons => simp
  | pause _ ih => exact ih

theorem exists_mark (h : Waits run k s t) : ∃ m ∈ s.trace run (k + 1), m ≠ .pause := by
  induction h with
  | empty | cons => simp [trace]
  | pause _ ih => simpa [trace] using ih

theorem after_cons (h : Waits run k s (.cons x t)) : s.after run (k + 1) = t := by
  generalize hc : Stream.cons x t = c at h
  induction h with
  | empty => cases hc
  | cons => cases hc; rfl
  | pause _ ih => exact ih hc

end Waits

theorem exists_waits_of_trace {m : Mark α} (hm : m ∈ s.trace run q) (ne : m ≠ .pause) :
    ∃ k t, Waits run k s t := by
  induction q generalizing s with
  | zero => simp [trace] at hm
  | succ q ih =>
    cases s with
    | empty => exact ⟨0, _, .empty⟩
    | cons x s => exact ⟨0, _, .cons⟩
    | suspended work =>
      simp only [trace, List.mem_cons, ne, false_or] at hm
      rcases ih hm with ⟨k, t, hk⟩
      exact ⟨k + 1, t, .pause hk⟩

theorem waits_of_trace (h : s.trace run (k + 1) = stretch k (.item x)) :
    Waits run k s (.cons x (s.after run (k + 1))) := by
  induction k generalizing s with
  | zero =>
    cases s with
    | cons y s =>
      obtain rfl : y = x := by simpa [trace] using h
      exact .cons
    | _ => simp [trace] at h
  | succ k ih =>
    cases s with
    | suspended work => exact .pause (ih (by simpa [trace] using h))
    | _ => simp [trace] at h

/-! ## Items one after another -/

/-- The items of `ws` come next, each after as many pauses as it is given with, and `t` stands behind
them. -/
inductive Reads (run : κ → Stream κ α) : List (Nat × α) → Stream κ α → Stream κ α → Prop where
  | nil {s : Stream κ α} : Reads run [] s s
  | cons {k : Nat} {x : α} {ws : List (Nat × α)} {s s' t : Stream κ α}
      (hs : Waits run k s (.cons x s')) (h : Reads run ws s' t) : Reads run ((k, x) :: ws) s t

theorem after_add (run : κ → Stream κ α) (m n : Nat) (s : Stream κ α) :
    s.after run (m + n) = (s.after run m).after run n := by
  induction m generalizing s with
  | zero => rw [Nat.zero_add, after]
  | succ m ih => rw [Nat.succ_add, after, after, ih]

theorem Reads.after_eq (h : Reads run ws s t) : s.after run (legs ws).length = t := by
  induction h with
  | nil => rfl
  | cons hs _ ih => rw [legs_cons, List.length_append, length_stretch, after_add, hs.after_cons, ih]

theorem exists_reads (h : n ≤ (items (s.trace run q)).length) :
    ∃ ws t, ws.length = n ∧ legs ws <+: s.trace run q ∧ Reads run ws s t := by
  induction q generalizing s n with
  | zero =>
    obtain rfl : n = 0 := by simpa [trace, items] using h
    exact ⟨[], s, rfl, List.nil_prefix, .nil⟩
  | succ q ih =>
    cases n with
    | zero => exact ⟨[], s, rfl, List.nil_prefix, .nil⟩
    | succ n =>
      cases s with
      | empty => cases h
      | cons x s =>
        rcases ih (n := n) (by simpa [trace, items, item?] using h) with ⟨ws, t, hn, hws, hreads⟩
        refine ⟨(0, x) :: ws, t, by simp [hn], ?_, .cons .cons hreads⟩
        simpa [trace] using hws
      | suspended work =>
        rcases ih (n := n + 1) (by simpa [trace] using h) with ⟨ws, t, hn, hws, hreads⟩
        cases hreads with
        | nil => cases hn
        | @cons k x ws _ s' _ hs hreads =>
          refine ⟨(k + 1, x) :: ws, t, hn, ?_, .cons (.pause hs) hreads⟩
          simpa [trace] using hws

theorem exists_reads_of_stop (h : .stop ∈ s.trace run q) :
    ∃ ws k t, s.trace run q = legs ws ++ stretch k .stop ∧ Reads run ws s t ∧ Waits run k t .empty := by
  induction q generalizing s with
  | zero => simp [trace] at h
  | succ q ih =>
    cases s with
    | empty => exact ⟨[], 0, .empty, rfl, .nil, .empty⟩
    | cons x s =>
      rcases ih (by simpa [trace] using h) with ⟨ws, k, t, hws, hreads, hend⟩
      exact ⟨(0, x) :: ws, k, t, by simp [trace, hws], .cons .cons hreads, hend⟩
    | suspended work =>
      rcases ih (by simpa [trace] using h) with ⟨ws, k, t, hws, hreads, hend⟩
      cases hreads with
      | nil => exact ⟨[], k + 1, .suspended work, by simp [trace, hws], .nil, .pause hend⟩
      | @cons j x ws _ _ _ hs hreads =>
        exact ⟨(j + 1, x) :: ws, k, t, by simp [trace, hws], .cons (.pause hs) hreads, hend⟩

end Stream

end Relational
