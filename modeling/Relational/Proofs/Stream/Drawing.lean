import Relational.Stream.Draw
import Relational.Proofs.Stream.Marks

/-!
# Drawing items in order

In whatever way items are drawn from a stream, they come in the order in which following it meets them,
and no pause is passed that does not stand before the last item asked for. What a way of drawing may spend
is compared with the marks that it has to pass: the pauses before each item, and the items themselves.
-/

namespace Relational

namespace Stream

open Mark

variable {κ α : Type} {run : κ → Stream κ α} {s s' t : Stream κ α} {x : α} {k n q : Nat}
  {ws : List (Nat × α)}

/-- The items of at most `n` pulls, each of what the one before has left, and what the last of them leaves,
unless it came to the end. -/
def pulls (run : κ → Stream κ α) (steps : Nat) :
    (n : Nat) → Stream κ α → Option (List α × Option (Stream κ α))
  | 0, s => some ([], some s)
  | n + 1, s => do
    match ← pull run steps s with
    | none => return ([], none)
    | some (x, s) =>
      let (xs, rest) ← pulls run steps n s
      return (x :: xs, rest)

/-! ## The next item -/

/-- No more items are met than steps are spent. -/
theorem takeAll_eq_take {steps : Nat} (h : steps < n) : takeAll run steps s = take run steps n s := by
  induction steps generalizing s n with
  | zero =>
    obtain ⟨n, rfl⟩ := Nat.exists_eq_add_of_lt h
    cases s <;> simp [takeAll, take]
  | succ steps ih =>
    obtain ⟨n, rfl⟩ : ∃ m, n = m + 1 := ⟨n - 1, by omega⟩
    cases s with
    | empty => simp [takeAll, take]
    | cons x s => rw [takeAll, take, ih (Nat.lt_of_succ_lt_succ h)]
    | suspended work => rw [takeAll, take, ih (Nat.lt_of_succ_lt h)]

namespace Waits

theorem force (h : Waits run k s t) (steps : Nat) :
    force run steps s = if k ≤ steps then some t else none := by
  induction h generalizing steps with
  | empty | cons => cases steps <;> simp [Stream.force]
  | pause _ ih => cases steps <;> simp [Stream.force, ih]

theorem pull (h : Waits run k s t) (steps : Nat) :
    pull run steps s = if k ≤ steps then some (uncons? t) else none := by
  rw [Stream.pull, h.force]
  split <;> rfl

theorem take (h : Waits run k s t) (steps n : Nat) :
    take run steps (n + 1) s = if k ≤ steps then take run (steps - k) (n + 1) t else none := by
  induction h generalizing steps with
  | empty | cons => simp
  | pause _ ih => cases steps <;> simp [Stream.take, ih]

theorem takeAll (h : Waits run k s t) (steps : Nat) :
    takeAll run steps s = if k ≤ steps then takeAll run (steps - k) t else none := by
  rw [takeAll_eq_take (Nat.lt_succ_self steps), h.take, takeAll_eq_take (by omega : steps - k < steps + 1)]

end Waits

theorem exists_waits_of_force {steps : Nat} (h : force run steps s = some t) :
    ∃ k, Waits run k s t := by
  induction steps generalizing s with
  | zero => cases s <;> cases h <;> exact ⟨0, by constructor⟩
  | succ steps ih =>
    cases s with
    | suspended work =>
      rcases ih h with ⟨k, hk⟩
      exact ⟨k + 1, .pause hk⟩
    | _ => cases h; exact ⟨0, by constructor⟩

namespace Waits

theorem take_cons (h : Waits run k s (.cons x s')) (steps n : Nat) :
    Stream.take run steps (n + 1) s =
      if k + 1 ≤ steps then (Stream.take run (steps - (k + 1)) n s').map (x :: ·) else none := by
  rw [h.take]
  by_cases hk : k + 1 ≤ steps
  · obtain ⟨j, rfl⟩ := Nat.exists_eq_add_of_le hk
    rw [if_pos (by omega), if_pos hk, show k + 1 + j - k = j + 1 by omega, Nat.add_sub_cancel_left]
    rfl
  · rw [if_neg hk]
    split
    · rw [show steps - k = 0 by omega]
      rfl
    · rfl

theorem pulls_cons (h : Waits run k s (.cons x s')) (steps n : Nat) :
    pulls run steps (n + 1) s =
      if k ≤ steps then (pulls run steps n s').map (Prod.map (x :: ·) id) else none := by
  rw [pulls, h.pull]
  split
  · simp only [uncons?, Option.bind_eq_bind, Option.bind_some]
    cases pulls run steps n s' <;> rfl
  · rfl

theorem nexts_cons (h : Waits run k s (.cons x s')) (steps n : Nat) :
    nexts run steps (n + 1) s =
      if k ≤ steps then (nexts run steps n s').map (some x :: ·) else none := by
  rw [nexts, next, h.pull]
  split
  · simp only [uncons?, Option.map_some, Option.bind_eq_bind, Option.bind_some]
    cases nexts run steps n s' <;> rfl
  · rfl

theorem pulls_empty (h : Waits run k s .empty) (steps n : Nat) :
    pulls run steps (n + 1) s = if k ≤ steps then some ([], none) else none := by
  rw [pulls, h.pull]
  split <;> rfl

theorem nexts_empty (h : Waits run k s .empty) (steps n : Nat) :
    nexts run steps (n + 1) s =
      if k ≤ steps then some (List.replicate (n + 1) none) else none := by
  -- The iterator stays at the end.
  have hrest : nexts run steps n .empty = some (List.replicate n none) := by
    induction n with
    | zero => rfl
    | succ n ih =>
      rw [nexts, next, Waits.empty.pull, if_pos (Nat.zero_le _)]
      simp [uncons?, ih, List.replicate_succ]
  rw [nexts, next, h.pull]
  split
  · simp [uncons?, hrest, List.replicate_succ]
  · rfl

end Waits

namespace Reads

theorem take (h : Reads run ws s t) (steps n : Nat) :
    take run steps (ws.length + n) s =
      if (legs ws).length ≤ steps then
        (take run (steps - (legs ws).length) n t).map (ws.map Prod.snd ++ ·)
      else none := by
  induction h generalizing steps with
  | nil => simp
  | @cons k x ws s s' t hs _ ih =>
    rw [List.length_cons, Nat.add_right_comm, hs.take_cons, ih, legs_cons, List.length_append, length_stretch,
      Nat.sub_sub]
    by_cases hk : k + 1 + (legs ws).length ≤ steps
    · rw [if_pos (by omega), if_pos (by omega), if_pos hk, Option.map_map]
      rfl
    · rw [if_neg hk]
      split
      · rw [if_neg (by omega), Option.map_none]
      · rfl

theorem pulls (h : Reads run ws s t) (steps n : Nat) :
    pulls run steps (ws.length + n) s =
      if ∀ w ∈ ws, w.1 ≤ steps then
        (pulls run steps n t).map (Prod.map (ws.map Prod.snd ++ ·) id)
      else none := by
  induction h with
  | nil =>
    rw [List.length_nil, Nat.zero_add, if_pos nofun]
    change _ = Option.map (Prod.map id id) _
    rw [Prod.map_id, Option.map_id, id]
  | cons hs _ ih =>
    rw [List.length_cons, Nat.add_right_comm, hs.pulls_cons, ih]
    simp only [List.forall_mem_cons, ite_and]
    refine if_congr .rfl ?_ rfl
    split
    · rw [Option.map_map]
      rfl
    · rfl

theorem nexts (h : Reads run ws s t) (steps n : Nat) :
    nexts run steps (ws.length + n) s =
      if ∀ w ∈ ws, w.1 ≤ steps then
        (nexts run steps n t).map ((ws.map fun w => some w.2) ++ ·)
      else none := by
  induction h with
  | nil => simp
  | cons hs _ ih =>
    rw [List.length_cons, Nat.add_right_comm, hs.nexts_cons, ih]
    simp only [List.forall_mem_cons, ite_and]
    refine if_congr .rfl ?_ rfl
    split
    · rw [Option.map_map]
      rfl
    · rfl

theorem take_of_end (h : Reads run ws s t) (hend : Waits run k t .empty) (hn : ws.length < n)
    (steps : Nat) : Stream.take run steps n s =
      if (legs ws).length + k ≤ steps then some (ws.map Prod.snd) else none := by
  obtain ⟨j, rfl⟩ := Nat.exists_eq_add_of_lt hn
  have hlast : ∀ steps, Stream.take run steps (j + 1) .empty = some ([] : List α) := by simp [Stream.take]
  rw [Nat.add_assoc, h.take, hend.take, hlast]
  by_cases hsteps : (legs ws).length + k ≤ steps
  · rw [if_pos (by omega), if_pos (by omega), if_pos hsteps, Option.map_some, List.append_nil]
  · rw [if_neg hsteps]
    split
    · rw [if_neg (by omega), Option.map_none]
    · rfl

end Reads

/-! ## Drawing so many items -/

/-- As many items as `ws` has can be drawn by spending the marks up to the last of them: together for
`take`, and for single draws the pauses before each item. What single draws leave stands right behind the
last item. -/
structure DrawsFirst (run : κ → Stream κ α) (ws : List (Nat × α)) (s : Stream κ α) : Prop where
  take (steps : Nat) : take run steps ws.length s =
    if (legs ws).length ≤ steps then some (ws.map Prod.snd) else none
  pulls (steps : Nat) : pulls run steps ws.length s =
    if ∀ w ∈ ws, w.1 ≤ steps then some (ws.map Prod.snd, some (s.after run (legs ws).length)) else none
  nexts (steps : Nat) : nexts run steps ws.length s =
    if ∀ w ∈ ws, w.1 ≤ steps then some (ws.map fun w => some w.2) else none

theorem Reads.drawsFirst (h : Reads run ws s t) : s.DrawsFirst run ws where
  take steps := by simpa [Stream.take] using h.take steps 0
  pulls steps := by simpa [Stream.pulls, h.after_eq] using h.pulls steps 0
  nexts steps := by simpa [Stream.nexts] using h.nexts steps 0

/-- When more items are asked for than those of `ws`, these are all, and behind them and `k` more pauses
the end is found, by an iterator again and again. -/
structure DrawsAll (run : κ → Stream κ α) (ws : List (Nat × α)) (k : Nat) (s : Stream κ α) : Prop where
  takeAll (steps : Nat) : takeAll run steps s =
    if (legs ws).length + k ≤ steps then some (ws.map Prod.snd) else none
  take {n : Nat} (hn : ws.length < n) (steps : Nat) : take run steps n s =
    if (legs ws).length + k ≤ steps then some (ws.map Prod.snd) else none
  pulls {n : Nat} (hn : ws.length < n) (steps : Nat) : pulls run steps n s =
    if (∀ w ∈ ws, w.1 ≤ steps) ∧ k ≤ steps then some (ws.map Prod.snd, none) else none
  nexts {n : Nat} (hn : ws.length < n) (steps : Nat) : nexts run steps n s =
    if (∀ w ∈ ws, w.1 ≤ steps) ∧ k ≤ steps then
      some ((ws.map fun w => some w.2) ++ List.replicate (n - ws.length) none)
    else none

theorem Reads.drawsAll (h : Reads run ws s t) (hend : Waits run k t .empty) :
    s.DrawsAll run ws k where
  take hn steps := h.take_of_end hend hn steps
  takeAll steps := by
    rw [takeAll_eq_take (by omega : steps < steps + ws.length + 1), h.take_of_end hend (by omega)]
  pulls {n} hn steps := by
    obtain ⟨j, rfl⟩ := Nat.exists_eq_add_of_lt hn
    rw [Nat.add_assoc, h.pulls, hend.pulls_empty, ite_and]
    refine if_congr .rfl ?_ rfl
    split <;> simp
  nexts {n} hn steps := by
    obtain ⟨j, rfl⟩ := Nat.exists_eq_add_of_lt hn
    rw [Nat.add_assoc, h.nexts, hend.nexts_empty, ite_and, Nat.add_sub_cancel_left]
    refine if_congr .rfl ?_ rfl
    split <;> simp

/-! ## Forced streams -/

section Returns

variable {β : Type} {f g : Nat → Option β} {y : β}

/-- The result is `y` as soon as enough steps may be spent. -/
def Returns (f : Nat → Option β) (y : β) : Prop := ∃ m, ∀ steps, m ≤ steps → f steps = some y

theorem returns_congr (h : ∀ steps, k ≤ steps → f steps = g steps) : Returns f y ↔ Returns g y := by
  constructor
  · rintro ⟨m, hm⟩
    exact ⟨k + m, fun steps hsteps => by rw [← h steps (by omega), hm steps (by omega)]⟩
  · rintro ⟨m, hm⟩
    exact ⟨k + m, fun steps hsteps => by rw [h steps (by omega), hm steps (by omega)]⟩

theorem returns_sub (h : ∀ steps, k ≤ steps → f steps = g (steps - k)) : Returns f y ↔ Returns g y := by
  constructor
  · rintro ⟨m, hm⟩
    refine ⟨m, fun steps hsteps => ?_⟩
    rw [← hm (steps + k) (by omega), h (steps + k) (by omega), Nat.add_sub_cancel]
  · rintro ⟨m, hm⟩
    exact ⟨k + m, fun steps hsteps => by rw [h steps (by omega), hm (steps - k) (by omega)]⟩

end Returns

/-- Everything that is drawn from `s` is drawn from `t` and the other way round. -/
structure DrawsAlike (run : κ → Stream κ α) (s t : Stream κ α) : Prop where
  take (n : Nat) (xs : List α) : Returns (take run · n s) xs ↔ Returns (take run · n t) xs
  takeAll (xs : List α) : Returns (takeAll run · s) xs ↔ Returns (takeAll run · t) xs
  pulls (n : Nat) (xs : List α) : Returns (fun steps => (pulls run steps n s).map Prod.fst) xs ↔
    Returns (fun steps => (pulls run steps n t).map Prod.fst) xs
  nexts (n : Nat) (xs : List (Option α)) : Returns (nexts run · n s) xs ↔ Returns (nexts run · n t) xs

theorem Waits.drawsAlike (h : Waits run k s t) : DrawsAlike run s t where
  take n xs := by
    cases n with
    | zero => simp only [Stream.take]
    | succ n => exact returns_sub fun steps hk => by rw [h.take, if_pos hk]
  takeAll xs := returns_sub fun steps hk => by rw [h.takeAll, if_pos hk]
  pulls n xs := by
    cases n with
    | zero => simp only [Stream.pulls, Option.map_some]
    | succ n =>
      refine returns_congr (k := k) fun steps hk => ?_
      rw [Stream.pulls, Stream.pulls, h.pull, h.refl.pull, if_pos hk, if_pos (Nat.zero_le _)]
  nexts n xs := by
    cases n with
    | zero => simp only [Stream.nexts]
    | succ n =>
      refine returns_congr (k := k) fun steps hk => ?_
      rw [Stream.nexts, Stream.nexts, next, next, h.pull, h.refl.pull, if_pos hk, if_pos (Nat.zero_le _)]

/-! ## All ways of drawing -/

/-- In whatever way items are drawn, they are those that following the stream meets, in this order, and
nothing is resumed behind the last item asked for. A single draw spends the pauses before the next item.
Where there are `n` items, drawing `n` gives them and spends what stands before the last; where there are
fewer, it gives them all and then the end. Forcing a stream succeeds if it has an item or an end, and
makes no difference to what is drawn. -/
theorem draw_in_order (run : κ → Stream κ α) (s : Stream κ α) :
    (∀ k x, s.trace run (k + 1) = stretch k (.item x) → ∀ steps,
      pull run steps s = (if k ≤ steps then some (some (x, s.after run (k + 1))) else none) ∧
      next run steps s = if k ≤ steps then some (some x, s.after run (k + 1)) else none) ∧
    (∀ n q, n ≤ (items (s.trace run q)).length → ∃ ws : List (Nat × α), ws.length = n ∧
      legs ws <+: s.trace run q ∧ ws.map Prod.snd = (items (s.trace run q)).take n ∧
      s.DrawsFirst run ws) ∧
    (∀ q, .stop ∈ s.trace run q → ∃ (ws : List (Nat × α)) (k : Nat),
      s.trace run q = legs ws ++ stretch k .stop ∧ ws.map Prod.snd = items (s.trace run q) ∧
      s.DrawsAll run ws k) ∧
    ((∃ steps t, force run steps s = some t) ↔ ∃ q, ∃ m ∈ s.trace run q, m ≠ .pause) ∧
    ∀ steps t, force run steps s = some t →
      (∀ work, t ≠ .suspended work) ∧ (∀ j, force run j t = some t) ∧ DrawsAlike run s t := by
  refine ⟨fun k x h steps => ?_, fun n q h => ?_, fun q h => ?_, ⟨?_, ?_⟩, fun steps t h => ?_⟩
  · have hs := waits_of_trace h
    rw [next, hs.pull]
    refine ⟨rfl, ?_⟩
    split <;> rfl
  · rcases exists_reads h with ⟨ws, t, hn, hws, hreads⟩
    refine ⟨ws, hn, hws, ?_, hreads.drawsFirst⟩
    rcases hws with ⟨rest, hrest⟩
    rw [← hrest, items_append, items_legs, List.take_left' (by simpa using hn)]
  · rcases exists_reads_of_stop h with ⟨ws, k, t, hws, hreads, hend⟩
    exact ⟨ws, k, hws, by simp [hws], hreads.drawsAll hend⟩
  · rintro ⟨steps, t, h⟩
    rcases exists_waits_of_force h with ⟨k, hk⟩
    exact ⟨k + 1, hk.exists_mark⟩
  · rintro ⟨q, m, hm, ne⟩
    rcases exists_waits_of_trace hm ne with ⟨k, t, hk⟩
    exact ⟨k, t, by rw [hk.force, if_pos (Nat.le_refl k)]⟩
  · rcases exists_waits_of_force h with ⟨k, hk⟩
    refine ⟨hk.not_suspended, fun j => ?_, hk.drawsAlike⟩
    rw [hk.refl.force, if_pos (Nat.zero_le j)]

/-- A stream that pauses for ever behind its second item, and one that ends behind its only one. -/
theorem draw_in_order_stuck :
    let stuck : Stream Unit Nat := .suspended (.start ())
    let run : Unit → Stream Unit Nat := fun _ => stuck
    let late : Stream Unit Nat := .suspended (.later (.cons 1 stuck))
    let short : Stream Unit Nat := .suspended (.later (single 2))
    take run 3 2 (.cons 0 late) = some [0, 1] ∧ next run 1 late = some (some 1, stuck) ∧
      takeAll run 2 short = some [2] ∧
      (Returns (take run · 1 short) [2] ↔ Returns (take run · 1 (single 2)) [2]) := by
  intro stuck run late short
  obtain ⟨-, henough, -⟩ := draw_in_order run (.cons 0 late)
  obtain ⟨hnext, -⟩ := draw_in_order run late
  obtain ⟨-, -, hend, -, hforce⟩ := draw_in_order run short
  refine ⟨?_, (hnext 1 1 rfl 1).2, ?_, (hforce 1 (single 2) rfl).2.2.take 1 [2]⟩
  · obtain ⟨ws, hn, hws, hitems, hdraw⟩ := henough 2 3 (Nat.le_refl 2)
    have hlen : (legs ws).length ≤ 3 := hws.length_le
    rw [← hn, hdraw.take, if_pos hlen, hitems]
    rfl
  · obtain ⟨ws, k, hws, hitems, hdraw⟩ := hend 3 (by decide)
    have hlen := congrArg List.length hws
    rw [List.length_append, length_stretch] at hlen
    change 3 = _ at hlen
    rw [hdraw.takeAll, if_pos (by omega), hitems]
    rfl

end Stream

end Relational
