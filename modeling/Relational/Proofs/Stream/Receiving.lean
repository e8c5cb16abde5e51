import Relational.Proofs.Stream.Collecting
import Relational.Proofs.Stream.Likeness
import Relational.Proofs.Stream.Schedule

/-!
# What is received

Following a stream may lead past computations that never come to an end, but one who waits for the stream gets
nothing from there on. As long as no such computation is met the two come to the same. A merge needs both
of its streams, each in its turn, and so it responds as long as both of them do.
-/

namespace Relational

namespace Stream

variable {κ' κ β α : Type} {run' : κ' → Stream κ' β} {run : κ → Stream κ α} {s t : Stream κ α}
  {work : Work κ α} {g : α → Stream κ α} {x : α} {xs : List α} {k m n : Nat}

/-! ## Streams that hang -/

theorem hangs_of_ended (h : s.pending? = none) : s.hangs = false := by
  induction s using ready_induction with
  | empty => rfl
  | cons x s ih => exact ih h
  | suspended => cases h

/-- A merge is computed from both of its streams. -/
theorem hangs_merge (s t : Stream κ α) : (s.merge t).hangs = (s.hangs || t.hangs) := by
  induction s using ready_induction with
  | empty => rfl
  | cons x s ih => exact ih
  | suspended work => exact Bool.or_comm t.hangs work.hangs

/-- A bind is computed from its stream and from the streams of the items at hand. -/
theorem hangs_bind (s : Stream κ α) (g : α → Stream κ α) :
    (s.bind g).hangs = (s.hangs || s.ready.any fun x => (g x).hangs) := by
  induction s using ready_induction with
  | empty => rfl
  | cons x s ih =>
    rw [cons_bind, hangs_merge, ih, ready_cons, List.any_cons, Bool.or_left_comm]
    rfl
  | suspended work => exact (Bool.or_false work.hangs).symm

/-! ## Reading -/

theorem computed_eq_some (h : s.hangs = false) : s.computed = some s.strict := by
  simp [strict, computed, h]

theorem strict_of_hangs (h : s.hangs = true) : s.strict = .suspended (.start none) := by
  simp [strict, computed, h]

theorem strict_cons (h : (cons x s).hangs = false) : (cons x s).strict = .cons x s.strict := by
  have hs : s.hangs = false := h
  simp [strict, computed, guarded, h, hs]

theorem strict_suspended (h : work.hangs = false) :
    (suspended work).strict = .suspended (.start (some work)) := by
  simp [strict, computed, guarded, hangs, h]

/-- The items that are received before the `n`-th pause is over. -/
def received (run : κ → Stream κ α) (n : Nat) (s : Stream κ α) : List α :=
  s.strict.delivered (strictly run) n

@[simp] theorem received_zero (s : Stream κ α) : s.received run 0 = [] := rfl

@[simp] theorem received_empty (n : Nat) : (empty : Stream κ α).received run n = [] := delivered_empty n

theorem received_of_hangs (h : s.hangs = true) (n : Nat) : s.received run n = [] := by
  rw [received, strict_of_hangs h]
  induction n with
  | zero => rfl
  | succ n ih => exact (delivered_suspended _ n).trans ih

theorem received_cons (h : (cons x s).hangs = false) (n : Nat) :
    (cons x s).received run (n + 1) = x :: s.received run (n + 1) := by
  rw [received, strict_cons h, delivered_cons, received]

theorem received_suspended (h : work.hangs = false) (n : Nat) :
    (suspended work).received run (n + 1) = (work.resume run).received run n := by
  rw [received, strict_suspended h, delivered_suspended]
  rfl

theorem received_succ_of_ended (h : s.pending? = none) (n : Nat) : s.received run (n + 1) = s.ready := by
  induction s using ready_induction with
  | empty => exact received_empty _
  | cons x s ih => rw [received_cons (hangs_of_ended h), ih h, ready_cons]
  | suspended => cases h

theorem received_succ (hs : s.hangs = false) (h : s.pending? = some work) (n : Nat) :
    s.received run (n + 1) = s.ready ++ (work.resume run).received run n := by
  induction s using ready_induction with
  | empty => cases h
  | cons x s ih => rw [received_cons hs, ih hs h, ready_cons, List.cons_append]
  | suspended => cases h; exact received_suspended hs n

theorem received_mono (s : Stream κ α) (h : m ≤ n) : s.received run m <+: s.received run n :=
  delivered_mono s.strict h

/-- Taking `n` items of the stream, once it has been computed, returns `xs`. -/
def Takes (run : κ → Stream κ α) (n : Nat) (s : Stream κ α) (xs : List α) : Prop :=
  Returns (fun steps => s.computed.bind (take (strictly run) steps n)) xs

/-- The first items that are received can be taken. -/
theorem takes_of_prefix (hs : s.hangs = false) (h : xs <+: s.received run n) :
    s.Takes run xs.length xs := by
  have htake : Returns (take (strictly run) · xs.length s.strict) ((s.received run n).take xs.length) :=
    returns_take h.length_le
  rw [← List.prefix_iff_eq_take.1 h] at htake
  simpa only [Takes, computed_eq_some hs, Option.bind_some] using htake

/-! ## Streams that respond -/

/-- The first `n` blocks are computed without meeting an endless computation. -/
def Responds (run : κ → Stream κ α) (n : Nat) (s : Stream κ α) : Prop :=
  ∀ i < n, ∀ t, s.resumed? run i = some t → t.hangs = false

theorem responds_zero (s : Stream κ α) : s.Responds run 0 := nofun

theorem Responds.mono (h : s.Responds run n) (hmn : m ≤ n) : s.Responds run m :=
  fun i hi => h i (hi.trans_le hmn)

theorem Responds.hangs_eq (h : s.Responds run (n + 1)) : s.hangs = false := h 0 n.succ_pos s rfl

theorem responds_of_ended (h : s.pending? = none) (n : Nat) : s.Responds run n := by
  intro i _ t ht
  cases i with
  | zero =>
    cases ht
    exact hangs_of_ended h
  | succ i => simp [resumed?_succ, h] at ht

theorem responds_succ (h : s.pending? = some work) :
    s.Responds run (n + 1) ↔ s.hangs = false ∧ (work.resume run).Responds run n := by
  constructor
  · refine fun hs => ⟨hs.hangs_eq, fun i hi t ht => hs (i + 1) (Nat.succ_lt_succ hi) t ?_⟩
    rw [resumed?_succ, h]
    exact ht
  · rintro ⟨hs, hresume⟩ i hi t ht
    cases i with
    | zero =>
      cases ht
      exact hs
    | succ i =>
      rw [resumed?_succ, h] at ht
      exact hresume i (Nat.lt_of_succ_lt_succ hi) t ht

theorem responds_cons : (cons x s).Responds run n ↔ s.Responds run n := by
  cases n with
  | zero => exact iff_of_true (responds_zero _) (responds_zero s)
  | succ n =>
    cases hs : s.pending? with
    | none => exact iff_of_true (responds_of_ended (s := cons x s) hs _) (responds_of_ended hs _)
    | some work => exact (responds_succ (s := cons x s) hs).trans (responds_succ hs).symm

theorem responds_suspended :
    (suspended work).Responds run (n + 1) ↔ work.hangs = false ∧ (work.resume run).Responds run n :=
  responds_succ (pending?_suspended work)

theorem responds_single (x : α) (n : Nat) : (single x).Responds run n := responds_of_ended rfl n

theorem responds_ofList (xs : List α) (n : Nat) : (ofList xs : Stream κ α).Responds run n :=
  responds_of_ended (pending?_ofList xs) n

/-- Nothing is received that following the stream would not meet. -/
theorem received_prefix_delivered (n : Nat) (s : Stream κ α) : s.received run n <+: s.delivered run n := by
  induction n generalizing s with
  | zero => exact List.prefix_rfl
  | succ n ih =>
    cases hhangs : s.hangs with
    | true =>
      rw [received_of_hangs hhangs]
      exact List.nil_prefix
    | false =>
      cases hs : s.pending? with
      | none => rw [received_succ_of_ended hs, delivered_succ_of_ended hs]
      | some work =>
        rw [received_succ hhangs hs, delivered_succ hs]
        exact (List.prefix_append_right_inj s.ready).2 (ih (work.resume run))

/-- As long as a stream responds, all that following it would meet is received. -/
theorem Responds.received_eq (h : s.Responds run n) : s.received run n = s.delivered run n := by
  induction n generalizing s with
  | zero => rfl
  | succ n ih =>
    cases hs : s.pending? with
    | none => rw [received_succ_of_ended hs, delivered_succ_of_ended hs]
    | some work => rw [received_succ h.hangs_eq hs, delivered_succ hs, ih ((responds_succ hs).1 h).2]

theorem takes_of_block {f : Nat → α} (hs : ∀ n, s.Responds run n) (h : ∀ i, s.block run i = [f i]) (n : Nat) :
    s.Takes run n ((List.range n).map f) := by
  have hreceived : (List.range n).map f <+: s.received run n := by
    rw [(hs n).received_eq, delivered_of_block h]
  simpa using takes_of_prefix (hs 1).hangs_eq hreceived

/-! ## Merging and binding -/

theorem received_merge_of_ended (hs : s.pending? = none) (ht : t.hangs = false) (n : Nat) :
    (s.merge t).received run (n + 1) = s.ready ++ t.received run (n + 1) := by
  have hmerge : (s.merge t).hangs = false := by rw [hangs_merge, hangs_of_ended hs, ht, Bool.or_false]
  cases hwork : t.pending? with
  | none =>
    rw [received_succ_of_ended ((pending?_merge_of_ended hs t).trans hwork),
      received_succ_of_ended hwork, ready_merge_of_ended hs]
  | some work =>
    rw [received_succ hmerge ((pending?_merge_of_ended hs t).trans hwork), received_succ ht hwork,
      ready_merge_of_ended hs, List.append_assoc]

/-- Both streams of a merge are received in turn, as long as the other one responds. -/
theorem received_merge (run : κ → Stream κ α) (n : Nat) (a b : Stream κ α) :
    ∃ p q, p ≤ n ∧ q ≤ n ∧ (b.Responds run n → (n + 1) / 2 ≤ p) ∧ (a.Responds run n → n / 2 ≤ q) ∧
      Interleaving (a.received run p) (b.received run q) ((a.merge b).received run n) := by
  induction n generalizing a b with
  | zero => exact ⟨0, 0, by omega, by omega, fun _ => by omega, fun _ => by omega, .nil⟩
  | succ n ih =>
    have hmerge := hangs_merge a b
    cases ha : a.hangs with
    | true =>
      refine ⟨n + 1, 0, by omega, by omega, fun _ => by omega, fun h => ?_, ?_⟩
      · cases ha.symm.trans h.hangs_eq
      · rw [received_of_hangs ha, received_of_hangs (hmerge.trans (by rw [ha]; rfl))]
        exact .nil
    | false =>
      cases hb : b.hangs with
      | true =>
        refine ⟨0, n + 1, by omega, by omega, fun h => ?_, fun _ => by omega, ?_⟩
        · cases hb.symm.trans h.hangs_eq
        · rw [received_of_hangs hb, received_of_hangs (hmerge.trans (by rw [ha, hb]; rfl))]
          exact .nil
      | false =>
        rw [ha, hb, Bool.or_false] at hmerge
        cases hwork : a.pending? with
        | none =>
          refine ⟨n + 1, n + 1, by omega, by omega, fun _ => by omega, fun _ => by omega, ?_⟩
          rw [received_merge_of_ended hwork hb, received_succ_of_ended hwork]
          simpa using (Interleaving.nil_left (b.received run (n + 1))).append_left a.ready
        | some work =>
          -- The right stream is on the left from now on, so the two numbers change places.
          obtain ⟨p, q, hp, hq, hresumed, hright, h⟩ := ih b (work.resume run)
          refine ⟨q + 1, p, by omega, by omega, fun hb => ?_, fun ha => ?_, ?_⟩
          · have := hright (hb.mono n.le_succ)
            omega
          · exact hresumed ((responds_succ hwork).1 ha).2
          · rw [received_succ hmerge (pending?_merge hwork b), received_succ ha hwork, ready_merge hwork]
            exact h.symm.append_left a.ready

theorem Responds.merge (hs : s.Responds run n) (ht : t.Responds run n) : (s.merge t).Responds run n := by
  induction n generalizing s t with
  | zero => exact responds_zero _
  | succ n ih =>
    have hmerge : (s.merge t).hangs = false := by rw [hangs_merge, hs.hangs_eq, ht.hangs_eq, Bool.or_false]
    cases hwork : s.pending? with
    | none =>
      cases hwork' : t.pending? with
      | none => exact responds_of_ended ((pending?_merge_of_ended hwork t).trans hwork') _
      | some work =>
        exact (responds_succ ((pending?_merge_of_ended hwork t).trans hwork')).2
          ⟨hmerge, ((responds_succ hwork').1 ht).2⟩
    | some work =>
      exact (responds_succ (pending?_merge hwork t)).2
        ⟨hmerge, ih (ht.mono n.le_succ) ((responds_succ hwork).1 hs).2⟩

theorem Responds.bind (hs : s.Responds run n) (hg : ∀ x ∈ s.delivered run n, (g x).Responds run n) :
    (s.bind g).Responds run n := by
  induction n generalizing s with
  | zero => exact responds_zero _
  | succ n ih =>
    induction s using ready_induction with
    | empty => exact responds_of_ended rfl _
    | cons x s ihs =>
      rw [delivered_cons, List.forall_mem_cons] at hg
      exact hg.1.merge (ihs (responds_cons.1 hs) hg.2)
    | suspended work =>
      rw [delivered_suspended] at hg
      obtain ⟨hwork, hresume⟩ := responds_suspended.1 hs
      exact responds_suspended.2 ⟨hwork, ih hresume fun x hx => (hg x hx).mono n.le_succ⟩

/-- If a merge responds, each of its streams does for the turns that it has had. -/
theorem Responds.of_merge (h : (s.merge t).Responds run n) :
    s.Responds run ((n + 1) / 2) ∧ t.Responds run (n / 2) := by
  induction n generalizing s t with
  | zero => exact ⟨responds_zero s, responds_zero t⟩
  | succ n ih =>
    have hhangs := h.hangs_eq
    rw [hangs_merge, Bool.or_eq_false_iff] at hhangs
    cases hwork : s.pending? with
    | none =>
      refine ⟨responds_of_ended hwork _, ?_⟩
      cases hwork' : t.pending? with
      | none => exact responds_of_ended hwork' _
      | some work =>
        have hresume := ((responds_succ ((pending?_merge_of_ended hwork t).trans hwork')).1 h).2
        exact ((responds_succ hwork').2 ⟨hhangs.2, hresume⟩).mono (Nat.div_le_self _ _)
    | some work =>
      obtain ⟨ht, hresume⟩ := ih ((responds_succ (pending?_merge hwork t)).1 h).2
      exact ⟨((responds_succ hwork).2 ⟨hhangs.1, hresume⟩).mono (by omega), ht⟩

/-- If a bind always responds, so do its stream and the streams of all the items. -/
theorem responds_of_bind (h : ∀ m, (s.bind g).Responds run m) (n : Nat) :
    s.Responds run n ∧ ∀ x ∈ s.delivered run n, ∀ m, (g x).Responds run m := by
  induction n generalizing s with
  | zero => exact ⟨responds_zero s, nofun⟩
  | succ n ih =>
    induction s using ready_induction with
    | empty => exact ⟨responds_of_ended rfl _, fun x hx => by simp at hx⟩
    | cons x s ihs =>
      have hmerge (m : Nat) := Responds.of_merge (h (2 * m))
      obtain ⟨hs, hitems⟩ := ihs fun m => (hmerge m).2.mono (by omega)
      rw [delivered_cons, List.forall_mem_cons]
      exact ⟨responds_cons.2 hs, fun m => (hmerge m).1.mono (by omega), hitems⟩
    | suspended work =>
      have hresume (m : Nat) := (responds_suspended.1 (h (m + 1))).2
      obtain ⟨hs, hitems⟩ := ih hresume
      rw [delivered_suspended]
      exact ⟨responds_suspended.2 ⟨(h 1).hangs_eq, hs⟩, hitems⟩

/-! ## Streams alike -/

namespace Alike

variable {f : β → α} {s' : Stream κ' β}

theorem hangs_eq (h : Alike run' run f s' s) : s'.hangs = s.hangs := (iff_lockstep.1 h 0).hangs_eq

theorem waiting : Alike (strictly run') (strictly run) f (.suspended (.start none)) (.suspended (.start none)) := by
  intro n
  induction n with
  | zero => exact .zero
  | succ n ih => exact .suspended rfl ih

/-- Who waits for the streams meets the same too. -/
theorem strict (h : Alike run' run f s' s) :
    Alike (strictly run') (strictly run) f s'.strict s.strict := by
  intro n
  induction n generalizing s' s with
  | zero => exact .zero
  | succ n ih =>
    cases hhangs : s.hangs with
    | true =>
      rw [strict_of_hangs hhangs, strict_of_hangs (h.hangs_eq.trans hhangs)]
      exact waiting (n + 1)
    | false =>
      have hhangs' := h.hangs_eq.trans hhangs
      cases s' with
      | empty =>
        cases h 1
        exact .empty
      | cons x t' =>
        cases h 1
        rw [strict_cons hhangs, strict_cons hhangs']
        exact .cons (ih h.of_cons)
      | suspended work' =>
        cases h 1
        rw [strict_suspended hhangs, strict_suspended hhangs']
        exact .suspended rfl (ih h.of_suspended)

/-- To wait for a stream that responds is no different from following it. -/
theorem strict_of_responds (h : ∀ n, s.Responds run n) : Alike (strictly run) run id s.strict s := by
  intro n
  induction n generalizing s with
  | zero => exact .zero
  | succ n ih =>
    have hhangs := (h 1).hangs_eq
    cases s with
    | empty => exact .empty
    | cons x s =>
      rw [strict_cons hhangs]
      exact .cons (ih fun n => responds_cons.1 (h n))
    | suspended work =>
      rw [strict_suspended hhangs]
      exact .suspended hhangs.symm (ih fun n => (responds_suspended.1 (h (n + 1))).2)

theorem map_received (h : Alike run' run f s' s) (n : Nat) :
    (s'.received run' n).map f = s.received run n :=
  h.strict.map_delivered n

theorem responds_iff (h : Alike run' run f s' s) (n : Nat) : s'.Responds run' n ↔ s.Responds run n := by
  induction n generalizing s' s with
  | zero => exact iff_of_true (responds_zero s') (responds_zero s)
  | succ n ih =>
    induction s' using ready_induction generalizing s with
    | empty =>
      cases h 1
      exact iff_of_true (responds_of_ended rfl _) (responds_of_ended rfl _)
    | cons x t' iht =>
      cases h 1
      exact responds_cons.trans ((iht h.of_cons).trans responds_cons.symm)
    | suspended work' =>
      cases h 1 with
      | suspended hhangs =>
        rw [responds_suspended, responds_suspended, hhangs, ih h.of_suspended]

end Alike

/-- All items of a stream that responds until it ends can be taken. -/
theorem returns_takeAll_computed (hs : ∀ n, s.Responds run n) (h : s.EndsIn run n) :
    Returns (fun steps => s.computed.bind (takeAll (strictly run) steps)) (s.delivered run (n + 1)) := by
  have halike := Alike.strict_of_responds hs
  have hall := returns_takeAll ((halike.endsIn_iff n).2 h)
  have hitems := halike.map_delivered (n + 1)
  rw [List.map_id] at hitems
  simpa only [computed_eq_some (hs 1).hangs_eq, Option.bind_some, hitems] using hall

end Stream

end Relational
