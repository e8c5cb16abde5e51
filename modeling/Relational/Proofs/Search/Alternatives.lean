import Relational.Proofs.Search.Endless
import Relational.Proofs.Stream.Provenance

/-!
# Alternatives

Several alternatives are merged from the right, so each of them has twice the turns of the next one. None
has to wait for the others to end, or to find anything: as long as these respond, what the `i`-th one
delivers in its first blocks comes before a pause whose number does not depend on them. But each block of a
merge is computed from all its streams, so an alternative that does not respond silences all of them.
-/

namespace Relational

/-! ## Merging several streams -/

namespace Stream

variable {κ α : Type} {run : κ → Stream κ α} {s : Stream κ α} {ss : List (Stream κ α)} {b : Nat × α}
  {p : Nat × α → Bool} {i k l n : Nat}

/-- The items of all the streams. They are merged from the right, and the last one stands as it is. -/
def mergeAll : List (Stream κ α) → Stream κ α
  | [] => .empty
  | [s] => s
  | s :: ss => s.merge (mergeAll ss)

/-- The items of all the streams, each with the number of its stream; the first one has number `k`. -/
def labelled : (k : Nat) → List (Stream κ α) → Stream (MarkedWork κ α) (Nat × α)
  | _, [] => .empty
  | k, [s] => marked (fun _ => k) 0 s
  | k, s :: ss => (marked (fun _ => k) 0 s).merge (labelled (k + 1) ss)

theorem labelled_cons_cons (k : Nat) (s t : Stream κ α) (ss : List (Stream κ α)) :
    labelled k (s :: t :: ss) = (marked (fun _ => k) 0 s).merge (labelled (k + 1) (t :: ss)) := rfl

theorem alike_labelled (run : κ → Stream κ α) (k : Nat) (ss : List (Stream κ α)) :
    Alike (MarkedWork.resume run) run Prod.snd (labelled k ss) (mergeAll ss) := by
  match ss with
  | [] => exact fun _ => .empty
  | [s] => exact alike_marked run _ 0 s
  | s :: t :: ss => exact (alike_marked run _ 0 s).merge (alike_labelled run (k + 1) (t :: ss))

theorem responds_mergeAll {ss : List (Stream κ α)} (h : ∀ s ∈ ss, s.Responds run n) :
    (mergeAll ss).Responds run n := by
  match ss with
  | [] => exact responds_of_ended rfl n
  | [s] => exact h s (List.mem_singleton_self s)
  | s :: t :: ss =>
    rw [List.forall_mem_cons] at h
    exact h.1.merge (responds_mergeAll h.2)

theorem responds_labelled (k : Nat) (h : ∀ s ∈ ss, s.Responds run n) :
    (labelled k ss).Responds (MarkedWork.resume run) n :=
  ((alike_labelled run k ss).responds_iff n).2 (responds_mergeAll h)

theorem label_of_mem_marked
    (h : b ∈ (marked (fun _ => k) 0 s).received (MarkedWork.resume run) n) : b.1 = k := by
  obtain ⟨i, hi⟩ := mark_of_mem_marked ((received_prefix_delivered n _).subset h)
  exact hi

theorem label_of_mem_labelled {ss : List (Stream κ α)} {k n : Nat}
    (h : b ∈ (labelled k ss).received (MarkedWork.resume run) n) :
    k ≤ b.1 ∧ b.1 < k + ss.length := by
  match ss with
  | [] => simp [labelled] at h
  | [s] =>
    have hb := label_of_mem_marked h
    simp [hb]
  | s :: t :: ss =>
    rw [labelled_cons_cons] at h
    obtain ⟨p, q, -, -, -, -, hmerge⟩ := received_merge (MarkedWork.resume run) n
      (marked (fun _ => k) 0 s) (labelled (k + 1) (t :: ss))
    rcases List.mem_append.1 (hmerge.perm.mem_iff.1 h) with h | h
    · have hb := label_of_mem_marked h
      simp [hb]
    · have hb := label_of_mem_labelled h
      simp only [List.length_cons] at hb ⊢
      omega

theorem filter_received_marked (run : κ → Stream κ α) (k n : Nat) (s : Stream κ α) :
    ((marked (fun _ => k) 0 s).received (MarkedWork.resume run) n).filter (fun b => b.1 == k) =
      (marked (fun _ => k) 0 s).received (MarkedWork.resume run) n := by
  apply List.filter_eq_self.2
  intro b hb
  simp [label_of_mem_marked hb]

theorem filter_received_marked_of_ne (run : κ → Stream κ α) (h : k ≠ l) (n : Nat) (s : Stream κ α) :
    ((marked (fun _ => k) 0 s).received (MarkedWork.resume run) n).filter (fun b => b.1 == l) = [] := by
  apply List.filter_eq_nil_iff.2
  intro b hb
  simpa [label_of_mem_marked hb] using h

theorem filter_received_labelled_of_lt (run : κ → Stream κ α) (h : l < k) (n : Nat)
    (ss : List (Stream κ α)) :
    ((labelled k ss).received (MarkedWork.resume run) n).filter (fun b => b.1 == l) = [] := by
  apply List.filter_eq_nil_iff.2
  intro b hb
  have := label_of_mem_labelled hb
  simp only [beq_iff_eq]
  omega

/-- What `p` keeps of a merge when it keeps nothing of the right stream. -/
theorem filter_received_merge_left {s t : Stream κ (Nat × α)} {run : κ → Stream κ (Nat × α)}
    (ht : ∀ q, (t.received run q).filter p = []) (n : Nat) :
    ∃ q ≤ n, (t.Responds run n → (n + 1) / 2 ≤ q) ∧
      ((s.merge t).received run n).filter p = (s.received run q).filter p := by
  obtain ⟨q, r, hq, -, hturns, -, h⟩ := received_merge run n s t
  have hfilter := h.filter p
  rw [ht r] at hfilter
  exact ⟨q, hq, hturns, hfilter.eq_of_nil_right⟩

theorem filter_received_merge_right {s t : Stream κ (Nat × α)} {run : κ → Stream κ (Nat × α)}
    (hs : ∀ q, (s.received run q).filter p = []) (n : Nat) :
    ∃ q ≤ n, (s.Responds run n → n / 2 ≤ q) ∧
      ((s.merge t).received run n).filter p = (t.received run q).filter p := by
  obtain ⟨r, q, -, hq, -, hturns, h⟩ := received_merge run n s t
  have hfilter := (h.filter p).symm
  rw [hs r] at hfilter
  exact ⟨q, hq, hturns, hfilter.eq_of_nil_right⟩

theorem filter_received_labelled_first (run : κ → Stream κ α) (k n : Nat) (s t : Stream κ α)
    (ss : List (Stream κ α)) :
    ∃ q ≤ n, ((∀ u ∈ t :: ss, u.Responds run n) → (n + 1) / 2 ≤ q) ∧
      ((labelled k (s :: t :: ss)).received (MarkedWork.resume run) n).filter (fun b => b.1 == k) =
        (marked (fun _ => k) 0 s).received (MarkedWork.resume run) q := by
  obtain ⟨q, hq, hturns, hfilter⟩ := filter_received_merge_left (s := marked (fun _ => k) 0 s)
    (fun q => filter_received_labelled_of_lt run k.lt_succ_self q (t :: ss)) n
  exact ⟨q, hq, fun h => hturns (responds_labelled (k + 1) h),
    hfilter.trans (filter_received_marked run k q s)⟩

theorem filter_received_labelled_rest (run : κ → Stream κ α) (h : k ≠ l) (n : Nat) (s t : Stream κ α)
    (ss : List (Stream κ α)) :
    ∃ q ≤ n, (s.Responds run n → n / 2 ≤ q) ∧
      ((labelled k (s :: t :: ss)).received (MarkedWork.resume run) n).filter (fun b => b.1 == l) =
        ((labelled (k + 1) (t :: ss)).received (MarkedWork.resume run) q).filter (fun b => b.1 == l) := by
  obtain ⟨q, hq, hturns, hfilter⟩ := filter_received_merge_right (t := labelled (k + 1) (t :: ss))
    (fun q => filter_received_marked_of_ne run h q s) n
  exact ⟨q, hq, fun hs => hturns (((alike_marked run _ 0 s).responds_iff n).2 hs), hfilter⟩

/-- Before pause `2 ^ (i + 1) * j + 2 ^ i` the `i`-th stream has had `j + 1` turns, if the others respond. -/
theorem filter_received_labelled (run : κ → Stream κ α) (h : ss[i]? = some s) (k n : Nat) :
    ∃ q ≤ n,
      ((∀ l t, l ≠ i → ss[l]? = some t → t.Responds run n) →
        ∀ j, 2 ^ (i + 1) * j + 2 ^ i ≤ n → j + 1 ≤ q) ∧
      ((labelled k ss).received (MarkedWork.resume run) n).filter (fun b => b.1 == k + i) =
        (marked (fun _ => k + i) 0 s).received (MarkedWork.resume run) q := by
  induction ss generalizing i k n with
  | nil => simp at h
  | cons t ss ih =>
    cases ss with
    | nil =>
      obtain ⟨rfl, rfl⟩ : i = 0 ∧ t = s := by
        cases i with
        | zero => simpa using h
        | succ i => simp at h
      exact ⟨n, le_rfl, fun _ j hj => by omega, filter_received_marked run k n t⟩
    | cons t' ss =>
      cases i with
      | zero =>
        obtain rfl : t = s := by simpa using h
        obtain ⟨q, hq, hturns, hfilter⟩ := filter_received_labelled_first run k n t t' ss
        refine ⟨q, hq, fun hothers j hj => ?_, hfilter⟩
        have hq' : (n + 1) / 2 ≤ q := hturns fun u hu => by
          obtain ⟨l, hl⟩ := List.mem_iff_getElem?.1 hu
          exact hothers (l + 1) u l.succ_ne_zero hl
        omega
      | succ i =>
        obtain ⟨m, hm, hturns, hfilter⟩ :=
          filter_received_labelled_rest run (show k ≠ k + (i + 1) by omega) n t t' ss
        obtain ⟨q, hq, hrest, hlabel⟩ := ih (by simpa using h) (k + 1) m
        rw [Nat.add_right_comm k 1 i] at hlabel
        refine ⟨q, hq.trans hm, fun hothers j hj => ?_, hfilter.trans hlabel⟩
        have hm' : n / 2 ≤ m := hturns (hothers 0 t i.succ_ne_zero.symm rfl)
        refine hrest (fun l u hl hu => (hothers (l + 1) u (by omega) hu).mono hm) j ?_
        -- The merge takes its right part up at every second pause.
        have hdouble : 2 ^ (i + 1 + 1) * j + 2 ^ (i + 1) = 2 * (2 ^ (i + 1) * j + 2 ^ i) := by ring
        omega

end Stream

/-! ## Disjunctions -/

variable {ρ : Type}

namespace Search

theorem disjAll_eq_mergeAll (fs : List (Search ρ)) (s : State) :
    disjAll fs s = Stream.mergeAll (fs.map fun f => f s) := by
  match fs with
  | [] => rfl
  | [f] => rfl
  | f :: g :: fs => exact congrArg (Stream.merge (f s)) (disjAll_eq_mergeAll (g :: fs) s)

/-- What is received from a disjunction, of goals or of any searches. Each answer can be traced back, once and
for all, to one of the searches; those that come from the search `f` with number `i` are the answers of `f` in
their order. What `f` delivers in its first `j + 1` blocks is there before the pause
`2 ^ (i + 1) * j + 2 ^ i`, whatever the other searches deliver and whether or not they end, as long as they
respond. A goal always responds if and only if all unifications that it leads to come to an end. -/
theorem disjAll_deliveries (p : Program ρ) :
    (∀ (gs : List (Goal ρ)) (env : List (Term Var)),
      (Goal.disjAll gs).applyIn p env = disjAll (gs.map fun g => g.applyIn p env)) ∧
    (∀ (g : Goal ρ) (s : State),
      (∀ n, (g.apply p s).Responds (Job.run p) n) ↔ Job.Settles p ⟨g, [], s⟩) ∧
    ∀ (fs : List (Search ρ)) (s : State), ∃ traced : Nat → List (Nat × State),
      (∀ n, traced n <+: traced (n + 1)) ∧
      (∀ n, (traced n).map Prod.snd = (disjAll fs s).received (Job.run p) n) ∧
      (∀ n, ∀ b ∈ traced n, b.1 < fs.length) ∧
      ∀ i f, fs[i]? = some f →
        (∀ n, ∃ q, ((traced n).filter fun b => b.1 == i).map Prod.snd = (f s).received (Job.run p) q) ∧
        ∀ j, (∀ l g, l ≠ i → fs[l]? = some g → (g s).Responds (Job.run p) (2 ^ (i + 1) * j + 2 ^ i)) →
          (f s).received (Job.run p) (j + 1) <+:
            ((traced (2 ^ (i + 1) * j + 2 ^ i)).filter fun b => b.1 == i).map Prod.snd := by
  refine ⟨Goal.applyIn_disjAll p, fun g s => Job.responds_iff ⟨g, [], s⟩, fun fs s => ?_⟩
  let ss := fs.map fun f => f s
  refine ⟨(Stream.labelled 0 ss).received (Stream.MarkedWork.resume (Job.run p)),
    fun n => Stream.received_mono _ n.le_succ, fun n => ?_, fun n b hb => ?_, fun i f hf => ?_⟩
  · rw [(Stream.alike_labelled (Job.run p) 0 ss).map_received, disjAll_eq_mergeAll]
  · simpa [ss] using (Stream.label_of_mem_labelled hb).2
  · have hi : ss[i]? = some (f s) := by simp [ss, hf]
    have hturns := Stream.filter_received_labelled (Job.run p) hi 0
    simp only [Nat.zero_add] at hturns
    constructor
    · intro n
      obtain ⟨q, -, -, hq⟩ := hturns n
      exact ⟨q, by rw [hq, (Stream.alike_marked (Job.run p) _ 0 _).map_received]⟩
    · intro j hothers
      obtain ⟨q, -, hjq, hq⟩ := hturns (2 ^ (i + 1) * j + 2 ^ i)
      rw [hq, (Stream.alike_marked (Job.run p) _ 0 _).map_received]
      refine Stream.received_mono _ (hjq (fun l t hl ht => ?_) j le_rfl)
      obtain ⟨g, hg, rfl⟩ : ∃ g, fs[l]? = some g ∧ g s = t := by simpa [ss] using ht
      exact hothers l g hl hg

/-- Between a search that finds nothing for ever and one that succeeds again and again. -/
theorem disjAll_deliveries_never_always :
    let p : Program Empty := nofun
    let gs : List (Goal Empty) := [.never, .succeed, .always]
    (∀ g ∈ gs, ∀ n, (g.apply p .empty).Responds (Job.run p) n) ∧
      ∃ traced : Nat → List (Nat × State),
        (∀ n, (traced n).map Prod.snd = ((Goal.disjAll gs).apply p .empty).received (Job.run p) n) ∧
        [.empty] <+: ((traced 2).filter fun b => b.1 == 1).map Prod.snd ∧
        [.empty, .empty] <+: ((traced 20).filter fun b => b.1 == 2).map Prod.snd := by
  intro p gs
  have hresponds : ∀ g ∈ gs, ∀ n, (g.apply p .empty).Responds (Job.run p) n := by
    simp only [gs, List.forall_mem_cons, List.not_mem_nil, false_implies, implies_true, and_true]
    exact ⟨Goal.responds_never p [] .empty, Stream.responds_single State.empty, Goal.responds_always p [] .empty⟩
  obtain ⟨hgoals, -, hsearches⟩ := disjAll_deliveries p
  obtain ⟨traced, -, hmap, -, hparts⟩ := hsearches (gs.map fun g => g.apply p) .empty
  have hothers {l : Nat} {f : Search Empty} (hf : (gs.map fun g => g.apply p)[l]? = some f) (n : Nat) :
      (f .empty).Responds (Job.run p) n := by
    obtain ⟨g, hg, rfl⟩ := List.mem_map.1 (List.mem_of_getElem? hf)
    exact hresponds g hg n
  have hdisj : (Goal.disjAll gs).apply p = disjAll (gs.map fun g => g.apply p) := hgoals gs []
  have halways : (Goal.always.apply p .empty).received (Job.run p) 3 = [.empty, .empty] :=
    (Goal.responds_always p [] .empty 3).received_eq.trans (Goal.delivered_always p [] .empty 2)
  refine ⟨hresponds, traced, fun n => by rw [hmap, hdisj],
    (hparts 1 _ rfl).2 0 fun _ _ _ hf => hothers hf _, ?_⟩
  exact halways ▸ (hparts 2 _ rfl).2 2 fun _ _ _ hf => hothers hf _

/-- Beside a goal that compares a circular list with itself, even the one that simply succeeds is not heard
of. -/
theorem disjAll_circular :
    let p : Program Empty := nofun
    let gs : List (Goal Empty) := [.eq (.var (.free ⟨0⟩)) (.var (.free ⟨0⟩)), .succeed]
    let s : State := .circular
    gs[1]? = some .succeed ∧ s ∈ (Goal.succeed.apply p s).received (Job.run p) 1 ∧
      ∀ n, ((Goal.disjAll gs).apply p s).received (Job.run p) n = [] := by
  intro p gs s
  refine ⟨rfl, List.mem_singleton_self s, fun n => Stream.received_of_hangs ?_ n⟩
  rw [Goal.apply, Goal.applyIn_disjAll, List.map_cons, List.map_singleton, disjAll_cons_cons, disj,
    Stream.hangs_merge, Goal.hangs_circular, Bool.true_or]

end Search

end Relational
