import Relational.Proofs.Search.Combinators
import Relational.Proofs.Search.Hanging
import Relational.Proofs.Stream.Binding

/-!
# Searches without end

A search that never finds anything pauses for ever. As one of two alternatives it takes turns but no place, so
that the answers are those of the other one; as the first of two goals it keeps the second from being
run at all. A search that succeeds again and again has the goal behind it run once for each success, and
goes on for as long as all these runs respond.
-/

namespace Relational

/-! ## Streams that pause for ever -/

namespace Stream

variable {κ α : Type} {run : κ → Stream κ α} {s t : Stream κ α} {work : Work κ α} {n : Nat}

/-- However often the stream is resumed, it is suspended, with no item at hand. -/
def Stuck (run : κ → Stream κ α) (s : Stream κ α) : Prop :=
  ∀ n, ∃ work, s.resumed? run n = some (.suspended work)

namespace Stuck

theorem exists_eq_suspended (h : s.Stuck run) : ∃ work, s = .suspended work :=
  let ⟨work, hwork⟩ := h 0
  ⟨work, Option.some.inj hwork⟩

theorem resume (h : (suspended work).Stuck run) : (work.resume run).Stuck run :=
  fun n => h (n + 1)

theorem received_eq_nil (h : s.Stuck run) (n : Nat) : s.received run n = [] := by
  induction n generalizing s with
  | zero => rfl
  | succ n ih =>
    obtain ⟨work, rfl⟩ := h.exists_eq_suspended
    cases hwork : work.hangs with
    | true => exact received_of_hangs (s := .suspended work) hwork _
    | false => rw [received_suspended hwork, ih h.resume]

theorem bind (h : s.Stuck run) (g : α → Stream κ α) : (s.bind g).Stuck run := by
  intro n
  induction n generalizing s with
  | zero =>
    obtain ⟨work, rfl⟩ := h.exists_eq_suspended
    exact ⟨.bind work g, rfl⟩
  | succ n ih =>
    obtain ⟨work, rfl⟩ := h.exists_eq_suspended
    exact ih h.resume

/-- The pauses are really met. -/
theorem resumed?_strict (h : s.Stuck run) (hs : ∀ n, s.Responds run n) (n : Nat) :
    ∃ work, s.strict.resumed? (strictly run) n = some (.suspended (.start (some work))) := by
  induction n generalizing s with
  | zero =>
    obtain ⟨work, rfl⟩ := h.exists_eq_suspended
    exact ⟨work, congrArg some (strict_suspended (hs 1).hangs_eq)⟩
  | succ n ih =>
    obtain ⟨work, rfl⟩ := h.exists_eq_suspended
    rw [strict_suspended (hs 1).hangs_eq]
    exact ih h.resume fun n => (responds_suspended.1 (hs (n + 1))).2

theorem prefix_merge_left (ht : t.Stuck run) (hresponds : ∀ n, t.Responds run n) (n : Nat)
    (s : Stream κ α) : s.received run n <+: (t.merge s).received run (2 * n) := by
  -- Every second pause is the stuck stream's.
  obtain ⟨p, q, -, -, -, hq, h⟩ := received_merge run (2 * n) t s
  have hq := hq (hresponds _)
  rw [ht.received_eq_nil p] at h
  rw [h.symm.eq_of_nil_right]
  exact received_mono s (by omega)

theorem prefix_merge_right (ht : t.Stuck run) (hresponds : ∀ n, t.Responds run n) (n : Nat)
    (s : Stream κ α) : s.received run n <+: (s.merge t).received run (2 * n) := by
  obtain ⟨p, q, -, -, hp, -, h⟩ := received_merge run (2 * n) s t
  have hp := hp (hresponds _)
  rw [ht.received_eq_nil q] at h
  rw [h.eq_of_nil_right]
  exact received_mono s (by omega)

end Stuck

end Stream

/-! ## The two endless goals -/

namespace Goal

variable {ρ : Type}

theorem stuck_never (p : Program ρ) (env : List (Term Var)) (s : State) :
    (never.applyIn p env s).Stuck (Job.run p) := by
  intro n
  induction n with
  | zero => exact ⟨_, rfl⟩
  | succ n ih => exact ih

theorem trace_always (p : Program ρ) (env : List (Term Var)) (s : State) (n : Nat) :
    (always.applyIn p env s).trace (Job.run p) (2 * n) = (List.replicate n [.pause, .item s]).flatten := by
  induction n with
  | zero => rfl
  | succ n ih =>
    rw [List.replicate_succ, List.flatten_cons, ← ih]
    rfl

theorem delivered_always (p : Program ρ) (env : List (Term Var)) (s : State) (n : Nat) :
    (always.applyIn p env s).delivered (Job.run p) (n + 1) = List.replicate n s := by
  induction n with
  | zero => rfl
  | succ n ih =>
    rw [List.replicate_succ, ← ih, always, applyIn, Job.wait, Stream.delivered_suspended]
    exact Stream.delivered_cons s _ n

theorem eq_of_mem_delivered_always {p : Program ρ} {env : List (Term Var)} {s r : State} {n : Nat}
    (hr : r ∈ (always.applyIn p env s).delivered (Job.run p) n) : r = s := by
  cases n with
  | zero => cases hr
  | succ n =>
    rw [delivered_always] at hr
    exact List.eq_of_mem_replicate hr

theorem itemAt_always (p : Program ρ) (env : List (Term Var)) (s : State) (i : Nat) :
    (always.applyIn p env s).ItemAt (Job.run p) i s :=
  ⟨i + 2, by simp [delivered_always]⟩

theorem responds_never (p : Program ρ) (env : List (Term Var)) (s : State) (n : Nat) :
    (never.applyIn p env s).Responds (Job.run p) n := by
  induction n with
  | zero => exact Stream.responds_zero _
  | succ n ih => exact Stream.responds_suspended.2 ⟨rfl, ih⟩

theorem responds_always (p : Program ρ) (env : List (Term Var)) (s : State) (n : Nat) :
    (always.applyIn p env s).Responds (Job.run p) n := by
  induction n with
  | zero => exact Stream.responds_zero _
  | succ n ih => exact Stream.responds_suspended.2 ⟨rfl, (Stream.responds_single s n).merge ih⟩

end Goal

namespace Search

variable {ρ : Type}

/-- Whatever is found behind `always` is found again and again, as long as the searches for it respond. -/
theorem replicate_sublist_conj_always (p : Program ρ) {f : Search ρ} {s y : State} {n : Nat}
    (hresponds : ∀ k, (f s).Responds (Job.run p) k) (hy : y ∈ (f s).received (Job.run p) n) (m : Nat) :
    ∃ k, (List.replicate m y).Sublist
      ((conj (Goal.always.apply p) f s).received (Job.run p) k) := by
  obtain ⟨k, hk⟩ := Stream.exists_itemAt_of_mem ((Stream.received_prefix_delivered n _).subset hy)
  -- Each success leads to one more occurrence of the answer.
  let source (i : Fin m) : Stream.Source (Job.run p) (Goal.always.apply p s) f y :=
    ⟨⟨s, i, Goal.itemAt_always p [] s i⟩, k, hk⟩
  have hsource : Function.Injective source :=
    fun i j hij => Fin.ext (congrArg (fun o => o.1.2.1) hij)
  obtain ⟨q, hq⟩ := (Stream.replicate_sublist_bind_iff y m).2 ⟨⟨source, hsource⟩⟩
  have hall : (conj (Goal.always.apply p) f s).Responds (Job.run p) q := by
    refine (Goal.responds_always p [] s q).bind fun r hr => ?_
    rw [Goal.eq_of_mem_delivered_always hr]
    exact hresponds q
  exact ⟨q, hall.received_eq ▸ hq⟩

/-- Laws of the two endless goals, beside any search and so beside any goal. Beside `never`, on whichever side
it stands, the first answers of a search are taken as from the search alone; behind `never` no search is
reached, and the stream stays suspended. `always` has the state that it starts in as an answer once at every
pause, without end, and a search behind it has each of its answers as often as one likes, if it responds
however often it is resumed. A goal does so if and only if all unifications that it leads to come to an end. -/
theorem never_always (p : Program ρ) :
    (∀ (g : Goal ρ) (env : List (Term Var)),
      (Goal.disj .never g).applyIn p env = disj (Goal.never.apply p) (g.applyIn p env) ∧
      (Goal.disj g .never).applyIn p env = disj (g.applyIn p env) (Goal.never.apply p) ∧
      (Goal.conj .never g).applyIn p env = conj (Goal.never.apply p) (g.applyIn p env) ∧
      (Goal.conj .always g).applyIn p env = conj (Goal.always.apply p) (g.applyIn p env)) ∧
    (∀ (g : Goal ρ) (s : State),
      (∀ n, (g.apply p s).Responds (Job.run p) n) ↔ Job.Settles p ⟨g, [], s⟩) ∧
    ∀ (f : Search ρ) (s : State),
      ((f s).hangs = false → ∀ n m, n ≤ ((f s).received (Job.run p) m).length →
        ∃ xs, xs.length = n ∧ xs <+: (f s).received (Job.run p) m ∧
          (f s).Takes (Job.run p) n xs ∧
          (disj (Goal.never.apply p) f s).Takes (Job.run p) n xs ∧
          (disj f (Goal.never.apply p) s).Takes (Job.run p) n xs) ∧
      (∀ n, ∃ work, (conj (Goal.never.apply p) f s).strict.resumed? (Stream.strictly (Job.run p)) n =
        some (.suspended (.start (some work)))) ∧
      (∀ n, (Goal.always.apply p s).strict.trace (Stream.strictly (Job.run p)) (2 * n) =
        (List.replicate n [.pause, .item s]).flatten) ∧
      (∀ m, (Goal.always.apply p s).Takes (Job.run p) m (List.replicate m s)) ∧
      ∀ y n, y ∈ (f s).received (Job.run p) n → (∀ k, (f s).Responds (Job.run p) k) →
        ∀ m, ∃ k, (List.replicate m y).Sublist
          ((conj (Goal.always.apply p) f s).received (Job.run p) k) := by
  refine ⟨fun g env => ⟨rfl, rfl, rfl, rfl⟩, fun g s => Job.responds_iff ⟨g, [], s⟩, fun f s => ?_⟩
  have hnever : (Goal.never.apply p s).Stuck (Job.run p) := Goal.stuck_never p [] s
  have hresponds (n : Nat) : (Goal.never.apply p s).Responds (Job.run p) n := Goal.responds_never p [] s n
  have halways (n : Nat) : (Goal.always.apply p s).Responds (Job.run p) n := Goal.responds_always p [] s n
  refine ⟨fun hf n m h => ?_, ?_, fun n => ?_, fun m => ?_, fun y n hy hresponds =>
    replicate_sublist_conj_always p hresponds hy⟩
  · obtain ⟨xs, hxs, rfl⟩ : ∃ xs, xs <+: (f s).received (Job.run p) m ∧ xs.length = n :=
      ⟨_, List.take_prefix n _, List.length_take_of_le h⟩
    have hleft : (disj (Goal.never.apply p) f s).hangs = false := (Stream.hangs_merge _ _).trans hf
    have hright : (disj f (Goal.never.apply p) s).hangs = false :=
      (Stream.hangs_merge _ _).trans (by rw [hf]; rfl)
    exact ⟨xs, rfl, hxs, Stream.takes_of_prefix hf hxs,
      Stream.takes_of_prefix hleft (hxs.trans (hnever.prefix_merge_left hresponds m _)),
      Stream.takes_of_prefix hright (hxs.trans (hnever.prefix_merge_right hresponds m _))⟩
  · refine (hnever.bind f).resumed?_strict fun n => (hresponds n).bind fun r hr => ?_
    rw [(hresponds n).received_eq.symm, hnever.received_eq_nil n] at hr
    cases hr
  · rw [(Stream.Alike.strict_of_responds halways).trace_eq]
    exact Goal.trace_always p [] s n
  · have hprefix : List.replicate m s <+: (Goal.always.apply p s).received (Job.run p) (m + 1) := by
      rw [(halways (m + 1)).received_eq, Goal.apply, Goal.delivered_always]
    simpa using Stream.takes_of_prefix (halways 1).hangs_eq hprefix

/-- A goal that pauses, has one answer of its own and then goes on for ever. -/
theorem never_always_delay :
    let g : Goal Empty := .delay (.disj (.eq (.var (.free ⟨0⟩)) (.int 1)) .always)
    let y : State := ⟨Subst.empty.extend ⟨0⟩ (.int 1), 0⟩
    (g.apply nofun .empty).hangs = false ∧
      2 ≤ ((g.apply nofun .empty).received (Job.run nofun) 3).length ∧
      (disj (Goal.never.apply nofun) (g.apply nofun) .empty).Takes (Job.run nofun) 2 [y, .empty] ∧
      y ∈ (g.apply nofun .empty).received (Job.run nofun) 3 ∧
      (∀ k, (g.apply nofun .empty).Responds (Job.run nofun) k) ∧
      ∃ k, [y, y, y].Sublist
        ((conj (Goal.always.apply nofun) (g.apply nofun) .empty).received (Job.run nofun) k) := by
  intro g y
  have hresponds (k : Nat) : (g.apply nofun .empty).Responds (Job.run nofun) k := by
    cases k with
    | zero => exact Stream.responds_zero _
    | succ k =>
      exact Stream.responds_suspended.2
        ⟨rfl, (Stream.responds_single y k).merge (Goal.responds_always _ [] .empty k)⟩
  have hreceived : (g.apply nofun .empty).received (Job.run nofun) 3 = [y, .empty] :=
    (hresponds 3).received_eq.trans rfl
  have hlength : 2 ≤ ((g.apply nofun .empty).received (Job.run nofun) 3).length :=
    hreceived ▸ Nat.le_refl 2
  have hmem : y ∈ (g.apply nofun .empty).received (Job.run nofun) 3 :=
    hreceived ▸ List.mem_cons_self
  obtain ⟨-, -, hlaws⟩ := never_always (ρ := Empty) nofun
  obtain ⟨hdisj, -, -, -, hconj⟩ := hlaws (g.apply nofun) .empty
  obtain ⟨xs, hxs, hprefix, -, hleft, -⟩ := hdisj rfl 2 3 hlength
  rw [hreceived] at hprefix
  obtain rfl := hprefix.eq_of_length hxs
  exact ⟨rfl, hlength, hleft, hmem, hresponds, hconj y 3 hmem hresponds 3⟩

/-- The search behind `always` has an answer at once and then compares a circular list with itself. It is begun
once more at every success, but the first comparison never ends, so the answer comes only once. -/
theorem conj_always_circular :
    let g : Goal Empty := .disj .succeed (.delay (.eq (.var (.free ⟨0⟩)) (.var (.free ⟨0⟩))))
    let s : State := .circular
    s ∈ (g.apply nofun s).received (Job.run nofun) 1 ∧
      ¬∀ m, ∃ k, (List.replicate m s).Sublist
        ((conj (Goal.always.apply nofun) (g.apply nofun) s).received (Job.run nofun) k) := by
  intro g s
  let p : Program Empty := nofun
  -- What is left to do behind the first answer: further successes beside the comparison.
  let others : Answers Empty := (Goal.always.apply p s).bind (g.apply p)
  let comparison : Job Empty := ⟨.eq (.var (.free ⟨0⟩)) (.var (.free ⟨0⟩)), [], s⟩
  have hstart : conj (Goal.always.apply p) (g.apply p) s =
      .suspended (.bind (.start ⟨p.body .always, [], s⟩) (g.apply p)) := rfl
  have hfirst : (Work.bind (.start ⟨p.body .always, [], s⟩) (g.apply p)).resume (Job.run p) =
      .cons s (.suspended (.merge others (.start comparison))) := rfl
  have hnext : (Work.merge others (.start comparison)).resume (Job.run p) =
      others.merge (comparison.run p) := by rw [Work.resume, Work.resume]
  have hhangs : (others.merge (comparison.run p)).hangs = true := by
    rw [Stream.hangs_merge, Bool.or_eq_true]
    exact .inr (Goal.hangs_circular p [])
  have hlength (k : Nat) : ((conj (Goal.always.apply p) (g.apply p) s).received (Job.run p) k).length ≤ 1 := by
    rw [hstart]
    match k with
    | 0 => exact Nat.zero_le 1
    | 1 => exact Nat.zero_le 1
    | k + 2 =>
      rw [Stream.received_suspended rfl, hfirst, Stream.received_cons rfl, Stream.received_suspended rfl, hnext,
        Stream.received_of_hangs hhangs, List.length_singleton]
  refine ⟨List.mem_singleton_self s, fun h => ?_⟩
  obtain ⟨k, hk⟩ := h 2
  have := hk.length_le.trans (hlength k)
  simp at this

end Search

end Relational
