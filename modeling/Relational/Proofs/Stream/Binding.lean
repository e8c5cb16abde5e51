import Relational.Proofs.Counting
import Relational.Proofs.Stream.Provenance
import Mathlib

/-!
# What a bind delivers

A bind delivers an item once for every occurrence of an item `x` in its stream together with an occurrence
of the delivered item in the stream of `x`. It keeps the order within each of these streams, and it pauses
as often as all of them together.
-/

namespace Relational

namespace Stream

variable {κ α : Type} {run : κ → Stream κ α} {s t : Stream κ α} {g : α → Stream κ α}
  {work : Work κ α} {x y : α} {k m n : Nat}

/-! ## Occurrences -/

/-- A place of a stream at which `x` comes. -/
def Occurrence (run : κ → Stream κ α) (s : Stream κ α) (x : α) : Type :=
  { k : Nat // s.ItemAt run k x }

/-- The occurrences in the first `n` blocks, with the items. -/
def occurrences (run : κ → Stream κ α) (n : Nat) (s : Stream κ α) :
    List ((x : α) × Occurrence run s x) :=
  (List.finRange (s.delivered run n).length).map fun i : Fin (s.delivered run n).length =>
    ⟨(s.delivered run n)[i], i, n, List.getElem?_eq_getElem i.2⟩

theorem map_fst_occurrences (run : κ → Stream κ α) (n : Nat) (s : Stream κ α) :
    (occurrences run n s).map Sigma.fst = s.delivered run n := by
  rw [occurrences, List.map_map]
  exact List.map_getElem_finRange _

theorem nodup_occurrences (run : κ → Stream κ α) (n : Nat) (s : Stream κ α) :
    (occurrences run n s).Nodup :=
  (List.nodup_finRange _).map fun _ _ hij =>
    Fin.ext (congrArg (fun o : (x : α) × Occurrence run s x => o.2.1) hij)

theorem mem_occurrences (o : Occurrence run s x) :
    ∃ m, ∀ n, m ≤ n → ⟨x, o⟩ ∈ occurrences run n s := by
  obtain ⟨k, m, hm⟩ := o
  refine ⟨m, fun n hn => ?_⟩
  obtain ⟨hlt, hx⟩ := List.getElem?_eq_some_iff.1 (getElem?_delivered_mono hn hm)
  refine List.mem_map.2 ⟨⟨k, hlt⟩, List.mem_finRange _, ?_⟩
  subst hx
  rfl

/-! ## Sources -/

/-- Where a bind has an item `y` from: an occurrence of some `x` in its stream and one of `y` in the stream
of `x`. -/
abbrev Source (run : κ → Stream κ α) (s : Stream κ α) (g : α → Stream κ α) (y : α) : Type :=
  (o : (x : α) × Occurrence run s x) × Occurrence run (g o.1) y

/-- The sources in the first `n` blocks of all the streams, with the items. -/
def sources (run : κ → Stream κ α) (n : Nat) (s : Stream κ α) (g : α → Stream κ α) :
    List ((y : α) × Source run s g y) :=
  (occurrences run n s).flatMap fun o =>
    (occurrences run n (g o.1)).map (Sigma.map id fun _ => Sigma.mk o)

theorem map_fst_sources (run : κ → Stream κ α) (n : Nat) (s : Stream κ α) (g : α → Stream κ α) :
    (sources run n s g).map Sigma.fst = (s.delivered run n).flatMap fun x => (g x).delivered run n := by
  rw [sources, List.map_flatMap, ← map_fst_occurrences run n s, List.flatMap_map]
  refine List.flatMap_congr fun o _ => ?_
  rw [map_fst_map_sigma]
  exact map_fst_occurrences run n (g o.1)

theorem nodup_sources (run : κ → Stream κ α) (n : Nat) (s : Stream κ α) (g : α → Stream κ α) :
    (sources run n s g).Nodup := by
  rw [sources]
  refine nodup_flatMap_sigma (G := Source run s g) (H := fun o => Occurrence run (g o.1))
    (nodup_occurrences run n s) (fun o => nodup_occurrences run n (g o.1)) (fun o y p q h => ?_)
    fun o o' y p q h => ?_
  · cases h
    rfl
  · exact congrArg Sigma.fst h

theorem mem_sources (o : Source run s g y) : ∃ m, ∀ n, m ≤ n → ⟨y, o⟩ ∈ sources run n s g := by
  obtain ⟨m₁, h₁⟩ := mem_occurrences o.1.2
  obtain ⟨m₂, h₂⟩ := mem_occurrences o.2
  refine ⟨max m₁ m₂, fun n hn => List.mem_flatMap.2 ⟨o.1, h₁ n (by omega), ?_⟩⟩
  exact List.mem_map.2 ⟨_, h₂ n (by omega), rfl⟩

/-- A bind delivers an item as often as there are sources of it. -/
theorem replicate_sublist_bind_iff (y : α) (m : Nat) :
    (∃ n, (List.replicate m y).Sublist ((s.bind g).delivered run n)) ↔
      Nonempty (Fin m ↪ Source run s g y) := by
  constructor
  · rintro ⟨n, hn⟩
    have hle : ((s.bind g).delivered run n : Multiset α) ≤ (sources run n s g).map Sigma.fst := by
      rw [map_fst_sources, ← Multiset.coe_bind]
      exact delivered_bind_le n s g
    exact embedding_of_replicate_subperm (nodup_sources run n s g)
      (hn.subperm.trans (Multiset.coe_le.1 hle))
  · rintro ⟨f⟩
    choose b hb using fun i => mem_sources (f i)
    obtain ⟨n, hn⟩ : ∃ n, ∀ i, b i ≤ n := Finite.exists_le b
    have hg (x : α) : (g x).Delivers run ((g x).delivered run n : Multiset α) := ⟨n, le_rfl⟩
    obtain ⟨k, hk⟩ := delivers_bind_delivered hg n s
    rw [Multiset.coe_bind, ← map_fst_sources] at hk
    obtain ⟨l, hl, hsub⟩ := (replicate_subperm_of_embedding f fun i => hb i n (hn i)).trans
      (Multiset.coe_le.1 hk)
    obtain rfl := List.perm_replicate.1 hl
    exact ⟨k, hsub⟩

/-! ## Order -/

/-- The items of a bind's first `n` blocks, each with the place of the item of `s` that it comes from. -/
def provenance (run : κ → Stream κ α) (s : Stream κ α) (g : α → Stream κ α) (n : Nat) : List (Nat × α) :=
  ((marked id 0 s).bind fun b => marked (fun _ => b.1) 0 (g b.2)).delivered (MarkedWork.resume run) n

theorem map_snd_provenance (run : κ → Stream κ α) (s : Stream κ α) (g : α → Stream κ α) (n : Nat) :
    (provenance run s g n).map Prod.snd = (s.bind g).delivered run n :=
  ((alike_marked run id 0 s).bind fun b => alike_marked run (fun _ => b.1) 0 (g b.2)).map_delivered n

theorem itemAt_of_mem_provenance {b : Nat × α} (h : b ∈ provenance run s g n) :
    ∃ x, s.ItemAt run b.1 x := by
  obtain ⟨c, hc, hb⟩ := exists_of_mem_delivered_bind h
  obtain ⟨i, hi⟩ := exists_itemAt_of_mem hc
  obtain ⟨hitem, hplace⟩ := itemAt_marked.1 hi
  obtain ⟨-, hmark⟩ := mark_of_mem_marked hb
  rw [hmark, hplace, id, Nat.zero_add]
  exact ⟨c.2, hitem⟩

/-- The items that come from the one at place `k` are those of its stream. -/
theorem provenance_filter (hk : s.ItemAt run k x) (q₀ : Nat) :
    ∃ N, ∀ n, ∃ q, (N ≤ n → q₀ ≤ q) ∧
      ((provenance run s g n).filter fun b => b.1 == k).map Prod.snd = (g x).delivered run q := by
  have hself (q : Nat) : ∀ b ∈ (marked (fun _ => k) 0 (g x)).delivered (MarkedWork.resume run) q,
      (b.1 == k) = true := by
    intro b hb
    obtain ⟨-, hmark⟩ := mark_of_mem_marked hb
    simp [hmark]
  have hother (i : Nat) (c : Nat × α) (hc : (marked id 0 s).ItemAt (MarkedWork.resume run) i c)
      (hik : i ≠ k) (q : Nat) :
      ∀ b ∈ (marked (fun _ => c.1) 0 (g c.2)).delivered (MarkedWork.resume run) q,
        (b.1 == k) = false := by
    intro b hb
    obtain ⟨-, hmark⟩ := mark_of_mem_marked hb
    simp [hmark, (itemAt_marked.1 hc).2, hik]
  have hk' : (marked id 0 s).ItemAt (MarkedWork.resume run) k (k, x) := itemAt_marked.2 ⟨hk, by simp⟩
  obtain ⟨N, hN⟩ := filter_delivered_bind hk' hself hother q₀
  refine ⟨N, fun n => ?_⟩
  obtain ⟨q, hq, h⟩ := hN n
  refine ⟨q, hq, (congrArg (List.map Prod.snd) h).trans ?_⟩
  exact (alike_marked run (fun _ => k) 0 (g x)).map_delivered q

/-! ## Ends -/

/-- What the streams of the items of `s` have for pauses, item by item. -/
def Pauses (run : κ → Stream κ α) (g : α → Stream κ α) : List α → List Nat → Prop :=
  List.Forall₂ fun x n => (g x).EndsIn run n

theorem endsIn_bind (k : Nat) (s : Stream κ α) (g : α → Stream κ α) :
    (s.bind g).EndsIn run k ↔ ∃ m ns, k = m + ns.sum ∧ s.EndsIn run m ∧
      Pauses run g (s.delivered run (m + 1)) ns := by
  -- The streams of the items at hand may end without a pause, so it is a bound on `k` that goes down.
  suffices h : ∀ K, ∀ k < K, (s.bind g).EndsIn run k ↔ ∃ m ns, k = m + ns.sum ∧ s.EndsIn run m ∧
      Pauses run g (s.delivered run (m + 1)) ns from h (k + 1) k k.lt_succ_self
  intro K
  induction K generalizing s with
  | zero => nofun
  | succ K ih =>
    intro k hk
    induction s using ready_induction generalizing k with
    | empty =>
      have hempty : (empty : Stream κ α).pending? = none := pending?_empty
      rw [empty_bind, endsIn_iff_zero hempty]
      constructor
      · rintro rfl
        refine ⟨0, [], rfl, endsIn_zero.2 hempty, ?_⟩
        rw [delivered_empty]
        exact .nil
      · rintro ⟨m, ns, rfl, hm, hns⟩
        obtain rfl := (endsIn_iff_zero hempty).1 hm
        rw [delivered_empty] at hns
        cases hns
        rfl
    | cons x t iht =>
      rw [cons_bind, endsIn_merge]
      constructor
      · rintro ⟨a, b, rfl, ha, hb⟩
        obtain ⟨m, ns, rfl, hm, hns⟩ := (iht b (by omega)).1 hb
        refine ⟨m, a :: ns, ?_, endsIn_cons.2 hm, ?_⟩
        · rw [List.sum_cons]
          omega
        · rw [delivered_cons]
          exact .cons ha hns
      · rintro ⟨m, ns, rfl, hm, hns⟩
        rw [delivered_cons] at hns
        cases hns with
        | @cons _ a _ ns ha hns =>
          rw [List.sum_cons] at hk ⊢
          exact ⟨a, m + ns.sum, by omega, ha,
            (iht _ (by omega)).2 ⟨m, ns, rfl, endsIn_cons.1 hm, hns⟩⟩
    | suspended work =>
      rw [suspended_bind, endsIn_suspended]
      constructor
      · rintro ⟨j, rfl, hj⟩
        obtain ⟨m, ns, rfl, hm, hns⟩ := (ih _ j (by omega)).1 hj
        refine ⟨m + 1, ns, by omega, endsIn_suspended.2 ⟨m, rfl, hm⟩, ?_⟩
        rwa [delivered_suspended]
      · rintro ⟨m', ns, rfl, hm, hns⟩
        obtain ⟨m, rfl, hm⟩ := endsIn_suspended.1 hm
        rw [delivered_suspended] at hns
        exact ⟨m + ns.sum, by omega, (ih _ _ (by omega)).2 ⟨m, ns, rfl, hm, hns⟩⟩

/-! ## Deliveries -/

end Stream

end Relational
