import Relational.Proofs.Search.Appending
import Relational.Proofs.Stream.Schedule
import Relational.Proofs.Subst.Ground

/-!
# Splitting a list

Appending runs backwards: where only the result is known, the search finds every way to split it, the one
with the shortest front first. It pauses between any two of them and ends behind the last one.
-/

namespace Relational

/-! ## One split after the other -/

/-- `q` has the bindings of `r`, and `z` and `w` stand in it for the first `i` of the items `es` and for the
others. -/
structure SplitsAt (es : List Ground) (i : Nat) (z w : Var) (r q : Subst) : Prop where
  keeps {x : Var} {u : Term Var} (h : r.lookup x = some u) : q.lookup x = some u
  front : q.ResolvesTo (.var z) (Ground.embed (.list (es.take i)))
  back : q.ResolvesTo (.var w) (Ground.embed (.list (es.drop i)))

/-- The first and the second part are open and different variables, and the whole list is known. -/
structure Unsplit (es : List Ground) (s : State) (l t out : Term Var) (z w : Var) : Prop where
  new {x : Var} (hx : s.counter ≤ x.id) : s.subst.lookup x = none
  front : s.subst.walk l = some (.var z)
  back : s.subst.walk t = some (.var w)
  whole : s.subst.walk out = some (Ground.embed (.list es))
  ne : z ≠ w
  front_lt : z.id < s.counter
  back_lt : w.id < s.counter

namespace Unsplit

variable {ρ : Type} {s : State} {l t out : Term Var} {z w x : Var} {u : Term Var} {e : Ground}
  {es : List Ground}

theorem front_unbound (h : Unsplit es s l t out z w) : s.subst.lookup z = none :=
  Subst.isValue_of_walk h.front z rfl

theorem back_unbound (h : Unsplit es s l t out z w) : s.subst.lookup w = none :=
  Subst.isValue_of_walk h.back w rfl

theorem lookup_extend (h : Unsplit es s l t out z w) (v : Term Var) (hx : s.subst.lookup x = some u) :
    (s.subst.extend z v).lookup x = some u :=
  Subst.lookup_extend_of_eq_some h.front_unbound hx

theorem back_open (h : Unsplit es s l t out z w) (v : Term Var) : (s.subst.extend z v).lookup w = none :=
  (Subst.lookup_extend_of_ne h.ne.symm).trans h.back_unbound

theorem lookup_new (h : Unsplit es s l t out z w) (v : Term Var) (k : Nat) :
    (s.subst.extend z v).lookup ⟨s.counter + k⟩ = none :=
  have hk : s.counter ≤ s.counter + k := Nat.le_add_right _ k
  (Subst.lookup_extend_of_ne (Var.ne_of_lt_of_le h.front_lt hk)).trans (h.new hk)

theorem walk_out (h : Unsplit es s l t out z w) (v : Term Var) :
    (s.subst.extend z v).walk out = some (Ground.embed (.list es)) := by
  rw [Subst.walk_eq_of_walk (fun _ _ => h.lookup_extend v) h.whole, Ground.walk_embed]

/-! ## The first way -/

/-- The bindings of the answer in which the first part is empty. -/
def atOnce (s : Subst) (z w : Var) (es : List Ground) : Subst :=
  (s.extend z .nil).extend w (Ground.embed (.list es))

theorem equate_base (h : Unsplit es s l t out z w) :
    ((s.equate .nil l).bind fun s => s.equate t out : Answers ρ) =
      .single ⟨atOnce s.subst z w es, s.counter⟩ := by
  have hbase : s.subst.UnifiesTo .nil l (some (s.subst.extend z .nil)) :=
    .right (Subst.walk_atom ..) h.front nofun
  have htail : (s.subst.extend z .nil).UnifiesTo t out (some (atOnce s.subst z w es)) := by
    refine .left ?_ (h.walk_out .nil) (Ground.embed_ne_var _ w)
    rw [Subst.walk_eq_of_walk (fun _ _ => h.lookup_extend .nil) h.back]
    exact Subst.walk_of_unbound (h.back_open .nil)
  rw [State.equate_ok _ hbase, Stream.single_bind, State.equate_ok _ htail, Stream.single_merge,
    Stream.single]

theorem splitsAt_zero (h : Unsplit es s l t out z w) :
    SplitsAt es 0 z w s.subst (atOnce s.subst z w es) where
  keeps hx := Subst.lookup_extend_of_eq_some (h.back_open .nil) (h.lookup_extend .nil hx)
  front := by
    have hz : (atOnce s.subst z w es).lookup z = some .nil :=
      Subst.lookup_extend_of_eq_some (h.back_open .nil) (Subst.lookup_extend_self ..)
    exact .bound hz .atom
  back := .bound (Subst.lookup_extend_self ..) (Ground.resolvesTo_embed _ _)

/-! ## The second way -/

/-- The bindings behind an item that goes to the first part. -/
def taken (s : Subst) (c : Nat) (z : Var) (e : Ground) (es : List Ground) : Subst :=
  ((s.extend z (.pair (.var ⟨c⟩) (.var ⟨c + 1⟩))).extend ⟨c⟩ e.embed).extend ⟨c + 2⟩
    (Ground.embed (.list es))

theorem lookup_taken (s : Subst) (c : Nat) (z : Var) (e : Ground) (es : List Ground) (x : Var) :
    (taken s c z e es).lookup x =
      if x = ⟨c + 2⟩ then some (Ground.embed (.list es)) else if x = ⟨c⟩ then some e.embed else
        if x = z then some (.pair (.var ⟨c⟩) (.var ⟨c + 1⟩)) else s.lookup x := by
  rw [taken, Subst.lookup_extend, Subst.lookup_extend, Subst.lookup_extend]

theorem lookup_taken_of_lt {c : Nat} (hx : x.id < c) (s : Subst) (z : Var) (e : Ground) (es : List Ground) :
    (taken s c z e es).lookup x =
      if x = z then some (.pair (.var ⟨c⟩) (.var ⟨c + 1⟩)) else s.lookup x := by
  rw [lookup_taken, if_neg, if_neg]
  · exact (Var.ne_of_lt_of_le hx le_rfl).symm
  · exact (Var.ne_of_lt_of_le hx (Nat.le_add_right c 2)).symm

theorem unifiesTo_pair (h : Unsplit es s l t out z w) (a d : Var) :
    s.subst.UnifiesTo (.pair (.var a) (.var d)) l (some (s.subst.extend z (.pair (.var a) (.var d)))) :=
  .right (Subst.walk_pair ..) h.front nofun

theorem unifiesTo_none (h : Unsplit [] s l t out z w) (u : Term Var) (a b : Term Var) :
    (s.subst.extend z u).UnifiesTo (.pair a b) out none :=
  .clash (Subst.walk_pair ..) (h.walk_out u) rfl

theorem unifiesTo_taken (h : Unsplit (e :: es) s l t out z w) :
    (s.subst.extend z (.pair (.var ⟨s.counter⟩) (.var ⟨s.counter + 1⟩))).UnifiesTo
      (.pair (.var ⟨s.counter⟩) (.var ⟨s.counter + 2⟩)) out (some (taken s.subst s.counter z e es)) := by
  refine .pair (Subst.walk_pair ..) (h.walk_out _)
    (.left (Subst.walk_of_unbound (h.lookup_new _ 0)) (Ground.walk_embed _ e) (e.embed_ne_var _))
    (.left (Subst.walk_of_unbound ?_) (Ground.walk_embed _ (.list es)) (Ground.embed_ne_var _ _))
  rw [Subst.lookup_extend_of_ne (by simp), h.lookup_new _ 2]

theorem lookup_taken_of_eq_some (h : Unsplit (e :: es) s l t out z w) (hx : s.subst.lookup x = some u) :
    (taken s.subst s.counter z e es).lookup x = some u := by
  have hpair := (h.unifiesTo_pair ⟨s.counter⟩ ⟨s.counter + 1⟩).grows_univ
  exact (hpair.trans h.unifiesTo_taken.grows_univ).lookup_eq_some hx

theorem lookup_taken_of_new (h : Unsplit (e :: es) s l t out z w) (hx : s.counter ≤ x.id)
    (hfirst : x ≠ ⟨s.counter⟩) (hrest : x ≠ ⟨s.counter + 2⟩) :
    (taken s.subst s.counter z e es).lookup x = none := by
  rw [lookup_taken, if_neg hrest, if_neg hfirst, if_neg (Var.ne_of_lt_of_le h.front_lt hx), h.new hx]

/-- Behind an item that goes to the first part, the rest of the list is to be split. -/
theorem next (h : Unsplit (e :: es) s l t out z w) :
    Unsplit es ⟨taken s.subst s.counter z e es, s.counter + 3⟩ (.var ⟨s.counter + 1⟩) t
      (.var ⟨s.counter + 2⟩) ⟨s.counter + 1⟩ w where
  new {x} hx := by
    simp only at hx
    apply h.lookup_taken_of_new
    · omega
    · rintro rfl
      simp at hx
    · rintro rfl
      simp at hx
  front := Subst.walk_of_unbound (h.lookup_taken_of_new (by simp) (by simp) (by simp))
  back := by
    rw [Subst.walk_eq_of_walk (fun _ _ => h.lookup_taken_of_eq_some) h.back]
    apply Subst.walk_of_unbound
    rw [lookup_taken_of_lt h.back_lt, if_neg h.ne.symm, h.back_unbound]
  whole := (Subst.walk_of_lookup (Subst.lookup_extend_self ..)).trans (Ground.walk_embed _ _)
  ne := Var.ne_of_lt_of_le h.back_lt (Nat.le_add_right _ 1)
  front_lt := Nat.add_lt_add_left (by decide) _
  back_lt := h.back_lt.trans_le (Nat.le_add_right _ 3)

theorem splitsAt_succ {i : Nat} {q : Subst} (h : Unsplit (e :: es) s l t out z w)
    (hq : SplitsAt es i ⟨s.counter + 1⟩ w (taken s.subst s.counter z e es) q) :
    SplitsAt (e :: es) (i + 1) z w s.subst q where
  keeps hx := hq.keeps (h.lookup_taken_of_eq_some hx)
  front := by
    have hpair : q.lookup z = some (.pair (.var ⟨s.counter⟩) (.var ⟨s.counter + 1⟩)) := by
      apply hq.keeps
      rw [lookup_taken_of_lt h.front_lt, if_pos rfl]
    have hitem : q.lookup ⟨s.counter⟩ = some e.embed := by
      apply hq.keeps
      rw [lookup_taken, if_neg (by simp), if_pos rfl]
    exact .bound hpair (.pair (.bound hitem (Ground.resolvesTo_embed q e)) hq.front)
  back := hq.back

end Unsplit

/-! ## All splits -/

namespace Goal

variable {ρ : Type} {p : Program ρ} {s : State} {l t out : Expr} {env : List (Term Var)} {z w : Var}
  {e : Ground} {es : List Ground}

theorem applyIn_append_last (p : Program ρ)
    (h : Unsplit [] s (l.eval env) (t.eval env) (out.eval env) z w) :
    (append l t out).applyIn p env s = .single ⟨Unsplit.atOnce s.subst z w [], s.counter⟩ := by
  rw [applyIn_append, h.equate_base, State.equate_ok _ (h.unifiesTo_pair _ _), Stream.single_bind,
    State.equate_clash _ (h.unifiesTo_none _ _ _)]
  rfl

theorem applyIn_append_next (p : Program ρ)
    (h : Unsplit (e :: es) s (l.eval env) (t.eval env) (out.eval env) z w) :
    (append l t out).applyIn p env s = .cons ⟨Unsplit.atOnce s.subst z w (e :: es), s.counter⟩
      (((appendRest p (t.eval env) s.counter
        ⟨Unsplit.taken s.subst s.counter z e es, s.counter + 3⟩).wait.merge .empty).merge .empty) := by
  rw [applyIn_append, h.equate_base, State.equate_ok _ (h.unifiesTo_pair _ _), Stream.single_bind,
    State.equate_ok _ h.unifiesTo_taken, Stream.single_bind, Stream.single_merge]

theorem blocks_append (p : Program ρ) (l t out : Expr) (env : List (Term Var))
    (h : Unsplit es s (l.eval env) (t.eval env) (out.eval env) z w) :
    ((append l t out).applyIn p env s).EndsIn (Job.run p) es.length ∧
      ∀ i ≤ es.length, ∃ q, ((append l t out).applyIn p env s).block (Job.run p) i = [q] ∧
        SplitsAt es i z w s.subst q.subst := by
  induction es generalizing l t out env s z with
  | nil =>
    rw [applyIn_append_last p h]
    refine ⟨Stream.endsIn_zero.2 rfl, fun i hi => ?_⟩
    obtain rfl := Nat.le_zero.1 hi
    exact ⟨_, rfl, h.splitsAt_zero⟩
  | cons e es ih =>
    obtain ⟨hends, hblocks⟩ := ih (.bound 0) (.bound 1) (.bound 2)
      [.var ⟨s.counter + 1⟩, t.eval env, .var ⟨s.counter + 2⟩] h.next
    rw [applyIn_append_next p h]
    constructor
    · rw [Stream.endsIn_cons, Stream.endsIn_merge_empty, Stream.endsIn_merge_empty]
      exact Stream.endsIn_suspended.2 ⟨_, rfl, hends⟩
    · intro i hi
      cases i with
      | zero => exact ⟨_, rfl, h.splitsAt_zero⟩
      | succ i =>
        obtain ⟨q, hq, hsplit⟩ := hblocks i (Nat.le_of_succ_le_succ hi)
        refine ⟨q, ?_, h.splitsAt_succ hsplit⟩
        rw [Stream.block_cons_succ, Stream.block_merge_empty, Stream.block_merge_empty, Job.wait,
          Stream.block_suspended_succ]
        exact hq

/-- Two lists that make up the known list `es`, as one list. -/
def splits (es : List Ground) : Goal ρ :=
  .freshN 3 (.conj (.eq (Expr.bound 2) (.list [Expr.bound 1, Expr.bound 0]))
    (append (Expr.bound 1) (Expr.bound 0) (Ground.embed (.list es))))

theorem answers_splits (p : Program ρ) (es : List Ground) :
    (splits es).answers p =
      ((append (Expr.bound 1) (Expr.bound 0) (Ground.embed (.list es))).applyIn p
        [.var ⟨2⟩, .var ⟨1⟩, .var ⟨0⟩]
        ⟨Subst.empty.extend ⟨0⟩ (.list [.var ⟨1⟩, .var ⟨2⟩]), 3⟩).merge .empty := by
  have hpair : Subst.empty.UnifiesTo (.var ⟨0⟩) (.list [.var ⟨1⟩, .var ⟨2⟩])
      (some (Subst.empty.extend ⟨0⟩ (.list [.var ⟨1⟩, .var ⟨2⟩]))) := .left rfl rfl nofun
  have hstart : (splits es).answers p =
      (State.equate ⟨.empty, 3⟩ (.var ⟨0⟩) (.list [.var ⟨1⟩, .var ⟨2⟩])).bind
        ((append (Expr.bound 1) (Expr.bound 0) (Ground.embed (.list es))).applyIn p
          [.var ⟨2⟩, .var ⟨1⟩, .var ⟨0⟩]) := rfl
  rw [hstart, State.equate_ok 3 hpair, Stream.single_bind]

theorem unsplit_start (es : List Ground) (env : List (Term Var)) :
    Unsplit es ⟨Subst.empty.extend ⟨0⟩ (.list [.var ⟨1⟩, .var ⟨2⟩]), 3⟩ (.var ⟨1⟩) (.var ⟨2⟩)
      (Expr.eval env (Ground.embed (.list es))) ⟨1⟩ ⟨2⟩ where
  new hx := by
    rw [Subst.lookup_extend_of_ne (by rintro rfl; simp at hx), Subst.lookup_empty]
  front := rfl
  back := rfl
  whole := by rw [Ground.eval_embed, Ground.walk_embed]
  ne := by decide
  front_lt := by decide
  back_lt := by decide

/-- Run backwards, the search enumerates every way to split a list once. It ends after as many pauses as the
list has items, and between any two pauses it delivers one answer: after `i` of them the one in which
the first part has `i` items. -/
theorem splits_in_order (p : Program ρ) (es : List Ground) :
    ((splits es).answers p).EndsIn (Job.run p) es.length ∧
    (((splits es).answers p).delivered (Job.run p) (es.length + 1)).length = es.length + 1 ∧
    ∀ i : Fin (es.length + 1), ∃ q, ((splits es).answers p).block (Job.run p) i = [q] ∧
      q.reifyFirst = some (Ground.embed (.list [.list (es.take i), .list (es.drop i)])) := by
  obtain ⟨hends, hblocks⟩ := blocks_append p (Expr.bound 1) (Expr.bound 0) (Ground.embed (.list es))
    [.var ⟨2⟩, .var ⟨1⟩, .var ⟨0⟩] (unsplit_start es _)
  have hblock (i : Nat) (hi : i ≤ es.length) : ∃ q, ((splits es).answers p).block (Job.run p) i = [q] ∧
      q.reifyFirst = some (Ground.embed (.list [.list (es.take i), .list (es.drop i)])) := by
    obtain ⟨q, hq, hsplit⟩ := hblocks i hi
    refine ⟨q, by rw [answers_splits, Stream.block_merge_empty, hq], ?_⟩
    have hfirst : q.subst.lookup ⟨0⟩ = some (.list [.var ⟨1⟩, .var ⟨2⟩]) := hsplit.keeps rfl
    have hresolves : q.subst.ResolvesTo (.var ⟨0⟩)
        (Ground.embed (.list [.list (es.take i), .list (es.drop i)])) :=
      .bound hfirst (.pair hsplit.front (.pair hsplit.back .atom))
    rw [State.reifyFirst, State.reify, Subst.reify_of_resolvesTo hresolves,
      Term.canonical_of_vars_eq_nil (Ground.vars_embed _)]
  refine ⟨?_, ?_, fun i => hblock i (Nat.le_of_lt_succ i.isLt)⟩
  · rw [answers_splits, Stream.endsIn_merge_empty]
    exact hends
  · rw [Stream.delivered, List.length_flatMap, List.map_congr_left (g := fun _ => 1) fun i hi => ?_]
    · simp
    · obtain ⟨q, hq, -⟩ := hblock i (Nat.le_of_lt_succ (List.mem_range.1 hi))
      rw [hq, List.length_singleton]

end Goal

end Relational
