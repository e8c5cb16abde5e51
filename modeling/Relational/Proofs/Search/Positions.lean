import Relational.Proofs.Search.Membership

/-!
# Lists with a known item

When the list is not known, the search for an item enumerates the lists that have it: it stands in front of an
open list, behind one open item, behind two, and so on without end. The search pauses between any two of
them.
-/

namespace Relational

/-! ## Open items in front -/

/-- The list in which `e` stands behind `i` open items, with the variables that a search makes from number `c`
on. -/
def itemBehind (e : Ground) : (i c : Nat) → Term Var
  | 0, c => .pair e.embed (.var ⟨c⟩)
  | i + 1, c => .pair (.var ⟨c + 1⟩) (itemBehind e i (c + 2))

theorem itemBehind_eq_dotted (e : Ground) (i c : Nat) :
    itemBehind e i c =
      .dotted (((List.range i).map fun j => (⟨c + 2 * j + 1⟩ : Var)).map .var ++ [e.embed])
        (.var ⟨c + 2 * i⟩) := by
  induction i generalizing c with
  | zero => rfl
  | succ i ih =>
    have hitem (j : Nat) : c + 2 + 2 * j + 1 = c + 2 * (j + 1) + 1 := by omega
    have htail : c + 2 + 2 * i = c + 2 * (i + 1) := by omega
    rw [itemBehind, ih]
    simp only [hitem, htail, List.range_succ_eq_map, List.map_cons, List.map_map, List.cons_append,
      Term.dotted_cons]
    rfl

/-- Different variables around a term without variables are named in the order in which they stand. -/
theorem canonical_dotted_of_nodup (e : Ground) {xs : List Var} {y : Var} (h : (xs ++ [y]).Nodup) :
    (Term.dotted (xs.map .var ++ [e.embed]) (.var y)).canonical =
      .dotted ((List.range xs.length).map .reified ++ [e.embed]) (.reified xs.length) := by
  have hvars : (Term.dotted (xs.map .var ++ [e.embed]) (.var y)).vars = xs ++ [y] := by
    simp [Term.vars_dotted, List.flatMap_map, Term.vars, Ground.vars_embed]
  have hplaces := map_idxOf_self h
  rw [List.map_append, List.length_append, List.length_singleton, List.range_succ] at hplaces
  obtain ⟨hxs, hy⟩ := List.append_inj hplaces (by simp)
  have hy : (xs ++ [y]).idxOf y = xs.length := List.singleton_inj.1 hy
  rw [Term.canonical, Term.distinctVars_of_nodup (hvars ▸ h), hvars, Term.bind_dotted, List.map_append,
    List.map_map, List.map_singleton, Ground.bind_embed, Term.bind, hy, ← hxs, List.map_map]
  rfl

theorem canonical_itemBehind (e : Ground) (i c : Nat) :
    (itemBehind e i c).canonical =
      .dotted ((List.range i).map .reified ++ [e.embed]) (.reified i) := by
  have hnodup : ((List.range i).map (fun j => (⟨c + 2 * j + 1⟩ : Var)) ++ [(⟨c + 2 * i⟩ : Var)]).Nodup := by
    refine List.nodup_append'.2 ⟨List.nodup_range.map fun j k hjk => ?_, List.nodup_singleton _, ?_⟩
    · simpa using hjk
    · rw [List.disjoint_singleton]
      intro hmem
      obtain ⟨j, -, hj⟩ := List.mem_map.1 hmem
      have hid : c + 2 * j + 1 = c + 2 * i := congrArg Var.id hj
      omega
  rw [itemBehind_eq_dotted, canonical_dotted_of_nodup e hnodup, List.length_map, List.length_range]

/-! ## One position after the other -/

/-- In `q` the variable `z` stands for a list in which `e` comes behind `i` open items, and the other variables
of `s` are what they are in `s`. -/
structure StandsBehind (e : Ground) (i : Nat) (z : Var) (s : State) (q : Subst) : Prop where
  others {x : Var} (hx : x.id < s.counter) (hxz : x ≠ z) : q.lookup x = s.subst.lookup x
  resolves : q.ResolvesTo (.var z) (itemBehind e i s.counter)

/-- The list is an open variable. -/
structure Unlisted (s : State) (l : Term Var) (z : Var) : Prop where
  new {x : Var} (hx : s.counter ≤ x.id) : s.subst.lookup x = none
  walk : s.subst.walk l = some (.var z)
  lt : z.id < s.counter

namespace Unlisted

variable {s : State} {l a d : Term Var} {z x : Var} {e : Ground} {i : Nat} {q : Subst}

theorem unifiesTo_pair (h : Unlisted s l z) (a d : Term Var) :
    s.subst.UnifiesTo (.pair a d) l (some (s.subst.extend z (.pair a d))) :=
  .right (Subst.walk_pair ..) h.walk nofun

theorem lookup_new (h : Unlisted s l z) (hx : s.counter ≤ x.id) (t : Term Var) :
    (s.subst.extend z t).lookup x = none := by
  rw [Subst.lookup_extend_of_ne (Var.ne_of_lt_of_le h.lt hx), h.new hx]

/-- The item comes first. -/
theorem standsBehind_zero (h : Unlisted s l z) (e : Ground) :
    StandsBehind e 0 z s (s.subst.extend z (.pair e.embed (.var ⟨s.counter⟩))) where
  others _ hxz := Subst.lookup_extend_of_ne hxz
  resolves := .bound (Subst.lookup_extend_self ..)
    (.pair (e.resolvesTo_embed _) (.unbound (h.lookup_new le_rfl _)))

/-- Behind an open item the rest of the list is open again. -/
theorem next (h : Unlisted s l z) :
    Unlisted ⟨s.subst.extend z (.pair (.var ⟨s.counter + 1⟩) (.var ⟨s.counter⟩)), s.counter + 2⟩
      (.var ⟨s.counter⟩) ⟨s.counter⟩ where
  new hx := h.lookup_new (Nat.le_of_add_right_le hx) _
  walk := Subst.walk_of_unbound (h.lookup_new le_rfl _)
  lt := Nat.lt_add_of_pos_right Nat.two_pos

theorem standsBehind_succ (h : Unlisted s l z)
    (hq : StandsBehind e i ⟨s.counter⟩
      ⟨s.subst.extend z (.pair (.var ⟨s.counter + 1⟩) (.var ⟨s.counter⟩)), s.counter + 2⟩ q) :
    StandsBehind e (i + 1) z s q where
  others {x} hx hxz := by
    rw [hq.others (Nat.lt_add_right 2 hx) (Var.ne_of_lt_of_le hx le_rfl).symm, Subst.lookup_extend_of_ne hxz]
  resolves := by
    have hlist : q.lookup z = some (.pair (.var ⟨s.counter + 1⟩) (.var ⟨s.counter⟩)) := by
      rw [hq.others (Nat.lt_add_right 2 h.lt) (Var.ne_of_lt_of_le h.lt le_rfl).symm, Subst.lookup_extend_self]
    have hitem : q.lookup ⟨s.counter + 1⟩ = none := by
      rw [hq.others (Nat.lt_succ_self _) (by simp), h.lookup_new (Nat.le_succ _)]
    exact .bound hlist (.pair (.unbound hitem) hq.resolves)

end Unlisted

/-! ## All positions -/

namespace Goal

variable {ρ : Type} {s : State} {z : Var} {e : Ground}

theorem applyIn_member_open (p : Program ρ) (x l : Expr) (env : List (Term Var))
    (h : Unlisted s (l.eval env) z) :
    (member x l).applyIn p env s =
      (Stream.ofList
        [⟨s.subst.extend z (.pair (x.eval env) (.var ⟨s.counter⟩)), s.counter + 1⟩]).merge
        ((memberRest p (x.eval env) s.counter
          ⟨s.subst.extend z (.pair (.var ⟨s.counter + 1⟩) (.var ⟨s.counter⟩)), s.counter + 2⟩).wait.merge
            .empty) := by
  rw [applyIn_member, State.equate_ok _ (h.unifiesTo_pair _ _), State.equate_ok _ (h.unifiesTo_pair _ _),
    Stream.single_bind]
  rfl

theorem responds_member_open (p : Program ρ) (x l : Expr) (env : List (Term Var)) (n : Nat)
    (h : Unlisted s (l.eval env) z) : ((member x l).applyIn p env s).Responds (Job.run p) n := by
  induction n generalizing x l env s z with
  | zero => exact Stream.responds_zero _
  | succ n ih =>
    rw [applyIn_member_open p x l env h]
    exact responds_merge_wait p _ _ (ih (.bound 0) (.bound 1) [x.eval env, .var ⟨s.counter⟩] h.next)

/-- After `i` pauses there is one answer, and in it the item stands behind `i` others. -/
theorem block_member_open (p : Program ρ) (x l : Expr) (env : List (Term Var)) (i : Nat)
    (h : Unlisted s (l.eval env) z) (hx : x.eval env = e.embed) :
    ∃ q, ((member x l).applyIn p env s).block (Job.run p) i = [q] ∧ StandsBehind e i z s q.subst := by
  induction i generalizing x l env s z with
  | zero =>
    rw [applyIn_member_open p x l env h, block_merge_wait_zero, hx]
    exact ⟨_, rfl, h.standsBehind_zero e⟩
  | succ i ih =>
    obtain ⟨q, hq, hstands⟩ := ih (.bound 0) (.bound 1) [x.eval env, .var ⟨s.counter⟩] h.next hx
    rw [applyIn_member_open p x l env h, block_merge_wait_succ]
    exact ⟨q, hq, h.standsBehind_succ hstands⟩

/-- Looking for an item without variables in an unknown list enumerates its places. The search goes on for
ever, and between any two pauses it delivers one answer: after `i` of them the list in which the item
stands behind `i` open ones, with an open rest. -/
theorem member_places (p : Program ρ) (e : Ground) : ∃ qs : Nat → State,
    (∀ n, Stream.Returns (fun steps => (fresh (member e.embed (Expr.bound 0))).run p steps n)
      ((List.range n).map qs)) ∧
    ∀ i, ((fresh (member e.embed (Expr.bound 0))).answers p).block (Job.run p) i = [qs i] ∧
      (qs i).reifyFirst = some (.dotted ((List.range i).map .reified ++ [e.embed]) (.reified i)) := by
  have hopen : Unlisted ⟨.empty, 1⟩ (.var ⟨0⟩) ⟨0⟩ := ⟨fun _ => rfl, rfl, Nat.one_pos⟩
  choose qs hqs using fun i => block_member_open p e.embed (Expr.bound 0) [.var ⟨0⟩] i hopen (e.eval_embed _)
  refine ⟨qs, Stream.takes_of_block (fun n => responds_member_open p _ _ _ n hopen) fun i => (hqs i).1,
    fun i => ⟨(hqs i).1, ?_⟩⟩
  rw [State.reifyFirst, State.reify, Subst.reify_of_resolvesTo (hqs i).2.resolves, canonical_itemBehind]

end Goal

end Relational
