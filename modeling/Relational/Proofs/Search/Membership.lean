import Relational.Proofs.Search.Equations
import Relational.Proofs.Stream.Receiving
import Relational.Proofs.Subst.Ground
import Relational.Proofs.Subst.Locality

/-!
# Items of a known list

When the items of a list are known, the search for an item tries them one after the other and pauses behind
each. On the way to an item new variables are bound, but they make no difference to it: every item is
tried as if it were the only one.
-/

namespace Relational

variable {ρ : Type} {p : Program ρ} {s r : State} {t x e d : Term Var} {o : Option Subst}
  {es : List (Term Var)} {n i : Nat}

/-! ## New variables apart -/

/-- Behind `s`, nothing but variables that are new there has been bound. -/
structure State.BindsNew (s r : State) : Prop where
  valid : r.Valid
  restrict : r.subst.restrict s.counter = s.subst
  counter_le : s.counter ≤ r.counter

namespace State.BindsNew

theorem refl (h : s.Valid) : s.BindsNew s where
  valid := h
  restrict := by
    apply Subst.restrict_eq_self
    rintro ⟨x, t⟩ hb
    by_contra hx
    exact Subst.not_mem_keys_of_lookup (h.unbound (Nat.not_lt.1 hx)) (List.mem_map_of_mem hb)
  counter_le := le_rfl

theorem agreeBelow (h : s.BindsNew r) : Subst.AgreeBelow s.counter s.subst r.subst := by
  have hagree := Subst.agreeBelow_restrict s.counter r.subst
  rwa [h.restrict] at hagree

/-! ## One item -/

/-- The first item is unified with `x` as it is in `s`, and then a new variable is bound to the rest. -/
theorem first_item (h : s.BindsNew r) (hs : s.Valid) (hx : x.Below s.counter) (he : e.Below s.counter)
    (ht : r.subst.walk t = some (.pair e d)) (hd : ∀ y, d ≠ .var y) (ho : s.subst.UnifiesTo x e o) :
    ∃ qs : List State,
      (State.equate ⟨r.subst, r.counter + 1⟩ (.pair x (.var ⟨r.counter⟩)) t : Answers ρ) = .ofList qs ∧
      List.Forall₂ (fun u q => q.subst.restrict s.counter = u) o.toList qs := by
  obtain ⟨_, ho', hrel⟩ := ho.exists_sameNew hs.closed hx he h.agreeBelow
  cases hrel with
  | none => exact ⟨[], State.equate_clash _ (.first (Subst.walk_pair ..) ht ho'), .nil⟩
  | @some u q hsame =>
    have hnew : q.walk (.var ⟨r.counter⟩) = some (.var ⟨r.counter⟩) :=
      Subst.walk_of_unbound ((hsame.lookup_eq h.counter_le).trans (h.valid.unbound le_rfl))
    have hrest : q.UnifiesTo (.var ⟨r.counter⟩) d (some (q.extend ⟨r.counter⟩ d)) :=
      .left hnew (Subst.walk_of_ne_var hd) (hd _)
    refine ⟨[_], State.equate_ok _ (.pair (Subst.walk_pair ..) ht ho' hrest), .cons ?_ .nil⟩
    rw [Subst.restrict_extend_new h.counter_le, hsame.restrict_eq h.restrict]

/-- The rest is taken behind the first item, with a new variable for each. -/
theorem rest (h : s.BindsNew r) (ht : r.subst.walk t = some (.pair e d)) (htc : t.Below r.counter)
    (hd : ∀ y, d ≠ .var y) :
    ∃ q : Subst, (State.equate ⟨r.subst, r.counter + 2⟩ (.pair (.var ⟨r.counter + 1⟩) (.var ⟨r.counter⟩)) t :
        Answers ρ) = .single ⟨q, r.counter + 2⟩ ∧
      s.BindsNew ⟨q, r.counter + 2⟩ ∧ q.walk (.var ⟨r.counter⟩) = some d := by
  have hec : e.Below r.counter := (Term.below_pair.1 (h.valid.closed.below_of_walk htc ht)).1
  obtain ⟨w, -, hfirst, -⟩ := h.valid.freshVar.unifiesTo_new (hec.mono (Nat.le_succ _))
  have hnew : (r.subst.extend ⟨r.counter + 1⟩ w).lookup ⟨r.counter⟩ = none := by
    rw [Subst.lookup_extend_of_ne (by simp), h.valid.unbound le_rfl]
  have hrest : (r.subst.extend ⟨r.counter + 1⟩ w).UnifiesTo (.var ⟨r.counter⟩) d
      (some ((r.subst.extend ⟨r.counter + 1⟩ w).extend ⟨r.counter⟩ d)) :=
    .left (Subst.walk_of_unbound hnew) (Subst.walk_of_ne_var hd) (hd _)
  have hq := Subst.UnifiesTo.pair (Subst.walk_pair ..) ht hfirst hrest
  have hvalid : (State.mk r.subst (r.counter + 2)).Valid := h.valid.freshVar.freshVar
  refine ⟨_, State.equate_ok _ hq, ⟨?_, ?_, ?_⟩, ?_⟩
  · exact hvalid.unify hq (by simp [State.freshVar]) (htc.mono (Nat.le_add_right _ 2))
  · rw [Subst.restrict_extend_new h.counter_le, Subst.restrict_extend_new (Nat.le_succ_of_le h.counter_le),
      h.restrict]
  · exact Nat.le_add_right_of_le h.counter_le
  · rw [Subst.walk_of_lookup (Subst.lookup_extend_self ..), Subst.walk_of_ne_var hd]

end State.BindsNew

/-! ## All items -/

section Pause

variable (p : Program ρ) (qs : List State) (job : Job ρ)

/-- Behind the answers at hand, the search that goes on after a pause is the job that it waits for. -/
theorem resumed?_merge_wait (n : Nat) :
    ((Stream.ofList qs).merge (job.wait.merge .empty)).resumed? (Job.run p) (n + 1) =
      (job.run p).resumed? (Job.run p) n := by
  rw [Stream.resumed?_merge_of_ended (Stream.pending?_ofList qs)]
  rfl

theorem block_merge_wait_zero :
    ((Stream.ofList qs).merge (job.wait.merge .empty)).block (Job.run p) 0 = qs := by
  rw [Stream.block_zero, Stream.ready_merge_of_ended (Stream.pending?_ofList qs), Stream.ready_ofList]
  exact List.append_nil qs

theorem block_merge_wait_succ (n : Nat) :
    ((Stream.ofList qs).merge (job.wait.merge .empty)).block (Job.run p) (n + 1) =
      (job.run p).block (Job.run p) n := by
  rw [Stream.block, resumed?_merge_wait]
  rfl

theorem responds_merge_wait (h : (job.run p).Responds (Job.run p) n) :
    ((Stream.ofList qs).merge (job.wait.merge .empty)).Responds (Job.run p) (n + 1) :=
  (Stream.responds_ofList qs _).merge (Stream.responds_suspended.2 ⟨rfl, h⟩)

end Pause

namespace Goal

/-- What is left to do behind the first item. The first new variable stands for the rest of the list. -/
def memberRest (p : Program ρ) (x : Term Var) (c : Nat) (s : State) : Job ρ :=
  ⟨p.body .member, [x, .var ⟨c⟩], s⟩

theorem applyIn_member (p : Program ρ) (x l : Expr) (env : List (Term Var)) (s : State) :
    (member x l).applyIn p env s =
      (State.equate ⟨s.subst, s.counter + 1⟩ (.pair (x.eval env) (.var ⟨s.counter⟩)) (l.eval env)).merge
        ((State.equate ⟨s.subst, s.counter + 2⟩ (.pair (.var ⟨s.counter + 1⟩) (.var ⟨s.counter⟩))
          (l.eval env)).bind fun r => (memberRest p (x.eval env) s.counter r).wait) := by
  have heval (e : Expr) (y : Term Var) : (e.weaken 1).eval (y :: env) = e.eval env :=
    Expr.eval_weaken [y] env e
  rw [member, applyIn, applyIn_car]
  congr 1
  simp only [applyIn, State.freshVar, applyIn_cdr, heval, List.map]
  rfl

theorem applyIn_member_nil (p : Program ρ) (x : Expr) {l : Expr} {env : List (Term Var)}
    (hl : s.subst.walk (l.eval env) = some .nil) : (member x l).applyIn p env s = .empty := by
  have hclash (a d : Term Var) : s.subst.UnifiesTo (.pair a d) (l.eval env) none :=
    .clash (Subst.walk_pair ..) hl rfl
  rw [applyIn_member, State.equate_clash _ (hclash _ _), State.equate_clash _ (hclash _ _)]
  rfl

/-- The search pauses behind every item and is over behind the last one. What an item gives is what unifying
`x` with it gives in `s`, whatever has been done before. -/
theorem blocks_member (p : Program ρ) (x l : Expr) (env : List (Term Var)) {os : List (Option Subst)}
    (hs : s.Valid) (hr : s.BindsNew r) (hl : r.subst.walk (l.eval env) = some (.list es))
    (hlc : (l.eval env).Below r.counter) (hx : (x.eval env).Below s.counter)
    (hes : ∀ e ∈ es, e.Below s.counter)
    (hos : List.Forall₂ (s.subst.UnifiesTo (x.eval env)) es os) :
    (∀ n, ((member x l).applyIn p env r).Responds (Job.run p) n) ∧
    ((member x l).applyIn p env r).resumed? (Job.run p) es.length = some .empty ∧
    ∀ i o, os[i]? = some o → List.Forall₂ (fun u q => q.subst.restrict s.counter = u) o.toList
      (((member x l).applyIn p env r).block (Job.run p) i) := by
  generalize hy : x.eval env = y at hx hos
  induction hos generalizing x l env r with
  | nil =>
    rw [applyIn_member_nil p x hl]
    exact ⟨Stream.responds_of_ended rfl, rfl, nofun⟩
  | @cons e o es os ho _ ih =>
    subst hy
    obtain ⟨he, hes⟩ := List.forall_mem_cons.1 hes
    obtain ⟨qs, hqs, hlike⟩ := hr.first_item (ρ := ρ) hs hx he hl (Term.list_ne_var es) ho
    obtain ⟨q, hq, hnext, hwalk⟩ := hr.rest (ρ := ρ) hl hlc (Term.list_ne_var es)
    obtain ⟨hresponds, hend, hblocks⟩ := ih (.bound 0) (.bound 1) [x.eval env, .var ⟨r.counter⟩] hnext hwalk
      (Term.below_var.2 (by simp)) hes rfl
    rw [applyIn_member, hqs, hq, Stream.single_bind]
    refine ⟨fun n => (responds_merge_wait p qs _ (hresponds n)).mono n.le_succ, ?_, fun i o' ho' => ?_⟩
    · rw [List.length_cons, resumed?_merge_wait]
      exact hend
    · cases i with
      | zero =>
        obtain rfl := Option.some.inj ho'
        rwa [block_merge_wait_zero]
      | succ i =>
        rw [block_merge_wait_succ]
        exact hblocks i o' ho'

theorem blocks_member_list (p : Program ρ) (x l : Expr) (env : List (Term Var)) {os : List (Option Subst)}
    (hs : s.Valid) (hl : l.eval env = .list es) (hx : (x.eval env).Below s.counter)
    (hes : ∀ e ∈ es, e.Below s.counter) (hos : List.Forall₂ (s.subst.UnifiesTo (x.eval env)) es os) :
    (∀ n, ((member x l).applyIn p env s).Responds (Job.run p) n) ∧
    ((member x l).applyIn p env s).resumed? (Job.run p) es.length = some .empty ∧
    ∀ i o, os[i]? = some o → List.Forall₂ (fun u q => q.subst.restrict s.counter = u) o.toList
      (((member x l).applyIn p env s).block (Job.run p) i) := by
  have hwalk : s.subst.walk (l.eval env) = some (.list es) := by
    rw [hl, Subst.walk_of_ne_var (Term.list_ne_var es)]
  have hlc : (l.eval env).Below s.counter := by
    rw [hl]
    exact Term.below_dotted.2 ⟨hes, Term.below_atom⟩
  exact blocks_member p x l env hs (.refl hs) hwalk hlc hx hes hos

/-- Looked for by a new variable, the items of a list without variables come one after the other. -/
theorem runAll_member (p : Program ρ) (es : List Ground) : ∃ qs,
    Stream.Returns (fun steps =>
      (fresh (member (Expr.bound 0) (Ground.embed (.list es)))).runAll p steps) qs ∧
    qs.map State.reifyFirst = es.map fun e => some e.embed := by
  let s : State := ⟨Subst.empty, 1⟩
  have hs : s.Valid := State.Valid.empty.freshVar
  have hanswers : (fresh (member (Expr.bound 0) (Ground.embed (.list es)))).answers p =
      (member (Expr.bound 0) (Ground.embed (.list es))).applyIn p [.var ⟨0⟩] s := rfl
  simp only [runAll, hanswers]
  have hl : Expr.eval [.var ⟨0⟩] (Ground.embed (.list es)) = .list (es.map Ground.embed) := by
    rw [Ground.eval_embed, Ground.embed_list]
  have hes : ∀ e ∈ es.map Ground.embed, e.Below s.counter := by
    simp [Term.Below, Ground.vars_embed]
  have hos : List.Forall₂ (s.subst.UnifiesTo (.var ⟨0⟩)) (es.map Ground.embed)
      (es.map fun e => some (s.subst.extend ⟨0⟩ e.embed)) := by
    rw [List.forall₂_map_left_iff, List.forall₂_map_right_iff, List.forall₂_same]
    exact fun e _ => .left rfl (Ground.walk_embed _ e) (e.embed_ne_var _)
  obtain ⟨hresponds, hend, hblocks⟩ := blocks_member_list p (Expr.bound 0) (Ground.embed (.list es)) [.var ⟨0⟩] hs hl
    (Term.below_var.2 Nat.one_pos) hes hos
  rw [List.length_map] at hend
  refine ⟨_, Stream.returns_takeAll_computed hresponds ⟨_, hend, rfl⟩, ?_⟩
  have hlast := Stream.block_of_resumed? hend 0
  rw [Nat.add_zero, Stream.block_zero, Stream.ready_empty] at hlast
  have hlength : es.length = (es.map fun e => some (e.embed : Term Var)).length := (List.length_map _).symm
  rw [Stream.delivered_add_block, hlast, List.append_nil, hlength]
  refine Stream.map_delivered_of_block fun i y hy => ?_
  rw [List.getElem?_map, Option.map_eq_some_iff] at hy
  obtain ⟨e, he, rfl⟩ := hy
  have hblock := hblocks i (some (s.subst.extend ⟨0⟩ e.embed))
    (by rw [List.getElem?_map, he, Option.map_some])
  generalize Stream.block _ i _ = qs at hblock ⊢
  cases hblock with
  | @cons _ q _ _ hq hnil =>
    cases hnil
    have hfirst : q.subst.lookup ⟨0⟩ = some e.embed := by
      rw [Subst.agreeBelow_restrict 1 q.subst ⟨0⟩ Nat.one_pos, hq, Subst.lookup_extend_self]
    have hreify : q.reifyFirst = some e.embed :=
      Ground.reify_of_resolvesTo (.bound hfirst (e.resolvesTo_embed _))
    rw [List.map_singleton, hreify]

/-- Looking for `x` in a known list tries the items in order. For a list of `n` items the search pauses `n` times
and is empty behind the last pause. If unifying `x` with the item at place `i` has a result, there is one
answer between pause `i` and the next, and its bindings of the variables of the state are those of the
result; if it clashes there is none. So when anything is looked for in a list without variables, the
answers are all the items, as often as they are in the list. -/
theorem member_list (p : Program ρ) :
    (∀ (x l : Expr) (env : List (Term Var)) (s : State) (es : List (Term Var)), s.Valid →
      l.eval env = .list es → (x.eval env).Below s.counter → (∀ e ∈ es, e.Below s.counter) →
      (∀ e ∈ es, s.subst.unify (x.eval env) e ≠ .error .endless) →
      ((member x l).applyIn p env s).EndsIn (Job.run p) es.length ∧
      ((member x l).applyIn p env s).resumed? (Job.run p) es.length = some .empty ∧
      ∀ i e, es[i]? = some e →
        (∀ r, s.subst.unify (x.eval env) e = .ok r →
          ∃ q, ((member x l).applyIn p env s).block (Job.run p) i = [q] ∧
            q.subst.restrict s.counter = r) ∧
        (s.subst.unify (x.eval env) e = .error .clash →
          ((member x l).applyIn p env s).block (Job.run p) i = [])) ∧
    ∀ es : List Ground, ∃ qs,
      Stream.Returns (fun steps =>
        (fresh (member (Expr.bound 0) (Ground.embed (.list es)))).runAll p steps) qs ∧
      qs.map State.reifyFirst = es.map fun e => some e.embed := by
  refine ⟨fun x l env s es hs hl hx hes hends => ?_, runAll_member p⟩
  have hos : List.Forall₂ (s.subst.UnifiesTo (x.eval env)) es
      (es.map fun e => (s.subst.unify (x.eval env) e).toOption) := by
    rw [List.forall₂_map_right_iff, List.forall₂_same]
    exact fun e he => Subst.unifiesTo_toOption (hends e he)
  obtain ⟨-, hend, hblocks⟩ := blocks_member_list p x l env hs hl hx hes hos
  refine ⟨⟨_, hend, rfl⟩, hend, fun i e he => ?_⟩
  have hblock := hblocks i (s.subst.unify (x.eval env) e).toOption
    (by rw [List.getElem?_map, he, Option.map_some])
  constructor
  · intro r hr
    rw [hr] at hblock
    obtain ⟨q, _, hq, hnil, hqs⟩ := List.forall₂_cons_left_iff.1 hblock
    cases hnil
    exact ⟨q, hqs, hq⟩
  · intro hclash
    rw [hclash] at hblock
    exact List.forall₂_nil_left_iff.1 hblock

/-- A pair is looked for whose first half stands for an open variable, which only the first item binds. -/
theorem member_list_alias :
    let s : State := ⟨Subst.empty.extend ⟨1⟩ (.var ⟨0⟩), 3⟩
    let x : Expr := .pair (.var (.free ⟨1⟩)) (.int 1)
    let l : Expr := .list [.pair (.int 5) (.int 1), .int 7, .var (.free ⟨2⟩)]
    let a : Answers Empty := (member x l).apply nofun s
    s.Valid ∧ a.EndsIn (Job.run nofun) 3 ∧ a.resumed? (Job.run nofun) 3 = some .empty ∧
      (∃ q, a.block (Job.run nofun) 0 = [q] ∧ q.subst.restrict 3 = s.subst.extend ⟨0⟩ (.int 5)) ∧
      a.block (Job.run nofun) 1 = [] ∧
      ∃ q, a.block (Job.run nofun) 2 = [q] ∧
        q.subst.restrict 3 = s.subst.extend ⟨2⟩ (.pair (.var ⟨1⟩) (.int 1)) := by
  intro s x l a
  have hs : s.Valid := .of_alias (by decide) (by decide) (by decide)
  have hx : (x.eval []).Below s.counter :=
    Term.below_pair.2 ⟨Term.below_var.2 (by decide), Term.below_atom⟩
  have hes : ∀ e ∈ [Term.pair (.int 5) (.int 1), .int 7, .var ⟨2⟩], e.Below s.counter := by
    simp [s, Term.int]
  have h₀ : s.subst.unify (x.eval []) (.pair (.int 5) (.int 1)) = .ok (s.subst.extend ⟨0⟩ (.int 5)) :=
    Subst.unify_eq_ok_iff.2 (Subst.unifiesTo_of_unifyWithin (n := 2) rfl)
  have h₁ : s.subst.unify (x.eval []) (.int 7) = .error .clash :=
    Subst.unify_eq_clash_iff.2 (Subst.unifiesTo_of_unifyWithin (n := 1) rfl)
  have h₂ : s.subst.unify (x.eval []) (.var ⟨2⟩) = .ok (s.subst.extend ⟨2⟩ (.pair (.var ⟨1⟩) (.int 1))) :=
    Subst.unify_eq_ok_iff.2 (Subst.unifiesTo_of_unifyWithin (n := 1) rfl)
  obtain ⟨hends, hlast, hblocks⟩ := (member_list (ρ := Empty) nofun).1 x l [] s _ hs rfl hx hes (by
    simp [h₀, h₁, h₂])
  exact ⟨hs, hends, hlast, (hblocks 0 _ rfl).1 _ h₀, (hblocks 1 _ rfl).2 h₁, (hblocks 2 _ rfl).1 _ h₂⟩

end Goal

end Relational
