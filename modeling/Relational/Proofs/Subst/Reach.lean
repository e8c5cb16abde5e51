import Relational.Proofs.Subst.Depth
import Relational.Proofs.Subst.Twins

/-!
# What a unification touches

A term reaches the variables to which a path through bound terms leads from it. Unification stays within
what its two terms reach, although the bindings that it makes for first halves are followed in second halves:
what it binds, and what it binds it to, was reached before. So a term that reaches none of the newly bound
variables has the value, the resolution and the reified form that it had. A new binding leads to a cycle when
its term reaches the variable that it binds.
-/

namespace Relational

namespace Subst

open Relation (ReflTransGen)

variable {s r : Subst} {x y : Var} {t u v w : Term Var}

/-- A path through the terms that variables are bound to leads from a variable of `t` to `x`. -/
def Reaches (s : Subst) (t : Term Var) (x : Var) : Prop := ∃ y ∈ t.vars, ReflTransGen s.LeadsTo y x

namespace Reaches

theorem of_mem (hx : x ∈ t.vars) : s.Reaches t x := ⟨x, hx, .refl⟩

theorem tail (h : s.Reaches t x) (hxy : s.LeadsTo x y) : s.Reaches t y := by
  obtain ⟨z, hz, hzx⟩ := h
  exact ⟨z, hz, hzx.tail hxy⟩

theorem of_lookup (hx : s.lookup x = some t) (h : s.Reaches t y) : s.Reaches (.var x) y := by
  obtain ⟨z, hz, hzy⟩ := h
  exact ⟨x, List.mem_singleton_self x, hzy.head ⟨t, hx, hz⟩⟩

theorem pair_iff {a d : Term Var} : s.Reaches (.pair a d) x ↔ s.Reaches a x ∨ s.Reaches d x := by
  simp only [Reaches, Term.vars, List.mem_append, or_and_right, exists_or]

/-- Only what belongs to a set is reached from inside it when no binding leads out. -/
theorem of_closed {Q : Var → Prop} (hQ : ∀ x y, Q x → s.LeadsTo x y → Q y) (ht : ∀ x ∈ t.vars, Q x)
    (h : s.Reaches t x) : Q x := by
  obtain ⟨y, hy, hyx⟩ := h
  induction hyx with
  | refl => exact ht y hy
  | tail _ hxy ih => exact hQ _ _ ih hxy

end Reaches

theorem ResolvesTo.reaches (h : s.ResolvesTo t w) (hx : x ∈ w.vars) : s.Reaches t x := by
  induction h with
  | atom | unbound => exact .of_mem hx
  | bound hl _ ih => exact .of_lookup hl (ih hx)
  | pair _ _ iha ihd =>
    rw [Reaches.pair_iff]
    exact (List.mem_append.1 hx).imp iha ihd

/-! ## Cycles -/

/-- Binding an open variable leads to a cycle exactly when it occurs in the resolved term. -/
theorem acyclic_extend_iff (hs : s.Acyclic) (hx : s.lookup x = none) (hw : s.ResolvesTo t w) :
    (s.extend x t).Acyclic ↔ x ∉ w.vars := by
  have hkeep (y : Var) (u : Term Var) (hy : s.lookup y = some u) :
      (s.extend x t).lookup y = some u := lookup_extend_of_eq_some hx hy
  constructor
  · intro hacyclic hxw
    obtain ⟨y, hy, hyx⟩ := hw.reaches hxw
    have hxy : (s.extend x t).LeadsTo x y := ⟨t, by rw [lookup_extend, if_pos rfl], hy⟩
    exact hacyclic x (.head' hxy (ReflTransGen.mono (leadsTo_le hkeep) y x hyx))
  · intro hxw
    have hopen {y : Var} (hyx : y ≠ x) (hy : s.lookup y = none) : (s.extend x t).lookup y = none := by
      rw [lookup_extend, if_neg hyx, hy]
    have hwself : (s.extend x t).ResolvesTo w w := by
      refine .of_unbound fun y hy => hopen ?_ (hw.unbound_of_mem y hy)
      rintro rfl
      exact hxw hy
    have hxself : (s.extend x t).ResolvesTo (.var x) w :=
      .bound (by rw [lookup_extend, if_pos rfl]) ((hw.resolvesTo_iff hkeep).2 hwself)
    -- What a variable resolved to has only open variables, which resolve again.
    refine acyclic_of_exists_resolvesTo fun y => ?_
    obtain ⟨z, hz⟩ := hs.exists_resolvesTo (.var y)
    simp only [hz.resolvesTo_iff hkeep]
    refine exists_resolvesTo_of_vars fun y' hy' => ?_
    by_cases hyx : y' = x
    · exact ⟨w, hyx ▸ hxself⟩
    · exact ⟨.var y', .unbound (hopen hyx (hz.unbound_of_mem y' hy'))⟩

theorem acyclic_alias (hxy : x ≠ y) : (empty.extend x (.var y)).Acyclic :=
  (acyclic_extend_iff acyclic_empty rfl (.unbound rfl)).2 (by simpa [Term.vars] using hxy)

/-! ## Terms that reach no new binding -/

theorem lookup_of_notMem_new {new : List (Var × Term Var)} (hr : r.bindings = new ++ s.bindings)
    (hx : x ∉ new.map Prod.fst) : r.lookup x = s.lookup x := by
  have hnew : new.lookup x = none := by
    rw [List.lookup_eq_none_iff]
    intro b hb
    have hne : x ≠ b.1 := fun h => hx (h ▸ List.mem_map_of_mem hb)
    simpa using hne
  rw [lookup, hr, List.lookup_append, hnew, Option.none_or, lookup]

theorem walk_of_reaches (hr : ∀ x, s.Reaches t x → r.lookup x = s.lookup x) (h : s.walk t = some v) :
    r.walk t = some v := by
  -- On the way to the value nothing is met that the term does not reach.
  have hway : (∀ x, s.Reaches v x → s.Reaches t x) ∧ r.walk t = r.walk v := by
    refine walk_closed (P := fun v => (∀ x, s.Reaches v x → s.Reaches t x) ∧ r.walk t = r.walk v)
      ?_ h ⟨fun _ hx => hx, rfl⟩
    rintro x u ⟨hreach, hwalk⟩ hx
    have hrx : r.lookup x = some u := by rw [hr x (hreach x (.of_mem (List.mem_singleton_self x))), hx]
    exact ⟨fun y hy => hreach y (.of_lookup hx hy), by rw [hwalk, walk_var, hrx, Option.elim_some]⟩
  obtain ⟨hreach, hwalk⟩ := hway
  have hvalue : r.IsValue v := by
    rintro x rfl
    rw [hr x (hreach x (.of_mem (List.mem_singleton_self x)))]
    exact isValue_of_walk h x rfl
  rw [hwalk, walk_of_isValue hvalue]

theorem ResolvesTo.of_reaches (h : s.ResolvesTo t w)
    (hr : ∀ x, s.Reaches t x → r.lookup x = s.lookup x) : r.ResolvesTo t w := by
  induction h with
  | atom => exact .atom
  | @unbound x hx =>
    apply ResolvesTo.unbound
    rw [hr x (.of_mem (List.mem_singleton_self x)), hx]
  | @bound x t w hx _ ih =>
    have hrx : r.lookup x = some t := by rw [hr x (.of_mem (List.mem_singleton_self x)), hx]
    exact .bound hrx (ih fun y hy => hr y (.of_lookup hx hy))
  | pair _ _ iha ihd =>
    simp only [Reaches.pair_iff] at hr
    exact .pair (iha fun y hy => hr y (.inl hy)) (ihd fun y hy => hr y (.inr hy))

theorem resolve_of_reaches (hr : ∀ x, s.Reaches t x → r.lookup x = s.lookup x)
    (h : s.resolve t = some w) : r.resolve t = some w :=
  resolve_eq_some_iff.2 ((resolve_eq_some_iff.1 h).of_reaches hr)

theorem reify_of_reaches (hr : ∀ x, s.Reaches t x → r.lookup x = s.lookup x) (h : s.reify t = some w) :
    r.reify t = some w := by
  rw [reify_eq, Option.map_eq_some_iff] at h ⊢
  obtain ⟨v, hv, hw⟩ := h
  exact ⟨v, resolve_of_reaches hr hv, hw⟩

/-! ## The reach of a unification -/

/-- The terms over variables from which no binding leads out are closed. -/
theorem Closed.of_vars {Q : Var → Prop} (hQ : ∀ x y, Q x → s.LeadsTo x y → Q y) :
    Closed (fun t => ∀ x ∈ t.vars, Q x) s where
  first h x hx := h x (List.mem_append_left _ hx)
  second h x hx := h x (List.mem_append_right _ hx)
  lookup h hl y hy := hQ _ y (h _ (List.mem_singleton_self _)) ⟨_, hl, hy⟩

theorem closed_reaches (s : Subst) (u v : Term Var) :
    Closed (fun t => ∀ x ∈ t.vars, s.Reaches u x ∨ s.Reaches v x) s := by
  apply Closed.of_vars
  intro x y hx hxy
  exact hx.imp (·.tail hxy) (·.tail hxy)

/-- Unification touches only what its two terms reach. It binds different variables, which were unbound
and reached, to terms over what was reached, and a term that reaches none of them stays what it was. -/
theorem unify_frame (h : s.unify u v = .ok r) :
    ∃ new, r.bindings = new ++ s.bindings ∧ (new.map Prod.fst).Nodup ∧
      (∀ b ∈ new, s.lookup b.1 = none ∧ (s.Reaches u b.1 ∨ s.Reaches v b.1) ∧
        ∀ x ∈ b.2.vars, s.Reaches u x ∨ s.Reaches v x) ∧
      ∀ t, (∀ x, s.Reaches t x → x ∉ new.map Prod.fst) →
        (∀ w, s.walk t = some w → r.walk t = some w) ∧
        (∀ w, s.resolve t = some w → r.resolve t = some w) ∧
        ∀ w, s.reify t = some w → r.reify t = some w := by
  have hgrows := (unify_eq_ok_iff.1 h).grows (closed_reaches s u v) (fun _ hx => .inl (.of_mem hx))
    fun _ hx => .inr (.of_mem hx)
  obtain ⟨new, hr, hnodup, hnew⟩ := hgrows.exists_append
  refine ⟨new, hr, hnodup, fun b hb => ?_, fun t ht => ?_⟩
  · obtain ⟨hunbound, hkey, hterm⟩ := hnew b hb
    exact ⟨hunbound, hkey b.1 (List.mem_singleton_self b.1), hterm⟩
  · have hkeep (x : Var) (hx : s.Reaches t x) : r.lookup x = s.lookup x :=
      lookup_of_notMem_new hr (ht x hx)
    exact ⟨fun _ => walk_of_reaches hkeep, fun _ => resolve_of_reaches hkeep,
      fun _ => reify_of_reaches hkeep⟩

/-- The variable 1 is bound in the first halves and followed in the second halves to the variable 5, which
the right-hand side reaches. The term of the variable 3 is out of reach. -/
theorem unify_frame_followed :
    let s := (empty.extend ⟨3⟩ (.pair (.var ⟨4⟩) .nil)).extend ⟨0⟩ (.pair (.var ⟨1⟩) (.var ⟨2⟩))
    let new : List (Var × Term Var) := [(⟨5⟩, .int 1), (⟨2⟩, .var ⟨5⟩), (⟨1⟩, .var ⟨5⟩)]
    let r : Subst := ⟨new ++ s.bindings⟩
    let u : Term Var := .pair (.var ⟨0⟩) (.var ⟨1⟩)
    let v : Term Var := .pair (.pair (.var ⟨5⟩) (.var ⟨5⟩)) (.int 1)
    s.unify u v = .ok r ∧ (∀ b ∈ new, s.Reaches u b.1 ∨ s.Reaches v b.1) ∧
      r.walk (.var ⟨3⟩) = some (.pair (.var ⟨4⟩) .nil) ∧
      r.reify (.var ⟨3⟩) = some (.pair (.reified 0) .nil) := by
  intro s new r u v
  have h : s.unify u v = .ok r := unify_eq_ok_iff.2 (unifiesTo_of_unifyWithin (n := 3) rfl)
  obtain ⟨new', hr, -, hnew, hframe⟩ := unify_frame h
  obtain rfl : new = new' := List.append_cancel_right hr
  have hout (x : Var) (hx : s.Reaches (.var ⟨3⟩) x) : x = ⟨3⟩ ∨ x = ⟨4⟩ := by
    refine hx.of_closed (Q := fun x => x = ⟨3⟩ ∨ x = ⟨4⟩) ?_ (by simp [Term.vars])
    rintro _ y (rfl | rfl) ⟨t, ht, hy⟩
    · obtain rfl : .pair (.var ⟨4⟩) .nil = t := Option.some.inj ht
      exact .inr (by simpa [Term.vars, Term.nil] using hy)
    · cases ht
  obtain ⟨hwalk, -, hreify⟩ := hframe (.var ⟨3⟩) fun x hx => by rcases hout x hx with rfl | rfl <;> decide
  exact ⟨h, fun b hb => (hnew b hb).2.1, hwalk _ rfl, hreify _ rfl⟩

end Subst

end Relational
