import Relational.Proofs.Subst.Naming
import Relational.Proofs.Subst.Reach
import Relational.Proofs.Term.Variants

/-!
# The order of names

Names are given in the order in which the open variables are first met, and their numbers go on from the
number of bindings that are there. While a term is named the names given so far are bindings like any
others, so a variable that has one is not named again, be it met in the same term or in a later one.
-/

namespace Relational

theorem addVars_of_subset {xs ys : List Var} (h : ∀ y ∈ ys, y ∈ xs) : addVars xs ys = xs := by
  induction ys with
  | nil => rfl
  | cons y ys ih =>
    rw [List.forall_mem_cons] at h
    rw [addVars_cons_of_mem h.1, ih h.2]

namespace Subst

variable {s : Subst} {xs : List Var} {ts ws : List (Term Var)}

/-! ## Numbered names -/

/-- The bindings of the variables to the names from number `k` on, in order. -/
def numbered (k : Nat) (xs : List Var) : List (Var × Term Var) :=
  xs.mapIdx fun i x => (x, .reified (k + i))

theorem extendAll_append (s : Subst) (bs cs : List (Var × Term Var)) :
    s.extendAll (bs ++ cs) = (s.extendAll bs).extendAll cs :=
  List.foldl_append

theorem named_eq_extendAll (s : Subst) (xs : List Var) : s.named xs = s.extendAll (numbered s.size xs) := by
  induction xs using List.reverseRecOn with
  | nil => rfl
  | append_singleton xs x ih =>
    rw [named_append_singleton, size_named, ih, numbered, numbered, List.mapIdx_concat, extendAll_append]
    rfl

/-! ## Naming term after term -/

theorem foldlM_nameVars_named (hxs : xs.Nodup) (hopen : ∀ y ∈ xs, s.lookup y = none)
    (h : List.Forall₂ s.ResolvesTo ts ws) :
    ts.foldlM nameVars (s.named xs) = some (s.named (addVars xs (ws.flatMap Term.vars))) := by
  induction h generalizing xs with
  | nil => rfl
  | cons ht _ ih =>
    rw [List.foldlM_cons, nameVars_named hxs hopen (resolve_eq_some_iff.2 ht), List.flatMap_cons,
      addVars_append]
    refine ih (nodup_addVars hxs) fun y hy => ?_
    exact (mem_addVars.1 hy).elim (hopen y) (ht.unbound_of_mem y)

/-! ## All names -/

/-- Naming the open variables of a term under an acyclic substitution. The names have the numbers from the
number of bindings on, and they are given to the distinct variables of the resolved term in the order in
which these first occur. When terms are named one after another the numbering goes on: the names are those
that all of the terms together would get, and naming one of them again adds nothing. -/
theorem nameVars_in_order (hs : s.Acyclic) :
    (∀ t, ∃ w, s.resolve t = some w ∧
      s.nameVars t = some (s.extendAll (numbered s.size w.vars.eraseDups))) ∧
    ∀ ts, ∃ ws r, List.Forall₂ (fun t w => s.resolve t = some w) ts ws ∧ ts.foldlM nameVars s = some r ∧
      r = s.extendAll (numbered s.size (ws.flatMap Term.vars).eraseDups) ∧
      ∀ t ∈ ts, r.nameVars t = some r := by
  have hnil : ∀ y ∈ ([] : List Var), s.lookup y = none := nofun
  have hdistinct (ys : List Var) : s.named (addVars [] ys) = s.extendAll (numbered s.size ys.eraseDups) := by
    rw [addVars_nil, named_eq_extendAll]
  have hresolve (t : Term Var) : s.resolve t = some (t.bind s.resolved) :=
    resolve_eq_some_iff.2 (hs.resolvesTo t)
  refine ⟨fun t => ⟨_, hresolve t, ?_⟩, fun ts => ?_⟩
  · rw [← hdistinct]
    exact nameVars_named .nil hnil (hresolve t)
  · have hts := hs.forall₂_resolvesTo ts
    have hopen : ∀ y ∈ addVars [] ((ts.map (Term.bind s.resolved)).flatMap Term.vars),
        s.lookup y = none := by
      simp only [mem_addVars, List.not_mem_nil, false_or, List.mem_flatMap, List.mem_map]
      rintro y ⟨-, ⟨u, -, rfl⟩, hy⟩
      exact (hs.resolvesTo u).unbound_of_mem y hy
    refine ⟨_, _, hts.imp fun t w => resolve_eq_some_iff.2, foldlM_nameVars_named .nil hnil hts,
      hdistinct _, fun t ht => ?_⟩
    -- All the variables of `t` are among those that have names.
    rw [nameVars_named (nodup_addVars .nil) hopen (hresolve t), addVars_of_subset fun y hy => ?_]
    exact mem_addVars.2 (.inr (List.mem_flatMap.2 ⟨_, List.mem_map_of_mem ht, hy⟩))

/-- A variable that is met again behind an alias, and a second term with one variable more. -/
theorem nameVars_in_order_alias :
    let s := empty.extend ⟨1⟩ (.var ⟨3⟩)
    let t : Term Var := .pair (.pair (.var ⟨1⟩) (.var ⟨0⟩)) (.var ⟨3⟩)
    let u : Term Var := .pair (.var ⟨0⟩) (.var ⟨4⟩)
    let r := s.extendAll [(⟨3⟩, .reified 1), (⟨0⟩, .reified 2), (⟨4⟩, .reified 3)]
    s.Acyclic ∧ s.nameVars t = some (s.extendAll [(⟨3⟩, .reified 1), (⟨0⟩, .reified 2)]) ∧
      [t, u].foldlM nameVars s = some r ∧ r.nameVars t = some r := by
  intro s t u r
  have hs : s.Acyclic := acyclic_alias (by decide)
  obtain ⟨hsingle, hmany⟩ := nameVars_in_order hs
  obtain ⟨w, hw, hname⟩ := hsingle t
  obtain rfl : .pair (.pair (.var ⟨3⟩) (.var ⟨0⟩)) (.var ⟨3⟩) = w := Option.some.inj hw
  obtain ⟨ws, q, hws, hnames, hq, hagain⟩ := hmany [t, u]
  rcases hws with _ | ⟨ht, _ | ⟨hu, _ | _⟩⟩
  obtain rfl := Option.some.inj (hw.symm.trans ht)
  obtain rfl := Option.some.inj (hu.symm.trans (show s.resolve u = some u from rfl))
  obtain rfl : q = r := hq
  exact ⟨hs, hname, hnames, hagain t List.mem_cons_self⟩

end Subst

end Relational
