import Relational.Proofs.Subst.Reach
import Relational.Term.List

/-!
# Resolving along the second halves

A term can be resolved by going along its second halves, through bindings where one of them is bound, and
resolving the first halves that are passed: they are the items of the resolved term, and what the way ends
with is its tail. This gives the same as plain recursion over terms and bindings, and there is nothing in
it that could be resolved any further.
-/

namespace Relational

namespace Subst

variable {s : Subst} {f : Term Var → Term Var} {t tail w : Term Var} {firsts items : List (Term Var)}

/-! ## Plain recursion -/

/-- `f` resolves terms by plain recursion: an atom and an unbound variable stay as they are, a bound variable
becomes what its term becomes, and a pair is resolved half by half. -/
structure IsResolution (s : Subst) (f : Term Var → Term Var) : Prop where
  atom (a : Atom) : f (.atom a) = .atom a
  unbound {x : Var} (hx : s.lookup x = none) : f (.var x) = .var x
  bound {x : Var} {t : Term Var} (hx : s.lookup x = some t) : f (.var x) = f t
  pair (a d : Term Var) : f (.pair a d) = .pair (f a) (f d)

theorem IsResolution.eq_of_resolvesTo (hf : s.IsResolution f) (h : s.ResolvesTo t w) : f t = w := by
  induction h with
  | atom => exact hf.atom _
  | unbound hx => exact hf.unbound hx
  | bound hx _ ih => exact (hf.bound hx).trans ih
  | pair _ _ iha ihd => rw [hf.pair, iha, ihd]

theorem Acyclic.isResolution_bind (hs : s.Acyclic) : s.IsResolution (Term.bind s.resolved) where
  atom _ := rfl
  unbound hx := resolved_eq (.unbound hx)
  bound hx := resolved_eq (.bound hx (hs.resolvesTo _))
  pair _ _ := rfl

/-! ## Second halves -/

/-- The way from a term along second halves, each of them taken at its value, passes the first halves `firsts`
and ends with `tail`. -/
inductive Spine (s : Subst) : Term Var → List (Term Var) → Term Var → Prop where
  | tail {t tail : Term Var} (ht : s.walk t = some tail) (htail : tail.isPair = false) : Spine s t [] tail
  | pair {t a d tail : Term Var} {firsts : List (Term Var)} (ht : s.walk t = some (.pair a d))
      (hd : Spine s d firsts tail) : Spine s t (a :: firsts) tail

theorem resolvesTo_self_of_walk (ht : s.walk t = some tail) (htail : tail.isPair = false) :
    s.ResolvesTo tail tail := by
  cases tail with
  | atom => exact .atom
  | var x => exact .unbound (isValue_of_walk ht x rfl)
  | pair => cases htail

theorem Spine.resolvesTo (h : s.Spine t firsts tail) (hfirsts : List.Forall₂ s.ResolvesTo firsts items) :
    s.ResolvesTo t (Term.dotted items tail) := by
  induction h generalizing items with
  | tail ht htail =>
    cases hfirsts
    exact (resolvesTo_of_walk ht).2 (resolvesTo_self_of_walk ht htail)
  | pair ht _ ih =>
    cases hfirsts with
    | cons ha hrest => exact (resolvesTo_of_walk ht).2 (.pair ha (ih hrest))

theorem ResolvesTo.exists_spine (h : s.ResolvesTo t w) : ∃ firsts tail, s.Spine t firsts tail := by
  induction h using walk_induction with
  | atom _ ht | var _ ht => exact ⟨[], _, .tail ht rfl⟩
  | pair _ _ _ ht _ ihd =>
    obtain ⟨firsts, tail, hd⟩ := ihd
    exact ⟨_, tail, .pair ht hd⟩

/-! ## Completeness -/

/-- Under an acyclic substitution every term resolves, and it does so completely: there is exactly one
function that resolves terms by plain recursion, and it gives their resolutions. No variable in a
resolution is bound, so that it resolves to itself; the value of a term resolves to what the term does; and
the same is collected along the second halves. -/
theorem exists_isResolution (hs : s.Acyclic) :
    ∃ f, s.IsResolution f ∧ (∀ g, s.IsResolution g → g = f) ∧
      ∀ t, s.resolve t = some (f t) ∧ (∀ x ∈ (f t).vars, s.lookup x = none) ∧
        s.resolve (f t) = some (f t) ∧
        (∃ v, s.walk t = some v ∧ s.resolve v = some (f t)) ∧
        ∃ firsts tail, s.Spine t firsts tail ∧ f t = Term.dotted (firsts.map f) tail := by
  have hf := hs.isResolution_bind
  refine ⟨_, hf, fun g hg => funext fun t => hg.eq_of_resolvesTo (hs.resolvesTo t), fun t => ?_⟩
  have ht : s.ResolvesTo t (t.bind s.resolved) := hs.resolvesTo t
  refine ⟨resolve_eq_some_iff.2 ht, ht.unbound_of_mem, resolve_eq_some_iff.2 (.of_unbound ht.unbound_of_mem),
    ?_, ?_⟩
  · obtain ⟨v, hv⟩ := Option.isSome_iff_exists.1 (hs.chainFree.walk_isSome t)
    exact ⟨v, hv, resolve_eq_some_iff.2 ((resolvesTo_of_walk hv).1 ht)⟩
  · obtain ⟨firsts, tail, hspine⟩ := ht.exists_spine
    exact ⟨firsts, tail, hspine, ht.unique (hspine.resolvesTo (hs.forall₂_resolvesTo firsts))⟩

/-- Bound variables as a first half, as a second half and as a tail. -/
theorem exists_isResolution_chain :
    let s := ((empty.extend ⟨1⟩ (.var ⟨3⟩)).extend ⟨2⟩ (.pair (.int 7) (.var ⟨1⟩))).extend ⟨0⟩
      (.pair (.var ⟨1⟩) (.var ⟨2⟩))
    let w : Term Var := .dotted [.var ⟨3⟩, .int 7] (.var ⟨3⟩)
    s.Acyclic ∧ s.resolve (.var ⟨0⟩) = some w ∧ s.resolve w = some w ∧
      ∃ f, s.IsResolution f ∧ f (.var ⟨0⟩) = w ∧
        ∃ firsts tail, s.Spine (.var ⟨0⟩) firsts tail ∧ Term.dotted (firsts.map f) tail = w := by
  intro s w
  have halias : (empty.extend ⟨1⟩ (.var ⟨3⟩)).Acyclic := acyclic_alias (by decide)
  have hrest : ((empty.extend ⟨1⟩ (.var ⟨3⟩)).extend ⟨2⟩ (.pair (.int 7) (.var ⟨1⟩))).Acyclic :=
    (acyclic_extend_iff halias rfl (.pair .atom (.bound rfl (.unbound rfl)))).2 (by decide)
  have hs : s.Acyclic := (acyclic_extend_iff hrest rfl (.pair (.bound rfl (.unbound rfl))
    (.bound rfl (.pair .atom (.bound rfl (.unbound rfl)))))).2 (by decide)
  have hw : s.ResolvesTo (.var ⟨0⟩) w := .bound rfl (.pair (.bound rfl (.unbound rfl))
    (.bound rfl (.pair .atom (.bound rfl (.unbound rfl)))))
  obtain ⟨f, hf, -, hresolve⟩ := exists_isResolution hs
  obtain ⟨ht, -, hself, -, firsts, tail, hspine, hlist⟩ := hresolve (.var ⟨0⟩)
  have hfw : f (.var ⟨0⟩) = w := hf.eq_of_resolvesTo hw
  rw [hfw] at ht hself hlist
  exact ⟨hs, ht, hself, f, hf, hfw, firsts, tail, hspine, hlist.symm⟩

end Subst

end Relational
