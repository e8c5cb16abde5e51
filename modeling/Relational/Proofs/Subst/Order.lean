import Relational.Proofs.Subst.Naming
import Relational.Proofs.Subst.Sequence
import Relational.Proofs.Subst.Solutions

/-!
# The order of unifications

What a sequence of unifications builds has the solutions of its equations, which do not depend on their
order. Every assignment gives rise to a solution of an acyclic substitution, so two acyclic substitutions
with the same solutions resolve a term to instances of one another.
-/

namespace Relational

variable {θ η : Assignment} {s r q : Subst} {t v w : Term Var} {x : Var}
  {es fs : List (Term Var × Term Var)}

/-! ## Substitutions without a NaN -/

namespace Subst

/-- No variable is bound to a term with a NaN in it. -/
def NanFree (s : Subst) : Prop := ∀ x t, s.lookup x = some t → t.hasNan = false

namespace NanFree

theorem closed (hs : s.NanFree) : Closed (fun t => t.hasNan = false) s where
  first h := (Bool.or_eq_false_iff.1 h).1
  second h := (Bool.or_eq_false_iff.1 h).2
  lookup {x t} _ hx := hs x t hx

theorem of_unifyAll (hs : s.NanFree) (hes : ∀ e ∈ es, e.1.hasNan = false ∧ e.2.hasNan = false)
    (h : s.unifyAll es = .ok r) : r.NanFree :=
  fun _ _ hx => ((grows_of_unifyAll h hs.closed hes).closed hs.closed).lookup rfl hx

theorem resolvesTo (hs : s.NanFree) (h : s.ResolvesTo t w) (ht : t.hasNan = false) :
    w.hasNan = false := by
  induction h with
  | atom => exact ht
  | unbound => rfl
  | bound hx _ ih => exact ih (hs _ _ hx)
  | pair _ _ iha ihd =>
    simp only [Term.hasNan, Bool.or_eq_false_iff] at ht ⊢
    exact ⟨iha ht.1, ihd ht.2⟩

theorem resolved (hs : s.NanFree) (x : Var) : (s.resolved x).hasNan = false := by
  cases hx : s.resolve (.var x) with
  | none =>
    rw [Subst.resolved, hx]
    rfl
  | some w =>
    have hw := resolve_eq_some_iff.1 hx
    rw [resolved_eq hw]
    exact hs.resolvesTo hw rfl

end NanFree

end Subst

/-! ## Solutions and resolved terms -/

namespace Assignment

/-- Gives a variable the value of what it resolves to. -/
def through (η : Assignment) (s : Subst) (hs : s.NanFree) : Assignment where
  value x := η.term (s.resolved x)
  hasNan_value x := η.hasNan_term (hs.resolved x)

theorem term_through (hs : s.NanFree) (t : Term Var) :
    (η.through s hs).term t = η.term (t.bind s.resolved) :=
  (Term.bind_bind _ _ t).symm

/-- Every assignment to the open variables of an acyclic substitution is part of a solution. -/
theorem solves_through (hs : s.NanFree) (hacyclic : s.Acyclic) : (η.through s hs).Solves s := by
  intro x t hx
  have hxt : s.resolved x = t.bind s.resolved :=
    Subst.resolved_eq ((Subst.resolvesTo_var hx).2 (hacyclic.resolvesTo t))
  have hvalue : (η.through s hs).term t = (η.through s hs).value x := by
    rw [term_through, ← hxt]
    rfl
  rw [hvalue]
  exact value_beq_self x

/-- In a solution a term and what it resolves to are equal to the same terms. -/
theorem Solves.beq_resolvesTo (hθ : θ.Solves s) (h : s.ResolvesTo t w) (u : Ground) :
    (θ.term w == u) = (θ.term t == u) := by
  induction h generalizing u with
  | atom | unbound => rfl
  | bound hx _ ih => exact (ih u).trans (BEq.congr_left (hθ _ _ hx)).symm
  | pair _ _ iha ihd =>
    cases u with
    | atom | var => rfl
    | pair b e => rw [term_pair, term_pair, Term.pair_beq_pair, Term.pair_beq_pair, iha b, ihd e]

/-- What has a solution is acyclic unless a chain of its bindings has a loop. -/
theorem Solves.acyclic (hθ : θ.Solves s) (hs : s.ChainFree) : s.Acyclic :=
  fun x hx => hs x (hθ.alias_of_cycle hx)

end Assignment

namespace Subst

/-- When all solutions of `r` solve `q`, what a term resolves to in `r` is an instance of what it resolves
to in `q`. -/
theorem bind_resolved_beq (hr : r.NanFree) (hacyclic : r.Acyclic)
    (hsub : ∀ θ : Assignment, θ.Solves r → θ.Solves q) (h : q.ResolvesTo t w)
    (ht : t.hasNan = false) : (w.bind r.resolved == t.bind r.resolved) = true := by
  refine Assignment.beq_of_forall_term_beq fun η => ?_
  have hq : (η.through r hr).Solves q := hsub _ (Assignment.solves_through hr hacyclic)
  rw [← Assignment.term_through hr, ← Assignment.term_through hr, hq.beq_resolvesTo h, Term.beq_self,
    Assignment.hasNan_term ht]
  rfl

/-- Two acyclic substitutions with the same solutions reify a term to equal ones. -/
theorem reify_beq_of_solves_iff (hr : r.NanFree) (hra : r.Acyclic) (hq : q.NanFree) (hqa : q.Acyclic)
    (hrq : ∀ θ : Assignment, θ.Solves r ↔ θ.Solves q) (ht : t.hasNan = false) :
    ∃ v w, r.reify t = some v ∧ q.reify t = some w ∧ (v == w) = true := by
  have hrt : r.ResolvesTo t (t.bind r.resolved) := hra.resolvesTo t
  have hqt : q.ResolvesTo t (t.bind q.resolved) := hqa.resolvesTo t
  have hforth := bind_resolved_beq hq hqa (fun θ => (hrq θ).2) hrt ht
  have hback := bind_resolved_beq hr hra (fun θ => (hrq θ).1) hqt ht
  refine ⟨_, _, ?_, ?_, Term.canonical_beq_of_instances hforth hback⟩
  · rw [reify_eq, resolve_eq_some_iff.2 hrt, Option.map_some]
  · rw [reify_eq, resolve_eq_some_iff.2 hqt, Option.map_some]

/-! ## Solutions of a sequence -/

theorem solves_unifyAll_iff (h : s.unifyAll es = .ok r) :
    θ.Solves r ↔ θ.Solves s ∧ ∀ e ∈ es, (θ.term e.1 == θ.term e.2) = true := by
  induction es generalizing s with
  | nil =>
    rw [unifyAll_nil.1 h]
    exact (and_iff_left nofun).symm
  | cons e es ih =>
    obtain ⟨q, hq, hr⟩ := unifyAll_cons.1 h
    rw [ih hr, (unify_eq_ok_iff.1 hq).solves_some_iff, and_assoc, List.forall_mem_cons]

/-- A sequence with a common solution of its equations succeeds throughout. -/
theorem exists_unifyAll (hs : s.ChainFree) (hθ : θ.Solves s)
    (hes : ∀ e ∈ es, (θ.term e.1 == θ.term e.2) = true) : ∃ r, s.unifyAll es = .ok r := by
  induction es generalizing s with
  | nil => exact ⟨s, rfl⟩
  | cons e es ih =>
    obtain ⟨he, hes⟩ := List.forall_mem_cons.1 hes
    obtain ⟨q, hq⟩ := unifiesTo_of_solves hs hθ he
    obtain ⟨r, hr⟩ := ih (hq.chainFree hs) (hq.solves_some_iff.2 ⟨hθ, he⟩) hes
    exact ⟨r, unifyAll_cons.2 ⟨q, unify_eq_ok_iff.2 hq, hr⟩⟩

/-! ## Reordering -/

/-- The order of equations does not matter. When unifying the equations one after another leads to an
acyclic substitution, then unifying them in any other order succeeds throughout and leads to an acyclic
one, and the two reify every term to equal ones. -/
theorem unifyAll_perm (hs : s.Acyclic) (hnan : s.NanFree)
    (hes : ∀ e ∈ es, e.1.hasNan = false ∧ e.2.hasNan = false) (h : s.unifyAll es = .ok r)
    (hr : r.Acyclic) (hfs : es.Perm fs) :
    ∃ q, s.unifyAll fs = .ok q ∧ q.Acyclic ∧
      ∀ t : Term Var, t.hasNan = false →
        ∃ v w, r.reify t = some v ∧ q.reify t = some w ∧ (v == w) = true := by
  have hrnan : r.NanFree := hnan.of_unifyAll hes h
  have hequations (θ : Assignment) : (∀ e ∈ es, (θ.term e.1 == θ.term e.2) = true) ↔
      ∀ e ∈ fs, (θ.term e.1 == θ.term e.2) = true :=
    forall_congr' fun _ => imp_congr_left hfs.mem_iff
  -- Some solution of `r` makes sure that the other order succeeds and leads to no cycle.
  let θ : Assignment := (Assignment.const .nil rfl).through r hrnan
  have hθ : θ.Solves r := Assignment.solves_through hrnan hr
  obtain ⟨hθs, hθes⟩ := (solves_unifyAll_iff h).1 hθ
  obtain ⟨q, hq⟩ := exists_unifyAll hs.chainFree hθs ((hequations θ).1 hθes)
  have hrq (θ : Assignment) : θ.Solves r ↔ θ.Solves q := by
    rw [solves_unifyAll_iff h, solves_unifyAll_iff hq, hequations θ]
  have hqa : q.Acyclic := ((hrq θ).1 hθ).acyclic (chainFree_of_unifyAll hq hs.chainFree)
  have hqnan : q.NanFree := hnan.of_unifyAll (fun e he => hes e (hfs.mem_iff.2 he)) hq
  exact ⟨q, hq, hqa, fun t ht => reify_beq_of_solves_iff hrnan hr hqnan hqa hrq ht⟩

/-- A variable that is bound to one zero or the other, depending on the order, beside an open one. -/
theorem unifyAll_perm_zeros :
    let es : List (Term Var × Term Var) :=
      [(.var ⟨0⟩, .float 0), (.var ⟨1⟩, .var ⟨2⟩), (.var ⟨0⟩, .float (-0))]
    let r := (empty.extend ⟨0⟩ (.float 0)).extend ⟨1⟩ (.var ⟨2⟩)
    let t : Term Var := .pair (.var ⟨0⟩) (.var ⟨1⟩)
    empty.unifyAll es = .ok r ∧ r.Acyclic ∧
      ∃ q, empty.unifyAll es.reverse = .ok q ∧ q.Acyclic ∧
        ∃ v w, r.reify t = some v ∧ q.reify t = some w ∧ (v == w) = true := by
  intro es r t
  have h : empty.unifyAll es = .ok r := by
    refine unifyAll_cons.2 ⟨_, unify_eq_ok_iff.2 (unifiesTo_of_unifyWithin (n := 1) rfl), ?_⟩
    refine unifyAll_cons.2 ⟨_, unify_eq_ok_iff.2 (unifiesTo_of_unifyWithin (n := 1) rfl), ?_⟩
    exact unifyAll_cons.2 ⟨_, unify_eq_ok_iff.2 (unifiesTo_of_unifyWithin (n := 1) rfl), rfl⟩
  have hempty (θ : Assignment) : θ.Solves empty := nofun
  let θ := Assignment.const (.float 0) rfl
  have hθ : θ.Solves r := by
    refine (Assignment.solves_extend rfl).2 ⟨(Assignment.solves_extend rfl).2 ⟨hempty θ, ?_⟩, ?_⟩
    · rfl
    · rfl
  have hacyclic : empty.Acyclic := (hempty θ).acyclic chainFree_empty
  have hr : r.Acyclic := hθ.acyclic (chainFree_of_unifyAll h chainFree_empty)
  have hes : ∀ e ∈ es, e.1.hasNan = false ∧ e.2.hasNan = false := by
    simp only [es, List.forall_mem_cons]
    exact ⟨⟨rfl, rfl⟩, ⟨rfl, rfl⟩, ⟨rfl, rfl⟩, nofun⟩
  obtain ⟨q, hq, hqa, hreify⟩ := unifyAll_perm hacyclic nofun hes h hr (List.reverse_perm es).symm
  exact ⟨h, hr, q, hq, hqa, hreify t rfl⟩

end Subst

end Relational
