import Relational.Goal.Basic
import Relational.Proofs.Subst.Reification
import Relational.Proofs.Term.Assignment

/-!
# Variable-free terms

A term without variables stands for itself, wherever it is put: in a goal, under bindings, in an answer.
-/

namespace Relational

namespace Ground

variable {ν : Type}

/-- The same term among those with variables. -/
def embed (e : Ground) : Term ν := e.map Empty.elim

theorem vars_embed (e : Ground) : (e.embed : Term ν).vars = [] := by
  induction e with
  | atom => rfl
  | var x => exact x.elim
  | pair a d iha ihd => exact List.append_eq_nil_iff.2 ⟨iha, ihd⟩

theorem embed_list (es : List Ground) : (embed (.list es) : Term ν) = .list (es.map embed) := by
  induction es with
  | nil => rfl
  | cons e es ih => exact congrArg (Term.pair e.embed) ih

theorem embed_ne_var (e : Ground) (x : ν) : (e.embed : Term ν) ≠ .var x := by
  intro h
  have hvars := e.vars_embed (ν := ν)
  simp [h, Term.vars] at hvars

theorem bind_embed {μ : Type} (f : ν → Term μ) (e : Ground) : e.embed.bind f = e.embed := by
  induction e with
  | atom => rfl
  | var x => exact x.elim
  | pair a d iha ihd => exact congrArg₂ Term.pair iha ihd

theorem eval_embed (env : List (Term Var)) (e : Ground) : Expr.eval env e.embed = e.embed := e.bind_embed _

theorem walk_embed (s : Subst) (e : Ground) : s.walk e.embed = some e.embed :=
  Subst.walk_of_ne_var e.embed_ne_var

theorem resolvesTo_embed (s : Subst) (e : Ground) : s.ResolvesTo e.embed e.embed := by
  apply Subst.ResolvesTo.of_unbound
  simp [vars_embed]

theorem reify_of_resolvesTo {s : Subst} {t : Term Var} {e : Ground} (h : s.ResolvesTo t e.embed) :
    s.reify t = some e.embed := by
  rw [Subst.reify_of_resolvesTo h, Term.canonical_of_vars_eq_nil e.vars_embed]

end Ground

end Relational
