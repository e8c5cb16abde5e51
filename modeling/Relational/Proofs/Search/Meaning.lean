import Relational.Goal.Lists
import Relational.Proofs.Term.Assignment
import Mathlib.Data.List.Basic

/-!
# The meaning of goals

What a goal says about the values of its variables, without regard to a search. Relations mean as little
as their definitions allow: what holds of them is what can be shown in finitely many steps.
-/

namespace Relational

/-! ## Values -/

/-- The value of a reference, for the values of the free variables and of the bound places. A place
that is not there reads as the empty list. -/
def Ref.value (θ : Assignment) (vals : List Ground) : Ref → Ground
  | .free x => θ.value x
  | .bound i => vals.getD i .nil

/-- The value of an expression, for the values of the free variables and of the bound places. -/
def Expr.value (θ : Assignment) (vals : List Ground) (e : Expr) : Ground := e.bind (Ref.value θ vals)

variable {ρ : Type} {p : Program ρ} {g h : Goal ρ} {θ η : Assignment} {vals : List Ground}
  {env : List (Term Var)} {c k : Nat} {x : Var}

theorem Ref.value_map (θ : Assignment) (env : List (Term Var)) (r : Ref) :
    r.value θ (env.map θ.term) = θ.term (r.eval env) := by
  cases r with
  | free x => rfl
  | bound i =>
    simp only [value, eval, List.getD_eq_getElem?_getD, List.getElem?_map]
    cases env[i]? <;> rfl

theorem Expr.value_map (θ : Assignment) (env : List (Term Var)) (e : Expr) :
    e.value θ (env.map θ.term) = θ.term (e.eval env) := by
  rw [Expr.value, Expr.eval, Assignment.term, Term.bind_bind]
  exact congrArg (e.bind ·) (funext (Ref.value_map θ env))

/-! ## Variables of goals -/

/-- The variable occurs in the goal or in the definition of a relation that it calls, directly or not. -/
inductive Goal.Mentions (p : Program ρ) (x : Var) : Goal ρ → Prop where
  | eqLeft {u v : Expr} (h : .free x ∈ u.vars) : Mentions p x (.eq u v)
  | eqRight {u v : Expr} (h : .free x ∈ v.vars) : Mentions p x (.eq u v)
  | conjLeft {g h : Goal ρ} (hg : Mentions p x g) : Mentions p x (.conj g h)
  | conjRight {g h : Goal ρ} (hh : Mentions p x h) : Mentions p x (.conj g h)
  | disjLeft {g h : Goal ρ} (hg : Mentions p x g) : Mentions p x (.disj g h)
  | disjRight {g h : Goal ρ} (hh : Mentions p x h) : Mentions p x (.disj g h)
  | fresh {g : Goal ρ} (hg : Mentions p x g) : Mentions p x (.fresh g)
  | delay {g : Goal ρ} (hg : Mentions p x g) : Mentions p x (.delay g)
  | arg {rel : Rel ρ} {args : List Expr} {e : Expr} (he : e ∈ args) (h : .free x ∈ e.vars) :
      Mentions p x (.call rel args)
  | body {rel : Rel ρ} {args : List Expr} (h : Mentions p x (p.body rel)) :
      Mentions p x (.call rel args)

/-- All free variables of the expression have numbers below `c`. -/
def Expr.Below (c : Nat) (e : Expr) : Prop := ∀ x, .free x ∈ e.vars → x.id < c

/-- All variables of the goal have numbers below `c`. -/
def Goal.Below (p : Program ρ) (c : Nat) (g : Goal ρ) : Prop := ∀ x, g.Mentions p x → x.id < c

theorem Expr.Below.mono {e : Expr} (h : e.Below c) (hck : c ≤ k) : e.Below k :=
  fun x hx => Nat.lt_of_lt_of_le (h x hx) hck

namespace Goal.Below

theorem mono (hg : g.Below p c) (hck : c ≤ k) : g.Below p k :=
  fun x hx => Nat.lt_of_lt_of_le (hg x hx) hck

theorem eq {u v : Expr} (hg : (Goal.eq u v).Below p c) : u.Below c ∧ v.Below c :=
  ⟨fun x hx => hg x (.eqLeft hx), fun x hx => hg x (.eqRight hx)⟩

theorem conj (hg : (Goal.conj g h).Below p c) : g.Below p c ∧ h.Below p c :=
  ⟨fun x hx => hg x (.conjLeft hx), fun x hx => hg x (.conjRight hx)⟩

theorem disj (hg : (Goal.disj g h).Below p c) : g.Below p c ∧ h.Below p c :=
  ⟨fun x hx => hg x (.disjLeft hx), fun x hx => hg x (.disjRight hx)⟩

theorem fresh (hg : (Goal.fresh g).Below p c) : g.Below p c := fun x hx => hg x (.fresh hx)

theorem delay (hg : (Goal.delay g).Below p c) : g.Below p c := fun x hx => hg x (.delay hx)

theorem call {rel : Rel ρ} {args : List Expr} (hg : (Goal.call rel args).Below p c) :
    (∀ e ∈ args, e.Below c) ∧ (p.body rel).Below p c :=
  ⟨fun _ he x hx => hg x (.arg he hx), fun x hx => hg x (.body hx)⟩

end Goal.Below

theorem Expr.value_congr {e : Expr} (he : e.Below c) (h : θ.Agree c η) :
    e.value θ vals = e.value η vals := by
  induction e with
  | atom => rfl
  | var r =>
    cases r with
    | free x => exact h x (he x (by simp [Term.vars]))
    | bound i => rfl
  | pair a d iha ihd =>
    have ha := iha fun x hx => he x (by simp [Term.vars, hx])
    have hd := ihd fun x hx => he x (by simp [Term.vars, hx])
    exact congrArg₂ Term.pair ha hd

theorem Expr.eval_below {e : Expr} (he : e.Below c) (henv : ∀ t ∈ env, t.Below c) :
    (e.eval env).Below c := by
  induction e with
  | atom =>
    intro x hx
    simp [eval, Term.bind, Term.vars] at hx
  | var r =>
    cases r with
    | free x =>
      intro y hy
      obtain rfl : y = x := by simpa [eval, Ref.eval, Term.bind, Term.vars] using hy
      exact he y (by simp [Term.vars])
    | bound i =>
      simp only [eval, Term.bind, Ref.eval, List.getD_eq_getElem?_getD]
      cases hi : env[i]? with
      | none =>
        intro x hx
        simp [Term.nil, Term.vars] at hx
      | some t => exact henv t (List.mem_of_getElem? hi)
  | pair a d iha ihd =>
    intro x hx
    rcases List.mem_append.1 hx with hx | hx
    · exact iha (fun y hy => he y (by simp [Term.vars, hy])) x hx
    · exact ihd (fun y hy => he y (by simp [Term.vars, hy])) x hx

theorem Expr.map_eval_below {args : List Expr} (hargs : ∀ e ∈ args, e.Below c)
    (henv : ∀ t ∈ env, t.Below c) : ∀ t ∈ args.map fun e => e.eval env, t.Below c := by
  intro t ht
  obtain ⟨e, he, rfl⟩ := List.mem_map.1 ht
  exact Expr.eval_below (hargs e he) henv

/-! ## Goals without free variables -/

/-- Does no free variable stand in the expression? -/
def Expr.isClosed (e : Expr) : Bool := e.vars.all fun
  | .free _ => false
  | .bound _ => true

/-- Does no free variable stand in the goal? -/
def Goal.isClosed : Goal ρ → Bool
  | .eq u v => u.isClosed && v.isClosed
  | .succeed | .fail => true
  | .conj g h | .disj g h => g.isClosed && h.isClosed
  | .fresh g | .delay g => g.isClosed
  | .call _ args => args.all Expr.isClosed

theorem Expr.not_free_mem_of_isClosed {e : Expr} (he : e.isClosed = true) : .free x ∉ e.vars :=
  fun hx => Bool.false_ne_true (List.all_eq_true.1 he _ hx)

/-- The relations of the library have no free variables. -/
theorem Program.isClosed_body (hp : ∀ name, (p name).isClosed = true) (rel : Rel ρ) :
    (p.body rel).isClosed = true := by
  cases rel with
  | named name => exact hp name
  | _ => rfl

/-- A goal without free variables mentions none if the definitions of the program have none either. -/
theorem Goal.not_mentions_of_isClosed (hp : ∀ name, (p name).isClosed = true)
    (hg : g.isClosed = true) : ¬g.Mentions p x := by
  intro h
  induction h with
  | eqLeft h =>
    rw [isClosed, Bool.and_eq_true] at hg
    exact Expr.not_free_mem_of_isClosed hg.1 h
  | eqRight h =>
    rw [isClosed, Bool.and_eq_true] at hg
    exact Expr.not_free_mem_of_isClosed hg.2 h
  | conjLeft _ ih | disjLeft _ ih =>
    rw [isClosed, Bool.and_eq_true] at hg
    exact ih hg.1
  | conjRight _ ih | disjRight _ ih =>
    rw [isClosed, Bool.and_eq_true] at hg
    exact ih hg.2
  | fresh _ ih | delay _ ih => exact ih hg
  | arg he h => exact Expr.not_free_mem_of_isClosed (List.all_eq_true.1 hg _ he) h
  | body _ ih => exact ih (Program.isClosed_body hp _)

/-! ## Meaning -/

/-- The goal holds for these values of the free variables and of the bound places. -/
inductive Holds (p : Program ρ) (θ : Assignment) : Goal ρ → List Ground → Prop where
  | eq {u v : Expr} {vals : List Ground} (h : (u.value θ vals == v.value θ vals) = true) :
      Holds p θ (.eq u v) vals
  | succeed {vals : List Ground} : Holds p θ .succeed vals
  | conj {g h : Goal ρ} {vals : List Ground} (hg : Holds p θ g vals) (hh : Holds p θ h vals) :
      Holds p θ (.conj g h) vals
  | left {g h : Goal ρ} {vals : List Ground} (hg : Holds p θ g vals) : Holds p θ (.disj g h) vals
  | right {g h : Goal ρ} {vals : List Ground} (hh : Holds p θ h vals) : Holds p θ (.disj g h) vals
  | fresh {g : Goal ρ} {vals : List Ground} (t : Ground) (ht : t.hasNan = false)
      (hg : Holds p θ g (t :: vals)) : Holds p θ (.fresh g) vals
  | delay {g : Goal ρ} {vals : List Ground} (hg : Holds p θ g vals) : Holds p θ (.delay g) vals
  | call {rel : Rel ρ} {args : List Expr} {vals : List Ground}
      (h : Holds p θ (p.body rel) (args.map fun e => e.value θ vals)) :
      Holds p θ (.call rel args) vals

/-- Whether a goal holds depends on the values of its own variables only. -/
theorem Holds.congr (h : Holds p θ g vals) (hg : g.Below p c) (hη : θ.Agree c η) :
    Holds p η g vals := by
  induction h with
  | eq h =>
    obtain ⟨hu, hv⟩ := hg.eq
    exact .eq (by rwa [← Expr.value_congr hu hη, ← Expr.value_congr hv hη])
  | succeed => exact .succeed
  | conj _ _ ihg ihh => exact .conj (ihg hg.conj.1) (ihh hg.conj.2)
  | left _ ih => exact .left (ih hg.disj.1)
  | right _ ih => exact .right (ih hg.disj.2)
  | fresh t ht _ ih => exact .fresh t ht (ih hg.fresh)
  | delay _ ih => exact .delay (ih hg.delay)
  | @call rel args vals _ ih =>
    obtain ⟨hargs, hbody⟩ := hg.call
    have hvals : (args.map fun e => e.value θ vals) = args.map fun e => e.value η vals :=
      List.map_congr_left fun e he => Expr.value_congr (hargs e he) hη
    exact .call (hvals ▸ ih hbody)

/-! ## Combined goals -/

theorem holds_conj : Holds p θ (.conj g h) vals ↔ Holds p θ g vals ∧ Holds p θ h vals := by
  constructor
  · rintro (_ | _ | ⟨hg, hh⟩)
    exact ⟨hg, hh⟩
  · exact fun ⟨hg, hh⟩ => .conj hg hh

theorem holds_disj : Holds p θ (.disj g h) vals ↔ Holds p θ g vals ∨ Holds p θ h vals := by
  constructor
  · rintro (_ | _ | _ | hg | hh)
    · exact .inl hg
    · exact .inr hh
  · rintro (hg | hh)
    · exact .left hg
    · exact .right hh

theorem holds_fresh :
    Holds p θ (.fresh g) vals ↔ ∃ t : Ground, t.hasNan = false ∧ Holds p θ g (t :: vals) := by
  constructor
  · rintro ⟨⟩
    exact ⟨_, ‹_›, ‹_›⟩
  · exact fun ⟨t, ht, hg⟩ => .fresh t ht hg

theorem not_holds_fail : ¬Holds p θ .fail vals := nofun

theorem holds_conjAll (gs : List (Goal ρ)) :
    Holds p θ (.conjAll gs) vals ↔ ∀ g ∈ gs, Holds p θ g vals := by
  match gs with
  | [] => simp [Goal.conjAll, Holds.succeed]
  | [g] => simp [Goal.conjAll]
  | g :: h :: gs =>
    rw [List.forall_mem_cons, ← holds_conjAll (h :: gs)]
    exact holds_conj

theorem holds_disjAll (gs : List (Goal ρ)) :
    Holds p θ (.disjAll gs) vals ↔ ∃ g ∈ gs, Holds p θ g vals := by
  match gs with
  | [] => simp [Goal.disjAll, not_holds_fail]
  | [g] => simp [Goal.disjAll]
  | g :: h :: gs =>
    rw [List.exists_mem_cons_iff, ← holds_disjAll (h :: gs)]
    exact holds_disj

/-- The goal holds for some values of the new variables, the last of them in the innermost place. -/
theorem holds_freshN (n : Nat) :
    Holds p θ (.freshN n g) vals ↔
      ∃ ts : List Ground, ts.length = n ∧ (∀ t ∈ ts, t.hasNan = false) ∧
        Holds p θ g (ts.reverse ++ vals) := by
  induction n generalizing vals with
  | zero => simp [Goal.freshN]
  | succ n ih =>
    rw [Goal.freshN, holds_fresh]
    constructor
    · rintro ⟨t, ht, h⟩
      obtain ⟨ts, hlen, hts, hg⟩ := ih.1 h
      refine ⟨t :: ts, by simp [hlen], List.forall_mem_cons.2 ⟨ht, hts⟩, ?_⟩
      rwa [List.reverse_cons, List.append_assoc]
    · rintro ⟨_ | ⟨t, ts⟩, hlen, hts, hg⟩
      · cases hlen
      · obtain ⟨ht, hts⟩ := List.forall_mem_cons.1 hts
        rw [List.reverse_cons, List.append_assoc] at hg
        exact ⟨t, ht, ih.2 ⟨ts, by simpa using hlen, hts, hg⟩⟩

theorem holds_always : Holds p θ .always vals := .call (.left .succeed)

theorem not_holds_never : ¬Holds p θ .never vals := by
  suffices h : ∀ {g vals}, Holds p θ g vals → g ≠ .never from fun hn => h hn rfl
  intro g vals h
  induction h with
  | @call rel args vals h ih =>
    rintro ⟨⟩
    exact ih rfl
  | _ => nofun

end Relational
