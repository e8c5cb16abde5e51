import Relational.Proofs.Subst.Resolution
import Relational.Proofs.Term.Canonical

/-!
# Names of open variables

Naming the open variables of a term adds one name for each of them, in the order in which they first occur
in the resolved term. So a reified term is the canonical form of the resolved one.
-/

namespace Relational

namespace Subst

variable {s : Subst} {xs : List Var} {x : Var} {t w : Term Var} {n : Nat}

/-! ## Names -/

/-- Adds a name for each of the variables, the number of bindings before it. -/
def named (s : Subst) (xs : List Var) : Subst :=
  xs.foldl (fun s x => s.extend x (.reified s.size)) s

theorem named_append_singleton (s : Subst) (xs : List Var) (x : Var) :
    s.named (xs ++ [x]) = (s.named xs).extend x (.reified (s.named xs).size) :=
  List.foldl_append

theorem size_named (s : Subst) (xs : List Var) : (s.named xs).size = s.size + xs.length := by
  induction xs using List.reverseRecOn with
  | nil => rfl
  | append_singleton xs x ih =>
    rw [named_append_singleton, size_extend, ih, List.length_append, List.length_singleton, Nat.add_assoc]

theorem lookup_named_of_notMem (hx : x ∉ xs) : (s.named xs).lookup x = s.lookup x := by
  induction xs using List.reverseRecOn with
  | nil => rfl
  | append_singleton xs y ih =>
    simp only [List.mem_append, List.mem_singleton, not_or] at hx
    rw [named_append_singleton, lookup_extend, if_neg hx.2, ih hx.1]

theorem lookup_named_of_mem (hxs : xs.Nodup) (hx : x ∈ xs) :
    (s.named xs).lookup x = some (.reified (s.size + xs.idxOf x)) := by
  induction xs using List.reverseRecOn with
  | nil => cases hx
  | append_singleton xs y ih =>
    obtain ⟨hnodup, -, hdisj⟩ := List.nodup_append'.1 hxs
    have hy : y ∉ xs := fun h => hdisj h (List.mem_singleton_self y)
    rw [named_append_singleton, lookup_extend]
    by_cases hxy : x = y
    · rw [if_pos hxy, size_named, hxy, List.idxOf_append_of_notMem hy, List.idxOf_cons_self, Nat.add_zero]
    · have hmem : x ∈ xs := by simpa [hxy] using hx
      rw [if_neg hxy, ih hnodup hmem, List.idxOf_append_of_mem hmem]

/-! ## Naming the variables of a term -/

/-- Visiting the variables of a term names those of the resolved term, when each visit does so for the
variable that it is at. -/
theorem foldVars?_named {f : Subst → Var → Option Subst} {g : Var → Option (Term Var)}
    (hg : ∀ x v, g x = some v → s.ResolvesTo (.var x) v)
    (hf : ∀ xs x v, xs.Nodup → (∀ y ∈ xs, s.lookup y = none) → g x = some v →
      f (s.named xs) x = some (s.named (addVars xs v.vars)))
    (hxs : xs.Nodup) (hunbound : ∀ y ∈ xs, s.lookup y = none) (h : t.bind? g = some w) :
    t.foldVars? f (s.named xs) = some (s.named (addVars xs w.vars)) := by
  induction t generalizing xs w with
  | atom => exact Option.some.inj h ▸ rfl
  | var x => exact hf xs x w hxs hunbound h
  | pair a d iha ihd =>
    simp only [Term.bind?, Option.bind_eq_bind, Option.bind_eq_some_iff] at h
    obtain ⟨b, ha, e, hd, hw⟩ := h
    obtain rfl := Option.some.inj hw
    have hunbound' : ∀ y ∈ addVars xs b.vars, s.lookup y = none := fun y hy =>
      (mem_addVars.1 hy).elim (hunbound y) ((resolvesTo_of_bind? hg ha).unbound_of_mem y)
    rw [Term.foldVars?, iha hxs hunbound ha, Term.vars, addVars_append]
    exact ihd (nodup_addVars hxs) hunbound' hd

/-- A variable that the substitution does not bind gets a name unless it has one. -/
theorem name_of_unbound (hx : s.lookup x = none) (hxs : xs.Nodup) :
    (match (s.named xs).lookup x with
      | none => some ((s.named xs).extend x (.reified (s.named xs).size))
      | some value => nameWithin n (s.named xs) value) = some (s.named (addVars xs [x])) := by
  by_cases hmem : x ∈ xs
  · rw [lookup_named_of_mem hxs hmem, addVars_cons_of_mem hmem]
    cases n <;> rfl
  · rw [lookup_named_of_notMem hmem, hx, addVars_cons_of_notMem hmem, ← named_append_singleton]
    rfl

theorem nameWithin_of_resolveWithin (hxs : xs.Nodup) (hunbound : ∀ y ∈ xs, s.lookup y = none)
    (h : s.resolveWithin n t = some w) :
    nameWithin (n + 1) (s.named xs) t = some (s.named (addVars xs w.vars)) := by
  induction n generalizing xs t w with
  | zero =>
    refine foldVars?_named (fun x v hx => ?_) (fun xs x v hxs _ hx => ?_) hxs hunbound h
    · exact resolvesTo_of_resolveWithin (n := 0) hx
    · simp only [Option.isNone_iff_eq_none, Option.ite_none_right_eq_some, Option.some.injEq] at hx
      obtain ⟨hx, rfl⟩ := hx
      exact name_of_unbound hx hxs
  | succ n ih =>
    refine foldVars?_named (fun x v hx => ?_) (fun xs x v hxs hunbound hx => ?_) hxs hunbound h
    · exact resolvesTo_of_resolveWithin (n := n + 1) hx
    · cases hl : s.lookup x with
      | none =>
        simp only [hl, Option.some.injEq] at hx
        exact hx ▸ name_of_unbound hl hxs
      | some value =>
        have hmem : x ∉ xs := fun hmem => by simp [hunbound x hmem] at hl
        simp only [hl] at hx
        rw [lookup_named_of_notMem hmem, hl]
        exact ih hxs hunbound hx

/-- Where variables of `s` have got names, naming a term names those that have none yet. -/
theorem nameVars_named (hxs : xs.Nodup) (hunbound : ∀ y ∈ xs, s.lookup y = none)
    (h : s.resolve t = some w) : (s.named xs).nameVars t = some (s.named (addVars xs w.vars)) := by
  have hw : s.resolveWithin (s.named xs).size t = some w :=
    resolveWithin_mono (size_named s xs ▸ Nat.le_add_right _ _) h
  exact nameWithin_of_resolveWithin hxs hunbound hw

/-- Naming the open variables of a term. -/
theorem nameVars_eq (h : s.resolve t = some w) : s.nameVars t = some (s.named w.distinctVars) :=
  have hnil : ∀ y ∈ ([] : List Var), s.lookup y = none := nofun
  nameVars_named .nil hnil h

/-! ## Reified terms -/

theorem resolvesTo_named_empty {xs : List Var} (hxs : xs.Nodup) (ht : ∀ x ∈ t.vars, x ∈ xs) :
    (empty.named xs).ResolvesTo t (t.bind fun x => .reified (xs.idxOf x)) := by
  induction t with
  | atom => exact .atom
  | var x =>
    have hx := lookup_named_of_mem (s := empty) hxs (ht x (by simp [Term.vars]))
    rw [size_empty, Nat.zero_add] at hx
    exact .bound hx .atom
  | pair a d iha ihd =>
    exact .pair (iha fun x hx => ht x (List.mem_append_left _ hx))
      (ihd fun x hx => ht x (List.mem_append_right _ hx))

/-- A reified term is the canonical form of the resolved one. -/
theorem reify_eq (s : Subst) (t : Term Var) : s.reify t = (s.resolve t).map Term.canonical := by
  rw [reify]
  cases s.resolve t with
  | none => rfl
  | some w =>
    have hself : empty.resolve w = some w := resolve_eq_some_iff.2 (.of_unbound fun _ _ => rfl)
    have hnames : empty.nameVars w = some (empty.named w.distinctVars) := nameVars_eq hself
    have hresult : (empty.named w.distinctVars).resolve w = some w.canonical :=
      resolve_eq_some_iff.2
        (resolvesTo_named_empty w.nodup_distinctVars fun _ hx => Term.mem_distinctVars.2 hx)
    simp [hnames, hresult]

end Subst

end Relational
