import Relational.Proofs.Subst.Naming
import Relational.Proofs.Subst.Growth

/-!
# Twin substitutions

Two substitutions are twins when they differ at most in the variables by which they represent open
variables that stand for the same thing. Twins stay twins when both bind the same open variables, be it in
opposite directions, and they reify every term to the same one.
-/

namespace Relational

namespace Subst

variable {s r a b : Subst} {x y : Var} {t u v w : Term Var} {n : Nat}

/-! ## Values after a new binding -/

/-- Where bindings are added, a term has the value of its former value. -/
theorem walk_eq_of_walk (hr : ∀ y t, s.lookup y = some t → r.lookup y = some t)
    (h : s.walk u = some v) : r.walk u = r.walk v :=
  walk_closed (P := fun t => r.walk u = r.walk t)
    (fun y t hy hl => by rw [hy, walk_var, hr y t hl, Option.elim_some]) h rfl

/-- What comes to the newly bound variable comes to its term, and nothing else changes. -/
theorem walk_extend_iff (hs : s.ChainFree) (hx : s.lookup x = none) (value : s.IsValue t)
    (ne : t ≠ .var x) : (s.extend x t).walk u = some v ↔
      s.walk u = some (.var x) ∧ v = t ∨ s.walk u = some v ∧ v ≠ .var x := by
  obtain ⟨w, hw⟩ := Option.isSome_iff_exists.1 (hs.walk_isSome u)
  have hkeep (y : Var) (t' : Term Var) (hy : s.lookup y = some t') :
      (s.extend x t).lookup y = some t' := lookup_extend_of_eq_some hx hy
  have hvalue {w : Term Var} (hws : s.IsValue w) (hwx : w ≠ .var x) : (s.extend x t).IsValue w := by
    rintro y rfl
    rw [lookup_extend, if_neg fun hyx => hwx (congrArg Term.var hyx), hws y rfl]
  rw [walk_eq_of_walk hkeep hw, hw]
  by_cases hwx : w = .var x
  · subst hwx
    rw [walk_var, lookup_extend, if_pos rfl, Option.elim_some, walk_of_isValue (hvalue value ne)]
    simp only [Option.some.injEq, true_and, eq_comm]
    grind
  · rw [walk_of_isValue (hvalue (isValue_of_walk hw) hwx)]
    simp only [Option.some.injEq]
    grind

/-! ## Twins -/

/-- The two terms stand for the same open variable. -/
def SameVar (s : Subst) (t u : Term Var) : Prop :=
  ∃ x, s.walk t = some (.var x) ∧ s.walk u = some (.var x)

theorem sameVar_iff_of_walk (hu : s.walk u = some (.var x)) :
    s.SameVar t u ↔ s.walk t = some (.var x) := by
  constructor
  · rintro ⟨y, ht, hy⟩
    rwa [Term.var.inj (Option.some.inj (hu.symm.trans hy))]
  · exact fun ht => ⟨x, ht, hu⟩

theorem sameVar_extend_value (hs : s.ChainFree) (hx : s.lookup x = none) (ht : ∀ z, t ≠ .var z)
    {u v : Term Var} :
    (s.extend x t).SameVar u v ↔ s.SameVar u v ∧ s.walk u ≠ some (.var x) := by
  have hwalk {w : Term Var} {z : Var} := walk_extend_iff (u := w) (v := .var z) hs hx
    (fun y hy => (ht y hy).elim) (ht x)
  simp only [SameVar, hwalk, (ht _).symm, and_false, false_or]
  constructor
  · rintro ⟨z, ⟨hu, hzx⟩, hv, -⟩
    exact ⟨⟨z, hu, hv⟩, fun hux => hzx (Option.some.inj (hu.symm.trans hux))⟩
  · rintro ⟨⟨z, hu, hv⟩, hux⟩
    have hzx : (.var z : Term Var) ≠ .var x := fun hzx => hux (hzx ▸ hu)
    exact ⟨z, ⟨hu, hzx⟩, hv, hzx⟩

theorem sameVar_extend_var (hs : s.ChainFree) (hx : s.lookup x = none) (hy : s.lookup y = none)
    (hyx : y ≠ x) {u v : Term Var} :
    (s.extend x (.var y)).SameVar u v ↔ s.SameVar u v ∨
      (s.walk u = some (.var x) ∨ s.walk u = some (.var y)) ∧
      (s.walk v = some (.var x) ∨ s.walk v = some (.var y)) := by
  have hwalk {w : Term Var} {z : Var} := walk_extend_iff (u := w) (v := .var z) hs hx
    (fun y' h => Term.var.inj h ▸ hy) fun h => hyx (Term.var.inj h)
  simp only [SameVar, hwalk, Term.var.injEq, ne_eq]
  constructor
  · rintro ⟨z, ⟨hu, rfl⟩ | ⟨hu, -⟩, ⟨hv, hz⟩ | ⟨hv, -⟩⟩ <;> grind
  · rintro (⟨z, hu, hv⟩ | ⟨hu, hv⟩)
    · by_cases hzx : z = x
      · rw [hzx] at hu hv
        exact ⟨y, .inl ⟨hu, rfl⟩, .inl ⟨hv, rfl⟩⟩
      · exact ⟨z, .inr ⟨hu, hzx⟩, .inr ⟨hv, hzx⟩⟩
    · refine ⟨y, ?_, ?_⟩ <;> grind

theorem ChainFree.extend (hs : s.ChainFree) (value : s.IsValue t) (ne : t ≠ .var x) :
    (s.extend x t).ChainFree :=
  fun y hy => hs y (Grows.loop_of_extend value ne hy)

/-- Terms have the same values under both substitutions, and the same terms stand for one open variable. -/
structure Twins (a b : Subst) : Prop where
  left : a.ChainFree
  right : b.ChainFree
  size_eq : a.size = b.size
  walk_iff {t w : Term Var} (hw : ∀ x, w ≠ .var x) : a.walk t = some w ↔ b.walk t = some w
  sameVar_iff {t u : Term Var} : a.SameVar t u ↔ b.SameVar t u

namespace Twins

theorem refl (h : s.ChainFree) : Twins s s := ⟨h, h, rfl, fun _ => .rfl, .rfl⟩

theorem symm (h : Twins a b) : Twins b a :=
  ⟨h.right, h.left, h.size_eq.symm, fun hw => (h.walk_iff hw).symm, h.sameVar_iff.symm⟩

theorem exists_var (h : Twins a b) (ht : a.walk t = some (.var x)) : ∃ y, b.walk t = some (.var y) :=
  let ⟨y, hy, _⟩ := h.sameVar_iff.1 ⟨x, ht, ht⟩
  ⟨y, hy⟩

theorem walk_var_iff (h : Twins a b) (hx : a.walk u = some (.var x)) (hy : b.walk u = some (.var y)) :
    a.walk t = some (.var x) ↔ b.walk t = some (.var y) := by
  rw [← sameVar_iff_of_walk hx, h.sameVar_iff, sameVar_iff_of_walk hy]

/-- A term has the same value under both, or stands for an open variable under both. -/
theorem walk_cases (h : Twins a b) (t : Term Var) :
    (∃ w, (∀ x, w ≠ .var x) ∧ a.walk t = some w ∧ b.walk t = some w) ∨
      ∃ x y, a.walk t = some (.var x) ∧ a.lookup x = none ∧
        b.walk t = some (.var y) ∧ b.lookup y = none := by
  obtain ⟨w, hw⟩ := Option.isSome_iff_exists.1 (h.left.walk_isSome t)
  cases w with
  | var x =>
    obtain ⟨y, hy⟩ := h.exists_var hw
    exact .inr ⟨x, y, hw, isValue_of_walk hw x rfl, hy, isValue_of_walk hy y rfl⟩
  | _ => exact .inl ⟨_, by simp, hw, (h.walk_iff (by simp)).1 hw⟩

/-- Twins stay twins when both bind the variable that a term stands for to the same value. -/
theorem extend_value (h : Twins a b) (hx : a.walk u = some (.var x)) (hy : b.walk u = some (.var y))
    (ht : ∀ z, t ≠ .var z) : Twins (a.extend x t) (b.extend y t) := by
  have hx' := isValue_of_walk hx x rfl
  have hy' := isValue_of_walk hy y rfl
  have value (s : Subst) : s.IsValue t := fun z hz => (ht z hz).elim
  refine ⟨h.left.extend (value a) (ht x), h.right.extend (value b) (ht y), ?_, fun {p w} hw => ?_,
    fun {p q} => ?_⟩
  · rw [size_extend, size_extend, h.size_eq]
  · rw [walk_extend_iff h.left hx' (value a) (ht x), walk_extend_iff h.right hy' (value b) (ht y),
      h.walk_var_iff hx hy, h.walk_iff hw]
    simp only [hw, ne_eq, not_false_eq_true]
  · rw [sameVar_extend_value h.left hx' ht, sameVar_extend_value h.right hy' ht, h.sameVar_iff, ne_eq,
      h.walk_var_iff hx hy]

/-- Twins stay twins when they bind two open variables to one another in opposite directions. -/
theorem extend_var {x' y' : Var} (h : Twins a b) (hx : a.walk u = some (.var x))
    (hy : a.walk v = some (.var y)) (hyx : y ≠ x) (hx' : b.walk u = some (.var x'))
    (hy' : b.walk v = some (.var y')) (hxy' : x' ≠ y') :
    Twins (a.extend x (.var y)) (b.extend y' (.var x')) := by
  have hxa := isValue_of_walk hx
  have hya := isValue_of_walk hy
  have hxb := isValue_of_walk hx'
  have hyb := isValue_of_walk hy'
  have hne : (.var y : Term Var) ≠ .var x := fun h => hyx (Term.var.inj h)
  have hne' : (.var x' : Term Var) ≠ .var y' := fun h => hxy' (Term.var.inj h)
  have hmeets (t : Term Var) : (a.walk t = some (.var x) ∨ a.walk t = some (.var y)) ↔
      (b.walk t = some (.var y') ∨ b.walk t = some (.var x')) := by
    rw [h.walk_var_iff hx hx', h.walk_var_iff hy hy', or_comm]
  refine ⟨h.left.extend hya hne, h.right.extend hxb hne', ?_, fun {p w} hw => ?_, fun {p q} => ?_⟩
  · rw [size_extend, size_extend, h.size_eq]
  · rw [walk_extend_iff h.left (hxa x rfl) hya hne, walk_extend_iff h.right (hyb y' rfl) hxb hne',
      h.walk_iff hw]
    simp only [hw, and_false, false_or, ne_eq, not_false_eq_true]
  · rw [sameVar_extend_var h.left (hxa x rfl) (hya y rfl) hyx,
      sameVar_extend_var h.right (hyb y' rfl) (hxb x' rfl) hxy', h.sameVar_iff, hmeets, hmeets]

/-! ## Resolving under twins -/

/-- The variable that stands in `b` for what `x` stands for. -/
def rename (b : Subst) (x : Var) : Var := ((b.walk (.var x)).bind Term.asVar?).getD x

theorem rename_eq (hx : b.walk (.var x) = some (.var y)) : rename b x = y := by
  simp [rename, hx, Term.asVar?]

theorem walk_rename (h : Twins a b) (ht : a.walk t = some (.var x)) :
    b.walk t = some (.var (rename b x)) := by
  have hx : a.walk (.var x) = some (.var x) := walk_of_isValue (isValue_of_walk ht)
  obtain ⟨y, hty, hxy⟩ := h.sameVar_iff.1 ⟨x, ht, hx⟩
  rwa [rename_eq hxy]

theorem rename_injective (h : Twins a b) (hx : a.lookup x = none) (hy : a.lookup y = none)
    (hxy : rename b x = rename b y) : x = y := by
  have hself {z : Var} (hz : a.lookup z = none) : a.walk (.var z) = some (.var z) :=
    walk_of_isValue fun _ h => Term.var.inj h ▸ hz
  have hsame : b.SameVar (.var x) (.var y) :=
    ⟨rename b x, h.walk_rename (hself hx), hxy ▸ h.walk_rename (hself hy)⟩
  obtain ⟨z, hxz, hyz⟩ := h.sameVar_iff.2 hsame
  rw [hself hx] at hxz
  rw [hself hy] at hyz
  exact Term.var.inj (Option.some.inj (hxz.trans hyz.symm))

theorem resolvesTo (h : Twins a b) (ht : a.ResolvesTo t w) : b.ResolvesTo t (w.map (rename b)) := by
  induction ht using ResolvesTo.walk_induction with
  | atom _ ht =>
    have hb := (h.walk_iff (by simp)).1 ht
    exact (resolvesTo_of_walk hb).2 .atom
  | var _ ht =>
    have hb := h.walk_rename ht
    exact (resolvesTo_of_walk hb).2 (.unbound (isValue_of_walk hb _ rfl))
  | pair _ _ _ ht iha ihd =>
    have hb := (h.walk_iff (by simp)).1 ht
    exact (resolvesTo_of_walk hb).2 (.pair iha ihd)

/-- Twins reify a term to the same one, or neither does. -/
theorem reify_eq (h : Twins a b) (t : Term Var) : a.reify t = b.reify t := by
  rw [Subst.reify_eq, Subst.reify_eq]
  cases ha : a.resolve t with
  | some w =>
    have hw := resolve_eq_some_iff.1 ha
    rw [resolve_eq_some_iff.2 (h.resolvesTo hw), Option.map_some, Option.map_some, Term.canonical_map]
    exact fun x hx y hy => h.rename_injective (hw.unbound_of_mem x hx) (hw.unbound_of_mem y hy)
  | none =>
    cases hb : b.resolve t with
    | none => rfl
    | some w =>
      rw [resolve_eq_some_iff.2 (h.symm.resolvesTo (resolve_eq_some_iff.1 hb))] at ha
      cases ha

end Twins

end Subst

end Relational
