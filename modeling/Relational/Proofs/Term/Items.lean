import Relational.Term.List
import Mathlib.Logic.Basic
import Mathlib.Logic.ExistsUnique

/-!
# Items of a list

Reading the items of a list undoes putting it together. A chain of pairs is put together in only one way from
items and a tail that is no pair, so the items can be read off when the tail is the empty list, and the tail
is what stands in the way when it is not. The halves are asked only of pairs.
-/

namespace Relational

namespace Term

variable {ν : Type} {t tail : Term ν}

theorem isNil_iff : t.isNil = true ↔ t = nil := by
  cases t with
  | atom a => cases a <;> simp [isNil, nil]
  | var | pair => simp [isNil, nil]

theorem collect_dotted (read : Array (Term ν)) (items : List (Term ν)) (h : tail.isPair = false) :
    collect read (dotted items tail) =
      if tail.isNil then .ok (read.toList ++ items) else .error (.improperList tail) := by
  induction items generalizing read with
  | nil => rw [dotted_nil, collect_of_not_isPair read h, List.append_nil]
  | cons t items ih =>
    rw [dotted_cons, collect_pair, ih, Array.toList_push, List.append_assoc, List.singleton_append]

theorem toList_dotted (items : List (Term ν)) (h : tail.isPair = false) :
    (dotted items tail).toList = if tail.isNil then .ok items else .error (.improperList tail) :=
  collect_dotted #[] items h

theorem toList_eq (t : Term ν) :
    t.toList = if t.chain.2.isNil then .ok t.chain.1 else .error (.improperList t.chain.2) := by
  have h := toList_dotted t.chain.1 (isPair_chain t)
  rwa [dotted_chain] at h

theorem existsUnique_dotted (t : Term ν) : ∃! items, dotted items t.chain.2 = t := by
  refine ⟨t.chain.1, dotted_chain t, fun items h => ?_⟩
  rw [← h, chain_dotted items (isPair_chain t)]

/-- Building lists and reading them are inverse to each other. Either a term reads as items whose list it is,
or reading stops at a tail that is neither a pair nor the empty list, and then there is one list of items
in front of this tail that makes the term; never both. Conversely, items in front of a tail that is no pair
are read back if the tail is the empty list, and the tail is found if it is not. No half is ever asked of a
term that is no pair. -/
theorem toList_inverse :
    (∀ t : Term ν,
      Xor (∃ items, t.toList = .ok items ∧ list items = t)
        (∃ tail, t.toList = .error (.improperList tail) ∧ tail.isPair = false ∧ tail.isNil = false ∧
          ∃! items, dotted items tail = t)) ∧
    (∀ (items : List (Term ν)) (tail : Term ν), tail.isPair = false →
      (dotted items tail).toList = if tail.isNil then .ok items else .error (.improperList tail)) ∧
    ∀ (t u : Term ν) (part : Part), t.toList ≠ .error (.notAPair part u) := by
  refine ⟨fun t => ?_, fun items tail => toList_dotted items, fun t u part h => ?_⟩
  · have hread := toList_eq t
    have hwhole := dotted_chain t
    cases hnil : t.chain.2.isNil with
    | true =>
      rw [hnil, if_pos rfl] at hread
      rw [isNil_iff.1 hnil] at hwhole
      exact .inl ⟨⟨t.chain.1, hread, hwhole⟩, fun ⟨_, herror, _⟩ => nomatch hread.symm.trans herror⟩
    | false =>
      rw [hnil, if_neg Bool.false_ne_true] at hread
      exact .inr ⟨⟨t.chain.2, hread, isPair_chain t, hnil, existsUnique_dotted t⟩,
        fun ⟨_, hok, _⟩ => nomatch hread.symm.trans hok⟩
  · rw [toList_eq] at h
    split at h <;> cases h

/-- The empty list and a list as items, before a variable and before the end. -/
theorem toList_inverse_nested :
    let items : List (Term Var) := [.nil, .list [.int 1, .var ⟨0⟩]]
    let tail : Term Var := .var ⟨3⟩
    tail.isPair = false ∧ (dotted items tail).toList = .error (.improperList tail) ∧
      (list items).toList = .ok items := by
  intro items tail
  obtain ⟨-, hback, -⟩ := toList_inverse (ν := Var)
  exact ⟨rfl, hback items tail rfl, hback items nil rfl⟩

end Term

end Relational
