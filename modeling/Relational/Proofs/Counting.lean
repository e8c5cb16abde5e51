import Mathlib.Data.Multiset.Bind
import Mathlib.Data.List.Nodup
import Mathlib.Data.Set.List
import Mathlib.Data.Sigma.Basic

/-!
# Counting by witnesses

That something comes at least `m` times is shown by `m` different witnesses for it. The witnesses are kept
in lists together with what they are witnesses for.
-/

namespace Relational

variable {ι : Type} {F G : ι → Type} {m : Nat} {r : ι}

/-! ## Lists of witnesses -/

theorem map_fst_map_sigma (f : ∀ r, F r → G r) (ds : List ((r : ι) × F r)) :
    (ds.map (Sigma.map id f)).map Sigma.fst = ds.map Sigma.fst := by
  rw [List.map_map]
  rfl

theorem nodup_map_sigma {f : ∀ r, F r → G r} {ds : List ((r : ι) × F r)} (hds : ds.Nodup)
    (hf : ∀ r, Function.Injective (f r)) : (ds.map (Sigma.map id f)).Nodup :=
  hds.map (Function.injective_id.sigma_map hf)

/-- Witnesses that are put together from two parts differ when one of the parts does. -/
theorem nodup_flatMap_sigma {A : Type} {H : A → ι → Type} {f : ∀ a r, H a r → G r} {as : List A}
    {ds : ∀ a, List ((r : ι) × H a r)} (has : as.Nodup) (hds : ∀ a, (ds a).Nodup)
    (hf : ∀ a r, Function.Injective (f a r))
    (hne : ∀ a b r (d : H a r) (e : H b r), f a r d = f b r e → a = b) :
    (as.flatMap fun a => (ds a).map (Sigma.map id (f a))).Nodup := by
  rw [List.nodup_flatMap]
  refine ⟨fun a _ => nodup_map_sigma (hds a) (hf a), has.imp fun {a b} hab => ?_⟩
  simp only [Function.onFun, List.disjoint_left, List.mem_map]
  rintro _ ⟨⟨r, d⟩, -, rfl⟩ ⟨⟨q, e⟩, -, he⟩
  obtain rfl : q = r := congrArg Sigma.fst he
  exact hab (hne a b q d e (eq_of_heq (Sigma.mk.inj he).2).symm)

/-! ## At least so many times -/

theorem embedding_of_replicate_subperm {ds : List ((r : ι) × F r)} (hds : ds.Nodup)
    (h : (List.replicate m r).Subperm (ds.map Sigma.fst)) : Nonempty (Fin m ↪ F r) := by
  obtain ⟨l, hl, hsub⟩ := h
  obtain rfl := List.perm_replicate.1 hl
  obtain ⟨es, hes, hmap⟩ := List.sublist_map_iff.1 hsub
  have hrange : es ∈ Set.range (List.map fun d : F r => (⟨r, d⟩ : (r : ι) × F r)) := by
    rw [Set.range_list_map]
    rintro ⟨q, d⟩ hd
    have hq : q ∈ List.replicate m r := hmap ▸ List.mem_map_of_mem hd
    obtain rfl := List.eq_of_mem_replicate hq
    exact ⟨d, rfl⟩
  obtain ⟨fs, rfl⟩ := hrange
  have hlen : m = fs.length := by simpa using congrArg List.length hmap
  subst hlen
  exact ⟨⟨fs.get, List.nodup_iff_injective_get.1 (.of_map _ (hds.sublist hes))⟩⟩

theorem replicate_subperm_of_embedding {ds : List ((r : ι) × F r)} (f : Fin m ↪ F r)
    (h : ∀ i, ⟨r, f i⟩ ∈ ds) : (List.replicate m r).Subperm (ds.map Sigma.fst) := by
  have hsub : ((List.finRange m).map fun i => (⟨r, f i⟩ : (r : ι) × F r)).Subperm ds := by
    refine List.subperm_of_subset ((List.nodup_finRange m).map fun i j hij => ?_) ?_
    · exact f.injective (sigma_mk_injective hij)
    · simpa [List.subset_def] using h
  have hmap := Multiset.map_le_map (f := Sigma.fst) (Multiset.coe_le.2 hsub)
  simpa [Function.comp_def] using hmap

end Relational
