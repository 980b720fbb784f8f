import Mathlib.Data.Finset.Card
import Mathlib.Data.Finset.Dedup
import TreeMetrics.Proofs.Metric.Store

namespace TreeMetrics

namespace OptionSet

theorem mem_flags_foldl_insert {f : String} {fs : List String} {o : OptionSet} :
    f ∈ (fs.foldl insert o).flags ↔ f ∈ fs ∨ f ∈ o.flags := by
  induction fs generalizing o with
  | nil => simp
  | cons g fs ih =>
    rw [List.foldl_cons, ih, insert, mem_insertFlag, List.mem_cons]
    grind

theorem toFinset_ofList (fs : List String) : (ofList fs).flags.toFinset = fs.toFinset := by
  ext f
  rw [List.mem_toFinset, List.mem_toFinset, ofList, mem_flags_foldl_insert]
  exact or_iff_left List.not_mem_nil

theorem nodup_flags (o : OptionSet) : o.flags.Nodup := by
  apply o.sorted.imp
  rintro f g hlt rfl
  exact String.lt_irrefl f hlt

theorem toFinset_injective : Function.Injective fun o : OptionSet => o.flags.toFinset := by
  intro o o' h
  have hperm := List.perm_of_nodup_nodup_toFinset_eq o.nodup_flags o'.nodup_flags h
  have hflags : o.flags = o'.flags := by
    apply hperm.eq_of_pairwise _ o.sorted o'.sorted
    intro f g _ _ hlt hgt
    exact absurd hgt (String.lt_asymm hlt)
  cases o
  cases o'
  cases hflags
  rfl

/-- Neither the order nor the repetition of flags matters. -/
theorem ofList_eq_iff {fs gs : List String} :
    ofList fs = ofList gs ↔ fs.toFinset = gs.toFinset := by
  rw [← toFinset_ofList fs, ← toFinset_ofList gs]
  exact toFinset_injective.eq_iff.symm

end OptionSet

namespace Pool

def pairs (p : Pool) : List (MetricKey × OptionSet) :=
  p.instances.map fun i => (i.key, i.options)

theorem length_pairs (p : Pool) : p.pairs.length = p.size :=
  List.length_map _

theorem mem_pairs_of_find? {p : Pool} {k : MetricKey} {o : OptionSet} {i : Instance}
    (h : p.find? k o = some i) : (k, o) ∈ p.pairs := by
  obtain ⟨hi, rfl, rfl⟩ := find?_eq_some h
  exact List.mem_map_of_mem hi

theorem find?_eq_none_iff {p : Pool} {k : MetricKey} {o : OptionSet} :
    p.find? k o = none ↔ (k, o) ∉ p.pairs := by
  constructor
  · intro h hp
    obtain ⟨i, hi, he⟩ := List.mem_map.1 hp
    cases he
    have hno := List.find?_eq_none.1 h i hi
    simp only [BEq.rfl, Bool.and_self, not_true_eq_false] at hno
  · intro h
    cases hf : p.find? k o with
    | none => rfl
    | some i => exact absurd (mem_pairs_of_find? hf) h

end Pool

namespace Store

variable {σ : Type} {s : Store σ} {p : Nat} {k : MetricKey} {o : OptionSet}

theorem pairs_intern (hp : p < s.pools.size) (k : MetricKey) (o : OptionSet) (q : Nat) :
    ((s.intern p k o).2.pool q).pairs =
      if q = p ∧ (k, o) ∉ (s.pool p).pairs then (s.pool p).pairs ++ [(k, o)]
      else (s.pool q).pairs := by
  cases hf : (s.pool p).find? k o with
  | some i =>
    rw [intern_of_some hf, if_neg]
    intro h
    exact h.2 (Pool.mem_pairs_of_find? hf)
  | none =>
    have hnew := Pool.find?_eq_none_iff.1 hf
    rw [intern_of_none hf, pool_modify]
    by_cases hq : q = p
    · rw [if_pos ⟨hq, hp⟩, if_pos ⟨hq, hnew⟩, Pool.pairs, Pool.add, List.map_append]
      rfl
    · rw [if_neg fun h => hq h.1, if_neg fun h => hq h.1]

theorem mem_pairs_intern (hp : p < s.pools.size) {q : Nat} {x : MetricKey × OptionSet} :
    x ∈ ((s.intern p k o).2.pool q).pairs ↔ x ∈ (s.pool q).pairs ∨ q = p ∧ x = (k, o) := by
  rw [pairs_intern hp]
  split
  · rename_i h
    rw [h.1, List.mem_append, List.mem_singleton, eq_self, true_and]
  · rename_i h
    rw [or_iff_left_of_imp]
    rintro ⟨rfl, rfl⟩
    exact not_not.1 fun hx => h ⟨rfl, hx⟩

theorem toFinset_pairs_intern (hp : p < s.pools.size) :
    ((s.intern p k o).2.pool p).pairs.toFinset = insert (k, o) (s.pool p).pairs.toFinset := by
  ext x
  rw [List.mem_toFinset, mem_pairs_intern hp, Finset.mem_insert, List.mem_toFinset, eq_self,
    true_and, or_comm]

theorem nodup_pairs_intern (hp : p < s.pools.size) {q : Nat} (hq : (s.pool q).pairs.Nodup) :
    ((s.intern p k o).2.pool q).pairs.Nodup := by
  rw [pairs_intern hp]
  split
  · rename_i h
    rw [← List.concat_eq_append]
    exact (h.1 ▸ hq).concat h.2
  · exact hq

end Store

end TreeMetrics
