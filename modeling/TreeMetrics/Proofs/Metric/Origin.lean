import TreeMetrics.Proofs.Metric.Pairs

namespace TreeMetrics

namespace Store

variable {σ : Type} {s : Store σ} {n m : NodeId} {i j : SlotId} {x : Float}

/-- Keeps a value on a node under a slot unless there is one already. -/
def fill (n : NodeId) (j : SlotId) (x : Float) (s : Store σ) : Store σ :=
  (DataMap.computeIfAbsent (fun s => s.data n) (modifyData n) j (pure x : Run σ Float) s).2

theorem fill_of_some {y : Float} (h : (s.data n).get? j = some y) : s.fill n j x = s := by
  rw [← DataMap.value_reserve] at h
  simp only [fill, DataMap.computeIfAbsent, h]

theorem fill_of_none (h : (s.data n).get? j = none) :
    s.fill n j x = (modifyData n (fun _ => ((s.data n).reserve j).2) s).settle n j
      ((s.data n).reserve j).1.version x := by
  rw [← DataMap.value_reserve] at h
  simp only [fill, DataMap.computeIfAbsent, h]
  rfl

theorem slot?_fill_of_ne (h : m = n → i ≠ j) :
    ((s.fill n j x).data m).slot? i = (s.data m).slot? i := by
  cases hv : (s.data n).get? j with
  | some y => rw [fill_of_some hv]
  | none =>
    rw [fill_of_none hv, slot?_settle_of_ne h, data_modifyData]
    split
    · rename_i hm
      rw [DataMap.slot?_reserve_of_ne (h hm.1), hm.1]
    · rfl

theorem get?_fill_of_ne (h : m = n → i ≠ j) :
    ((s.fill n j x).data m).get? i = (s.data m).get? i := by
  rw [DataMap.get?, slot?_fill_of_ne h]
  rfl

theorem get?_fill_self (hn : n < s.kept.size) :
    ((s.fill n j x).data n).get? j = some (((s.data n).get? j).getD x) := by
  cases hv : (s.data n).get? j with
  | some y => rw [fill_of_some hv, hv, Option.getD_some]
  | none =>
    have hsize : n < (modifyData n (fun _ => ((s.data n).reserve j).2) s).kept.size := by
      rwa [modifyData, Array.size_modify]
    rw [fill_of_none hv, settle, data_modifyData, if_pos ⟨rfl, hsize⟩, data_modifyData,
      if_pos ⟨rfl, hn⟩]
    exact DataMap.get?_eq_of_slot? (DataMap.slot?_settle_self (DataMap.slot?_reserve_self _ _) x)

theorem kept_size_fill (s : Store σ) : (s.fill n j x).kept.size = s.kept.size := by
  cases hv : (s.data n).get? j with
  | some y => rw [fill_of_some hv]
  | none =>
    rw [fill_of_none hv, settle, modifyData, modifyData, Array.size_modify, Array.size_modify]

theorem pools_fill (s : Store σ) :
    (s.fill n j x).pools = s.pools ∧ (s.fill n j x).nextSlot = s.nextSlot := by
  cases hv : (s.data n).get? j with
  | some y =>
    rw [fill_of_some hv]
    exact ⟨rfl, rfl⟩
  | none =>
    rw [fill_of_none hv]
    exact ⟨rfl, rfl⟩

theorem pool_fill (s : Store σ) (p : Nat) : (s.fill n j x).pool p = s.pool p := by
  rw [pool, (pools_fill s).1]
  rfl

theorem Valid.fill (hs : s.Valid) (hj : j < s.nextSlot) : (s.fill n j x).Valid := by
  constructor
  · intro p i hi
    rw [pool_fill] at hi
    rw [(pools_fill s).2]
    exact hs.slot_lt hi
  · intro m i u hu
    rw [(pools_fill s).2]
    by_cases h : m = n ∧ i = j
    · rw [h.2]
      exact hj
    · rw [slot?_fill_of_ne fun hm hi => h ⟨hm, hi⟩] at hu
      exact hs.used_lt hu
  · intro p q i j hi hj
    rw [pool_fill] at hi hj
    exact hs.slot_inj hi hj

end Store

/-- What tells an instance apart over the whole history of the pools: its pool, how often the pool
had been cleared, its key and its options. -/
structure Origin (pools : Nat) where
  pool : Fin pools
  clears : Nat
  key : MetricKey
  options : OptionSet

namespace Store

variable {σ : Type} {pools nodes : Nat} {s : Store σ} {clears : Fin pools → Nat}
variable {issued : Origin pools → Instance → Prop} {value : Origin pools → Fin nodes → Float → Prop}

/-- The instances issued so far have a slot for each origin. Those in a pool are the ones issued
since it was last cleared. -/
structure Assigns (s : Store σ) (clears : Fin pools → Nat)
    (issued : Origin pools → Instance → Prop) : Prop where
  valid : s.Valid
  pools_size : s.pools.size = pools
  carries : ∀ {d i}, issued d i → i.key = d.key ∧ i.options = d.options
  clears_le : ∀ {d i}, issued d i → d.clears ≤ clears d.pool
  slot_lt : ∀ {d i}, issued d i → i.slot < s.nextSlot
  slot_iff : ∀ {d e i j}, issued d i → issued e j → (i.slot = j.slot ↔ d = e)
  mem_pool_iff : ∀ {p : Fin pools} {i},
    i ∈ (s.pool p).instances ↔ ∃ d, issued d i ∧ d.pool = p ∧ d.clears = clears p

/-- Under the slots of issued instances the given values are kept. -/
structure Remembers (s : Store σ) (issued : Origin pools → Instance → Prop)
    (value : Origin pools → Fin nodes → Float → Prop) : Prop where
  kept_size : s.kept.size = nodes
  get?_iff : ∀ {d i}, issued d i → ∀ {n : Fin nodes} {x},
    (s.data n).get? i.slot = some x ↔ value d n x
  exists_issued : ∀ {d n x}, value d n x → ∃ i, issued d i

namespace Assigns

variable {p : Fin pools} {k : MetricKey} {o : OptionSet}

theorem issued_of_find? (h : s.Assigns clears issued) {i : Instance}
    (hf : (s.pool p).find? k o = some i) : issued ⟨p, clears p, k, o⟩ i := by
  obtain ⟨hi, rfl, rfl⟩ := Pool.find?_eq_some hf
  obtain ⟨d, hd, rfl, hclears⟩ := h.mem_pool_iff.1 hi
  obtain ⟨hkey, hoptions⟩ := h.carries hd
  rw [hkey, hoptions, ← hclears]
  exact hd

theorem not_issued (h : s.Assigns clears issued) (hf : (s.pool p).find? k o = none)
    (i : Instance) : ¬ issued ⟨p, clears p, k, o⟩ i := by
  intro hi
  apply Pool.find?_eq_none_iff.1 hf
  have hmem := h.mem_pool_iff.2 ⟨_, hi, rfl, rfl⟩
  obtain ⟨hkey, hoptions⟩ := h.carries hi
  exact List.mem_map.2 ⟨i, hmem, Prod.ext hkey hoptions⟩

theorem init (pools nodes : Nat) (state : σ) :
    (Store.init pools nodes state).Assigns (fun _ : Fin pools => 0) fun _ _ => False where
  valid := .init pools nodes state
  pools_size := Array.size_replicate
  carries := False.elim
  clears_le := False.elim
  slot_lt := False.elim
  slot_iff := False.elim
  mem_pool_iff := by
    intro p i
    rw [pool_init]
    exact iff_of_false List.not_mem_nil fun ⟨_, hd, _⟩ => hd

/-- A missing instance gets a slot that no instance has had. -/
theorem intern (h : s.Assigns clears issued) (hf : (s.pool p).find? k o = none) :
    (s.intern p k o).2.Assigns clears fun d i =>
      issued d i ∨ d = ⟨p, clears p, k, o⟩ ∧ i = (s.intern p k o).1 where
  valid := h.valid.intern p k o
  pools_size := (Evolves.intern s p k o).pools_size.trans h.pools_size
  carries := by
    rintro d i (hi | ⟨rfl, rfl⟩)
    · exact h.carries hi
    · exact key_intern s p k o
  clears_le := by
    rintro d i (hi | ⟨rfl, rfl⟩)
    · exact h.clears_le hi
    · exact Nat.le_refl _
  slot_lt := by
    rintro d i (hi | ⟨rfl, rfl⟩)
    · exact Nat.lt_of_lt_of_le (h.slot_lt hi) (Evolves.intern s p k o).nextSlot_le
    · exact slot_intern_lt h.valid p k o
  slot_iff := by
    have hslot : (s.intern p k o).1.slot = s.nextSlot := by rw [intern_of_none hf]
    have hnew := h.not_issued hf
    rintro d e i j (hi | ⟨rfl, rfl⟩) (hj | ⟨rfl, rfl⟩)
    · exact h.slot_iff hi hj
    · rw [hslot]
      apply iff_of_false (Nat.ne_of_lt (h.slot_lt hi))
      rintro rfl
      exact hnew i hi
    · rw [hslot]
      apply iff_of_false (Nat.ne_of_gt (h.slot_lt hj))
      rintro rfl
      exact hnew j hj
    · exact iff_of_true rfl rfl
  mem_pool_iff := by
    intro q i
    have hp : (p : Nat) < s.pools.size := by rw [h.pools_size]; exact p.isLt
    rw [intern_of_none hf, pool_modify]
    by_cases hq : q = p
    · subst hq
      rw [if_pos ⟨rfl, hp⟩, Pool.add, List.mem_append, List.mem_singleton, h.mem_pool_iff]
      constructor
      · rintro (⟨d, hd, hdq⟩ | rfl)
        · exact ⟨d, .inl hd, hdq⟩
        · exact ⟨_, .inr ⟨rfl, rfl⟩, rfl, rfl⟩
      · rintro ⟨d, hd | ⟨rfl, rfl⟩, hdq⟩
        · exact .inl ⟨d, hd, hdq⟩
        · exact .inr rfl
    · rw [if_neg fun hqp => hq (Fin.ext hqp.1), h.mem_pool_iff]
      constructor
      · rintro ⟨d, hd, hdq⟩
        exact ⟨d, .inl hd, hdq⟩
      · rintro ⟨d, hd | ⟨rfl, rfl⟩, hdq⟩
        · exact ⟨d, hd, hdq⟩
        · exact absurd hdq.1.symm hq

theorem clear (h : s.Assigns clears issued) (p : Fin pools) :
    (s.clear p).Assigns (fun q => clears q + if q = p then 1 else 0) issued where
  valid := h.valid.clear p
  pools_size := (Array.size_modify ..).trans h.pools_size
  carries := h.carries
  clears_le hi := Nat.le_add_right_of_le (h.clears_le hi)
  slot_lt := h.slot_lt
  slot_iff := h.slot_iff
  mem_pool_iff := by
    intro q i
    rw [pool_clear]
    by_cases hq : q = p
    · subst hq
      rw [if_pos rfl, if_pos rfl]
      apply iff_of_false List.not_mem_nil
      rintro ⟨d, hd, rfl, hclears⟩
      have hle := h.clears_le hd
      omega
    · rw [if_neg fun hqp => hq (Fin.ext hqp), if_neg hq]
      exact h.mem_pool_iff

theorem fill (h : s.Assigns clears issued) {d : Origin pools} {i : Instance} (hi : issued d i)
    (n : NodeId) (x : Float) : (s.fill n i.slot x).Assigns clears issued where
  valid := h.valid.fill (h.slot_lt hi)
  pools_size := by rw [(pools_fill s).1, h.pools_size]
  carries := h.carries
  clears_le := h.clears_le
  slot_lt := by
    rw [(pools_fill s).2]
    exact h.slot_lt
  slot_iff := h.slot_iff
  mem_pool_iff := by
    intro p
    rw [pool_fill]
    exact h.mem_pool_iff

end Assigns

namespace Remembers

theorem init (pools nodes : Nat) (state : σ) :
    (Store.init pools nodes state).Remembers (fun (_ : Origin pools) _ => False)
      fun _ (_ : Fin nodes) _ => False where
  kept_size := Array.size_replicate
  get?_iff := False.elim
  exists_issued := False.elim

/-- Nothing is kept yet under a new slot. -/
theorem intern (h : s.Remembers issued value) (hs : s.Assigns clears issued) {p : Fin pools}
    {k : MetricKey} {o : OptionSet} (hf : (s.pool p).find? k o = none) :
    (s.intern p k o).2.Remembers (fun d i =>
      issued d i ∨ d = ⟨p, clears p, k, o⟩ ∧ i = (s.intern p k o).1) value where
  kept_size := by rw [kept_intern, h.kept_size]
  get?_iff := by
    rintro d i (hi | ⟨rfl, rfl⟩) n x
    · rw [data_intern]
      exact h.get?_iff hi
    · rw [intern_of_none hf]
      apply iff_of_false
      · intro hx
        have hnone := DataMap.get?_eq_none_of_slot? (slot?_nextSlot hs.valid n)
        exact Option.some_ne_none x (hx.symm.trans hnone)
      · intro hx
        obtain ⟨i, hi⟩ := h.exists_issued hx
        exact hs.not_issued hf i hi
  exists_issued hx := by
    obtain ⟨i, hi⟩ := h.exists_issued hx
    exact ⟨i, .inl hi⟩

/-- The first value that is kept under the slot of an instance stays. -/
theorem fill (h : s.Remembers issued value) (hs : s.Assigns clears issued) {e : Origin pools}
    {j : Instance} (hj : issued e j) (m : Fin nodes) (y : Float) :
    (s.fill m j.slot y).Remembers issued fun d n x =>
      value d n x ∨ (d = e ∧ n = m ∧ x = y) ∧ ∀ z, ¬ value d n z where
  kept_size := (kept_size_fill s).trans h.kept_size
  get?_iff := by
    intro d i hi n x
    by_cases hsame : n = m ∧ d = e
    · obtain ⟨rfl, rfl⟩ := hsame
      have hn : (n : Nat) < s.kept.size := by rw [h.kept_size]; exact n.isLt
      rw [(hs.slot_iff hi hj).2 rfl, get?_fill_self hn]
      cases hv : (s.data n).get? j.slot with
      | some z =>
        have hz := (h.get?_iff hj).1 hv
        rw [Option.getD_some, ← h.get?_iff hj, hv, or_iff_left fun hx => hx.2 z hz]
      | none =>
        have hnone : ∀ z, ¬ value d n z := by
          intro z hz
          rw [← h.get?_iff hj, hv] at hz
          cases hz
        rw [Option.getD_none, or_iff_right (hnone x), Option.some.injEq]
        exact ⟨fun hx => ⟨⟨rfl, rfl, hx.symm⟩, hnone⟩, fun hx => hx.1.2.2.symm⟩
    · rw [get?_fill_of_ne, h.get?_iff hi, or_iff_left fun hx => hsame ⟨hx.1.2.1, hx.1.1⟩]
      intro hn hslot
      exact hsame ⟨Fin.ext hn, (hs.slot_iff hi hj).1 hslot⟩
  exists_issued := by
    rintro d n x (hx | ⟨⟨rfl, -, -⟩, -⟩)
    · exact h.exists_issued hx
    · exact ⟨j, hj⟩

end Remembers

end Store

end TreeMetrics
