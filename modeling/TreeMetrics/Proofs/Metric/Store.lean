import TreeMetrics.Metric.Engine
import TreeMetrics.Proofs.Memo.DataMap

namespace TreeMetrics

structure Task where
  key : MetricKey
  node : NodeId
  options : OptionSet
deriving DecidableEq

namespace Pool

theorem find?_eq_some {p : Pool} {k : MetricKey} {o : OptionSet} {i : Instance}
    (h : p.find? k o = some i) : i ∈ p.instances ∧ i.key = k ∧ i.options = o := by
  have hp := List.find?_some h
  simp only [Bool.and_eq_true, beq_iff_eq] at hp
  exact ⟨List.mem_of_find?_eq_some h, hp.1, hp.2⟩

theorem find?_add_of_some {p : Pool} {k : MetricKey} {o : OptionSet} {i : Instance}
    (h : p.find? k o = some i) (j : Instance) : (p.add j).find? k o = some i := by
  simp only [find?] at h
  simp [find?, add, List.find?_append, h]

theorem find?_add_self {p : Pool} {i : Instance} (h : p.find? i.key i.options = none) :
    (p.add i).find? i.key i.options = some i := by
  simp only [find?] at h
  simp [find?, add, List.find?_append, h]

end Pool

namespace Store

variable {σ : Type} {s t : Store σ} {p q : Nat} {k : MetricKey} {o : OptionSet} {n : NodeId}

/-- The value kept for a task under its instance in a pool. -/
def memo (s : Store σ) (p : Nat) (t : Task) : Option Float :=
  ((s.pool p).find? t.key t.options).bind fun i => (s.data t.node).get? i.slot

/-- The slot for a task on its node, whether or not a value is kept there. -/
def cell (s : Store σ) (p : Nat) (t : Task) : Option (Slot Float) :=
  ((s.pool p).find? t.key t.options).bind fun i => (s.data t.node).slot? i.slot

theorem memo_eq (s : Store σ) (p : Nat) (t : Task) :
    s.memo p t = (s.cell p t).bind Slot.value := by
  rw [memo, cell, Option.bind_assoc]
  rfl

theorem data_modifyData (s : Store σ) (n m : NodeId)
    (f : DataMap SlotId Float → DataMap SlotId Float) :
    (modifyData n f s).data m = if m = n ∧ n < s.kept.size then f (s.data n) else s.data m := by
  simp only [data, modifyData, Array.getD_eq_getD_getElem?, Array.getElem?_modify]
  by_cases hmn : n = m
  · subst hmn
    by_cases hn : n < s.kept.size
    · simp [hn]
    · simp [hn]
  · simp [hmn, Ne.symm hmn]

theorem intern_of_some {i : Instance} (h : (s.pool p).find? k o = some i) :
    s.intern p k o = (i, s) := by
  simp [intern, h]

theorem intern_of_none (h : (s.pool p).find? k o = none) :
    s.intern p k o = (⟨k, o, s.nextSlot⟩,
      { s with
        pools := s.pools.modify p (·.add ⟨k, o, s.nextSlot⟩), nextSlot := s.nextSlot + 1 }) := by
  simp [intern, h]

theorem pool_modify (s : Store σ) (p q : Nat) (f : Pool → Pool) (j : SlotId) :
    ({ s with pools := s.pools.modify p f, nextSlot := j } : Store σ).pool q =
      if q = p ∧ p < s.pools.size then f (s.pool p) else s.pool q := by
  simp only [pool, Array.getD_eq_getD_getElem?, Array.getElem?_modify]
  by_cases hqp : p = q
  · subst hqp
    by_cases hp : p < s.pools.size
    · simp [hp]
    · simp [hp]
  · simp [hqp, Ne.symm hqp]

/-- Slots are handed out in ascending order and each to one instance. -/
structure Valid (s : Store σ) : Prop where
  slot_lt : ∀ {p i}, i ∈ (s.pool p).instances → i.slot < s.nextSlot
  used_lt : ∀ {n j u}, (s.data n).slot? j = some u → j < s.nextSlot
  slot_inj : ∀ {p q i j}, i ∈ (s.pool p).instances → j ∈ (s.pool q).instances →
    i.slot = j.slot → p = q ∧ i = j

/-- What later stores have in common with earlier ones while no pool is cleared: instances stay,
older slots get no new instance, and slots keep their version. -/
structure Evolves (s t : Store σ) : Prop where
  nextSlot_le : s.nextSlot ≤ t.nextSlot
  pools_size : t.pools.size = s.pools.size
  kept_size : t.kept.size = s.kept.size
  stays : ∀ {p k o i}, (s.pool p).find? k o = some i → (t.pool p).find? k o = some i
  old : ∀ {p i}, i ∈ (t.pool p).instances → i.slot < s.nextSlot → i ∈ (s.pool p).instances
  slot : ∀ {n j u}, (s.data n).slot? j = some u →
    ∃ v, (t.data n).slot? j = some v ∧ v.version = u.version

theorem Evolves.refl (s : Store σ) : Evolves s s :=
  ⟨Nat.le_refl _, rfl, rfl, id, fun h _ => h, fun h => ⟨_, h, rfl⟩⟩

theorem Evolves.trans {u : Store σ} (h : Evolves s t) (h' : Evolves t u) : Evolves s u where
  nextSlot_le := Nat.le_trans h.nextSlot_le h'.nextSlot_le
  pools_size := h'.pools_size.trans h.pools_size
  kept_size := h'.kept_size.trans h.kept_size
  stays hi := h'.stays (h.stays hi)
  old hi hlt := h.old (h'.old hi (Nat.lt_of_lt_of_le hlt h.nextSlot_le)) hlt
  slot hu := by
    obtain ⟨v, hv, he⟩ := h.slot hu
    obtain ⟨w, hw, he'⟩ := h'.slot hv
    exact ⟨w, hw, he'.trans he⟩

/-- Only an instance that is still missing is added, with a slot of its own. -/
theorem mem_pool_intern {i : Instance} (h : i ∈ ((s.intern p k o).2.pool q).instances) :
    i ∈ (s.pool q).instances ∨
      (s.pool p).find? k o = none ∧ q = p ∧ i = ⟨k, o, s.nextSlot⟩ := by
  cases hf : (s.pool p).find? k o with
  | some j =>
    rw [intern_of_some hf] at h
    exact .inl h
  | none =>
    rw [intern_of_none hf, pool_modify] at h
    split at h
    · rename_i hq
      rw [Pool.add, List.mem_append, List.mem_singleton] at h
      rcases h with h | h
      · exact .inl (hq.1 ▸ h)
      · exact .inr ⟨rfl, hq.1, h⟩
    · exact .inl h

@[simp] theorem kept_intern (s : Store σ) (p : Nat) (k : MetricKey) (o : OptionSet) :
    (s.intern p k o).2.kept = s.kept := by
  unfold intern
  split <;> rfl

@[simp] theorem data_intern (s : Store σ) (p : Nat) (k : MetricKey) (o : OptionSet) (n : NodeId) :
    (s.intern p k o).2.data n = s.data n := by
  simp [data]

theorem Evolves.intern (s : Store σ) (p : Nat) (k : MetricKey) (o : OptionSet) :
    Evolves s (s.intern p k o).2 where
  nextSlot_le := by
    unfold Store.intern
    split
    · exact Nat.le_refl _
    · exact Nat.le_succ _
  pools_size := by
    unfold Store.intern
    split
    · rfl
    · simp
  kept_size := by rw [kept_intern]
  stays {q k' o' i} hi := by
    cases hf : (s.pool p).find? k o with
    | some j => rwa [intern_of_some hf]
    | none =>
      rw [intern_of_none hf, pool_modify]
      split
      · rename_i hq
        exact Pool.find?_add_of_some (hq.1 ▸ hi) _
      · exact hi
  old {q i} hi hlt := by
    rcases mem_pool_intern hi with h | ⟨_, _, rfl⟩
    · exact h
    · exact absurd hlt (Nat.lt_irrefl _)
  slot hu := ⟨_, by rwa [data_intern], rfl⟩

theorem Valid.intern (hs : s.Valid) (p : Nat) (k : MetricKey) (o : OptionSet) :
    (s.intern p k o).2.Valid := by
  have hle := (Evolves.intern s p k o).nextSlot_le
  have hnew (hf : (s.pool p).find? k o = none) :
      (s.intern p k o).2.nextSlot = s.nextSlot + 1 := by rw [intern_of_none hf]
  refine ⟨fun {q i} hi => ?_, fun {n j u} hu => ?_, fun {q r i j} hi hj he => ?_⟩
  · rcases mem_pool_intern hi with h | ⟨hf, _, rfl⟩
    · exact Nat.lt_of_lt_of_le (hs.slot_lt h) hle
    · rw [hnew hf]
      exact Nat.lt_succ_self _
  · rw [data_intern] at hu
    exact Nat.lt_of_lt_of_le (hs.used_lt hu) hle
  · rcases mem_pool_intern hi with hi' | ⟨_, hq, hi'⟩ <;>
      rcases mem_pool_intern hj with hj' | ⟨_, hr, hj'⟩
    · exact hs.slot_inj hi' hj' he
    · rw [hj'] at he
      exact absurd he (Nat.ne_of_lt (hs.slot_lt hi'))
    · rw [hi'] at he
      exact absurd he.symm (Nat.ne_of_lt (hs.slot_lt hj'))
    · exact ⟨hq.trans hr.symm, hi'.trans hj'.symm⟩

theorem key_intern (s : Store σ) (p : Nat) (k : MetricKey) (o : OptionSet) :
    (s.intern p k o).1.key = k ∧ (s.intern p k o).1.options = o := by
  cases hf : (s.pool p).find? k o with
  | some j =>
    rw [intern_of_some hf]
    exact (Pool.find?_eq_some hf).2
  | none =>
    rw [intern_of_none hf]
    exact ⟨rfl, rfl⟩

theorem slot_intern_lt (hs : s.Valid) (p : Nat) (k : MetricKey) (o : OptionSet) :
    (s.intern p k o).1.slot < (s.intern p k o).2.nextSlot := by
  cases hf : (s.pool p).find? k o with
  | some j =>
    rw [intern_of_some hf]
    exact hs.slot_lt (Pool.find?_eq_some hf).1
  | none =>
    rw [intern_of_none hf]
    exact Nat.lt_succ_self _

/-- The slot of the instance belongs to no other. -/
theorem eq_intern_of_slot (hs : s.Valid) {i : Instance}
    (hi : i ∈ ((s.intern p k o).2.pool q).instances) (he : i.slot = (s.intern p k o).1.slot) :
    q = p ∧ i = (s.intern p k o).1 := by
  cases hf : (s.pool p).find? k o with
  | some j =>
    rw [intern_of_some hf] at hi he ⊢
    exact hs.slot_inj hi (Pool.find?_eq_some hf).1 he
  | none =>
    rcases mem_pool_intern hi with h | ⟨_, rfl, rfl⟩
    · rw [intern_of_none hf] at he
      exact absurd he (Nat.ne_of_lt (hs.slot_lt h))
    · rw [intern_of_none hf]
      exact ⟨rfl, rfl⟩

theorem slot?_nextSlot (hs : s.Valid) (n : NodeId) : (s.data n).slot? s.nextSlot = none := by
  cases hu : (s.data n).slot? s.nextSlot with
  | none => rfl
  | some u => exact absurd (hs.used_lt hu) (Nat.lt_irrefl _)

/-- An instance with a new slot has no values yet, so a new one changes nothing that is kept. -/
theorem cell_intern (hs : s.Valid) (p : Nat) (k : MetricKey) (o : OptionSet) (q : Nat)
    (t : Task) : (s.intern p k o).2.cell q t = s.cell q t := by
  cases hf : (s.pool p).find? k o with
  | some j => rw [intern_of_some hf]
  | none =>
    cases ht : (s.pool q).find? t.key t.options with
    | some i =>
      simp only [cell, (Evolves.intern s p k o).stays ht, ht, data_intern]
    | none =>
      simp only [cell, ht, Option.bind_none, data_intern]
      cases hi : ((s.intern p k o).2.pool q).find? t.key t.options with
      | none => rfl
      | some i =>
        rcases mem_pool_intern (Pool.find?_eq_some hi).1 with h | ⟨_, _, rfl⟩
        · have hn := List.find?_eq_none.1 ht i h
          have hk := (Pool.find?_eq_some hi).2
          simp [hk.1, hk.2] at hn
        · exact slot?_nextSlot hs t.node

@[simp] theorem memo_intern (hs : s.Valid) (p : Nat) (k : MetricKey) (o : OptionSet) (q : Nat)
    (t : Task) : (s.intern p k o).2.memo q t = s.memo q t := by
  rw [memo_eq, memo_eq, cell_intern hs]

/-- What is kept under the slot of the instance is what is kept for the task. -/
theorem get?_slot_intern (hs : s.Valid) (p : Nat) (k : MetricKey) (o : OptionSet) (n : NodeId) :
    (s.data n).get? (s.intern p k o).1.slot = s.memo p ⟨k, n, o⟩ := by
  cases hf : (s.pool p).find? k o with
  | some j =>
    rw [intern_of_some hf]
    simp [memo, hf]
  | none =>
    rw [intern_of_none hf]
    simp only [memo, hf, Option.bind_none]
    exact DataMap.get?_eq_none_of_slot? (slot?_nextSlot hs n)

def slotOf (s : Store σ) (p : Nat) (t : Task) : SlotId := (s.intern p t.key t.options).1.slot

def versionOf (s : Store σ) (p : Nat) (t : Task) : Nat :=
  ((s.data t.node).reserve (s.slotOf p t)).1.version

/-- The store in which the calculator of a task begins: there is a slot for its value. -/
def begin (p : Nat) (t : Task) (s : Store σ) : Store σ :=
  modifyData t.node (fun _ => ((s.data t.node).reserve (s.slotOf p t)).2)
    (s.intern p t.key t.options).2

def settle (n : NodeId) (j : SlotId) (version : Nat) (v : Float) (s : Store σ) : Store σ :=
  modifyData n (fun m => m.settle j version v) s

section Begin

variable (s : Store σ) (p : Nat) (t : Task)

theorem slot?_begin_of_ne {n : NodeId} {j : SlotId} (h : n = t.node → j ≠ s.slotOf p t) :
    ((s.begin p t).data n).slot? j = (s.data n).slot? j := by
  rw [begin, data_modifyData]
  split
  · rename_i hn
    rw [DataMap.slot?_reserve_of_ne (h hn.1), hn.1]
  · rw [data_intern]

theorem slot?_begin_self (hn : t.node < s.kept.size) :
    ∃ u, ((s.begin p t).data t.node).slot? (s.slotOf p t) = some u ∧
      u.version = s.versionOf p t := by
  rw [begin, data_modifyData, if_pos ⟨rfl, by rwa [kept_intern]⟩]
  exact ⟨_, DataMap.slot?_reserve_self _ _, rfl⟩

theorem get?_begin (n : NodeId) (j : SlotId) :
    ((s.begin p t).data n).get? j = (s.data n).get? j := by
  rw [begin, data_modifyData]
  split
  · rename_i hn
    rw [DataMap.get?_reserve, hn.1]
  · rw [data_intern]

theorem pool_begin (q : Nat) :
    (s.begin p t).pool q = (s.intern p t.key t.options).2.pool q := rfl

theorem Evolves.begin : Evolves s (s.begin p t) where
  nextSlot_le := (Evolves.intern s p t.key t.options).nextSlot_le
  pools_size := (Evolves.intern s p t.key t.options).pools_size
  kept_size := by
    rw [Store.begin, modifyData, Array.size_modify, kept_intern]
  stays := (Evolves.intern s p t.key t.options).stays
  old := (Evolves.intern s p t.key t.options).old
  slot {n j u} hu := by
    by_cases h : n = t.node ∧ j = s.slotOf p t
    · obtain ⟨rfl, rfl⟩ := h
      rw [Store.begin, data_modifyData, DataMap.reserve_of_slot? hu]
      split
      · exact ⟨u, hu, rfl⟩
      · exact ⟨u, by rwa [data_intern], rfl⟩
    · rw [slot?_begin_of_ne s p t fun hn hj => h ⟨hn, hj⟩]
      exact ⟨u, hu, rfl⟩

variable {s}

@[simp] theorem memo_begin (hs : s.Valid) (q : Nat) (u : Task) :
    (s.begin p t).memo q u = s.memo q u := by
  have h : (s.begin p t).memo q u = (s.intern p t.key t.options).2.memo q u := by
    simp only [memo, pool_begin, get?_begin, data_intern]
  rw [h, memo_intern hs]

theorem Valid.begin (hs : s.Valid) : (s.begin p t).Valid where
  slot_lt := (hs.intern p t.key t.options).slot_lt
  used_lt {n j u} hu := by
    by_cases h : n = t.node ∧ j = s.slotOf p t
    · rw [h.2]
      exact slot_intern_lt hs p t.key t.options
    · rw [slot?_begin_of_ne s p t fun hn hj => h ⟨hn, hj⟩] at hu
      exact Nat.lt_of_lt_of_le (hs.used_lt hu) (Evolves.begin s p t).nextSlot_le
  slot_inj := (hs.intern p t.key t.options).slot_inj

end Begin

section Settle

variable {j : SlotId} {version : Nat} {v : Float}

theorem slot?_settle_of_ne {m : NodeId} {i : SlotId} (h : m = n → i ≠ j) (s : Store σ) :
    ((s.settle n j version v).data m).slot? i = (s.data m).slot? i := by
  rw [settle, data_modifyData]
  split
  · rename_i hm
    rw [DataMap.slot?_settle_of_ne (h hm.1), hm.1]
  · rfl

theorem version_settle {m : NodeId} {i : SlotId} {u : Slot Float}
    (hu : (s.data m).slot? i = some u) :
    ∃ w, ((s.settle n j version v).data m).slot? i = some w ∧ w.version = u.version := by
  by_cases h : m = n ∧ i = j
  · obtain ⟨rfl, rfl⟩ := h
    rw [settle, data_modifyData]
    split
    · by_cases hv : u.version = version
      · subst hv
        exact ⟨_, DataMap.slot?_settle_self hu v, rfl⟩
      · rw [DataMap.settle_of_stale hu hv]
        exact ⟨u, hu, rfl⟩
    · exact ⟨u, hu, rfl⟩
  · rw [slot?_settle_of_ne fun hm hi => h ⟨hm, hi⟩]
    exact ⟨u, hu, rfl⟩

theorem slot?_of_settle {m : NodeId} {i : SlotId} {w : Slot Float}
    (hw : ((s.settle n j version v).data m).slot? i = some w) :
    ∃ u, (s.data m).slot? i = some u := by
  cases hu : (s.data m).slot? i with
  | some u => exact ⟨u, rfl⟩
  | none =>
    by_cases h : m = n ∧ i = j
    · obtain ⟨rfl, rfl⟩ := h
      rw [settle, data_modifyData] at hw
      split at hw
      · rw [DataMap.settle_of_none hu, hu] at hw
        cases hw
      · rw [hu] at hw
        cases hw
    · rw [slot?_settle_of_ne fun hm hi => h ⟨hm, hi⟩, hu] at hw
      cases hw

@[simp] theorem pool_settle (s : Store σ) (q : Nat) :
    (s.settle n j version v).pool q = s.pool q := rfl

theorem memo_settle_or (s : Store σ) (q : Nat) (a : Task) :
    (s.settle n j version v).memo q a = s.memo q a ∨
      (s.settle n j version v).memo q a = some v := by
  simp only [memo, pool_settle]
  cases (s.pool q).find? a.key a.options with
  | none => exact .inl rfl
  | some i =>
    simp only [Option.bind_some, settle, data_modifyData]
    split
    · rename_i ha
      rw [ha.1]
      exact DataMap.get?_settle_or _ _ _ _ _
    · exact .inl rfl

theorem Evolves.settle (s : Store σ) : Evolves s (s.settle n j version v) where
  nextSlot_le := Nat.le_refl _
  pools_size := rfl
  kept_size := Array.size_modify ..
  stays := id
  old h _ := h
  slot := version_settle

theorem Valid.settle (hs : s.Valid) : (s.settle n j version v).Valid where
  slot_lt := hs.slot_lt
  used_lt hw := by
    obtain ⟨u, hu⟩ := slot?_of_settle hw
    exact hs.used_lt hu
  slot_inj := hs.slot_inj

end Settle

section Finish

variable {u : Store σ} {a b : Task} {version : Nat} {v : Float}

theorem eq_of_slotOf (hs : s.Valid) (he : Evolves (s.begin p a) u) {i : Instance}
    (hi : (u.pool q).find? b.key b.options = some i) (hn : b.node = a.node)
    (hj : i.slot = s.slotOf p a) : q = p ∧ b = a := by
  obtain ⟨hm, hk, ho⟩ := Pool.find?_eq_some hi
  have hlt : i.slot < (s.begin p a).nextSlot := by
    rw [hj]
    exact slot_intern_lt hs p a.key a.options
  obtain ⟨hq, rfl⟩ := eq_intern_of_slot hs (he.old hm hlt) hj
  obtain ⟨hk', ho'⟩ := key_intern s p a.key a.options
  refine ⟨hq, ?_⟩
  cases a
  cases b
  simp_all

theorem slot_ne_slotOf (hs : s.Valid) (he : Evolves (s.begin p a) u) (h : q = p → b ≠ a)
    {i : Instance} (hi : (u.pool q).find? b.key b.options = some i) :
    b.node = a.node → i.slot ≠ s.slotOf p a := by
  intro hn hj
  obtain ⟨hq, hb⟩ := eq_of_slotOf hs he hi hn hj
  exact h hq hb

theorem cell_begin_of_ne (hs : s.Valid) (h : q = p → b ≠ a) :
    (s.begin p a).cell q b = s.cell q b := by
  rw [← cell_intern hs p a.key a.options, cell, cell, pool_begin, data_intern]
  cases hi : ((s.intern p a.key a.options).2.pool q).find? b.key b.options with
  | none => rfl
  | some i =>
    have hne := slot_ne_slotOf hs (.refl _) h hi
    simp only [Option.bind_some, slot?_begin_of_ne s p a hne]

/-- To fill the slot of a task changes nothing that is kept for another. -/
theorem cell_settle_of_ne (hs : s.Valid) (he : Evolves (s.begin p a) u) (h : q = p → b ≠ a) :
    (u.settle a.node (s.slotOf p a) version v).cell q b = u.cell q b := by
  simp only [cell, pool_settle]
  cases hi : (u.pool q).find? b.key b.options with
  | none => rfl
  | some i =>
    have hne := slot_ne_slotOf hs he h hi
    simp only [Option.bind_some, slot?_settle_of_ne hne]

theorem memo_settle_of_ne (hs : s.Valid) (he : Evolves (s.begin p a) u) (h : q = p → b ≠ a) :
    (u.settle a.node (s.slotOf p a) version v).memo q b = u.memo q b := by
  rw [memo_eq, memo_eq, cell_settle_of_ne hs he h]

/-- What is kept behind the end of a task was kept before, or is the value in which it ended. -/
theorem eq_of_memo_settle (hs : s.Valid) (he : Evolves (s.begin p a) u) {x : Float}
    (hx : (u.settle a.node (s.slotOf p a) version v).memo q b = some x) :
    u.memo q b = some x ∨ (q = p ∧ b = a) ∧ x = v := by
  by_cases hq : q = p ∧ b = a
  · have hor : (u.settle a.node (s.slotOf p a) version v).memo q b = u.memo q b ∨ _ = some v :=
      memo_settle_or u q b
    rw [hx] at hor
    exact hor.imp Eq.symm fun hv => ⟨hq, Option.some.inj hv⟩
  · rw [memo_settle_of_ne hs he fun hq' hb => hq ⟨hq', hb⟩] at hx
    exact .inl hx

theorem find?_begin (hp : p < s.pools.size) :
    ((s.begin p a).pool p).find? a.key a.options = some (s.intern p a.key a.options).1 := by
  cases hf : (s.pool p).find? a.key a.options with
  | some i => rw [intern_of_some hf, (Evolves.begin s p a).stays hf]
  | none =>
    rw [pool_begin, intern_of_none hf, pool_modify, if_pos ⟨rfl, hp⟩]
    exact Pool.find?_add_self hf

/-- Once the slot of a task is filled its value is kept for the task. -/
theorem memo_settle_self (hp : p < s.pools.size) (hn : a.node < s.kept.size)
    (he : Evolves (s.begin p a) u) :
    (u.settle a.node (s.slotOf p a) (s.versionOf p a) v).memo p a = some v := by
  obtain ⟨w, hw, hv⟩ := slot?_begin_self s p a hn
  obtain ⟨w', hw', hv'⟩ := he.slot hw
  have hi := he.stays (find?_begin (a := a) hp)
  have hsize : a.node < u.kept.size := by
    rw [he.kept_size, (Evolves.begin s p a).kept_size]
    exact hn
  rw [memo, pool_settle, hi, Option.bind_some, settle, data_modifyData, if_pos ⟨rfl, hsize⟩, ← hv,
    ← hv']
  exact DataMap.get?_eq_of_slot? (DataMap.slot?_settle_self hw' v)

end Finish

section Clear

theorem pool_clear (s : Store σ) (p q : Nat) :
    (s.clear p).pool q = if q = p then .empty else s.pool q := by
  rw [clear, pool_modify s p q (fun _ => .empty) s.nextSlot]
  by_cases hq : q = p
  · subst hq
    by_cases hp : q < s.pools.size
    · simp [hp]
    · simp [hp, pool, Array.getD_eq_getD_getElem?]
  · simp [hq]

theorem mem_pool_clear {i : Instance} (h : i ∈ ((s.clear p).pool q).instances) :
    i ∈ (s.pool q).instances := by
  rw [pool_clear] at h
  split at h
  · cases h
  · exact h

theorem Valid.clear (hs : s.Valid) (p : Nat) : (s.clear p).Valid where
  slot_lt h := hs.slot_lt (mem_pool_clear h)
  used_lt := hs.used_lt
  slot_inj hi hj := hs.slot_inj (mem_pool_clear hi) (mem_pool_clear hj)

/-- What was kept through a pool is out of reach once the pool is cleared. -/
theorem memo_clear (s : Store σ) (p q : Nat) (t : Task) :
    (s.clear p).memo q t = if q = p then none else s.memo q t := by
  rw [memo, pool_clear]
  split
  · rfl
  · rfl

end Clear

theorem pool_init (pools nodes : Nat) (state : σ) (p : Nat) :
    (init pools nodes state).pool p = .empty := by
  simp only [pool, init, Array.getD_eq_getD_getElem?, Array.getElem?_replicate]
  split <;> rfl

theorem data_init (pools nodes : Nat) (state : σ) (n : NodeId) :
    (init pools nodes state).data n = .empty := by
  simp only [data, init, Array.getD_eq_getD_getElem?, Array.getElem?_replicate]
  split <;> rfl

theorem Valid.init (pools nodes : Nat) (state : σ) : (init pools nodes state).Valid where
  slot_lt h := by
    rw [pool_init] at h
    cases h
  used_lt h := by
    rw [data_init] at h
    cases h
  slot_inj h := by
    rw [pool_init] at h
    cases h

@[simp] theorem memo_init (pools nodes : Nat) (state : σ) (p : Nat) (t : Task) :
    (init pools nodes state).memo p t = none := by
  rw [memo, pool_init]
  rfl

end Store

end TreeMetrics
