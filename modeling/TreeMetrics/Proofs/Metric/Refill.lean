import TreeMetrics.Proofs.Metric.Run

namespace TreeMetrics.Store

variable {σ : Type} {s u : Store σ} {p q : Nat} {n : NodeId} {a t : Task} {w : Option Float}

theorem modifyData_comm {m : NodeId} {f g : DataMap SlotId Float → DataMap SlotId Float}
    (h : n = m → ∀ x, f (g x) = g (f x)) (s : Store σ) :
    modifyData n f (modifyData m g s) = modifyData m g (modifyData n f s) := by
  have hk : (s.kept.modify m g).modify n f = (s.kept.modify n f).modify m g := by
    apply Array.ext_getElem?
    intro i
    simp only [Array.getElem?_modify]
    split
    · rename_i hn
      split
      · rename_i hm
        cases s.kept[i]? with
        | none => rfl
        | some x => exact congrArg some (h (hn.trans hm.symm) x)
      · rfl
    · rfl
  simp only [modifyData, hk]

theorem modifyData_congr {f g : DataMap SlotId Float → DataMap SlotId Float}
    (h : f (s.data n) = g (s.data n)) : modifyData n f s = modifyData n g s := by
  have hk : s.kept.modify n f = s.kept.modify n g := by
    apply Array.ext_getElem?
    intro i
    simp only [Array.getElem?_modify]
    split
    · rename_i hn
      subst hn
      cases hx : s.kept[n]? with
      | none => rfl
      | some x =>
        have hd : s.data n = x := by simp [data, Array.getD_eq_getD_getElem?, hx]
        rw [hd] at h
        exact congrArg some h
    · rfl
  simp only [modifyData, hk]

theorem modifyData_id (s : Store σ) (n : NodeId) : modifyData n (fun m => m) s = s := by
  have hk : s.kept.modify n (fun m => m) = s.kept := by
    apply Array.ext_getElem?
    intro i
    simp [Array.getElem?_modify]
  simp only [modifyData, hk]

theorem begin_eq (s : Store σ) (p : Nat) (t : Task) :
    s.begin p t = modifyData t.node (fun m => (m.reserve (s.slotOf p t)).2)
      (s.intern p t.key t.options).2 := by
  refine modifyData_congr ?_
  rw [data_intern]

/-- Changes what is kept for a task, if it has a slot. -/
def refill (p : Nat) (t : Task) (w : Option Float) (s : Store σ) : Store σ :=
  match (s.pool p).find? t.key t.options with
  | some i => modifyData t.node (DataMap.refill i.slot w) s
  | none => s

theorem refill_of_some {i : Instance} (hi : (s.pool p).find? t.key t.options = some i) :
    s.refill p t w = modifyData t.node (DataMap.refill i.slot w) s := by
  simp only [refill, hi]

theorem refill_of_cell (h : s.cell p t = none) : s.refill p t w = s := by
  cases hi : (s.pool p).find? t.key t.options with
  | none => simp only [refill, hi]
  | some i =>
    have hj : (s.data t.node).slot? i.slot = none := by
      rwa [cell, hi, Option.bind_some] at h
    rw [refill_of_some hi, modifyData_congr, modifyData_id]
    simp only [DataMap.refill, hj]

theorem cell_eq_none (h : (s.pool p).find? t.key t.options = none) : s.cell p t = none := by
  rw [cell, h, Option.bind_none]

theorem eq_of_refill {P : Store σ → Prop} (hs : P s)
    (hm : ∀ i, (s.pool p).find? t.key t.options = some i →
      P (modifyData t.node (DataMap.refill i.slot w) s)) : P (s.refill p t w) := by
  cases hi : (s.pool p).find? t.key t.options with
  | none => rwa [refill_of_cell (cell_eq_none hi)]
  | some i =>
    rw [refill_of_some hi]
    exact hm i hi

@[simp] theorem state_refill (s : Store σ) : (s.refill p t w).state = s.state :=
  eq_of_refill (P := fun u => u.state = s.state) rfl fun _ _ => rfl

theorem refill_state (s : Store σ) (x : σ) :
    ({ s with state := x } : Store σ).refill p t w = { s.refill p t w with state := x } := by
  unfold refill
  split
  all_goals
    rename_i h
    rw [show (s.pool p).find? t.key t.options = _ from h]
  rfl

theorem Valid.refill (hs : s.Valid) : (s.refill p t w).Valid := by
  refine eq_of_refill hs fun i hi => ⟨hs.slot_lt, fun {m j v} hv => ?_, hs.slot_inj⟩
  rw [data_modifyData] at hv
  split at hv
  · by_cases hj : j = i.slot
    · rw [hj]
      exact hs.slot_lt (Pool.find?_eq_some hi).1
    · rw [DataMap.slot?_refill_of_ne hj] at hv
      exact hs.used_lt hv
  · exact hs.used_lt hv

theorem intern_refill (hs : s.Valid) (k : MetricKey) (o : OptionSet) :
    (s.refill p t w).intern q k o = ((s.intern q k o).1, (s.intern q k o).2.refill p t w) := by
  cases ht : (s.pool p).find? t.key t.options with
  | none =>
    have hc := cell_eq_none ht
    have hc' : (s.intern q k o).2.cell p t = none := by rw [cell_intern hs, hc]
    rw [refill_of_cell hc, refill_of_cell hc']
  | some i =>
    rw [refill_of_some ht, refill_of_some ((Evolves.intern s q k o).stays ht)]
    cases hf : (s.pool q).find? k o with
    | some j =>
      rw [intern_of_some hf]
      exact intern_of_some hf
    | none =>
      rw [intern_of_none hf]
      exact intern_of_none hf

theorem slotOf_refill (hs : s.Valid) : (s.refill p t w).slotOf q a = s.slotOf q a := by
  rw [slotOf, intern_refill hs]
  rfl

section Other

variable (hs : s.Valid) (h : a ≠ t)

include hs h

theorem slot_ne_of_ne {i : Instance} (hi : (s.pool p).find? t.key t.options = some i) :
    t.node = a.node → i.slot ≠ s.slotOf p a :=
  slot_ne_slotOf hs (.refl _) (fun _ => Ne.symm h) ((Evolves.begin s p a).stays hi)

theorem reserve_slotOf_refill :
    (((s.refill p t w).data a.node).reserve (s.slotOf p a)).1 =
      ((s.data a.node).reserve (s.slotOf p a)).1 := by
  refine eq_of_refill (P := fun v => ((v.data a.node).reserve (s.slotOf p a)).1 = _) rfl ?_
  intro i hi
  rw [data_modifyData]
  split
  · rename_i ha
    rw [DataMap.reserve_refill (slot_ne_of_ne hs h hi ha.1.symm), ha.1]
  · rfl

theorem versionOf_refill : (s.refill p t w).versionOf p a = s.versionOf p a := by
  rw [versionOf, slotOf_refill hs, reserve_slotOf_refill hs h]
  rfl

theorem memo_refill_of_ne : (s.refill p t w).memo p a = s.memo p a := by
  have ha : (s.data a.node).get? (s.slotOf p a) = s.memo p a :=
    get?_slot_intern hs p a.key a.options a.node
  have ha' : ((s.refill p t w).data a.node).get? ((s.refill p t w).slotOf p a) =
      (s.refill p t w).memo p a :=
    get?_slot_intern hs.refill p a.key a.options a.node
  rw [← ha, ← ha', slotOf_refill hs, ← DataMap.value_reserve, reserve_slotOf_refill hs h,
    DataMap.value_reserve]

theorem begin_refill : (s.refill p t w).begin p a = (s.begin p a).refill p t w := by
  cases hi : (s.pool p).find? t.key t.options with
  | none =>
    have hc := cell_eq_none hi
    have hc' : (s.begin p a).cell p t = none := by
      rw [cell_begin_of_ne hs fun _ => Ne.symm h, hc]
    rw [refill_of_cell hc, refill_of_cell hc']
  | some i =>
    have hj := slot_ne_of_ne hs h hi
    rw [begin_eq, slotOf_refill hs, intern_refill hs,
      refill_of_some ((Evolves.intern s p a.key a.options).stays hi),
      refill_of_some ((Evolves.begin s p a).stays hi), begin_eq]
    refine modifyData_comm (fun hn x => ?_) _
    rw [DataMap.reserve_refill (hj hn.symm)]

theorem settle_refill (he : Evolves (s.begin p a) u) {version : Nat} {v : Float} :
    (u.refill p t w).settle a.node (s.slotOf p a) version v =
      (u.settle a.node (s.slotOf p a) version v).refill p t w := by
  cases hi : (u.pool p).find? t.key t.options with
  | none =>
    have hc := cell_eq_none hi
    have hc' : (u.settle a.node (s.slotOf p a) version v).cell p t = none := by
      rw [cell_settle_of_ne hs he fun _ => Ne.symm h, hc]
    rw [refill_of_cell hc, refill_of_cell hc']
  | some i =>
    have hj := slot_ne_slotOf hs he (fun _ => Ne.symm h) hi
    have hi' : ((u.settle a.node (s.slotOf p a) version v).pool p).find? t.key t.options = some i :=
      hi
    rw [refill_of_some hi, refill_of_some hi']
    exact modifyData_comm (fun hn x => DataMap.settle_refill (hj hn.symm) x w version v) u

end Other

end TreeMetrics.Store
