import TreeMetrics.Memo.DataMap

namespace TreeMetrics.DataMap

variable {κ β : Type} [DecidableEq κ]

theorem lookup_assign_self (k : κ) (s : Slot β) (l : List (κ × Slot β)) :
    (assign k s l).lookup k = some s := by
  induction l with
  | nil => simp [assign]
  | cons e l ih =>
    obtain ⟨j, t⟩ := e
    unfold assign
    split
    · simp
    · rename_i hjk
      have hkj : (k == j) = false := by simpa using Ne.symm hjk
      rw [List.lookup_cons, hkj]
      exact ih

theorem lookup_assign_of_ne {j k : κ} (h : j ≠ k) (s : Slot β) (l : List (κ × Slot β)) :
    (assign k s l).lookup j = l.lookup j := by
  have hjk : (j == k) = false := by simpa using h
  induction l with
  | nil => simp [assign, List.lookup_cons, hjk]
  | cons e l ih =>
    obtain ⟨i, t⟩ := e
    unfold assign
    split
    · rename_i hik
      subst hik
      simp [List.lookup_cons, hjk]
    · rw [List.lookup_cons, List.lookup_cons, ih]

theorem get?_eq_of_slot? {m : DataMap κ β} {k : κ} {s : Slot β} (h : m.slot? k = some s) :
    m.get? k = s.value := by
  simp [get?, h]

theorem get?_eq_none_of_slot? {m : DataMap κ β} {k : κ} (h : m.slot? k = none) :
    m.get? k = none := by
  simp [get?, h]

theorem slot?_put_self (m : DataMap κ β) (k : κ) (v : β) :
    (m.put k v).slot? k = some ⟨m.nextVersion, some v⟩ :=
  lookup_assign_self _ _ _

theorem slot?_put_of_ne {j k : κ} (h : j ≠ k) (m : DataMap κ β) (v : β) :
    (m.put k v).slot? j = m.slot? j :=
  lookup_assign_of_ne h _ _

theorem reserve_of_slot? {m : DataMap κ β} {k : κ} {s : Slot β} (h : m.slot? k = some s) :
    m.reserve k = (s, m) := by
  simp [reserve, h]

theorem slot?_reserve_self (m : DataMap κ β) (k : κ) :
    (m.reserve k).2.slot? k = some (m.reserve k).1 := by
  cases h : m.slot? k with
  | some s => rw [reserve_of_slot? h, h]
  | none =>
    simp only [reserve, h]
    exact lookup_assign_self _ _ _

theorem slot?_reserve_of_ne {j k : κ} (h : j ≠ k) (m : DataMap κ β) :
    (m.reserve k).2.slot? j = m.slot? j := by
  cases hk : m.slot? k with
  | some s => rw [reserve_of_slot? hk]
  | none =>
    simp only [reserve, hk]
    exact lookup_assign_of_ne h _ _

/-- The slot that is reserved holds the value of the key. -/
theorem value_reserve (m : DataMap κ β) (k : κ) : (m.reserve k).1.value = m.get? k := by
  cases h : m.slot? k with
  | some s => rw [reserve_of_slot? h, get?_eq_of_slot? h]
  | none => simp [reserve, h, get?]

/-- To reserve a slot changes no value. -/
@[simp] theorem get?_reserve (m : DataMap κ β) (k j : κ) : (m.reserve k).2.get? j = m.get? j := by
  by_cases h : j = k
  · subst h
    rw [get?_eq_of_slot? (slot?_reserve_self m j), value_reserve]
  · simp [get?, slot?_reserve_of_ne h]

theorem slot?_settle_of_ne {j k : κ} (h : j ≠ k) (m : DataMap κ β) (version : Nat) (v : β) :
    (m.settle k version v).slot? j = m.slot? j := by
  unfold settle
  split
  · split
    · exact lookup_assign_of_ne h _ _
    · rfl
  · rfl

/-- A slot that is still in place is filled. -/
theorem slot?_settle_self {m : DataMap κ β} {k : κ} {s : Slot β} (h : m.slot? k = some s) (v : β) :
    (m.settle k s.version v).slot? k = some ⟨s.version, some v⟩ := by
  simp only [settle, h, ↓reduceIte]
  exact lookup_assign_self _ _ _

theorem settle_of_none {m : DataMap κ β} {k : κ} (h : m.slot? k = none) (version : Nat)
    (v : β) : m.settle k version v = m := by
  simp [settle, h]

theorem settle_of_stale {m : DataMap κ β} {k : κ} {s : Slot β} (h : m.slot? k = some s)
    {version : Nat} (hs : s.version ≠ version) (v : β) : m.settle k version v = m := by
  simp [settle, h, hs]

theorem get?_settle_of_ne {j k : κ} (h : j ≠ k) (m : DataMap κ β) (version : Nat) (v : β) :
    (m.settle k version v).get? j = m.get? j := by
  simp [get?, slot?_settle_of_ne h]

theorem get?_settle_or (m : DataMap κ β) (j k : κ) (version : Nat) (v : β) :
    (m.settle k version v).get? j = m.get? j ∨ (m.settle k version v).get? j = some v := by
  by_cases h : j = k
  · subst h
    cases hs : m.slot? j with
    | none => exact .inl (by rw [settle_of_none hs])
    | some s =>
      by_cases hv : s.version = version
      · subst hv
        exact .inr (get?_eq_of_slot? (slot?_settle_self hs v))
      · exact .inl (by rw [settle_of_stale hs hv])
  · exact .inl (get?_settle_of_ne h m version v)

/-- Changes the value in the slot of a key, if there is a slot. -/
def refill (k : κ) (w : Option β) (m : DataMap κ β) : DataMap κ β :=
  match m.slot? k with
  | some s => { m with slots := assign k ⟨s.version, w⟩ m.slots }
  | none => m

theorem assign_comm {j k : κ} (h : j ≠ k) {l : List (κ × Slot β)} {a : Slot β}
    (hj : l.lookup j = some a) (s t : Slot β) :
    assign k t (assign j s l) = assign j s (assign k t l) := by
  induction l with
  | nil => cases hj
  | cons e l ih =>
    obtain ⟨i, u⟩ := e
    by_cases hij : i = j
    · subst hij
      simp [assign, h]
    · have hji : (j == i) = false := by simpa using Ne.symm hij
      rw [List.lookup_cons, hji] at hj
      by_cases hik : i = k
      · subst hik
        simp [assign, Ne.symm h]
      · simp [assign, hij, hik, ih hj]

theorem slot?_refill_of_ne {j k : κ} (h : j ≠ k) (m : DataMap κ β) (w : Option β) :
    (m.refill k w).slot? j = m.slot? j := by
  unfold refill
  split
  · exact lookup_assign_of_ne h _ _
  · rfl

theorem reserve_refill {j k : κ} (h : j ≠ k) (m : DataMap κ β) (w : Option β) :
    (m.refill j w).reserve k = ((m.reserve k).1, (m.reserve k).2.refill j w) := by
  cases hj : m.slot? j with
  | none =>
    have hj' : (m.reserve k).2.slot? j = none := by rw [slot?_reserve_of_ne h, hj]
    simp only [refill, hj, hj']
  | some s =>
    have hm := slot?_refill_of_ne (Ne.symm h) m w
    cases hk : m.slot? k with
    | some t =>
      rw [hk] at hm
      rw [reserve_of_slot? hm, reserve_of_slot? hk]
    | none =>
      rw [hk] at hm
      have hj' : (m.reserve k).2.slot? j = some s := by rw [slot?_reserve_of_ne h, hj]
      simp only [reserve, hk] at hj' ⊢
      simp only [refill, hj, hj'] at hm ⊢
      simp only [hm, assign_comm h hj]

theorem settle_refill {j k : κ} (h : j ≠ k) (m : DataMap κ β) (w : Option β) (version : Nat)
    (v : β) : (m.refill j w).settle k version v = (m.settle k version v).refill j w := by
  have hm := slot?_refill_of_ne (Ne.symm h) m w
  cases hk : m.slot? k with
  | none => rw [settle_of_none hk, settle_of_none (hm.trans hk)]
  | some t =>
    by_cases hv : t.version = version
    · cases hj : m.slot? j with
      | none =>
        have hj' : (m.settle k version v).slot? j = none := by rw [slot?_settle_of_ne h, hj]
        simp only [refill, hj, hj']
      | some s =>
        have hj' : (m.settle k version v).slot? j = some s := by rw [slot?_settle_of_ne h, hj]
        rw [hk] at hm
        simp only [settle, hk, hv, ↓reduceIte] at hj' ⊢
        simp only [refill, hj, hj'] at hm ⊢
        simp only [hm, hv, ↓reduceIte, assign_comm h hj]
    · rw [settle_of_stale hk hv, settle_of_stale (hm.trans hk) hv]

end TreeMetrics.DataMap
