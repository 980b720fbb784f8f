import Mathlib.Data.List.Induction
import TreeMetrics.Data.NameMap

namespace TreeMetrics.NameMap

variable {β : Type} {m : NameMap β} {es : List (String × β)} {k l : String} {v : β}

def names (m : NameMap β) : List String := m.entries.map Prod.fst

theorem mem_names_iff : k ∈ m.names ↔ (m.find? k).isSome = true := by
  rw [names, find?, List.lookup_isSome_iff, List.mem_map]
  simp only [beq_iff_eq, @eq_comm _ k]

theorem lookup_cons_eq (k : String) (v : β) (es : List (String × β)) (l : String) :
    ((k, v) :: es).lookup l = if l = k then some v else es.lookup l := by
  rw [List.lookup_cons]
  by_cases hl : l = k
  · rw [if_pos hl, beq_iff_eq.2 hl]
  · rw [if_neg hl, beq_eq_false_iff_ne.2 hl]

theorem lookup_insertEntry (k : String) (v : β) (es : List (String × β)) (l : String) :
    (insertEntry k v es).lookup l = if l = k then some v else es.lookup l := by
  induction es with
  | nil => exact lookup_cons_eq k v [] l
  | cons e es ih =>
    obtain ⟨k', w⟩ := e
    unfold insertEntry
    split
    · exact lookup_cons_eq k v _ l
    · split
      · rename_i hk
        subst hk
        simp only [lookup_cons_eq]
        split <;> rfl
      · rename_i hk
        simp only [lookup_cons_eq, ih]
        by_cases hl : l = k
        · subst hl
          rw [if_neg hk, if_pos rfl, if_pos rfl]
        · rw [if_neg hl, if_neg hl]

theorem find?_insert (m : NameMap β) (k : String) (v : β) (l : String) :
    (m.insert k v).find? l = if l = k then some v else m.find? l :=
  lookup_insertEntry k v m.entries l

theorem ofList_concat (es : List (String × β)) (e : String × β) :
    ofList (es ++ [e]) = (ofList es).insert e.1 e.2 := by
  unfold ofList
  rw [List.foldl_append]
  rfl

theorem mem_of_find?_ofList (h : (ofList es).find? k = some v) : (k, v) ∈ es := by
  induction es using List.reverseRecOn with
  | nil => cases h
  | append_singleton es e ih =>
    rw [ofList_concat, find?_insert] at h
    rw [List.mem_append, List.mem_singleton]
    split at h
    · rename_i hk
      cases h
      exact .inr (Prod.ext hk rfl)
    · exact .inl (ih h)

theorem mem_names_ofList : k ∈ (ofList es).names ↔ k ∈ es.map Prod.fst := by
  induction es using List.reverseRecOn with
  | nil => exact .rfl
  | append_singleton es e ih =>
    rw [mem_names_iff] at ih ⊢
    rw [ofList_concat, find?_insert, List.map_append, List.mem_append, List.map_singleton,
      List.mem_singleton]
    split
    · rename_i hk
      simp only [Option.isSome_some, hk, or_true]
    · rename_i hk
      simp only [ih, hk, or_false]

/-- What is under a name is what is bound to it, if this is always the same. -/
theorem find?_ofList (h : (k, v) ∈ es) (hv : ∀ w, (k, w) ∈ es → w = v) :
    (ofList es).find? k = some v := by
  have hk : k ∈ (ofList es).names := mem_names_ofList.2 (List.mem_map_of_mem h)
  obtain ⟨w, hw⟩ := Option.isSome_iff_exists.1 (mem_names_iff.1 hk)
  rw [hw, hv w (mem_of_find?_ofList hw)]

/-- Of several bindings of a name the last one counts. -/
theorem find?_ofList_eq (es : List (String × β)) (k : String) :
    (ofList es).find? k = es.reverse.lookup k := by
  induction es using List.reverseRecOn with
  | nil => rfl
  | append_singleton es e ih =>
    obtain ⟨l, w⟩ := e
    rw [ofList_concat, find?_insert, ih, List.reverse_concat, lookup_cons_eq]

theorem insertEntry_of_lt (h : ∀ l ∈ es.map Prod.fst, l < k) :
    insertEntry k v es = es ++ [(k, v)] := by
  induction es with
  | nil => rfl
  | cons e es ih =>
    obtain ⟨l, w⟩ := e
    have hl : l < k := h l List.mem_cons_self
    rw [insertEntry, if_neg (String.lt_asymm hl), if_neg (String.ne_of_lt hl).symm,
      ih fun x hx => h x (List.mem_cons_of_mem l hx), List.cons_append]

theorem entries_ofList (h : (es.map Prod.fst).Pairwise (· < ·)) : (ofList es).entries = es := by
  induction es using List.reverseRecOn with
  | nil => rfl
  | append_singleton es e ih =>
    rw [List.map_append, List.pairwise_append] at h
    obtain ⟨hes, -, hlt⟩ := h
    calc (ofList (es ++ [e])).entries
        = insertEntry e.1 e.2 (ofList es).entries := by rw [ofList_concat, insert]
      _ = insertEntry e.1 e.2 es := by rw [ih hes]
      _ = es ++ [e] := insertEntry_of_lt fun l hl => hlt l hl e.1 List.mem_cons_self

end TreeMetrics.NameMap
