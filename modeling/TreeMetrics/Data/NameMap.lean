namespace TreeMetrics

/-- Values under names, each name once and in ascending order. -/
structure NameMap (β : Type) where
  entries : List (String × β)
  sorted : (entries.map Prod.fst).Pairwise (· < ·)
deriving DecidableEq

namespace NameMap

variable {β : Type}

/-- Puts a value in its place among sorted entries; it replaces a value under the same name. -/
def insertEntry (k : String) (v : β) : List (String × β) → List (String × β)
  | [] => [(k, v)]
  | (l, w) :: es =>
    if k < l then (k, v) :: (l, w) :: es
    else if k = l then (k, v) :: es
    else (l, w) :: insertEntry k v es

theorem mem_map_insertEntry {k : String} {v : β} {es : List (String × β)} {x : String}
    (h : x ∈ (insertEntry k v es).map Prod.fst) : x = k ∨ x ∈ es.map Prod.fst := by
  induction es with
  | nil =>
    left
    simpa [insertEntry] using h
  | cons e es ih =>
    obtain ⟨l, w⟩ := e
    unfold insertEntry at h
    split at h
    · simpa using h
    · split at h
      · rename_i hkl
        subst hkl
        simpa using h
      · simp only [List.map_cons, List.mem_cons] at h ⊢
        rcases h with rfl | h
        · exact Or.inr (Or.inl rfl)
        · rcases ih h with rfl | h
          · exact Or.inl rfl
          · exact Or.inr (Or.inr h)

theorem sorted_insertEntry (k : String) (v : β) {es : List (String × β)}
    (h : (es.map Prod.fst).Pairwise (· < ·)) :
    ((insertEntry k v es).map Prod.fst).Pairwise (· < ·) := by
  induction es with
  | nil => simp [insertEntry]
  | cons e es ih =>
    obtain ⟨l, w⟩ := e
    rw [List.map_cons, List.pairwise_cons] at h
    unfold insertEntry
    split
    · rename_i hkl
      rw [List.map_cons, List.pairwise_cons]
      refine ⟨fun x hx => ?_, List.pairwise_cons.2 h⟩
      rcases List.mem_cons.1 hx with rfl | hx
      · exact hkl
      · exact String.lt_trans hkl (h.1 x hx)
    · split
      · rename_i hkl
        subst hkl
        exact List.pairwise_cons.2 h
      · rename_i hkl hne
        rw [List.map_cons, List.pairwise_cons]
        refine ⟨fun x hx => ?_, ih h.2⟩
        rcases mem_map_insertEntry hx with rfl | hx
        · grind
        · exact h.1 x hx

def empty : NameMap β := ⟨[], List.Pairwise.nil⟩

def insert (m : NameMap β) (k : String) (v : β) : NameMap β :=
  ⟨insertEntry k v m.entries, sorted_insertEntry k v m.sorted⟩

/-- Binds names from the left; of two bindings of a name the later one stays. -/
def ofList (es : List (String × β)) : NameMap β :=
  es.foldl (fun m e => m.insert e.1 e.2) empty

def find? (m : NameMap β) (k : String) : Option β := m.entries.lookup k

end NameMap

end TreeMetrics
