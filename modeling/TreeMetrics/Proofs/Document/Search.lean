import TreeMetrics.Proofs.Document.Axes

namespace TreeMetrics

open Document

variable {α : Type} {doc : Document α}

theorem Filter.filterMap_keep (p : NodeId → Bool) (ns : List NodeId) :
    ns.filterMap (keep p) = ns.filter p := by
  have hkeep : keep p = Option.guard p := rfl
  rw [hkeep, List.filterMap_eq_filter]

namespace Stream

theorem toListWithin_filtered (steps : Nat) (s : Stream doc) (f : Filter) :
    toListWithin doc steps (filtered s f) = (toListWithin doc steps s).filterMap f := by
  induction steps generalizing s with
  | zero => rfl
  | succ steps ih =>
    rw [toListWithin, toListWithin, step?]
    cases s.step? doc with
    | none => rfl
    | some r =>
      obtain ⟨n, s⟩ := r
      dsimp only
      rw [ih, List.filterMap_append]
      cases n with
      | none => rfl
      | some n =>
        cases hn : f n with
        | none => simp [hn]
        | some m => simp [hn]

theorem toList_filtered (s : Stream doc) (f : Filter) :
    (filtered s f).toList doc = (s.toList doc).filterMap f :=
  toListWithin_filtered _ s f

theorem toListWithin_sifted (steps : Nat) (w : Walk doc) (f : Filter) :
    toListWithin doc steps (sifted w f) = (toListWithin doc steps (walk w)).filterMap f := by
  induction steps generalizing w with
  | zero => rfl
  | succ steps ih =>
    rw [toListWithin, toListWithin, step?, step?]
    cases w.next doc with
    | none => rfl
    | some r =>
      obtain ⟨n, w⟩ := r
      dsimp only
      rw [ih, List.filterMap_append]
      cases hn : f n with
      | none => simp [hn]
      | some m => simp [hn]

theorem toList_sifted (w : Walk doc) (f : Filter) :
    (sifted w f).toList doc = (walked doc w).filterMap f :=
  toListWithin_sifted _ w f

theorem toList_append (s t : Stream doc) :
    (append s t).toList doc = s.toList doc ++ t.toList doc := by
  generalize hb : bound doc s = b
  induction b using Nat.strongRecOn generalizing s with
  | ind b ih =>
    cases hs : s.step? doc with
    | none =>
      -- from here on the stream steps as the second one does
      rw [toList_of_none hs, List.nil_append]
      have hstep : (append s t).step? doc = t.step? doc := by rw [step?, hs]
      cases ht : t.step? doc with
      | none => rw [toList_of_none (hstep.trans ht), toList_of_none ht]
      | some r => rw [toList_of_some (hstep.trans ht), toList_of_some ht]
    | some r =>
      obtain ⟨o, s'⟩ := r
      have hstep : (append s t).step? doc = some (o, append s' t) := by rw [step?, hs]
      rw [toList_of_some hstep, toList_of_some hs, ih _ (hb ▸ bound_step? hs) s' rfl,
        List.append_assoc]

theorem toList_pending (s t : Stream doc) :
    (pending s t).toList doc = s.toList doc ++ t.toList doc := by
  have hstep : (pending s t).step? doc = some (none, append s t) := rfl
  rw [toList_of_some hstep, toList_append]
  rfl

theorem nextWithin_eq_head? (steps : Nat) (s : Stream doc) :
    (nextWithin doc steps s).1 = (toListWithin doc steps s).head? := by
  induction steps generalizing s with
  | zero => rfl
  | succ steps ih =>
    rw [nextWithin, toListWithin]
    cases s.step? doc with
    | none => rfl
    | some r =>
      obtain ⟨n, s⟩ := r
      cases n with
      | none => exact ih s
      | some n => rfl

theorem first?_eq_head? (s : Stream doc) : s.first? doc = (s.toList doc).head? :=
  nextWithin_eq_head? _ s

theorem toList_ofChildren (doc : Document α) (n : NodeId) :
    (walk (.ofChildren doc n)).toList doc = doc.children n := by
  rw [Walk.ofChildren]
  split
  · rename_i hleaf
    exact (walked_of_none rfl).trans (List.isEmpty_iff.1 hleaf).symm
  · refine (walked_siblings _).trans ?_
    rw [List.take_length, List.drop_zero]

theorem firstOfKind?_eq_find? [HasKind α] (s : Stream doc) (k : String) :
    s.firstOfKind? doc k = (s.toList doc).find? (doc.isKind k) := by
  rw [firstOfKind?, first?_eq_head?, toList_filtered, Filter.ofKind, Filter.filterMap_keep,
    List.head?_filter]

end Stream

/-- The first child of a kind is the first of the children that has the kind. -/
theorem Document.firstChildOfKind?_eq_find? [HasKind α] (doc : Document α) (n : NodeId)
    (k : String) : doc.firstChildOfKind? n k = (doc.children n).find? (doc.isKind k) := by
  rw [firstChildOfKind?, Stream.firstOfKind?_eq_find?, Stream.toList_ofChildren]

end TreeMetrics
