import TreeMetrics.Proofs.Grammar.Termination

namespace TreeMetrics

/-- The parts one after the other, and a last one behind them. -/
def Expr.endingIn {ρ : Type} (parts : List (Expr ρ)) (last : Expr ρ) : Expr ρ :=
  parts.foldr .seq last

namespace Derives

variable {ρ : Type} {g : Grammar ρ} {q : Bool} {x y : Expr ρ} {xs : List (Expr ρ)}
variable {c d e : Cursor} {ts us : List (ParseTree ρ)}

theorem endingIn (h : Derives g q (.endingIn xs .empty) c (some (ts, d)))
    (hy : Derives g q y d (some (us, e))) :
    Derives g q (.endingIn xs y) c (some (ts ++ us, e)) := by
  induction xs generalizing c ts with
  | nil =>
    cases h
    exact hy
  | cons x xs ih =>
    obtain ⟨vs, m, ws, hx, hxs, rfl⟩ := h.inv_seq
    rw [List.append_assoc]
    exact .seq hx (ih hxs)

theorem endingIn_none_left (h : Derives g q (.endingIn xs .empty) c none) :
    Derives g q (.endingIn xs y) c none := by
  induction xs generalizing c with
  | nil => cases h
  | cons x xs ih =>
    cases h with
    | seq_none_left hx => exact .seq_none_left hx
    | seq_none_right hx hxs => exact .seq_none_right hx (ih hxs)

theorem endingIn_none_right (h : Derives g q (.endingIn xs .empty) c (some (ts, d)))
    (hy : Derives g q y d none) : Derives g q (.endingIn xs y) c none := by
  induction xs generalizing c ts with
  | nil =>
    cases h
    exact hy
  | cons x xs ih =>
    obtain ⟨vs, m, ws, hx, hxs, rfl⟩ := h.inv_seq
    exact .seq_none_right hx (ih hxs)

theorem inv_endingIn (h : Derives g q (.endingIn xs y) c (some (ts, e))) :
    ∃ us d vs, Derives g q (.endingIn xs .empty) c (some (us, d)) ∧
      Derives g q y d (some (vs, e)) ∧ ts = us ++ vs := by
  induction xs generalizing c ts with
  | nil => exact ⟨[], c, ts, .empty, h, rfl⟩
  | cons x xs ih =>
    obtain ⟨us, m, _, hx, hrest, rfl⟩ := h.inv_seq
    obtain ⟨us', d, vs, hxs, hy, rfl⟩ := ih hrest
    exact ⟨us ++ us', d, vs, .seq hx hxs, hy, (List.append_assoc us us' vs).symm⟩

theorem inv_endingIn_none (h : Derives g q (.endingIn xs y) c none) :
    Derives g q (.endingIn xs .empty) c none ∨
      ∃ ts d, Derives g q (.endingIn xs .empty) c (some (ts, d)) ∧ Derives g q y d none := by
  induction xs generalizing c with
  | nil => exact .inr ⟨[], c, .empty, h⟩
  | cons x xs ih =>
    cases h with
    | seq_none_left hx => exact .inl (.seq_none_left hx)
    | seq_none_right hx hrest =>
      rcases ih hrest with hxs | ⟨us, d, hxs, hy⟩
      · exact .inl (.seq_none_right hx hxs)
      · exact .inr ⟨_, d, .seq hx hxs, hy⟩

/-- Parts that match everywhere match one after the other. -/
theorem exists_endingIn (hxs : ∀ x ∈ xs, ∀ c, ∃ ts d, Derives g q x c (some (ts, d)))
    (c : Cursor) : ∃ ts d, Derives g q (.endingIn xs .empty) c (some (ts, d)) := by
  induction xs generalizing c with
  | nil => exact ⟨[], c, .empty⟩
  | cons x xs ih =>
    obtain ⟨hx, hxs⟩ := List.forall_mem_cons.1 hxs
    obtain ⟨ts, d, hd⟩ := hx c
    obtain ⟨us, e, he⟩ := ih hxs d
    exact ⟨ts ++ us, e, .seq hd he⟩

/-- Where the parts match, the last one is tried behind them. -/
theorem enters_last (h : Derives g q (.endingIn xs .empty) c (some (ts, d))) (y : Expr ρ) :
    Relation.ReflTransGen (Enters g) ⟨q, .endingIn xs y, c⟩ ⟨q, y, d⟩ := by
  induction xs generalizing c ts with
  | nil =>
    cases h
    exact .refl
  | cons x xs ih =>
    obtain ⟨_, m, _, hx, hxs, -⟩ := h.inv_seq
    exact .head (.seq_second hx) (ih hxs)

end Derives

end TreeMetrics
