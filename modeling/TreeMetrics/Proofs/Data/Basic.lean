import Mathlib.Data.List.Forall2

namespace TreeMetrics

theorem bind_eq_ok_iff {ε β γ : Type} {x : Except ε β} {f : β → Except ε γ} {c : γ} :
    (x >>= f) = .ok c ↔ ∃ b, x = .ok b ∧ f b = .ok c := by
  cases x with
  | error e => exact ⟨nofun, fun ⟨_, h, _⟩ => nomatch h⟩
  | ok b => exact ⟨fun h => ⟨b, rfl, h⟩, fun ⟨_, h, hc⟩ => by cases h; exact hc⟩

theorem mapError_eq_ok {ε δ α : Type} {x : Except ε α} {f : ε → δ} {a : α}
    (h : x.mapError f = .ok a) : x = .ok a := by
  cases x with
  | ok b =>
    cases h
    rfl
  | error e => cases h

theorem exists_ok_of_isSome {ε α : Type} {x : Except ε α} (h : x.toOption.isSome = true) :
    ∃ a, x = .ok a := by
  cases x with
  | ok a => exact ⟨a, rfl⟩
  | error e => cases h

theorem forall₂_comp {α β γ : Type} {R : α → β → Prop} {S : β → γ → Prop} {T : α → γ → Prop}
    (h : ∀ a b c, R a b → S b c → T a c) {as : List α} {bs : List β} {cs : List γ}
    (hab : List.Forall₂ R as bs) (hbc : List.Forall₂ S bs cs) : List.Forall₂ T as cs := by
  induction hab generalizing cs with
  | nil =>
    cases hbc
    exact .nil
  | cons hr _ ih =>
    cases hbc with
    | cons hs hbc => exact .cons (h _ _ _ hr hs) (ih hbc)

theorem mapM_of_forall₂ {m : Type → Type} [Monad m] [LawfulMonad m] {β γ : Type} {R : β → γ → Prop}
    {f : β → m γ} {bs : List β} {cs : List γ} (h : List.Forall₂ R bs cs)
    (hf : ∀ b c, c ∈ cs → R b c → f b = pure c) : bs.mapM f = pure cs := by
  induction h with
  | nil => rfl
  | cons hb _ ih =>
    rw [List.mapM_cons, hf _ _ List.mem_cons_self hb, pure_bind,
      ih fun b c hc => hf b c (List.mem_cons_of_mem _ hc), pure_bind]

theorem countP_of_forall₂ {β γ : Type} {p : β → Bool} {q : γ → Bool} {bs : List β} {cs : List γ}
    (h : List.Forall₂ (fun b c => p b = q c) bs cs) : bs.countP p = cs.countP q := by
  induction h with
  | nil => rfl
  | cons hb _ ih => rw [List.countP_cons, List.countP_cons, hb, ih]

/-- To relate all members of a list it is enough to relate each to those before it. -/
theorem pairwise_of_forall_append {γ : Type} {R : γ → γ → Prop} {l : List γ}
    (h : ∀ l₁ v l₂, l = l₁ ++ v :: l₂ → ∀ w ∈ l₁, R w v) : l.Pairwise R := by
  induction l with
  | nil => exact .nil
  | cons a l ih =>
    refine .cons (fun b hb => ?_) (ih fun l₁ v l₂ hl w hw => ?_)
    · obtain ⟨l₁, l₂, rfl⟩ := List.append_of_mem hb
      exact h (a :: l₁) b l₂ rfl a List.mem_cons_self
    · exact h (a :: l₁) v l₂ (by rw [hl, List.cons_append]) w (List.mem_cons_of_mem a hw)

end TreeMetrics
