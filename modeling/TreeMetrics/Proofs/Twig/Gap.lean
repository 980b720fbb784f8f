import TreeMetrics.Proofs.Twig.Survey

namespace TreeMetrics.Twig

open TreeMetrics.Expr TreeMetrics.Twig.Rule

variable {q : Bool} {c d e : Cursor} {x y : Expr Rule} {zs : List (Expr Rule)}
variable {ts : List (ParseTree Rule)}

/-- The rules between the parts of a phrase, which make no trees. -/
def isBlank : Rule → Bool
  | whitespace | comment => true
  | _ => false

theorem isBlank_silent : ∀ r, isBlank r = true → (grammar.production r).visibility = .silent ∧
    (grammar.production r).body.mute isBlank = true := by
  intro r hr
  cases r with
  | whitespace | comment => exact ⟨rfl, rfl⟩
  | _ => cases hr

theorem trees_of_gap {q : Bool} {c d : Cursor} (h : Derives grammar q gap c (some (ts, d))) :
    ts = [] :=
  h.trees_of_mute isBlank_silent rfl

theorem guards_gap : survey.guards grammar.reach gap = true := by
  decide

/-- A gap may be empty, so there is one everywhere. -/
theorem exists_gap (q : Bool) (c : Cursor) : ∃ d, Derives grammar q gap c (some ([], d)) := by
  obtain ⟨o, -, h⟩ := Grammar.exists_outcome survey_holds q guards_gap c .none
  cases o with
  | none =>
    cases h with
    | seq_none_left hs => exact absurd hs Derives.star_ne_none
    | seq_none_right _ hs => exact absurd hs Derives.star_ne_none
  | some m =>
    obtain ⟨ts, d⟩ := m
    cases trees_of_gap h
    exact ⟨d, h⟩

/-- Neither a blank nor a comment stands at the cursor. -/
structure Settled (c : Cursor) : Prop where
  whitespace : Derives grammar false (.call whitespace) c none
  comment : Derives grammar false (.call comment) c none

theorem settled_of_gap (h : Derives grammar false gap c (some (ts, d))) : Settled d := by
  obtain ⟨us, m, vs, hw, hc, rfl⟩ := h.inv_seq
  obtain ⟨hn, -⟩ := hc.inv_star
  constructor
  · rcases hc.inv_star_last with rfl | ⟨c', us', hr⟩
    · exact hw.inv_star.1
    · obtain ⟨_, m', _, _, hs, rfl⟩ := hr.inv_seq
      exact hs.inv_star.1
  · cases hn with
    | seq_none_left hn => exact hn
    | seq_none_right _ hs => exact absurd hs Derives.star_ne_none

theorem Settled.gap (h : Settled c) : Derives grammar false gap c (some ([], c)) :=
  .seq (.star_nil h.whitespace) (.star_nil (.seq_none_left h.comment))

/-- Behind a gap there is no other one. -/
theorem Settled.gap_eq (h : Settled c) (hg : Derives grammar false Twig.gap c (some (ts, d))) :
    d = c := by
  cases hg.det h.gap
  rfl

theorem inv_phrase (h : Derives grammar q (phrase (x :: y :: zs)) c (some (ts, e))) :
    ∃ us d d' vs, Derives grammar q x c (some (us, d)) ∧ Derives grammar q gap d (some ([], d')) ∧
      Derives grammar q (phrase (y :: zs)) d' (some (vs, e)) ∧ ts = us ++ vs := by
  obtain ⟨us, d, vs, hx, hrest, rfl⟩ := h.inv_seq
  obtain ⟨ws, d', vs, hg, hy, rfl⟩ := hrest.inv_seq
  cases trees_of_gap hg
  exact ⟨us, d, d', vs, hx, hg, hy, rfl⟩

end TreeMetrics.Twig
