import TreeMetrics.Proofs.Twig.Gap

namespace TreeMetrics.Twig

open Relation (TransGen)

theorem guards_pattern (r : Rule) : survey.guards grammar.reach (pattern r) = true :=
  (survey_holds r).guards

theorem advances_of_star {x y : Expr Rule} (hy : survey.guards grammar.reach y = true)
    (hx : .star x ∈ y.parts) : x.Advances grammar :=
  Survey.advances survey_holds (Survey.guards_star (Survey.guards_of_mem_parts hy hx)).1

/-- The gap in front of a further phrase may be empty, so the phrase itself gets ahead. -/
theorem advances_of_many {x y : Expr Rule} (hy : survey.guards grammar.reach y = true)
    (hx : many x ∈ y.parts) : x.Advances grammar := by
  have hmany := Survey.guards_of_mem_parts hy hx
  have hstar := (Survey.guards_seq (Survey.guards_alt hmany).1).2
  have hempty := (Survey.guards_star hstar).1
  rw [Survey.mayBeEmpty, Bool.and_eq_false_iff] at hempty
  rcases hempty with hgap | hbody
  · have hnull : survey.mayBeEmpty gap = true := rfl
    rw [hnull] at hgap
    cases hgap
  · exact Survey.advances survey_holds hbody

/-- An outcome does not depend on how deep a run may go, if it may go deep enough. -/
theorem outcome_of_depth (q : Bool) (r : Rule) (c : Cursor) :
    ∃ o, Derives grammar q (.call r) c o ∧
      ∀ depth, grammar.depth c.rest.length ≤ depth → ∀ a,
        (grammar.run depth q (.call r) c a).outcome? = some o := by
  obtain ⟨o, -, ho⟩ := Grammar.exists_outcome survey_holds q (survey_guards r) c .none
  refine ⟨o, ho, ?_⟩
  intro depth hdepth a
  obtain ⟨o', hrun, ho'⟩ := Grammar.exists_outcome_of_le survey_holds (survey_guards r) hdepth a
  rw [hrun, ho'.det ho]

/-- Behind its brace a block tries a block. -/
theorem block_enters_block {c d e : Cursor} {ts us : List (ParseTree Rule)}
    (hbrace : Derives grammar false (.lit "\x7b") c (some (ts, d)))
    (hgap : Derives grammar false gap d (some (us, e))) :
    TransGen (Enters grammar) ⟨false, .call .block, c⟩ ⟨false, .call .block, e⟩ := by
  apply TransGen.head .call
  apply TransGen.head (.seq_second hbrace)
  apply TransGen.head (.seq_second hgap)
  -- The list of statements begins with a statement, and a statement is a block in the first place.
  apply TransGen.head .seq_first
  apply TransGen.head .alt_first
  apply TransGen.head .seq_first
  apply TransGen.head .call
  exact TransGen.single .alt_first

/-- Wherever a rule is tried there is one outcome, and every run that may go deep enough finds it.
What is tried for it comes to an end too, and each repetition, that of a gap among them, has a body
that takes a character. -/
theorem rules_terminate (r : Rule) (q : Bool) (c : Cursor) :
    (∃ o, Derives grammar q (.call r) c o ∧
      ∀ depth, grammar.depth c.rest.length ≤ depth → ∀ a,
        (grammar.run depth q (.call r) c a).outcome? = some o) ∧
    Acc (fun u t => Enters grammar t u) ⟨q, .call r, c⟩ ∧
    (∀ q' d, TransGen (Enters grammar) ⟨q, .call r, c⟩ ⟨q', .call r, d⟩ →
      c.position.index < d.position.index) ∧
    (∀ x, .star x ∈ (pattern r).parts → x.Advances grammar) ∧
    (∀ x, many x ∈ (pattern r).parts → x.Advances grammar) ∧
    ∀ x, .star x ∈ gap.parts → x.Advances grammar := by
  refine ⟨outcome_of_depth q r c, Enters.accessible survey_holds (survey_guards r), ?_, ?_, ?_, ?_⟩
  · intro q' d h
    exact Enters.index_lt survey_holds h (survey_guards r)
  · intro x hx
    exact advances_of_star (guards_pattern r) hx
  · intro x hx
    exact advances_of_many (guards_pattern r) hx
  · intro x hx
    exact advances_of_star guards_gap hx

theorem rules_terminate_nested_block :
    let c := Cursor.ofText "\x7b \x7b\x7d\x7d".toList
    let d : Cursor := ⟨⟨1, 1, 1, 2⟩, " \x7b\x7d\x7d".toList⟩
    let e : Cursor := ⟨⟨2, 2, 1, 3⟩, "\x7b\x7d\x7d".toList⟩
    let f : Cursor := ⟨⟨4, 4, 1, 5⟩, "\x7d".toList⟩
    (TransGen (Enters grammar) ⟨false, .call .block, c⟩ ⟨false, .call .block, e⟩ ∧
      c.position.index < e.position.index) ∧
    (.star (.call .whitespace) ∈ (pattern .block).parts ∧ .star (.call .whitespace) ∈ gap.parts ∧
      Derives grammar false (.call .whitespace) d (some ([], e)) ∧
      d.position.index < e.position.index) ∧
    (many (.call .statement) ∈ (pattern .block).parts ∧
      (∃ ts, Derives grammar false (.call .statement) e (some (ts, f))) ∧
      e.position.index < f.position.index) := by
  intro c d e f
  obtain ⟨-, -, henters, hstar, hmany, hgap⟩ := rules_terminate .block false c
  have hbrace : Derives grammar false (.lit "\x7b") c (some ([], d)) :=
    .of_run (by rfl : (grammar.run 1 false _ c .none).outcome? = _)
  have hblanks : Derives grammar false gap d (some ([], e)) :=
    .of_run (by rfl : (grammar.run 9 false _ d .none).outcome? = _)
  have hblank : Derives grammar false (.call .whitespace) d (some ([], e)) :=
    .of_run (by rfl : (grammar.run 9 false _ d .none).outcome? = _)
  have hbody : Derives grammar false (.call .statement) e
      (some ([.node .block e.position f.position "\x7b\x7d" []], f)) :=
    .of_run (by rfl : (grammar.run 60 false _ e .none).outcome? = _)
  have hchain := block_enters_block hbrace hblanks
  have hstar' : .star (.call .whitespace) ∈ (pattern .block).parts := by decide
  have hgap' : .star (.call .whitespace) ∈ gap.parts := by decide
  have hmany' : many (.call .statement) ∈ (pattern .block).parts := by decide
  exact ⟨⟨hchain, henters _ _ hchain⟩,
    ⟨hstar', hgap', hblank, hgap _ hgap' _ _ _ _ hblank⟩,
    ⟨hmany', ⟨_, hbody⟩, hmany _ hmany' _ _ _ _ hbody⟩⟩

end TreeMetrics.Twig
