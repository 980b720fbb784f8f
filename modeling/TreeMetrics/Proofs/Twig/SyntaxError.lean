import TreeMetrics.Proofs.Grammar.Failure
import TreeMetrics.Proofs.Twig.Shape

namespace TreeMetrics.Twig

open TreeMetrics.Expr TreeMetrics.Twig.Rule
open Relation (TransGen)

variable {c : Cursor} {x : Expr Rule} {a : Attempts Rule} {r : Rule}

def leadingParts : List (Expr Rule) :=
  [gap, many (call importDecl), gap, many (call classDecl), gap]

theorem exists_many (hx : survey.guards grammar.reach (many x) = true) (c : Cursor) :
    ∃ ts d, Derives grammar false (many x) c (some (ts, d)) := by
  obtain ⟨o, -, h⟩ := Grammar.exists_outcome survey_holds false hx c .none
  cases o with
  | none =>
    cases h with
    | alt_right _ hempty => cases hempty
  | some m =>
    obtain ⟨ts, d⟩ := m
    exact ⟨ts, d, h⟩

theorem exists_leadingParts (c : Cursor) :
    ∃ ts d, Derives grammar false (.endingIn leadingParts .empty) c (some (ts, d)) := by
  apply Derives.exists_endingIn
  have hgap (c : Cursor) : ∃ ts d, Derives grammar false gap c (some (ts, d)) :=
    ⟨[], exists_gap false c⟩
  have himports := exists_many (x := call importDecl) (by decide)
  have hclasses := exists_many (x := call classDecl) (by decide)
  simp only [leadingParts, List.forall_mem_cons]
  exact ⟨hgap, himports, hgap, hclasses, hgap, fun x hx => absurd hx List.not_mem_nil⟩

namespace ParseError

theorem mem_ofAttempts : r ∈ Rule.all.filter (a.rules.contains ·) ↔ r ∈ a.rules := by
  rw [List.mem_filter, List.contains_iff_mem, and_iff_right (Rule.mem_all r)]

theorem expected_ne_nil (h : a.rules ≠ []) : Rule.all.filter (a.rules.contains ·) ≠ [] := by
  obtain ⟨r, hr⟩ := List.exists_mem_of_ne_nil _ h
  exact List.ne_nil_of_mem (mem_ofAttempts.2 hr)

theorem expectation_eq {rules : List Rule} (h : rules ≠ []) :
    expectation rules = "expected " ++ enumerate (rules.map Rule.name) := by
  cases rules with
  | nil => exact absurd rfl h
  | cons r rs => rfl

theorem message_unmatched {rules : List Rule} (p : Position) (h : rules ≠ []) :
    (unmatched p rules).message = "syntax error at " ++ toString p.line ++ ":" ++
      toString p.column ++ ": " ++ ("expected " ++ enumerate (rules.map Rule.name)) := by
  rw [← expectation_eq h]
  rfl

end ParseError

/-- A source is refused only for its syntax. -/
theorem grammar_parse_of_error {source : String} {e : ParseError} (h : parse source = .error e) :
    ∃ a, grammar.parse file source.toList = .error a ∧ e = .ofAttempts a := by
  cases hp : grammar.parse file source.toList with
  | error a =>
    unfold parse parseRule at h
    rw [hp] at h
    cases h
    exact ⟨a, rfl, rfl⟩
  | ok m =>
    obtain ⟨ts, d⟩ := m
    obtain ⟨t, b, rfl, hb⟩ := file_builds_of_derives (parse_eq_ok_iff.1 hp)
    rw [parse_eq_mapError (parseRule_of_parse hp), hb] at h
    cases h

/-- The record of a refused text is sound, says something, and lies no further to the left than the
end that was tried. -/
theorem reported_of_error {source : List Char} (h : grammar.parse file source = .error a) :
    ∃ ts d, Derives grammar false (.endingIn leadingParts .empty) (.ofText source) (some (ts, d)) ∧
      Derives grammar false (call endOfInput) d none ∧ a.Sound grammar source ∧
      d.position.index ≤ a.position.index ∧ a.rules ≠ [] := by
  have hrun := Grammar.run_of_parse_error survey_holds (survey_guards file) h
  have hstart := Cursor.on_ofText source
  obtain ⟨ts, d, hd⟩ := exists_leadingParts (.ofText source)
  obtain ⟨cs, hspans⟩ := hd.spans
  have hon := hstart.step hspans
  -- The end of the file fails and is recorded, and the file fails with it and is recorded too.
  obtain ⟨_, b, n, hb, ha, hbody⟩ :=
    Grammar.run_call_fail hstart Attempts.sound_none (by decide) hrun
  obtain ⟨depth, a', ha', hend⟩ := Grammar.run_endingIn_fail hstart Attempts.sound_none hd hbody
  obtain ⟨_, b', n', hb', hb'', -⟩ := Grammar.run_call_fail hon ha' (by decide) hend
  have hfile : Derives grammar false (call file) (.ofText source) none := by
    apply Derives.of_run
    rw [hrun]
    rfl
  have hfails : Derives grammar false (call endOfInput) d none := by
    apply Derives.of_run
    rw [hend]
    rfl
  have hle := (hb'.reached hon endOfInput n').1
  have hleads := hb.record hstart hfile n
  have hne := (hb.reached hstart file n).2
  rw [← hb''] at hle
  rw [← ha] at hleads hne
  exact ⟨ts, d, hd, hfails, hleads.sound, Nat.le_trans hle hleads.le, hne⟩

/-- A source that is not read is refused for its syntax, at the place where the end of the file was
tried behind its imports and classes or further to the right, and the error names rules that do not
match there, one at least. -/
theorem parse_error_located (source : String) (e : ParseError) (h : parse source = .error e) :
    ∃ (ts : List (ParseTree Rule)) (before skipped behind : List Char) (p q : Position)
      (expected : List Rule),
      source.toList = before ++ (skipped ++ behind) ∧
      q = Position.start.after before ∧ p = q.after skipped ∧
      Derives grammar false
        (seq gap (phrase [many (call importDecl), many (call classDecl), empty]))
        (.ofText source.toList) (some (ts, ⟨q, skipped ++ behind⟩)) ∧
      TransGen (Enters grammar) ⟨false, call file, .ofText source.toList⟩
        ⟨false, call endOfInput, ⟨q, skipped ++ behind⟩⟩ ∧
      skipped ++ behind ≠ [] ∧
      e = .unmatched p expected ∧ expected ≠ [] ∧
      (∀ r ∈ expected, Derives grammar false (call r) ⟨p, behind⟩ none) ∧
      e.message = "syntax error at " ++ toString p.line ++ ":" ++ toString p.column ++
        ": " ++ ("expected " ++ enumerate (expected.map Rule.name)) := by
  obtain ⟨a, ha, rfl⟩ := grammar_parse_of_error h
  obtain ⟨ts, d, hd, hend, hsound, hle, hne⟩ := reported_of_error ha
  obtain ⟨before, hbefore⟩ := hd.spans
  obtain ⟨d', hon, hposition, hrefused⟩ := hsound.refused
  rw [← hposition] at hle
  obtain ⟨skipped, hskipped⟩ := Cursor.On.spans_of_index_le ⟨before, hbefore⟩ hon hle
  obtain ⟨q, rest⟩ := d
  obtain ⟨p, behind⟩ := d'
  cases hskipped.rest
  have hunmatched : ParseError.ofAttempts a = .unmatched p (Rule.all.filter (a.rules.contains ·)) :=
    congrArg (ParseError.unmatched · _) hposition.symm
  have hexpected := ParseError.expected_ne_nil hne
  refine ⟨ts, before, skipped, behind, p, q, _, hbefore.rest, hbefore.position, hskipped.position,
    hd, .head' .call (hd.enters_last _), ?_, hunmatched, hexpected, ?_, ?_⟩
  · intro hnil
    have hmatch : Derives grammar false (pattern endOfInput) ⟨q, skipped ++ behind⟩
        (some ([], ⟨q, skipped ++ behind⟩)) := .atEnd hnil
    cases hend.det (.call (by decide) hmatch)
  · intro r hr
    exact hrefused r (ParseError.mem_ofAttempts.1 hr)
  · rw [hunmatched]
    exact ParseError.message_unmatched p hexpected

theorem parse_error_located_unclosed :
    parse "import a;\nclass C \x7b\n  method m( \x7b\n\x7d" =
        .error (.unmatched ⟨32, 32, 3, 13⟩ [identifier]) ∧
      ∃ (ts : List (ParseTree Rule)) (skipped behind : List Char) (q : Position),
        Derives grammar false
          (seq gap (phrase [many (call importDecl), many (call classDecl), empty]))
          (.ofText "import a;\nclass C \x7b\n  method m( \x7b\n\x7d".toList)
          (some (ts, ⟨q, skipped ++ behind⟩)) ∧
        q.after skipped = ⟨32, 32, 3, 13⟩ := by
  have h : parse "import a;\nclass C \x7b\n  method m( \x7b\n\x7d" =
      .error (.unmatched ⟨32, 32, 3, 13⟩ [identifier]) := by rfl
  obtain ⟨ts, _, skipped, behind, p, q, _, -, -, hp, hd, -, -, he, -⟩ := parse_error_located _ _ h
  cases he
  exact ⟨h, ts, skipped, behind, q, hd, hp.symm⟩

end TreeMetrics.Twig
