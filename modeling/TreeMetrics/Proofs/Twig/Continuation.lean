import TreeMetrics.Proofs.Grammar.Sequence
import TreeMetrics.Proofs.Twig.ReadStatement
import TreeMetrics.Proofs.Twig.Stretch

namespace TreeMetrics

theorem Cursor.Spans.length_le {c d : Cursor} {cs : List Char} (h : c.Spans d cs) :
    d.rest.length ≤ c.rest.length := by
  rw [h.rest, List.length_append]
  exact Nat.le_add_left _ _

namespace Derives

variable {ρ : Type} {g : Grammar ρ} {q : Bool} {c : Cursor} {r : ρ} {rs : List ρ}
variable {m : List (ParseTree ρ) × Cursor}

/-- A choice between rules matches as the first one that matches. -/
theorem inv_oneOf_call [DecidableEq ρ] (h : Derives g q (.oneOf (rs.map .call)) c (some m)) :
    ∃ r ∈ rs, (∀ r' ∈ rs.takeWhile (· ≠ r), Derives g q (.call r') c none) ∧
      Derives g q (.call r) c (some m) := by
  obtain ⟨ts, d⟩ := m
  induction rs with
  | nil => cases h.inv_not.1
  | cons r rs ih =>
    have hfirst (h : Derives g q (.call r) c (some (ts, d))) : ∃ s ∈ r :: rs,
        (∀ r' ∈ (r :: rs).takeWhile (· ≠ s), Derives g q (.call r') c none) ∧
          Derives g q (.call s) c (some (ts, d)) := by
      refine ⟨r, List.mem_cons_self, ?_, h⟩
      rw [List.takeWhile_cons_of_neg (by simp)]
      exact List.forall_mem_nil _
    cases rs with
    | nil => exact hfirst h
    | cons r' rs =>
      rcases h.inv_alt with h | ⟨hn, h⟩
      · exact hfirst h
      · obtain ⟨s, hs, hpre, h⟩ := ih h
        have hne : r ≠ s := by
          rintro rfl
          cases hn.det h
        refine ⟨s, List.mem_cons_of_mem r hs, ?_, h⟩
        rw [List.takeWhile_cons_of_pos (by simpa using hne)]
        exact List.forall_mem_cons.2 ⟨hn, hpre⟩

theorem oneOf_call [DecidableEq ρ] (hr : r ∈ rs)
    (hpre : ∀ r' ∈ rs.takeWhile (· ≠ r), Derives g q (.call r') c none)
    (h : Derives g q (.call r) c (some m)) : Derives g q (.oneOf (rs.map .call)) c (some m) := by
  induction rs with
  | nil => cases hr
  | cons s rs ih =>
    by_cases hs : s = r
    · subst hs
      cases rs with
      | nil => exact h
      | cons r' rs => exact .alt_left h
    · rw [List.takeWhile_cons_of_pos (by simpa using hs)] at hpre
      obtain ⟨hn, hpre⟩ := List.forall_mem_cons.1 hpre
      have hrest := (List.mem_cons.1 hr).resolve_left (Ne.symm hs)
      cases rs with
      | nil => cases hrest
      | cons r' rs => exact .alt_right hn (ih hrest hpre)

theorem oneOf_call_none (h : ∀ r ∈ rs, Derives g q (.call r) c none) :
    Derives g q (.oneOf (rs.map .call)) c none := by
  induction rs with
  | nil => exact .not_none .empty
  | cons r rs ih =>
    obtain ⟨hr, hrs⟩ := List.forall_mem_cons.1 h
    cases rs with
    | nil => exact hr
    | cons r' rs => exact .alt_right hr (ih hrs)

theorem inv_oneOf_call_none (h : Derives g q (.oneOf (rs.map .call)) c none) :
    ∀ r ∈ rs, Derives g q (.call r) c none := by
  induction rs with
  | nil => exact List.forall_mem_nil _
  | cons r rs ih =>
    cases rs with
    | nil => exact List.forall_mem_singleton.2 h
    | cons r' rs =>
      cases h with
      | alt_right hr hrs => exact List.forall_mem_cons.2 ⟨hr, ih hrs⟩

end Derives

namespace Twig

open TreeMetrics.Expr TreeMetrics.Twig.Rule

variable {c c' d d' : Cursor} {r : Rule} {w : String} {u rest rest' : List Char}
variable {t : ParseTree Rule} {ts us : List (ParseTree Rule)}

def condition (w : String) : List (Expr Rule) :=
  [lit w, gap, lit "(", gap, call expr, gap, lit ")", gap]

/-- The parts of a statement in front of the last one, which is a statement again or a semicolon. -/
def opening : Rule → List (Expr Rule)
  | ifStmt => condition "if"
  | whileStmt => condition "while"
  | elseClause => [lit "else", gap]
  | returnStmt => [lit "return", gap, opt (call expr), gap]
  | _ => [call expr, gap]

/-- The last part of a statement; an `else` may stand behind it. -/
def closing : Rule → Expr Rule
  | ifStmt => seq (call statement) (seq gap (opt (call elseClause)))
  | whileStmt | elseClause => call statement
  | _ => lit ";"

/-- The rules that are made of an opening and a closing. -/
def openedRules : List Rule := [ifStmt, whileStmt, elseClause, returnStmt, exprStmt]

theorem pattern_opened (hr : r ∈ openedRules) :
    pattern r = .endingIn (opening r) (closing r) := by
  simp only [openedRules, List.mem_cons, List.not_mem_nil, or_false] at hr
  rcases hr with rfl | rfl | rfl | rfl | rfl
  all_goals rfl

theorem inline_opening (r : Rule) : inline (.endingIn (opening r) .empty) = true := by
  cases r <;> rfl

theorem normal_opened (hr : r ∈ openedRules) : visibility r = .normal :=
  (by decide : ∀ r ∈ openedRules, visibility r = .normal) r hr

theorem opening_advances
    (h : Derives grammar false (.endingIn (opening r) .empty) c (some (ts, d))) :
    d.rest.length < c.rest.length := by
  have hn : survey.mayBeEmpty (.endingIn (opening r) .empty) = false := by
    cases r <;> rfl
  apply Nat.lt_of_not_le
  intro hle
  have hempty := Survey.mayBeEmpty_of_derives survey_holds h hle
  rw [hn] at hempty
  cases hempty

/-- A statement with an opening, cut behind it. -/
theorem inv_opened (hr : r ∈ openedRules)
    (h : Derives grammar false (.call r) c (some (ts, d))) :
    ∃ us m vs p q s, Derives grammar false (.endingIn (opening r) .empty) c (some (us, m)) ∧
      Derives grammar false (closing r) m (some (vs, d)) ∧ ts = [.node r p q s (us ++ vs)] := by
  obtain ⟨_, hb, rfl⟩ := h.inv_call (ne_silent_of_normal (normal_opened hr))
  rw [show (grammar.production r).visibility = .normal from normal_opened hr,
    show (grammar.production r).body = _ from pattern_opened hr] at hb
  obtain ⟨us, m, vs, hopen, hclose, rfl⟩ := hb.inv_endingIn
  exact ⟨us, m, vs, _, _, _, hopen, hclose, rfl⟩

theorem opened_matches {m : Cursor} (hr : r ∈ openedRules)
    (h : Derives grammar false (.endingIn (opening r) .empty) c (some (us, m)))
    (h' : Derives grammar false (closing r) m (some (ts, d))) :
    ∃ p q s, Derives grammar false (.call r) c (some ([.node r p q s (us ++ ts)], d)) := by
  have hb := h.endingIn h'
  rw [← pattern_opened hr] at hb
  refine ⟨c.position, d.position, c.upTo d, ?_⟩
  apply Derives.call (ne_silent_of_normal (normal_opened hr))
  rwa [show (grammar.production r).visibility = .normal from normal_opened hr]

section Refusal

theorem semicolon_refused (hc : Poised ';' rest rest' c c')
    (h : Derives grammar false (lit ";") c none) : Derives grammar false (lit ";") c' none := by
  obtain ⟨v, -, hrest, hrest'⟩ := hc
  have hn : ¬";".toList <+: c.rest := by
    rintro ⟨cs, hcs⟩
    cases h.det (lit_of_spans (d := ⟨_, cs⟩) ⟨hcs.symm, rfl⟩)
  apply Derives.lit_none
  apply Cursor.text?_eq_none
  intro hp
  rw [hrest] at hn
  rw [hrest'] at hp
  cases v with
  | nil => exact hn (List.prefix_append [';'] rest)
  | cons y v =>
    obtain ⟨rfl, -⟩ := List.cons_prefix_cons.1 hp
    exact hn (List.prefix_append [_] _)

theorem block_refused (hc : Poised ';' rest rest' c c') :
    Derives grammar false (call block) c' none := by
  obtain ⟨v, hv, -, hrest'⟩ := hc
  refine .call_none (by decide) (.seq_none_left (.lit_none (Cursor.text?_eq_none ?_)))
  intro hp
  rw [hrest'] at hp
  cases hv with
  | nil => cases (List.cons_prefix_cons.1 hp).1
  | inner hz _ =>
    obtain ⟨rfl, -⟩ := List.cons_prefix_cons.1 hp
    cases hz
  | blank hb _ =>
    obtain ⟨y, b, rfl, hy⟩ := hb.exists_cons
    obtain ⟨rfl, -⟩ := List.cons_prefix_cons.1 hp
    cases hy

/-- An `if` cannot fail behind its statement. -/
theorem branch_refused {x : Expr Rule}
    (h : Derives grammar false (seq x (seq gap (opt (call elseClause)))) c none) :
    Derives grammar false x c none := by
  cases h with
  | seq_none_left hx => exact hx
  | seq_none_right hx h =>
    cases h with
    | seq_none_left hg =>
      obtain ⟨e, he⟩ := exists_gap false _
      cases hg.det he
    | seq_none_right hg ho =>
      cases ho with
      | alt_right _ hempty => cases hempty

/-- A rule with an opening fails in front of a semicolon whatever follows it, if statements do. -/
theorem opened_refused (hr : r ∈ openedRules) (hc : Poised ';' rest rest' c c')
    (ih : ∀ d d', d.rest.length < c.rest.length → Poised ';' rest rest' d d' →
      Derives grammar false (call statement) d none →
        Derives grammar false (call statement) d' none)
    (h : Derives grammar false (call r) c none) : Derives grammar false (call r) c' none := by
  have hv := ne_silent_of_normal (normal_opened hr)
  have hnormal : (grammar.production r).visibility = .normal := normal_opened hr
  have hbody : (grammar.production r).body = .endingIn (opening r) (closing r) := pattern_opened hr
  have hb : Derives grammar false (.endingIn (opening r) (closing r)) c none := by
    cases h with
    | call_silent hs _ => exact absurd hs hv
    | call_none _ hb =>
      rw [hnormal, hbody] at hb
      exact hb
  refine .call_none hv ?_
  rw [hnormal, hbody]
  rcases hb.inv_endingIn_none with hopen | ⟨us, d, hopen, hclose⟩
  · exact (hc.refuses (by decide) (inline_opening r) hopen).endingIn_none_left
  · obtain ⟨us', d', _, hopen', -, -, hd⟩ := hc.takes (by decide) (inline_opening r) hopen
    have hstatement := ih d d' (opening_advances hopen) hd
    apply hopen'.endingIn_none_right
    simp only [openedRules, List.mem_cons, List.not_mem_nil, or_false] at hr
    rcases hr with rfl | rfl | rfl | rfl | rfl
    · exact .seq_none_left (hstatement (branch_refused hclose))
    · exact hstatement hclose
    · exact hstatement hclose
    · exact semicolon_refused hd hclose
    · exact semicolon_refused hd hclose

theorem mem_statementRules (hr : r ∈ statementRules) : r = block ∨ r ∈ openedRules := by
  revert r
  decide

theorem statement_refused (hc : Poised ';' rest rest' c c')
    (h : Derives grammar false (call statement) c none) :
    Derives grammar false (call statement) c' none := by
  induction hn : c.rest.length using Nat.strong_induction_on generalizing c c' with
  | _ n ih =>
    subst hn
    have hall : ∀ r ∈ statementRules, Derives grammar false (call r) c none :=
      (h.inv_silent rfl).inv_oneOf_call_none
    have hall' : ∀ r ∈ statementRules, Derives grammar false (call r) c' none := by
      intro r hr
      rcases mem_statementRules hr with rfl | ho
      · exact block_refused hc
      · exact opened_refused ho hc (fun d d' hlt hd hs => ih _ hlt hd hs rfl) (hall r hr)
    exact .call_silent rfl (.oneOf_call_none hall')

end Refusal

/-- A statement is matched by the first of its rules that matches. -/
theorem inv_statement_rule (h : Derives grammar false (call statement) c (some (ts, d))) :
    ∃ r ∈ statementRules,
      (∀ r' ∈ statementRules.takeWhile (· ≠ r), Derives grammar false (call r') c none) ∧
      Derives grammar false (call r) c (some (ts, d)) :=
  (show Derives grammar false (oneOf (statementRules.map call)) c (some (ts, d)) from
    h.inv_silent rfl).inv_oneOf_call

theorem statement_of_rule (hr : r ∈ statementRules)
    (hpre : ∀ r' ∈ statementRules.takeWhile (· ≠ r), Derives grammar false (call r') c none)
    (h : Derives grammar false (call r) c (some (ts, d))) :
    Derives grammar false (call statement) c (some (ts, d)) :=
  .call_silent rfl (show Derives grammar false (oneOf (statementRules.map call)) c _ from
    .oneOf_call hr hpre h)

theorem fits_of_statement_rule (hr : r ∈ statementRules)
    (h : Derives grammar false (call r) c (some (ts, d))) : ∃ t, ts = [t] ∧ Fits r t :=
  Makes.call ((by decide : ∀ r ∈ statementRules, visibility r ≠ .silent) r hr) ⟨_, _, h⟩

theorem statementRules_cases (hr : r ∈ statementRules) :
    r = block ∨ (r = ifStmt ∨ r = whileStmt) ∨ r = returnStmt ∨ r = exprStmt := by
  revert r
  decide

section Marks

variable {m : Cursor}

theorem simple_spans (hr : r = returnStmt ∨ r = exprStmt)
    (h : Derives grammar false (call r) c (some (ts, d))) :
    ∃ v, Stretch v ∧ c.Spans d (v ++ [';']) := by
  have ho : r ∈ openedRules := by
    rcases hr with rfl | rfl
    all_goals decide
  have hlit : closing r = lit ";" := by
    rcases hr with rfl | rfl
    all_goals rfl
  obtain ⟨us, m, vs, _, _, _, hopen, hclose, -⟩ := inv_opened ho h
  rw [hlit] at hclose
  have hend := hclose.inv_lit.2
  obtain ⟨v, hs, hv⟩ := stretch_of_derives hopen (inline_opening r) (rest_ne_nil_of_cons hend)
  exact ⟨v, hv, hs.trans hend⟩

theorem opened_spans (hr : (r, w) ∈ opened)
    (h : Derives grammar false (call r) c (some (ts, d))) : ∃ v, c.Spans d (w.toList ++ v) := by
  simp only [opened, List.mem_cons, List.not_mem_nil, or_false, Prod.mk.injEq] at hr
  rcases hr with ⟨rfl, rfl⟩ | ⟨rfl, rfl⟩ | ⟨rfl, rfl⟩ | ⟨rfl, rfl⟩
  all_goals
    obtain ⟨_, hb, -⟩ := h.inv_call (by decide)
    obtain ⟨_, m, _, hl, hrest, -⟩ := hb.inv_seq
    obtain ⟨v, hv⟩ := hrest.spans
    exact ⟨v, hl.inv_lit.2.trans hv⟩

theorem opening_spans (h : Derives grammar false (.endingIn (opening r) .empty) c (some (ts, m)))
    (hm : m.rest ≠ []) : ∃ v, Stretch v ∧ c.Spans m v := by
  obtain ⟨v, hs, hv⟩ := stretch_of_derives h (inline_opening r) hm
  exact ⟨v, hv, hs⟩

/-- The text of a statement has a mark. -/
theorem exists_mark (h : Derives grammar false (call statement) c (some (ts, d))) :
    ∃ v z w, z ∈ marks ∧ Stretch v ∧ c.Spans d (v ++ z :: w) := by
  induction hn : c.rest.length using Nat.strong_induction_on generalizing c d ts with
  | _ n ih =>
    subst hn
    obtain ⟨r, hr, -, h⟩ := inv_statement_rule h
    rcases statementRules_cases hr with rfl | hcond | hsimple
    · obtain ⟨w, hs⟩ := opened_spans (w := "\x7b") (by decide) h
      exact ⟨[], '\x7b', w, by decide, .nil, hs⟩
    · have ho : r ∈ openedRules := by
        rcases hcond with rfl | rfl
        all_goals decide
      obtain ⟨us, m, vs, _, _, _, hopen, hclose, -⟩ := inv_opened ho h
      -- The statement behind the condition has a mark, and the condition has none.
      obtain ⟨us', e, hstatement, w', hrest⟩ : ∃ us' e,
          Derives grammar false (call statement) m (some (us', e)) ∧ ∃ w', e.Spans d w' := by
        rcases hcond with rfl | rfl
        · obtain ⟨us', e, _, hs, hrest, -⟩ := hclose.inv_seq
          exact ⟨us', e, hs, hrest.spans⟩
        · exact ⟨vs, d, hclose, [], .refl d⟩
      obtain ⟨v, z, w, hz, hv, hs⟩ := ih _ (opening_advances hopen) hstatement rfl
      have hne : m.rest ≠ [] := by
        rw [hs.rest]
        simp
      obtain ⟨v₀, hv₀, hs₀⟩ := opening_spans hopen hne
      refine ⟨v₀ ++ v, z, w ++ w', hz, hv₀.append hv, ?_⟩
      have hall := hs₀.trans (hs.trans hrest)
      simpa using hall
    · obtain ⟨v, hv, hs⟩ := simple_spans hsimple h
      exact ⟨v, ';', [], by decide, hv, hs⟩

/-- No gap stands in front of a statement behind a gap. -/
theorem opens_of_mark {v w : List Char} {z : Char} (hc : Settled c) (hz : z ∈ marks)
    (hv : Stretch v) (hs : c.Spans d (v ++ z :: w)) :
    ∀ y ∈ (v ++ z :: w).head?, opensToken y = true := by
  obtain ⟨g, v', rfl, hg, -, hopens⟩ := hv.exists_gap
  have hhead : ∀ rest, ∀ y ∈ (v' ++ z :: rest).head?, opensToken y = true := by
    intro rest y hy
    cases v' with
    | nil =>
      cases hy
      exact opensToken_of_mark hz
    | cons a v' => exact hopens y hy
  have hrest : c.rest = g ++ (v' ++ z :: (w ++ d.rest)) := by
    rw [hs.rest]
    simp
  have hgap : Derives grammar false gap c (some ([], ⟨c.position.after g, _⟩)) :=
    gap_of_spans hg ⟨hrest, rfl⟩ (hhead _)
  have hnil : g = [] := by
    have hstay := congrArg Cursor.rest (hc.gap_eq hgap)
    rw [hrest] at hstay
    exact List.self_eq_append_left.1 hstay
  rw [hnil]
  exact hhead w

end Marks

/-- Where the parse of statements goes on when the text of `t` has been read up to `d`: behind the
gap, or behind the gap that follows an `else` if `t` goes on with it. -/
inductive Resumes (t : ParseTree Rule) (d f : Cursor) : Prop where
  | closed : ¬Dangles t → Derives grammar false gap d (some ([], f)) → Resumes t d f
  | dangling {ts : List (ParseTree Rule)} {e : Cursor} : Dangles t →
    (∀ z ∈ d.rest.head?, opensToken z = true) →
    Derives grammar false (opt (call elseClause)) d (some (ts, e)) →
    Derives grammar false gap e (some ([], f)) → Derives grammar false (call elseClause) f none →
    Resumes t d f

theorem Resumes.congr {u : ParseTree Rule} {f : Cursor} (h : Resumes t d f)
    (ht : Dangles t ↔ Dangles u) : Resumes u d f := by
  cases h with
  | closed hn hg => exact .closed (mt ht.2 hn) hg
  | dangling hd ho he hg hn => exact .dangling (ht.1 hd) ho he hg hn

section Travel

variable {m f : Cursor} {p q p' q' : Position} {s s' : String} {v x : ParseTree Rule}

theorem dangles_loop : Dangles (.node whileStmt p q s [t, v]) ↔ Dangles v := by
  constructor
  · intro h
    cases h with
    | loop h => exact h
  · exact .loop

theorem dangles_otherwise :
    Dangles (.node ifStmt p q s [t, v, .node elseClause p' q' s' [x]]) ↔ Dangles x := by
  constructor
  · intro h
    cases h with
    | otherwise h => exact h
  · exact .otherwise

theorem condition_trees (h : Derives grammar false (.endingIn (condition w) .empty)
      c (some (ts, m))) :
    ∃ t, ts = [t] := by
  obtain ⟨_, _, _, h₁, k₁, rfl⟩ := h.inv_seq
  obtain ⟨_, _, _, h₂, k₂, rfl⟩ := k₁.inv_seq
  obtain ⟨_, _, _, h₃, k₃, rfl⟩ := k₂.inv_seq
  obtain ⟨_, _, _, h₄, k₄, rfl⟩ := k₃.inv_seq
  obtain ⟨_, _, _, h₅, k₅, rfl⟩ := k₄.inv_seq
  obtain ⟨_, _, _, h₆, k₆, rfl⟩ := k₅.inv_seq
  obtain ⟨_, _, _, h₇, k₇, rfl⟩ := k₆.inv_seq
  obtain ⟨_, _, _, h₈, k₈, rfl⟩ := k₇.inv_seq
  obtain ⟨_, -, rfl⟩ := h₅.inv_call (by decide)
  rw [h₁.inv_lit.1, trees_of_gap h₂, h₃.inv_lit.1, trees_of_gap h₄, trees_of_gap h₆, h₇.inv_lit.1,
    trees_of_gap h₈]
  cases k₈
  exact ⟨_, rfl⟩

theorem else_trees
    (h : Derives grammar false (.endingIn (opening elseClause) .empty) c (some (ts, m))) :
    ts = [] := by
  obtain ⟨_, _, _, h₁, k₁, rfl⟩ := h.inv_seq
  obtain ⟨_, _, _, h₂, k₂, rfl⟩ := k₁.inv_seq
  rw [h₁.inv_lit.1, trees_of_gap h₂]
  cases k₂
  rfl

theorem simple_travels (hr : r = returnStmt ∨ r = exprStmt)
    (h : Derives grammar false (call r) c (some (ts, d))) (hs : c.Spans d u) (hs' : c'.Spans d' u) :
    ∃ t, Derives grammar false (call r) c' (some ([t], d')) ∧ t.rule = r ∧
      ∃ rest rest', Poised ';' rest rest' c c' := by
  obtain ⟨v, hv, hv'⟩ := simple_spans hr h
  cases hs.text_inj hv'
  have hc : Poised ';' d.rest d'.rest c c' := by
    refine ⟨v, hv, ?_, ?_⟩
    · rw [hs.rest]
      simp
    · rw [hs'.rest]
      simp
  have ho : r ∈ openedRules := by
    rcases hr with rfl | rfl
    all_goals decide
  have hlit : closing r = lit ";" := by
    rcases hr with rfl | rfl
    all_goals rfl
  obtain ⟨us, m, vs, _, _, _, hopen, hclose, -⟩ := inv_opened ho h
  rw [hlit] at hclose
  obtain ⟨us', m', v₁, hopen', hm, hm', -⟩ := hc.takes (by decide) (inline_opening r) hopen
  -- The semicolon stands at the end of the text, so the opening takes the text before it.
  have htext := hs.text_inj (hm.trans hclose.inv_lit.2)
  cases List.append_cancel_right htext
  obtain ⟨m'', hsplit, hend⟩ := hs'.split
  cases hm'.det hsplit
  have hclose' : Derives grammar false (closing r) m' (some ([], d')) := by
    rw [hlit]
    exact lit_of_spans hend
  obtain ⟨p, q, s, hcall⟩ := opened_matches ho hopen' hclose'
  exact ⟨_, hcall, rfl, _, _, hc⟩

theorem block_travels (h : Derives grammar false (call block) c (some (ts, d)))
    (hs : c.Spans d u) (hs' : c'.Spans d' u) :
    ∃ t, Derives grammar false (call block) c' (some ([t], d')) ∧ t.rule = block := by
  obtain ⟨us, hb, -⟩ := h.inv_call (by decide)
  obtain ⟨_, c₁, c₂, _, hopen, hg₁, hb, -⟩ := inv_phrase hb
  obtain ⟨_, c₃, c₄, _, hmany, hg₂, hend, -⟩ := inv_phrase hb
  have hs₁ := hopen.inv_lit.2
  have hs₃ := (Derives.inv_lit hend).2
  obtain ⟨cs, hs₂, hbody⟩ := body_travels (.seq hg₁ (.seq hmany hg₂)) rfl hs₃
  cases hs.text_inj (hs₁.trans (hs₂.trans hs₃))
  obtain ⟨c₁', hs₁', hrest⟩ := hs'.split
  obtain ⟨c₂', hs₂', hs₃'⟩ := hrest.split
  obtain ⟨_, hbody', -⟩ := hbody _ _ _ hs₂' hs₃' _ _ (Nat.add_comm c₁.position.line _)
  obtain ⟨_, _, _, hg₁', hrest, rfl⟩ := hbody'.inv_seq
  obtain ⟨_, _, _, hmany', hg₂', rfl⟩ := hrest.inv_seq
  have hphrase := Derives.seq (lit_of_spans (q := false) hs₁')
    (.seq hg₁' (.seq hmany' (.seq hg₂' (lit_of_spans hs₃'))))
  exact ⟨_, .call (g := grammar) (r := block) (by decide) hphrase, rfl⟩

theorem opened_rest (hr : (r, w) ∈ opened) (h : Derives grammar false (call r) c (some (ts, d)))
    (hs : c.Spans d u) (hs' : c'.Spans d' u) : ∃ v, c'.rest = w.toList ++ v := by
  obtain ⟨v, hv⟩ := opened_spans hr h
  rw [hs.text_inj hv] at hs'
  exact ⟨v ++ d'.rest, by rw [hs'.rest, List.append_assoc]⟩

/-- The rules that are tried before a statement fail in front of other text as well. -/
theorem earlier_refused (hr : r ∈ statementRules)
    (h : Derives grammar false (call r) c (some (ts, d))) (hs : c.Spans d u) (hs' : c'.Spans d' u)
    (hpre : ∀ r' ∈ statementRules.takeWhile (· ≠ r), Derives grammar false (call r') c none) :
    ∀ r' ∈ statementRules.takeWhile (· ≠ r), Derives grammar false (call r') c' none := by
  rcases statementRules_cases hr with rfl | (rfl | rfl) | hsimple
  · exact List.forall_mem_nil _
  · obtain ⟨v, hv⟩ := opened_rest (w := "if") (by decide) h hs hs'
    have hblock : Derives grammar false (call block) c' none :=
      (refuses_opened (w := "\x7b") (by decide) (avoids_of_head (by decide))).of_rest hv
    exact List.forall_mem_singleton.2 hblock
  · obtain ⟨v, hv⟩ := opened_rest (w := "while") (by decide) h hs hs'
    have hblock : Derives grammar false (call block) c' none :=
      (refuses_opened (w := "\x7b") (by decide) (avoids_of_head (by decide))).of_rest hv
    have hif : Derives grammar false (call ifStmt) c' none :=
      (refuses_opened (w := "if") (by decide) (avoids_of_head (by decide))).of_rest hv
    exact List.forall_mem_cons.2 ⟨hblock, List.forall_mem_singleton.2 hif⟩
  · obtain ⟨t, -, -, rest, rest', hc⟩ := simple_travels hsimple h hs hs'
    intro r' hr'
    have hmem := (List.takeWhile_prefix _).subset hr'
    rcases mem_statementRules hmem with rfl | ho
    · exact block_refused hc
    · exact opened_refused ho hc (fun _ _ _ => statement_refused) (hpre r' hr')

/-- The statement is matched in front of other text as well, and the parse goes on where it should.
-/
def Portable (c d : Cursor) (t : ParseTree Rule) : Prop :=
  ∀ (u : List Char) (c' d' f : Cursor), c.Spans d u → c'.Spans d' u → Resumes t d' f →
    ∃ t' e, Derives grammar false (call statement) c' (some ([t'], e)) ∧
      Derives grammar false gap e (some ([], f)) ∧ t'.rule = t.rule

theorem opening_travels {e e' m' : Cursor} {u₁ : List Char}
    (hopen : Derives grammar false (.endingIn (opening r) .empty) c (some (us, m)))
    (h : Derives grammar false (call statement) m (some (ts, e))) (hs : c.Spans m u)
    (he : m.Spans e u₁) (hs' : c'.Spans m' u) (he' : m'.Spans e' u₁) :
    ∃ us', Derives grammar false (.endingIn (opening r) .empty) c' (some (us', m')) := by
  obtain ⟨v, z, w, hz, hv, hmark⟩ := exists_mark h
  cases he.text_inj hmark
  exact inline_travels hz hv (inline_opening r) hopen hs he hs' he'

theorem loop_travels
    (hopen : Derives grammar false (.endingIn (opening whileStmt) .empty) c (some (us, m)))
    (h : Derives grammar false (call statement) m (some ([v], d))) (hp : Portable m d v)
    (hs : c.Spans d u) (hs' : c'.Spans d' u) (hf : Resumes v d' f) :
    ∃ t e, Derives grammar false (call whileStmt) c' (some ([t], e)) ∧
      Derives grammar false gap e (some ([], f)) ∧ t.rule = whileStmt := by
  obtain ⟨u₀, hs₀⟩ := hopen.spans
  obtain ⟨u₁, hs₁⟩ := h.spans
  cases hs.text_inj (hs₀.trans hs₁)
  obtain ⟨m', hs₀', hs₁'⟩ := hs'.split
  obtain ⟨us', hopen'⟩ := opening_travels hopen h hs₀ hs₁ hs₀' hs₁'
  obtain ⟨v', e, hv', hg, -⟩ := hp u₁ m' d' f hs₁ hs₁' hf
  obtain ⟨p, q, s, hcall⟩ := opened_matches (r := whileStmt) (by decide) hopen' hv'
  exact ⟨_, e, hcall, hg, rfl⟩

/-- An `if` without `else` takes an `else` that follows, unless the statement in it takes it. -/
theorem branch_travels {m₂ : Cursor}
    (hopen : Derives grammar false (.endingIn (opening ifStmt) .empty) c (some (us, m)))
    (h : Derives grammar false (call statement) m (some ([v], m₂))) (hp : Portable m m₂ v)
    (hg : Derives grammar false gap m₂ (some ([], d))) (hd : d.rest ≠ [])
    (hs : c.Spans d u) (hs' : c'.Spans d' u) (hf : Resumes t d' f) (ht : Dangles t) :
    ∃ t' e, Derives grammar false (call ifStmt) c' (some ([t'], e)) ∧
      Derives grammar false gap e (some ([], f)) ∧ t'.rule = ifStmt := by
  obtain ⟨u₀, hs₀⟩ := hopen.spans
  obtain ⟨u₁, hs₁⟩ := h.spans
  obtain ⟨g, hs₂, -, hblanks⟩ := inv_gap hg
  have hblanks := hblanks hd
  cases hs.text_inj (hs₀.trans (hs₁.trans hs₂))
  obtain ⟨m', hs₀', hrest⟩ := hs'.split
  obtain ⟨m₂', hs₁', hs₂'⟩ := hrest.split
  obtain ⟨us', hopen'⟩ := opening_travels hopen h hs₀ hs₁ hs₀' hs₁'
  cases hf with
  | closed hn _ => exact absurd ht hn
  | @dangling vs e _ hopens he hgap hn =>
    by_cases hv : Dangles v
    · -- Nothing but the `else` can follow the inner statement, so no gap stands behind it.
      obtain ⟨hsettled, -⟩ := hv.no_else h
      cases hsettled.gap_eq hg
      cases hs₂.text_inj (.refl d)
      cases hs₂'.det (.refl m₂')
      obtain ⟨v', e', hv', hg', -⟩ := hp u₁ m' d' f hs₁ hs₁' (.dangling hv hopens he hgap hn)
      have hclose : Derives grammar false (closing ifStmt) m' (some ([v'] ++ ([] ++ []), f)) :=
        .seq hv' (.seq hg' (.alt_right hn .empty))
      obtain ⟨p, q, s, hcall⟩ := opened_matches (by decide) hopen' hclose
      exact ⟨_, f, hcall, (settled_of_gap hgap).gap, rfl⟩
    · have hg' := gap_of_spans (q := false) hblanks hs₂' hopens
      obtain ⟨v', e', hv', hg', -⟩ := hp u₁ m' m₂' d' hs₁ hs₁' (.closed hv hg')
      have hclose : Derives grammar false (closing ifStmt) m' (some ([v'] ++ ([] ++ vs), e)) :=
        .seq hv' (.seq hg' he)
      obtain ⟨p, q, s, hcall⟩ := opened_matches (by decide) hopen' hclose
      exact ⟨_, e, hcall, hgap, rfl⟩

theorem otherwise_travels {m₂ m₃ m₄ : Cursor} {vs ws : List (ParseTree Rule)}
    (hopen : Derives grammar false (.endingIn (opening ifStmt) .empty) c (some (us, m)))
    (h : Derives grammar false (call statement) m (some ([v], m₂))) (hp : Portable m m₂ v)
    (hg : Derives grammar false gap m₂ (some ([], m₃)))
    (he : Derives grammar false (call elseClause) m₃ (some (vs, d)))
    (hopen₂ : Derives grammar false (.endingIn (opening elseClause) .empty) m₃ (some (ws, m₄)))
    (h₂ : Derives grammar false (call statement) m₄ (some ([x], d))) (hp₂ : Portable m₄ d x)
    (hs : c.Spans d u) (hs' : c'.Spans d' u) (hf : Resumes x d' f) :
    ∃ t e, Derives grammar false (call ifStmt) c' (some ([t], e)) ∧
      Derives grammar false gap e (some ([], f)) ∧ t.rule = ifStmt := by
  obtain ⟨u₀, hs₀⟩ := hopen.spans
  obtain ⟨u₁, hs₁⟩ := h.spans
  obtain ⟨u₂, hs₃⟩ := hopen₂.spans
  obtain ⟨u₃, hs₄⟩ := h₂.spans
  -- The `else` stands at once behind the gap.
  obtain ⟨k, hkey⟩ : ∃ k, u₂ = 'e' :: k := by
    obtain ⟨_, n, _, hl, hrest, -⟩ := hopen₂.inv_seq
    obtain ⟨k, hk⟩ := hrest.spans
    exact ⟨_, hs₃.text_inj (hl.inv_lit.2.trans hk)⟩
  obtain ⟨g, hs₂, -, hblanks⟩ := inv_gap hg
  have hblanks : Blanks g := by
    apply hblanks
    rw [hs₃.rest, hkey]
    exact List.cons_ne_nil _ _
  cases hs.text_inj (hs₀.trans (hs₁.trans (hs₂.trans (hs₃.trans hs₄))))
  obtain ⟨m', hs₀', hrest⟩ := hs'.split
  obtain ⟨m₂', hs₁', hrest⟩ := hrest.split
  obtain ⟨m₃', hs₂', hrest⟩ := hrest.split
  obtain ⟨m₄', hs₃', hs₄'⟩ := hrest.split
  obtain ⟨us', hopen'⟩ := opening_travels hopen h hs₀ hs₁ hs₀' hs₁'
  obtain ⟨ws', hopen₂'⟩ := opening_travels hopen₂ h₂ hs₃ hs₄ hs₃' hs₄'
  have hv : ¬Dangles v := by
    intro hv
    obtain ⟨hsettled, hn⟩ := hv.no_else h
    cases hsettled.gap_eq hg
    cases hn.det he
  have hg' : Derives grammar false gap m₂' (some ([], m₃')) := by
    apply gap_of_spans hblanks hs₂'
    rw [hkey] at hs₃'
    exact opens_of_cons rfl hs₃'
  obtain ⟨v', e₁, hv', hg₁, -⟩ := hp u₁ m' m₂' m₃' hs₁ hs₁' (.closed hv hg')
  obtain ⟨x', e₂, hx', hg₂, -⟩ := hp₂ u₃ m₄' d' f hs₄ hs₄' hf
  obtain ⟨_, _, _, helse⟩ := opened_matches (r := elseClause) (by decide) hopen₂' hx'
  have hclose : Derives grammar false (closing ifStmt) m' (some ([v'] ++ ([] ++ [_]), e₂)) :=
    .seq hv' (.seq hg₁ (.alt_left helse))
  obtain ⟨p, q, s, hcall⟩ := opened_matches (by decide) hopen' hclose
  exact ⟨_, e₂, hcall, hg₂, rfl⟩

/-- An `if` is matched in front of other text if the statements in it are. -/
theorem ifStmt_travels (h : Derives grammar false (call ifStmt) c (some ([t], d)))
    (hd : d.rest ≠ []) (hs : c.Spans d u) (hs' : c'.Spans d' u) (hf : Resumes t d' f)
    (ih : ∀ m e v, m.rest.length < c.rest.length →
      Derives grammar false (call statement) m (some ([v], e)) → e.rest ≠ [] → Portable m e v) :
    ∃ t' e, Derives grammar false (call ifStmt) c' (some ([t'], e)) ∧
      Derives grammar false gap e (some ([], f)) ∧ t'.rule = ifStmt := by
  obtain ⟨us, m, vs, p, q, s, hopen, hclose, hts⟩ := inv_opened (by decide) h
  cases hts
  obtain ⟨_, m₂, _, hv, hrest, rfl⟩ := hclose.inv_seq
  obtain ⟨_, m₃, ws, hg, ho, rfl⟩ := hrest.inv_seq
  obtain ⟨v, rfl, -⟩ := inv_statement hv
  cases trees_of_gap hg
  obtain ⟨t₀, rfl⟩ := condition_trees hopen
  obtain ⟨_, hs₁⟩ := hv.spans
  obtain ⟨_, hs₂⟩ := hg.spans
  obtain ⟨_, hs₃⟩ := ho.spans
  have hlt := opening_advances hopen
  have hp := ih _ _ _ hlt hv (hs₂.rest_ne_nil (hs₃.rest_ne_nil hd))
  rcases ho.inv_opt with he | ⟨-, rfl, rfl⟩
  · obtain ⟨ws, m₄, _, _, _, _, hopen₂, hx, hts⟩ := inv_opened (by decide) he
    cases hts
    obtain ⟨x, rfl, -⟩ := inv_statement hx
    cases else_trees hopen₂
    have hlt₂ : m₄.rest.length < c.rest.length := by
      have hadvances := opening_advances hopen₂
      have hle := (hs₁.trans hs₂).length_le
      omega
    exact otherwise_travels hopen hv hp hg he hopen₂ hx (ih _ _ _ hlt₂ hx hd) hs hs'
      (hf.congr dangles_otherwise)
  · exact branch_travels hopen hv hp hg hd hs hs' hf .branch

/-- Every statement with something behind it is matched in front of other text as well. -/
theorem portable (h : Derives grammar false (call statement) c (some ([t], d)))
    (hd : d.rest ≠ []) : Portable c d t := by
  induction hn : c.rest.length using Nat.strong_induction_on generalizing c d t with
  | _ n ih =>
    subst hn
    intro u c' d' f hs hs' hf
    obtain ⟨r, hr, hpre, hrule⟩ := inv_statement_rule h
    obtain ⟨_, ht, hfits⟩ := fits_of_statement_rule hr hrule
    cases ht
    have hclosed (hn : ¬Dangles t) : Derives grammar false gap d' (some ([], f)) := by
      cases hf with
      | closed _ hg => exact hg
      | dangling ht => exact absurd ht hn
    -- It is enough that the rule of the statement matches.
    suffices hmatch : ∃ t' e, Derives grammar false (call r) c' (some ([t'], e)) ∧
        Derives grammar false gap e (some ([], f)) ∧ t'.rule = r by
      obtain ⟨t', e, ht', hg, hrule'⟩ := hmatch
      have hpre' := earlier_refused hr hrule hs hs' hpre
      exact ⟨t', e, statement_of_rule hr hpre' ht', hg, hrule'.trans hfits.1.symm⟩
    rcases statementRules_cases hr with rfl | (rfl | rfl) | hsimple
    · obtain ⟨t', ht', hrule'⟩ := block_travels hrule hs hs'
      refine ⟨t', d', ht', hclosed ?_, hrule'⟩
      intro hn
      cases hn with
      | _ => cases hfits.1
    · exact ifStmt_travels hrule hd hs hs' hf fun m e v hlt hv he => ih _ hlt hv he rfl
    · obtain ⟨us, m, vs, p, q, s, hopen, hclose, hts⟩ := inv_opened (by decide) hrule
      cases hts
      obtain ⟨v, rfl, -⟩ := inv_statement hclose
      obtain ⟨t₀, rfl⟩ := condition_trees hopen
      have hp := ih _ (opening_advances hopen) hclose hd rfl
      exact loop_travels hopen hclose hp hs hs' (hf.congr dangles_loop)
    · obtain ⟨t', ht', hrule', -⟩ := simple_travels hsimple hrule hs hs'
      refine ⟨t', d', ht', hclosed ?_, hrule'⟩
      intro hn
      rcases hsimple with rfl | rfl
      all_goals
        cases hn with
        | _ => cases hfits.1

end Travel

end Twig

end TreeMetrics
