import TreeMetrics.Proofs.Twig.Spacing

namespace TreeMetrics

namespace Derives

variable {ρ : Type} {g : Grammar ρ} {q : Bool} {x : Expr ρ} {r : ρ} {c d : Cursor} {o : Outcome ρ}
variable {ts : List (ParseTree ρ)}

theorem inv_body (hv : (g.production r).visibility = .silent) (h : Derives g q (.call r) c o) :
    Derives g q (g.production r).body c o := by
  cases q with
  | true =>
    cases h with
    | call_quiet hb => exact hb
  | false => exact h.inv_silent hv

end Derives

namespace Twig

open TreeMetrics.Expr TreeMetrics.Twig.Rule

variable {q : Bool} {c d : Cursor} {ts : List (ParseTree Rule)} {b e g body rest : List Char}

theorem Blanks.append (h : Blanks b) (h' : Blanks g) : Blanks (b ++ g) := by
  obtain ⟨bs, hbs, rfl⟩ := h
  obtain ⟨gs, hgs, rfl⟩ := h'
  refine ⟨bs ++ gs, ?_, List.flatten_append.symm⟩
  intro u hu
  exact (List.mem_append.1 hu).elim (hbs u) (hgs u)

/-- Blank text up to the end of the source, where a comment needs no end of line. -/
inductive Trailing : List Char → Prop where
  | blanks {g : List Char} : Blanks g → Trailing g
  | line {g body : List Char} : Blanks g → (∀ z ∈ body, breaksLine z = false) →
    Trailing (g ++ '/' :: '/' :: body)

theorem Trailing.append (hb : Blanks b) (h : Trailing g) : Trailing (b ++ g) := by
  cases h with
  | blanks hg => exact .blanks (hb.append hg)
  | line hg hbody =>
    rw [← List.append_assoc]
    exact .line (hb.append hg) hbody

/-- An end of line makes blank text of what stood at the end of the source. -/
theorem Trailing.blanks_append (h : Trailing g) (he : e ∈ lineBreaks) : Blanks (g ++ e) := by
  cases h with
  | blanks hg => exact hg.append (.one (.lineBreak he))
  | @line g body hg hbody =>
    rw [List.append_assoc]
    exact hg.append (.one (.line hbody he))

theorem gap_trailing (h : Trailing g) (q : Bool) (p : Position) :
    Derives grammar q gap ⟨p, g⟩ (some ([], ⟨p.after g, []⟩)) := by
  cases h with
  | blanks hg =>
    have hend : ∀ z ∈ ([] : List Char).head?, opensToken z = true := fun z hz => by cases hz
    have hgap := gap_append hg hend q p
    rwa [List.append_nil] at hgap
  | @line g body hg hbody =>
    obtain ⟨bs, hbs, rfl⟩ := hg
    have hend : ∀ z ∈ ([] : List Char).head?, breaksLine z = true := fun z hz => by cases hz
    have hdone : ∀ p, Skips q p [] [] := by
      intro p
      show Skips q p ([] ++ ([] : List (List Char)).flatten) []
      exact skips_pieces (List.forall_mem_nil _) (fun z hz => by cases hz) (List.forall_mem_nil _) p
    have hline : ∀ b p, (∀ y ∈ b, isBlankChar y = true) →
        Skips q p (b ++ '/' :: '/' :: body) [] := by
      intro b p hb
      have hs := Skips.comment (u := '/' :: body) hb
        (fun p => comment_line_append hbody hend p) hdone p
      rwa [List.append_nil] at hs
    obtain ⟨d, hw, hc⟩ := skips_append (b := []) hbs hline (List.forall_mem_nil _) p
    rw [List.append_nil] at hw
    exact .seq hw hc

theorem inv_newline (h : Derives grammar q newline c (some (ts, d))) :
    ∃ e ∈ lineBreaks, c.Spans d e := by
  obtain ⟨x, hx, h⟩ := h.inv_oneOf
  simp only [List.mem_cons, List.not_mem_nil, or_false] at hx
  rcases hx with rfl | rfl | rfl
  · exact ⟨['\n'], by simp [lineBreaks], h.inv_lit.2⟩
  · exact ⟨['\r', '\n'], by simp [lineBreaks], h.inv_lit.2⟩
  · exact ⟨['\r'], by simp [lineBreaks], h.inv_lit.2⟩

theorem inv_whitespace (h : Derives grammar q (.call whitespace) c (some (ts, d))) :
    ∃ b, c.Spans d b ∧ (b = [' '] ∨ b = ['\t'] ∨ b ∈ lineBreaks) := by
  obtain ⟨x, hx, h⟩ := (h.inv_body rfl).inv_oneOf
  simp only [List.mem_cons, List.not_mem_nil, or_false] at hx
  rcases hx with rfl | rfl | rfl
  · exact ⟨[' '], h.inv_lit.2, .inl rfl⟩
  · exact ⟨['\t'], h.inv_lit.2, .inr (.inl rfl)⟩
  · obtain ⟨e, he, hs⟩ := inv_newline h
    exact ⟨e, hs, .inr (.inr he)⟩

theorem not_whitespace_none {z : Char} (hz : breaksLine z = true) (hc : c.rest.head? = some z) :
    ¬Derives grammar q (.call whitespace) c none := by
  intro h
  obtain ⟨p, rest⟩ := c
  obtain ⟨cs, rfl⟩ : ∃ cs, rest = z :: cs := List.head?_eq_some_iff.1 hc
  obtain ⟨d, hd⟩ := newline_cons (q := q) hz p cs
  have hn : ∀ k ∈ [" ", "\t"], ¬k.toList <+: z :: cs := by
    intro k hk hp
    simp only [List.mem_cons, List.not_mem_nil, or_false] at hk
    rcases hk with rfl | rfl
    all_goals
      obtain ⟨rfl, -⟩ := List.cons_prefix_cons.1 hp
      cases hz
  have hw : Derives grammar q (.call whitespace) ⟨p, z :: cs⟩ (some ([], d)) :=
    .silent rfl (.alt_right (.lit_fails (hn " " (by simp)))
      (.alt_right (.lit_fails (hn "\t" (by simp))) hd))
  cases h.det hw

theorem inv_whitespaces (h : Derives grammar q (.star (.call whitespace)) c (some (ts, d))) :
    ∃ bs : List (List Char), c.Spans d bs.flatten ∧
      ∀ b ∈ bs, b = [' '] ∨ b = ['\t'] ∨ b ∈ lineBreaks :=
  h.inv_star_spans inv_whitespace

theorem blanks_of_whitespaces {bs : List (List Char)}
    (h : ∀ b ∈ bs, b = [' '] ∨ b = ['\t'] ∨ b ∈ lineBreaks) : Blanks bs.flatten := by
  refine ⟨bs, ?_, rfl⟩
  intro b hb
  rcases h b hb with rfl | rfl | he
  · exact .space
  · exact .tab
  · exact .lineBreak he

theorem inv_line_body
    (h : Derives grammar q (.star (tight [.not newline, .char .any])) c (some (ts, d))) :
    ∃ body, c.Spans d body ∧ (∀ z ∈ body, breaksLine z = false) ∧
      ∀ z ∈ d.rest.head?, breaksLine z = true := by
  have hround : ∀ {c d us}, Derives grammar q (tight [.not newline, .char .any]) c (some (us, d)) →
      ∃ cs, c.Spans d cs ∧ ∀ z ∈ cs, breaksLine z = false := by
    intro c d us h
    obtain ⟨_, m, _, hn, hz, -⟩ := h.inv_seq
    obtain ⟨hn, -, rfl⟩ := hn.inv_not
    obtain ⟨-, z, -, hs⟩ := hz.inv_char
    refine ⟨[z], hs, List.forall_mem_singleton.2 ?_⟩
    cases hz : breaksLine z with
    | false => rfl
    | true =>
      obtain ⟨e, he⟩ := newline_cons (q := true) hz m.position d.rest
      have hm : m = ⟨m.position, z :: d.rest⟩ := by
        rw [← List.singleton_append, ← hs.rest]
      rw [hm] at hn
      cases hn.det he
  obtain ⟨css, hs, hcs⟩ := h.inv_star_spans hround
  refine ⟨css.flatten, hs, ?_, ?_⟩
  · intro z hz
    obtain ⟨cs, hm, hz⟩ := List.mem_flatten.1 hz
    exact hcs cs hm z hz
  · intro z hz
    obtain ⟨p, rest⟩ := d
    obtain ⟨cs, rfl⟩ : ∃ cs, rest = z :: cs := List.head?_eq_some_iff.1 hz
    cases h.inv_star.1 with
    | seq_none_left hn =>
      cases hn with
      | not_none hl =>
        obtain ⟨e, he, hs⟩ := inv_newline hl
        apply breaksLine_head he z
        rw [← hs.rest]
        rfl
    | seq_none_right hn hc =>
      obtain ⟨-, -, rfl⟩ := hn.inv_not
      cases hc.det (.char_cons rfl)

theorem inv_block_body
    (h : Derives grammar q (.star (tight [.not (.lit "*/"), .char .any])) c (some (ts, d)))
    (hd : d.rest = '*' :: '/' :: rest) :
    ∃ body, c.Spans d body ∧ ¬['*', '/'] <:+: body ++ ['*'] := by
  revert hd
  refine h.star_induction (P := fun c _ d => d.rest = '*' :: '/' :: rest →
    ∃ body, c.Spans d body ∧ ¬['*', '/'] <:+: body ++ ['*']) ?_ ?_
  · intro c _ _
    refine ⟨[], .refl c, ?_⟩
    intro hi
    have hl := hi.length_le
    simp at hl
  · intro c ts d us e hx _ ih he
    obtain ⟨body, hs, hb⟩ := ih he
    obtain ⟨_, m, _, hn, hz, -⟩ := hx.inv_seq
    obtain ⟨hn, -, rfl⟩ := hn.inv_not
    obtain ⟨-, z, -, hsz⟩ := hz.inv_char
    refine ⟨z :: body, hsz.trans hs, ?_⟩
    rw [List.cons_append, List.infix_cons_iff]
    rintro (hp | hi)
    · -- The end of the comment would have been met before the character was taken.
      have hclose : "*/".toList <+: m.rest := by
        rw [(hsz.trans hs).rest, he]
        obtain ⟨t, ht⟩ := hp
        refine ⟨t ++ '/' :: rest, ?_⟩
        have happ := congrArg (· ++ '/' :: rest) ht
        simpa using happ
      obtain ⟨t, ht⟩ := hclose
      have hlit := Derives.lit_append (g := grammar) (q := true) "*/" m.position t
      have hm : m = ⟨m.position, "*/".toList ++ t⟩ := by rw [ht]
      rw [hm] at hn
      cases hn.det hlit
    · exact hb hi

/-- A comment is closed, or ends before the end of a line or of the text. -/
theorem inv_comment (h : Derives grammar q (.call comment) c (some (ts, d))) :
    (∃ b, Blank b ∧ c.Spans d b) ∨
      ∃ body, c.Spans d ('/' :: '/' :: body) ∧ (∀ z ∈ body, breaksLine z = false) ∧
        ∀ z ∈ d.rest.head?, breaksLine z = true := by
  obtain ⟨x, hx, h⟩ := (h.inv_body rfl).inv_oneOf
  simp only [List.mem_cons, List.not_mem_nil, or_false] at hx
  rcases hx with rfl | rfl
  · obtain ⟨_, m, _, hl, hb, -⟩ := h.inv_seq
    obtain ⟨body, hs, hbody, hd⟩ := inv_line_body hb
    exact .inr ⟨body, hl.inv_lit.2.trans hs, hbody, hd⟩
  · obtain ⟨_, m, _, hl, h, -⟩ := h.inv_seq
    obtain ⟨_, n, _, hb, hc, -⟩ := h.inv_seq
    have hclose := hc.inv_lit.2
    obtain ⟨body, hs, hbody⟩ := inv_block_body hb hclose.rest
    exact .inl ⟨_, .block hbody, hl.inv_lit.2.trans (hs.trans hclose)⟩

/-- Blank text stands between the cursors, but for a comment that the end of the source cuts off. -/
def Gapped (c d : Cursor) : Prop :=
  ∃ g, c.Spans d g ∧ Trailing g ∧ (d.rest ≠ [] → Blanks g)

theorem Gapped.of_blanks (h : c.Spans d g) (hg : Blanks g) : Gapped c d :=
  ⟨g, h, .blanks hg, fun _ => hg⟩

theorem Gapped.trans {e : Cursor} (h : Gapped c d) (h' : Gapped d e) : Gapped c e := by
  obtain ⟨g, hs, ht, hb⟩ := h
  obtain ⟨g', hs', ht', hb'⟩ := h'
  by_cases hd : d.rest = []
  · -- Behind the end of the source there is no text.
    obtain ⟨rfl, he⟩ := List.append_eq_nil_iff.1 (hs'.rest.symm.trans hd)
    have hspans := hs.trans hs'
    rw [List.append_nil] at hspans
    exact ⟨g, hspans, ht, fun hne => absurd he hne⟩
  · exact ⟨g ++ g', hs.trans hs', .append (hb hd) ht', fun hne => (hb hd).append (hb' hne)⟩

/-- The rule for blanks takes the end of the line behind a comment, if there is one. -/
theorem gapped_of_line {m : Cursor} (hs : c.Spans m ('/' :: '/' :: body))
    (hbody : ∀ z ∈ body, breaksLine z = false) (hm : ∀ z ∈ m.rest.head?, breaksLine z = true)
    (hw : Derives grammar q (.star (.call whitespace)) m (some (ts, d))) : Gapped c d := by
  obtain ⟨bs, hbs, hblank⟩ := inv_whitespaces hw
  cases bs with
  | nil =>
    have hd : d.rest = [] := by
      cases hrest : d.rest with
      | nil => rfl
      | cons z cs =>
        have hz := hm z (by rw [hbs.rest, hrest]; rfl)
        exact absurd hw.inv_star.1 (not_whitespace_none hz (by rw [hrest]; rfl))
    refine ⟨_, hs.trans hbs, ?_, fun hne => absurd hd hne⟩
    simpa using Trailing.line blanks_nil hbody
  | cons b bs =>
    obtain ⟨hb, hblank⟩ := List.forall_mem_cons.1 hblank
    have hbreak : b ∈ lineBreaks := by
      rcases hb with rfl | rfl | hb
      · cases hm ' ' (by rw [hbs.rest]; rfl)
      · cases hm '\t' (by rw [hbs.rest]; rfl)
      · exact hb
    have hspans := hs.trans hbs
    rw [List.flatten_cons, ← List.append_assoc] at hspans
    exact .of_blanks hspans
      ((Blanks.one (.line hbody hbreak)).append (blanks_of_whitespaces hblank))

theorem gapped_of_comment
    (h : Derives grammar q (tight [.call comment, .star (.call whitespace)]) c (some (ts, d))) :
    Gapped c d := by
  obtain ⟨_, m, _, hc, hw, -⟩ := h.inv_seq
  rcases inv_comment hc with ⟨b, hb, hs⟩ | ⟨body, hs, hbody, hm⟩
  · obtain ⟨bs, hbs, hblank⟩ := inv_whitespaces hw
    exact .of_blanks (hs.trans hbs) ((Blanks.one hb).append (blanks_of_whitespaces hblank))
  · exact gapped_of_line hs hbody hm hw

theorem inv_gap (h : Derives grammar q gap c (some (ts, d))) : Gapped c d := by
  obtain ⟨_, m, _, hw, hc, -⟩ := h.inv_seq
  obtain ⟨bs, hbs, hblank⟩ := inv_whitespaces hw
  apply Gapped.trans (.of_blanks hbs (blanks_of_whitespaces hblank))
  apply hc.star_induction (P := fun c _ d => Gapped c d)
  · intro c _
    exact .of_blanks (.refl c) blanks_nil
  · intro c ts d us e hx _ ih
    exact (gapped_of_comment hx).trans ih

end Twig

end TreeMetrics
