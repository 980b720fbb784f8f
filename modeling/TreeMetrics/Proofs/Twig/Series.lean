import TreeMetrics.Proofs.Twig.Continuation

namespace TreeMetrics.Twig

open TreeMetrics.Expr TreeMetrics.Twig.Rule

variable {c c' d d' e f k k' m : Cursor} {t : ParseTree Rule} {ts us : List (ParseTree Rule)}
variable {u : List Char} {p q : Position} {s : String}

/-- Statements with gaps between them and behind the last one. -/
inductive Series : Cursor → List (ParseTree Rule) → Cursor → Prop where
  | nil {c : Cursor} : Settled c → Series c [] c
  | cons {c m d e : Cursor} {t : ParseTree Rule} {ts : List (ParseTree Rule)} :
    Derives grammar false (call statement) c (some ([t], m)) →
    Derives grammar false gap m (some ([], d)) → Series d ts e → Series c (t :: ts) e

namespace Series

theorem append (h : Series c ts d) (h' : Series d us e) : Series c (ts ++ us) e := by
  induction h with
  | nil _ => exact h'
  | cons ht hg _ ih => exact .cons ht hg (ih h')

theorem spans (h : Series c ts d) : ∃ u, c.Spans d u := by
  induction h with
  | nil _ => exact ⟨[], .refl _⟩
  | cons ht hg _ ih =>
    obtain ⟨u₁, h₁⟩ := ht.spans
    obtain ⟨u₂, h₂⟩ := hg.spans
    obtain ⟨u₃, h₃⟩ := ih
    exact ⟨_, h₁.trans (h₂.trans h₃)⟩

theorem fits (h : Series c ts d) : ∀ t ∈ ts, FitsOneOf statementRules t := by
  induction h with
  | nil _ => exact List.forall_mem_nil _
  | cons ht _ _ ih =>
    obtain ⟨r, hr, -, h⟩ := inv_statement_rule ht
    obtain ⟨t', ht', hfits⟩ := fits_of_statement_rule hr h
    cases ht'
    exact List.forall_mem_cons.2 ⟨⟨r, hr, hfits⟩, ih⟩

/-- The rounds of the repetition in a block are a series. -/
theorem of_star (h : Derives grammar false (star (seq gap (call statement))) c (some (ts, d)))
    (hg : Derives grammar false gap d (some ([], e))) :
    ∃ k, Derives grammar false gap c (some ([], k)) ∧ Series k ts e := by
  revert hg
  refine h.star_induction (P := fun c ts d => Derives grammar false gap d (some ([], e)) →
    ∃ k, Derives grammar false gap c (some ([], k)) ∧ Series k ts e) ?_ ?_
  · intro c _ hg
    exact ⟨e, hg, .nil (settled_of_gap hg)⟩
  · intro c ts d us d' hround _ ih hg
    obtain ⟨_, k, _, hgap, ht, rfl⟩ := hround.inv_seq
    cases trees_of_gap hgap
    obtain ⟨t, rfl, -⟩ := inv_statement ht
    obtain ⟨k', hgap', hseries⟩ := ih hg
    exact ⟨k, hgap, .cons ht hgap' hseries⟩

theorem of_many (hc : Settled c) (h : Derives grammar false (many (call statement))
      c (some (ts, d)))
    (hg : Derives grammar false gap d (some ([], e))) : Series c ts e := by
  rcases h.inv_opt with h | ⟨-, rfl, rfl⟩
  · obtain ⟨_, m, us, ht, hrest, rfl⟩ := h.inv_seq
    obtain ⟨t, rfl, -⟩ := inv_statement ht
    obtain ⟨k, hgap, hseries⟩ := of_star hrest hg
    exact .cons ht hgap hseries
  · cases hc.gap_eq hg
    exact .nil hc

theorem star (h : Series k ts e) (hg : Derives grammar false gap c (some ([], k)))
    (hn : Derives grammar false (call statement) e none) :
    ∃ d, Derives grammar false (.star (seq gap (call statement))) c (some (ts, d)) ∧
      Derives grammar false gap d (some ([], e)) := by
  induction h generalizing c with
  | nil _ => exact ⟨c, .star_nil (.seq_none_right hg hn), hg⟩
  | @cons k m k' e t ts ht hg' _ ih =>
    obtain ⟨d, hstar, hgap⟩ := ih hg' hn
    exact ⟨d, .star_cons (.seq hg ht) hstar, hgap⟩

theorem many (h : Series c ts e) (hn : Derives grammar false (call statement) e none) :
    ∃ d, Derives grammar false (many (call statement)) c (some (ts, d)) ∧
      Derives grammar false gap d (some ([], e)) := by
  cases h with
  | nil hc => exact ⟨c, .alt_right (.seq_none_left hn) .empty, hc.gap⟩
  | cons ht hg hrest =>
    obtain ⟨d, hstar, hgap⟩ := hrest.star hg hn
    exact ⟨d, .alt_left (.seq ht hstar), hgap⟩

end Series

/-- A block is a series of statements between braces. -/
theorem inv_block (h : Derives grammar false (call block) c (some (ts, d))) :
    ∃ p q s us m k e, c.Spans m "\x7b".toList ∧ Derives grammar false gap m (some ([], k)) ∧
      Series k us e ∧ e.Spans d "\x7d".toList ∧ ts = [.node block p q s us] := by
  obtain ⟨us, hb, rfl⟩ := h.inv_call (by decide)
  obtain ⟨_, m, k, _, hopen, hg, hb₁, rfl⟩ := inv_phrase hb
  obtain ⟨us, d', e, _, hmany, hg', hend, rfl⟩ := inv_phrase hb₁
  obtain ⟨rfl, hs⟩ := hopen.inv_lit
  obtain ⟨rfl, hs'⟩ := Derives.inv_lit hend
  have hseries := Series.of_many (settled_of_gap hg) hmany hg'
  rw [List.nil_append, List.append_nil]
  exact ⟨_, _, _, us, m, k, e, hs, hg, hseries, hs', rfl⟩

theorem refuses_statement_of_brace {cs : List Char} :
    Refuses (call statement) [String.ofList ('\x7d' :: cs)] := by
  have hk : ∀ k ∈ opened, ∀ w ∈ [k.2], w.toList.head?.any (· != '\x7d') = true := by decide
  apply refuses_statement_of_expr _ (refuses_expr_of_head rfl rfl (by decide))
  exact fun k hm => avoids_of_head (hk k hm)

theorem block_of_series (hopen : c.Spans m "\x7b".toList)
    (hg : Derives grammar false gap m (some ([], k))) (h : Series k ts e)
    (hend : e.Spans d "\x7d".toList) :
    ∃ p q s, Derives grammar false (call block) c (some ([.node block p q s ts], d)) := by
  obtain ⟨d', hmany, hg'⟩ := h.many (refuses_statement_of_brace.of_rest hend.rest)
  have hphrase := Derives.seq (lit_of_spans (q := false) hopen)
    (.seq hg (.seq hmany (.seq hg' (lit_of_spans hend))))
  rw [List.nil_append, List.nil_append, List.nil_append, List.append_nil] at hphrase
  exact ⟨_, _, _, .call (g := grammar) (r := block) (by decide) hphrase⟩

/-- In front of the next statement, no `else` is found whatever follows that statement. -/
theorem else_refused (h : Derives grammar false (call statement) k (some (ts, m)))
    (hs : k.Spans m u) (hs' : k'.Spans d' u) (hn : Derives grammar false (call elseClause) k none) :
    Derives grammar false (call elseClause) k' none := by
  obtain ⟨r, hr, -, h⟩ := inv_statement_rule h
  rcases statementRules_cases hr with rfl | (rfl | rfl) | hsimple
  · obtain ⟨v, hv⟩ := opened_rest (w := "\x7b") (by decide) h hs hs'
    exact (refuses_elseClause (avoids_of_head (by decide))).of_rest hv
  · obtain ⟨v, hv⟩ := opened_rest (w := "if") (by decide) h hs hs'
    exact (refuses_elseClause (avoids_of_head (by decide))).of_rest hv
  · obtain ⟨v, hv⟩ := opened_rest (w := "while") (by decide) h hs hs'
    exact (refuses_elseClause (avoids_of_head (by decide))).of_rest hv
  · obtain ⟨_, -, -, rest, rest', hc⟩ := simple_travels hsimple h hs hs'
    exact opened_refused (by decide) hc (fun _ _ _ => statement_refused) hn

/-- A statement behind a gap begins in the same way whatever follows it. -/
theorem opens_of_statement (h : Derives grammar false (call statement) k (some (ts, m)))
    (hk : Settled k) (hs : k.Spans m u) (hs' : k'.Spans d' u) :
    ∀ z ∈ k'.rest.head?, opensToken z = true := by
  obtain ⟨v, z, w, hz, hv, hmark⟩ := exists_mark h
  have hopens := opens_of_mark hk hz hv hmark
  cases hs.text_inj hmark
  rw [hs'.rest]
  intro y hy
  apply hopens y
  cases v with
  | nil => exact hy
  | cons a v => exact hy

theorem Series.opens (h : Series k ts m) (hk : Settled k) (hs : k.Spans m u) (hs' : k'.Spans d' u)
    (ho : ∀ z ∈ d'.rest.head?, opensToken z = true) : ∀ z ∈ k'.rest.head?, opensToken z = true := by
  cases h with
  | nil _ =>
    cases hs.text_inj (.refl _)
    cases hs'.det (.refl k')
    exact ho
  | cons ht hg hrest =>
    obtain ⟨u₁, hs₁⟩ := ht.spans
    obtain ⟨g, hsg⟩ := hg.spans
    obtain ⟨u₂, hs₂⟩ := hrest.spans
    cases hs.text_inj (hs₁.trans (hsg.trans hs₂))
    obtain ⟨m', hs₁', -⟩ := hs'.split
    exact opens_of_statement ht hk hs₁ hs₁'

theorem Series.else_refused (h : Series k (t :: ts) m) (hs : k.Spans m u) (hs' : k'.Spans d' u)
    (hn : Derives grammar false (call elseClause) k none) :
    Derives grammar false (call elseClause) k' none := by
  cases h with
  | cons ht hg hrest =>
    obtain ⟨u₁, hs₁⟩ := ht.spans
    obtain ⟨u₂, hs₂⟩ := hg.spans
    obtain ⟨u₃, hs₃⟩ := hrest.spans
    cases hs.text_inj (hs₁.trans (hs₂.trans hs₃))
    obtain ⟨m', hs₁', -⟩ := hs'.split
    exact Twig.else_refused ht hs₁ hs₁' hn

theorem settled_of_opens (h : ∀ z ∈ c.rest.head?, opensToken z = true) : Settled c := by
  have hg := gap_of_spans (q := false) blanks_nil (.refl c) h
  exact settled_of_gap hg

/-- A statement and the gap behind it are matched in front of other text, and the parse goes on with
an `else` if the statement lacks one. -/
theorem statement_travels {m' : Cursor} {g : List Char}
    (h : Derives grammar false (call statement) c (some ([t], m)))
    (hg : Derives grammar false gap m (some ([], k))) (hk : k.rest ≠ []) (hs : c.Spans m u)
    (hsg : m.Spans k g) (hs' : c'.Spans m' u) (hsg' : m'.Spans k' g)
    (ho : ∀ z ∈ k'.rest.head?, opensToken z = true) (hshut : ¬Dangles t → f = k')
    (hopen : Dangles t → Resumes t k' f) :
    ∃ t' e, Derives grammar false (call statement) c' (some ([t'], e)) ∧
      Derives grammar false gap e (some ([], f)) ∧ t'.rule = t.rule := by
  have hresumes : Resumes t m' f := by
    by_cases hdangles : Dangles t
    · -- Such a statement has taken the gap behind it already.
      obtain ⟨hsettled, -⟩ := hdangles.no_else h
      cases hsettled.gap_eq hg
      cases hsg.text_inj (.refl _)
      cases hsg'.det (.refl m')
      exact hopen hdangles
    · obtain ⟨g', hsg₁, -, hblanks⟩ := inv_gap hg
      cases hsg.text_inj hsg₁
      rw [hshut hdangles]
      exact .closed hdangles (gap_of_spans (hblanks hk) hsg' ho)
  exact portable h (hsg.rest_ne_nil hk) u _ _ _ hs hs' hresumes

/-- A series is matched in front of other text up to the last statement, and that one goes on with
an `else` if it can. -/
theorem series_travels (h : Series c ts d) (hd : d.rest ≠ []) (hs : c.Spans d u)
    (hs' : c'.Spans d' u) (ho : ∀ z ∈ d'.rest.head?, opensToken z = true)
    (hshut : (∀ t ∈ ts.getLast?, ¬Dangles t) → f = d')
    (hopen : ∀ t ∈ ts.getLast?, Dangles t → Resumes t d' f) :
    ∃ ts', Series c' ts' f ∧ ts'.map ParseTree.rule = ts.map ParseTree.rule := by
  induction h generalizing c' u with
  | nil _ =>
    cases hs.text_inj (.refl _)
    cases hs'.det (.refl c')
    rw [hshut fun t ht => by cases ht]
    exact ⟨[], .nil (settled_of_opens ho), rfl⟩
  | @cons c m k d t ts ht hg hrest ih =>
    obtain ⟨u₁, hs₁⟩ := ht.spans
    obtain ⟨g, hsg⟩ := hg.spans
    obtain ⟨u₂, hs₂⟩ := hrest.spans
    have hk := hs₂.rest_ne_nil hd
    cases hs.text_inj (hs₁.trans (hsg.trans hs₂))
    obtain ⟨m', hs₁', hr⟩ := hs'.split
    obtain ⟨k', hsg', hs₂'⟩ := hr.split
    cases ts with
    | nil =>
      cases hrest
      cases hs₂.text_inj (.refl _)
      cases hs₂'.det (.refl k')
      have hshut' : ¬Dangles t → f = d' := fun hn => hshut fun t' ht' => by cases ht'; exact hn
      obtain ⟨t', e, ht', hg', hrule⟩ :=
        statement_travels ht hg hk hs₁ hsg hs₁' hsg' ho hshut' (hopen t rfl)
      refine ⟨[t'], .cons ht' hg' (.nil (settled_of_gap hg')), ?_⟩
      rw [List.map_singleton, hrule, List.map_singleton]
    | cons t₂ ts =>
      have ho' := hrest.opens (settled_of_gap hg) hs₂ hs₂' ho
      -- The next statement was not taken for an `else`, and it is not taken for one here.
      have hopen' : Dangles t → Resumes t k' k' := by
        intro hdangles
        obtain ⟨hsettled, hn⟩ := hdangles.no_else ht
        cases hsettled.gap_eq hg
        have hn' := hrest.else_refused hs₂ hs₂' hn
        exact .dangling hdangles ho' (.alt_right hn' .empty) (settled_of_opens ho').gap hn'
      obtain ⟨t', e, ht', hg', hrule⟩ :=
        statement_travels ht hg hk hs₁ hsg hs₁' hsg' ho' (fun _ => rfl) hopen'
      rw [List.getLast?_cons_cons] at hshut hopen
      obtain ⟨ts', hseries, hrules⟩ := ih hd hs₂ hs₂' hshut hopen
      refine ⟨t' :: ts', .cons ht' hg' hseries, ?_⟩
      rw [List.map_cons, hrule, hrules, ← List.map_cons]

end TreeMetrics.Twig
