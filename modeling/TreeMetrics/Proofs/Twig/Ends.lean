import TreeMetrics.Proofs.Twig.Declaration

namespace TreeMetrics.Twig

open TreeMetrics.Expr TreeMetrics.Twig.Rule

variable {q : Bool} {r : Rule} {c d e m : Cursor} {x y : Expr Rule} {xs ys : List (Expr Rule)}
variable {t p : ParseTree Rule} {ts : List (ParseTree Rule)} {bs cs es : List Char} {s : String}

/-- The match stands behind the cursor, and no gap stands where it begins. -/
def Located (c : Cursor) (t : ParseTree Rule) : Prop :=
  ∃ m d, (∃ cs, c.Spans m cs) ∧ Settled m ∧ Derives grammar false (.call t.rule) m (some ([t], d))

theorem Located.behind (h : Located m t) (hm : ∃ cs, c.Spans m cs) : Located c t := by
  obtain ⟨m', d, ⟨ds, hs⟩, hset, hd⟩ := h
  obtain ⟨cs, hm⟩ := hm
  exact ⟨m', d, ⟨cs ++ ds, hm.trans hs⟩, hset, hd⟩

/-- Where no gap stands at the beginning of a match, none stands where the trees of it begin. -/
def Standing (x : Expr Rule) : Prop :=
  ∀ c ts d, Settled c → Derives grammar false x c (some (ts, d)) → ∀ t ∈ ts, Located c t

namespace Standing

theorem lit (s : String) : Standing (.lit s) := by
  intro c ts d _ h
  rw [h.inv_lit.1]
  exact List.forall_mem_nil _

theorem call (hv : visibility r ≠ .silent) : Standing (.call r) := by
  intro c ts d hc h
  obtain ⟨us, -, rfl⟩ := h.inv_call hv
  exact List.forall_mem_singleton.2 ⟨c, d, ⟨[], .refl c⟩, hc, h⟩

theorem silent (hv : visibility r = .silent) (hr : Standing (pattern r)) : Standing (.call r) := by
  intro c ts d hc h
  exact hr c ts d hc (h.inv_silent hv)

theorem oneOf (hxs : ∀ x ∈ xs, Standing x) : Standing (.oneOf xs) := by
  intro c ts d hc h
  obtain ⟨x, hx, h⟩ := h.inv_oneOf
  exact hxs x hx c ts d hc h

theorem phrase (hxs : ∀ x ∈ xs, Standing x) : Standing (phrase xs) := by
  induction xs with
  | nil =>
    intro c ts d _ h
    cases h
    exact List.forall_mem_nil _
  | cons x xs ih =>
    obtain ⟨hx, hxs⟩ := List.forall_mem_cons.1 hxs
    cases xs with
    | nil => exact hx
    | cons y ys =>
      intro c ts e hc h
      obtain ⟨us, d, m, vs, hus, hg, hvs, rfl⟩ := inv_phrase h
      refine List.forall_mem_append.2 ⟨hx c us d hc hus, fun t ht => ?_⟩
      obtain ⟨cs, hcs⟩ := hus.spans
      obtain ⟨ds, hds⟩ := hg.spans
      exact (ih hxs m vs e (settled_of_gap hg) hvs t ht).behind ⟨cs ++ ds, hcs.trans hds⟩

theorem many (hx : Standing x) : Standing (many x) := by
  intro c ts d hc h
  rcases h.inv_opt with h | ⟨-, rfl, -⟩
  · obtain ⟨us, m, vs, hus, hvs, rfl⟩ := h.inv_seq
    refine List.forall_mem_append.2
      ⟨hx c us m hc hus, fun t ht => Located.behind ?_ hus.spans⟩
    revert t
    apply hvs.star_induction (P := fun m vs _ => ∀ t ∈ vs, Located m t)
    · intro m _
      exact List.forall_mem_nil _
    · intro m ts d us e hround _ ih
      obtain ⟨ws, m', ts, hg, hts, rfl⟩ := hround.inv_seq
      rw [trees_of_gap hg, List.nil_append]
      refine List.forall_mem_append.2 ⟨fun t ht => ?_, fun t ht => ?_⟩
      · exact (hx m' ts d (settled_of_gap hg) hts t ht).behind hg.spans
      · exact (ih t ht).behind hround.spans
  · exact List.forall_mem_nil _

end Standing

theorem standing_file :
    Standing (phrase [many (.call importDecl), many (.call classDecl), .call endOfInput]) := by
  apply Standing.phrase
  simp only [List.mem_cons, List.not_mem_nil, or_false, forall_eq_or_imp, forall_eq]
  exact ⟨.many (.call (by decide)), .many (.call (by decide)), .call (by decide)⟩

theorem standing_member : Standing (.call member) := by
  apply Standing.silent rfl
  apply Standing.oneOf
  simp only [List.mem_cons, List.not_mem_nil, or_false, forall_eq_or_imp, forall_eq]
  exact ⟨.call (by decide), .call (by decide)⟩

theorem standing_classDecl : Standing (pattern classDecl) := by
  apply Standing.phrase
  simp only [List.mem_cons, List.not_mem_nil, or_false, forall_eq_or_imp, forall_eq]
  exact ⟨.lit _, .call (by decide), .lit _, .many standing_member, .lit _⟩

/-- A phrase may be cut between any two of its parts. -/
theorem inv_phrase_append (x : Expr Rule) (xs : List (Expr Rule))
    (h : Derives grammar q (phrase (x :: xs ++ y :: ys)) c (some (ts, e))) :
    ∃ us d m vs, Derives grammar q (phrase (x :: xs)) c (some (us, d)) ∧
      Derives grammar q gap d (some ([], m)) ∧
      Derives grammar q (phrase (y :: ys)) m (some (vs, e)) ∧ ts = us ++ vs := by
  induction xs generalizing x c ts with
  | nil => exact inv_phrase h
  | cons z zs ih =>
    obtain ⟨us, d, m, vs, hx, hg, hrest, rfl⟩ := inv_phrase h
    obtain ⟨ws, d', m', vs, hz, hg', hy, rfl⟩ := ih z hrest
    refine ⟨us ++ ws, d', m', vs, ?_, hg', hy, (List.append_assoc ..).symm⟩
    exact .seq hx (.seq hg hz)

theorem begins_of_spans (h : c.Spans d cs) (hm : c.Spans m bs) (hd : ∃ es, m.Spans d es) :
    bs <+: cs := by
  obtain ⟨es, hd⟩ := hd
  rw [h.text_inj (hm.trans hd)]
  exact List.prefix_append ..

theorem ends_of_spans (h : c.Spans d cs) (hm : ∃ bs, c.Spans m bs) (hd : m.Spans d es) :
    es <:+ cs := by
  obtain ⟨bs, hm⟩ := hm
  rw [h.text_inj (hm.trans hd)]
  exact List.suffix_append ..

theorem begins_of_phrase (h : Derives grammar q (phrase (.lit s :: y :: ys)) c (some (ts, d)))
    (hs : c.Spans d cs) : s.toList <+: cs := by
  obtain ⟨us, m, vs, hl, hrest, -⟩ := h.inv_seq
  exact begins_of_spans hs hl.inv_lit.2 hrest.spans

theorem ends_of_phrase (x : Expr Rule) (xs : List (Expr Rule))
    (h : Derives grammar q (phrase (x :: xs ++ [.lit s])) c (some (ts, d)))
    (hs : c.Spans d cs) : s.toList <:+ cs := by
  obtain ⟨us, m, m', vs, hfront, hg, hl, -⟩ := inv_phrase_append x xs h
  obtain ⟨bs, hbs⟩ := hfront.spans
  obtain ⟨gs, hgs⟩ := hg.spans
  exact ends_of_spans hs ⟨bs ++ gs, hbs.trans hgs⟩ hl.inv_lit.2

theorem block_ends (h : Derives grammar false (.call block) c (some (ts, d)))
    (hs : c.Spans d cs) : ['\x7d'] <:+ cs := by
  obtain ⟨us, hb, -⟩ := h.inv_call (by decide)
  exact ends_of_phrase (.lit "\x7b") [many (.call statement)] hb hs

theorem classDecl_ends (h : Derives grammar false (.call classDecl) c (some (ts, d)))
    (hs : c.Spans d cs) : "class".toList <+: cs ∧ ['\x7d'] <:+ cs := by
  obtain ⟨us, hb, -⟩ := h.inv_call (by decide)
  constructor
  · exact begins_of_phrase hb hs
  · exact ends_of_phrase (.lit "class")
      [.call identifier, .lit "\x7b", many (.call member)] hb hs

/-- Modifiers begin with one of their words if there are any. -/
theorem modifiers_begin (h : Derives grammar false (.call modifiers) c (some (ts, d))) :
    d = c ∨ ∃ w ∈ ["public", "abstract"], ∃ m, c.Spans m w.toList ∧ ∃ es, m.Spans d es := by
  obtain ⟨us, hb, -⟩ := h.inv_call (by decide)
  rcases hb.inv_opt with hb | ⟨-, -, rfl⟩
  · obtain ⟨vs, m, ws, hmod, hrest, -⟩ := hb.inv_seq
    obtain ⟨vs, hmod, -⟩ := hmod.inv_call (by decide)
    obtain ⟨vs, m', ws, hword, hnot, -⟩ := hmod.inv_seq
    obtain ⟨-, -, rfl⟩ := hnot.inv_not
    obtain ⟨w, hw, hs⟩ := inv_oneOf_lit ["public", "abstract"] hword
    exact .inr ⟨w, hw, m, hs, hrest.spans⟩
  · exact .inl rfl

/-- A method begins with a modifier or, if it has none, with its keyword. -/
theorem methodDecl_begins (hc : Settled c)
    (h : Derives grammar false (.call methodDecl) c (some (ts, d))) (hs : c.Spans d cs) :
    ∃ w ∈ ["public", "abstract", "method"], w.toList <+: cs := by
  obtain ⟨us, hb, -⟩ := h.inv_call (by decide)
  obtain ⟨us, m, m', vs, hmods, hg, hrest, -⟩ := inv_phrase hb
  rcases modifiers_begin hmods with rfl | ⟨w, hw, n, hsn, es, hes⟩
  · cases hc.gap_eq hg
    exact ⟨"method", by decide, begins_of_phrase hrest hs⟩
  · obtain ⟨gs, hgs⟩ := hg.spans
    obtain ⟨rs, hrs⟩ := hrest.spans
    refine ⟨w, ?_, begins_of_spans hs hsn ⟨es ++ (gs ++ rs), hes.trans (hgs.trans hrs)⟩⟩
    exact List.mem_append_left ["method"] hw

theorem methodDecl_front (h : Makes (phrase [.call modifiers, .lit "method", .call identifier,
      .lit "(", .call paramList, .lit ")"]) ts) : ∃ t u v, ts = [t, u, v] := by
  obtain ⟨us, ws, rfl, ht, hname⟩ := h.phrase
  obtain ⟨t, rfl, -⟩ := ht.call (by decide)
  obtain ⟨us, ws, rfl, hu, hparams⟩ := hname.lit_phrase.phrase
  obtain ⟨u, rfl, -⟩ := hu.call (by decide)
  obtain ⟨us, ws, rfl, hv, hclose⟩ := hparams.lit_phrase.phrase
  obtain ⟨v, rfl, -⟩ := hv.call (by decide)
  rw [Makes.lit hclose]
  exact ⟨t, u, v, rfl⟩

/-- A method has three parts and its body, and ends as its body does, or with a semicolon. -/
theorem methodDecl_ends (h : Derives grammar false (.call methodDecl) c (some ([p], d)))
    (hs : c.Spans d cs) :
    ∃ t u v vs, p.children = t :: u :: v :: vs ∧
      (vs = [] ∧ [';'] <:+ cs ∨ ∃ b, vs = [b] ∧ b.rule = block ∧ ['\x7d'] <:+ cs) := by
  obtain ⟨us, hb, hp⟩ := h.inv_call (by decide)
  cases hp
  obtain ⟨us, m, m', vs, hfront, hg, hlast, rfl⟩ := inv_phrase_append (.call modifiers)
    [.lit "method", .call identifier, .lit "(", .call paramList, .lit ")"] hb
  obtain ⟨bs, hbs⟩ := hfront.spans
  obtain ⟨gs, hgs⟩ := hg.spans
  have hm : ∃ bs, c.Spans m' bs := ⟨bs ++ gs, hbs.trans hgs⟩
  obtain ⟨t, u, v, rfl⟩ := methodDecl_front ⟨c, m, hfront⟩
  refine ⟨t, u, v, vs, rfl, ?_⟩
  rcases hlast.inv_alt with hblock | ⟨-, hsemi⟩
  · obtain ⟨ts, -, rfl⟩ := hblock.inv_call (by decide)
    obtain ⟨es, hes⟩ := hblock.spans
    have hend := (block_ends hblock hes).trans (ends_of_spans hs hm hes)
    exact .inr ⟨_, rfl, rfl, hend⟩
  · obtain ⟨rfl, hes⟩ := hsemi.inv_lit
    exact .inl ⟨rfl, ends_of_spans hs hm hes⟩

end TreeMetrics.Twig
