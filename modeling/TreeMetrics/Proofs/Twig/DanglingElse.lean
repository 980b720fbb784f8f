import TreeMetrics.Proofs.Twig.Makes

namespace TreeMetrics.Twig

open TreeMetrics.Expr TreeMetrics.Twig.Rule

/-- The match of a statement ends in an `if` without `else`. -/
inductive Dangles : ParseTree Rule → Prop where
  | branch {p q s t u} : Dangles (.node ifStmt p q s [t, u])
  | otherwise {p q s t u p' q' s' v} : Dangles v →
    Dangles (.node ifStmt p q s [t, u, .node elseClause p' q' s' [v]])
  | loop {p q s t u} : Dangles u → Dangles (.node whileStmt p q s [t, u])

variable {c d : Cursor} {r : Rule} {p q : Position} {s : String}
variable {t u : ParseTree Rule} {ts : List (ParseTree Rule)}

theorem inv_normal (hv : visibility r = .normal)
    (h : Derives grammar false (.call r) c (some ([.node r p q s ts], d))) :
    Derives grammar false (pattern r) c (some (ts, d)) := by
  obtain ⟨us, hb, ht⟩ := h.inv_call (ne_silent_of_normal hv)
  cases ht
  rwa [show (grammar.production r).visibility = .normal from hv] at hb

theorem inv_statement (h : Derives grammar false (.call statement) c (some (ts, d))) :
    ∃ t, ts = [t] ∧ Derives grammar false (.call t.rule) c (some ([t], d)) := by
  have hv : ∀ r ∈ statementRules, visibility r ≠ .silent := by decide
  obtain ⟨x, hx, h⟩ := (h.inv_silent rfl).inv_oneOf
  obtain ⟨r, hr, rfl⟩ := List.mem_map.1 (show x ∈ statementRules.map call from hx)
  obtain ⟨us, -, rfl⟩ := h.inv_call (hv r hr)
  exact ⟨_, rfl, h⟩

theorem inv_elseClause (h : Derives grammar false (.call elseClause) c (some (ts, d))) :
    ∃ p q s m u, ts = [.node elseClause p q s [u]] ∧
      Derives grammar false (.call statement) m (some ([u], d)) := by
  obtain ⟨us, hb, rfl⟩ := h.inv_call (by decide)
  obtain ⟨us, m, m', vs, hl, -, hs, rfl⟩ := inv_phrase hb
  obtain ⟨u, rfl, -⟩ := inv_statement hs
  rw [hl.inv_lit.1]
  exact ⟨_, _, _, _, u, rfl, hs⟩

theorem inv_condition {w : String} {x : Expr Rule} {xs : List (Expr Rule)}
    (h : Derives grammar false (phrase (lit w :: lit "(" :: call expr :: lit ")" :: x :: xs)) c
      (some (ts, d))) :
    ∃ m t vs, Derives grammar false (phrase (x :: xs)) m (some (vs, d)) ∧ ts = t :: vs := by
  obtain ⟨us₁, _, _, _, h₁, -, k₁, rfl⟩ := inv_phrase h
  obtain ⟨us₂, _, _, _, h₂, -, k₂, rfl⟩ := inv_phrase k₁
  obtain ⟨us₃, _, _, _, h₃, -, k₃, rfl⟩ := inv_phrase k₂
  obtain ⟨us₄, _, m, vs, h₄, -, k₄, rfl⟩ := inv_phrase k₃
  obtain ⟨_, -, rfl⟩ := h₃.inv_call (by decide)
  rw [h₁.inv_lit.1, h₂.inv_lit.1, h₄.inv_lit.1]
  exact ⟨m, _, vs, k₄, rfl⟩

/-- Behind `if` and its condition there is a statement, then a gap, then perhaps an `else`. -/
theorem inv_ifStmt (h : Derives grammar false (pattern ifStmt) c (some (ts, d))) :
    ∃ m₁ m₂ m₃ t u vs, Derives grammar false (.call statement) m₁ (some ([u], m₂)) ∧
      Derives grammar false gap m₂ (some ([], m₃)) ∧
      Derives grammar false (call elseClause).opt m₃ (some (vs, d)) ∧ ts = t :: u :: vs := by
  obtain ⟨m₁, t, _, hb, rfl⟩ := inv_condition h
  obtain ⟨_, m₂, m₃, vs, hs, hg, ho, rfl⟩ := inv_phrase hb
  obtain ⟨u, rfl, -⟩ := inv_statement hs
  exact ⟨m₁, m₂, m₃, t, u, vs, hs, hg, ho, rfl⟩

theorem inv_whileStmt (h : Derives grammar false (pattern whileStmt) c (some (ts, d))) :
    ∃ m t u, Derives grammar false (.call statement) m (some ([u], d)) ∧ ts = [t, u] := by
  obtain ⟨m, t, _, hs, rfl⟩ := inv_condition h
  obtain ⟨u, rfl, -⟩ := inv_statement hs
  exact ⟨m, t, u, hs, rfl⟩

/-- Behind an `if` without `else` there is no `else`. -/
theorem Dangles.no_else (h : Dangles t)
    (hd : Derives grammar false (.call statement) c (some ([t], d))) :
    Settled d ∧ Derives grammar false (.call elseClause) d none := by
  induction h generalizing c d with
  | branch =>
    obtain ⟨_, ht, hs⟩ := inv_statement hd
    cases ht
    obtain ⟨_, m₂, m₃, _, _, vs, -, hg, ho, hts⟩ := inv_ifStmt (inv_normal rfl hs)
    cases hts
    -- The branch has no `else` of its own, so one was tried right behind it and refused.
    rcases ho.inv_opt with he | ⟨he, -, rfl⟩
    · obtain ⟨_, -, ht⟩ := he.inv_call (by decide)
      cases ht
    · exact ⟨settled_of_gap hg, he⟩
  | otherwise _ ih =>
    obtain ⟨_, ht, hs⟩ := inv_statement hd
    cases ht
    obtain ⟨_, _, _, _, _, vs, -, -, ho, hts⟩ := inv_ifStmt (inv_normal rfl hs)
    cases hts
    rcases ho.inv_opt with he | ⟨-, hn, -⟩
    · obtain ⟨_, _, _, _, _, hts, hv⟩ := inv_elseClause he
      cases hts
      exact ih hv
    · cases hn
  | loop _ ih =>
    obtain ⟨_, ht, hs⟩ := inv_statement hd
    cases ht
    obtain ⟨_, _, _, hu, hts⟩ := inv_whileStmt (inv_normal rfl hs)
    cases hts
    exact ih hu

/-- The statement in front of an `else` does not dangle. -/
theorem not_dangles {v : ParseTree Rule} (h : Fits ifStmt (.node ifStmt p q s [t, u, v])) :
    ¬Dangles u := by
  intro hu
  obtain ⟨-, c, d, h⟩ := h
  obtain ⟨m₁, m₂, m₃, _, _, vs, hs, hg, ho, hts⟩ := inv_ifStmt (inv_normal rfl h)
  cases hts
  -- The inner `if` looked for an `else` at the very place where the outer one finds it.
  obtain ⟨hm, hn⟩ := hu.no_else hs
  cases hm.gap_eq hg
  rcases ho.inv_opt with he | ⟨-, hn', -⟩
  · cases hn.det he
  · cases hn'

end TreeMetrics.Twig
