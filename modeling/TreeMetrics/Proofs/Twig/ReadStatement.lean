import TreeMetrics.Proofs.Twig.ReadExpression

namespace TreeMetrics.Twig

open TreeMetrics.Expr TreeMetrics.Twig.Rule

variable {r : Rule} {k : Kind} {w : String} {ws us rest : List String}
variable {t : ParseTree Rule} {ts vs : List (ParseTree Rule)} {a e condition body other : Tree Node}
variable {x y : Expr Rule} {zs : List (Expr Rule)} {as : List (Tree Node)} {b c b' c' : Nat}

def YieldsAll (x : Except Malformed (List (Tree Node))) (as : List (Tree Node)) : Prop :=
  ∃ bs, x = .ok bs ∧ unplacedAll bs = unplacedAll as

def StatementOf (a : Tree Node) (ts : List (ParseTree Rule)) : Prop :=
  ∃ t, ts = [t] ∧ t.rule ≠ expr ∧ Yields (Build.statement t) a

/-- The expressions and statements inside a statement are built from the trees. -/
def PartsOf (as : List (Tree Node)) (ts : List (ParseTree Rule)) : Prop :=
  YieldsAll (Build.statements ts) as

theorem partsOf_nil : PartsOf [] [] := ⟨[], rfl, rfl⟩

theorem PartsOf.cons_expr (ht : t.rule = expr) (he : Yields (Build.expression t) e)
    (h : PartsOf as ts) : PartsOf (e :: as) (t :: ts) := by
  obtain ⟨x, hx, hux⟩ := he
  obtain ⟨bs, hbs, hubs⟩ := h
  exact ⟨x :: bs, statements_cons_expr ht hx hbs, unplacedAll_cons hux hubs⟩

theorem PartsOf.append (ha : StatementOf a vs) (h : PartsOf as ts) :
    PartsOf (a :: as) (vs ++ ts) := by
  obtain ⟨t, rfl, ht, x, hx, hux⟩ := ha
  obtain ⟨bs, hbs, hubs⟩ := h
  exact ⟨x :: bs, statements_cons ht hx hbs, unplacedAll_cons hux hubs⟩

theorem partsOf_of_statementOf (h : StatementOf a ts) : PartsOf [a] ts := by
  have hp := partsOf_nil.append h
  rwa [List.append_nil] at hp

theorem partsOf_of_rows (h : Rows StatementOf as ts) : PartsOf as ts := by
  induction h with
  | nil => exact partsOf_nil
  | cons ha _ ih => exact ih.append ha

namespace Reads

/-- A statement rule makes the statement whose parts are built from what it reads. -/
theorem statement (hk : Build.statementKind? r = some k) (hv : visibility r = .normal)
    (hr : r ≠ expr) (h : Reads (pattern r) ws rest (PartsOf as)) :
    Reads (.call r) ws rest (StatementOf (.node (.plain k b c) as)) := by
  refine (h.call hv).mono ?_
  rintro _ ⟨p, q, s, us, rfl, bs, hbs, hubs⟩
  exact ⟨_, rfl, hr, _, statement_node hk hbs, unplaced_node rfl hubs⟩

theorem expr_phrase (he : IsExpression e) (hc : Closes (us ++ rest))
    (h : Reads (Twig.phrase (y :: zs)) us rest (PartsOf as)) :
    Reads (Twig.phrase (.call expr :: y :: zs)) (tokens e ++ us) rest (PartsOf (e :: as)) := by
  refine (Reads.phrase (expression_reads he _ hc) h).mono ?_
  rintro _ ⟨_, vs, rfl, ⟨t, rfl, ht, hy⟩, hvs⟩
  exact hvs.cons_expr ht hy

end Reads

section Branches

theorem elseClause_reads (h : Reads (.call statement) ws rest (StatementOf other)) :
    Reads (.call elseClause) ("else" :: ws) rest
      (StatementOf (.node (.plain .elseClause b c) [other])) := by
  refine .statement rfl rfl (by decide) (.lit_pair (by decide) (h.mono ?_))
  exact fun ts => partsOf_of_statementOf

theorem refuses_elseClause (h : Avoids ["else"] rest) : Refuses (.call elseClause) rest :=
  .call rfl (Refuses.lit h).seq

theorem branch_reads (hc : IsExpression condition)
    (h : Reads (.call statement) ws rest (StatementOf body)) (hr : Avoids ["else"] rest) :
    Reads (.call ifStmt) ("if" :: "(" :: (tokens condition ++ ")" :: ws)) rest
      (StatementOf (.node (.plain .ifStatement b c) [condition, body])) := by
  have hb : Reads (phrase [.call statement, opt (.call elseClause)]) ws rest (PartsOf [body]) :=
    (h.pair_none (.opt_none (refuses_elseClause hr))).mono fun ts => partsOf_of_statementOf
  refine .statement rfl rfl (by decide) (.lit_phrase (by decide) (.lit_phrase (by decide) ?_))
  exact .expr_phrase hc (closes_cons ")" (by decide)) (hb.lit_phrase (by decide))

theorem otherwise_reads (hc : IsExpression condition)
    (hb : Reads (.call statement) ws ("else" :: us ++ rest) (StatementOf body))
    (ho : Reads (.call statement) us rest (StatementOf other)) :
    Reads (.call ifStmt) ("if" :: "(" :: (tokens condition ++ ")" :: (ws ++ "else" :: us))) rest
      (StatementOf (.node (.plain .ifStatement b c)
        [condition, body, .node (.plain .elseClause b' c') [other]])) := by
  have hp : Reads (phrase [.call statement, opt (.call elseClause)]) (ws ++ "else" :: us) rest
      (PartsOf [body, .node (.plain .elseClause b' c') [other]]) := by
    refine (Reads.pair hb (elseClause_reads (b := b') (c := c') ho).opt).mono ?_
    rintro _ ⟨_, _, rfl, hbody, hother⟩
    exact (partsOf_of_statementOf hother).append hbody
  refine .statement rfl rfl (by decide) (.lit_phrase (by decide) (.lit_phrase (by decide) ?_))
  exact .expr_phrase hc (closes_cons ")" (by decide)) (hp.lit_phrase (by decide))

theorem loop_reads (hc : IsExpression condition)
    (h : Reads (.call statement) ws rest (StatementOf body)) :
    Reads (.call whileStmt) ("while" :: "(" :: (tokens condition ++ ")" :: ws)) rest
      (StatementOf (.node (.plain .whileStatement b c) [condition, body])) := by
  have hb : Reads (phrase [.lit ")", .call statement]) (")" :: ws) rest (PartsOf [body]) :=
    (h.lit_pair (by decide)).mono fun ts => partsOf_of_statementOf
  refine .statement rfl rfl (by decide) (.lit_phrase (by decide) (.lit_phrase (by decide) ?_))
  exact .expr_phrase hc (closes_cons ")" (by decide)) hb

end Branches

section Statements

theorem exit_reads : Reads (.call returnStmt) ["return", ";"] rest
    (StatementOf (.node (.plain .returnStatement b c) [])) := by
  have hn : Reads (opt (.call expr)) [] (";" :: rest) (· = []) :=
    .opt_none (refuses_expr (by decide))
  refine .statement rfl rfl (by decide) (.lit_phrase (by decide) ?_)
  refine (hn.phrase_lit (by decide)).mono ?_
  rintro ts rfl
  exact partsOf_nil

theorem give_reads (he : OnRung 8 e ws) :
    Reads (.call returnStmt) ("return" :: (ws ++ [";"])) rest
      (StatementOf (.node (.plain .returnStatement b c) [e])) := by
  have hr : ReadsAs expr e ws (";" :: rest) := he _ (closes_cons ";" (by decide))
  refine .statement rfl rfl (by decide) (.lit_phrase (by decide) ?_)
  refine (hr.opt.phrase_lit (by decide)).mono ?_
  rintro _ ⟨t, rfl, ht, hy⟩
  exact partsOf_nil.cons_expr ht hy

/-- An expression that is a statement is read in parentheses, as an operand on its own. -/
theorem expression_statement_reads (he : IsExpression e) :
    Reads (.call exprStmt) ("(" :: tokens e ++ [")"] ++ [";"]) rest
      (StatementOf (.node (.plain .expressionStatement b c) [e])) := by
  have ho := operand_parenthesised (expression_reads he)
  have hr : ReadsAs expr e ("(" :: tokens e ++ [")"]) (";" :: rest) :=
    ho.onRung 8 _ (closes_cons ";" (by decide))
  refine .statement rfl rfl (by decide) ((hr.phrase_lit (by decide)).mono ?_)
  rintro _ ⟨t, rfl, ht, hy⟩
  exact partsOf_nil.cons_expr ht hy

/-- The statement rules that begin with a fixed token, in the order in which they are tried. -/
def opened : List (Rule × String) :=
  [(block, "\x7b"), (ifStmt, "if"), (whileStmt, "while"), (returnStmt, "return")]

def openers : List String := ["\x7b", "if", "while", "return", "("]

theorem refuses_opened (hr : (r, w) ∈ opened) (h : Avoids [w] ws) : Refuses (.call r) ws := by
  simp only [opened, List.mem_cons, List.not_mem_nil, or_false, Prod.mk.injEq] at hr
  rcases hr with ⟨rfl, rfl⟩ | ⟨rfl, rfl⟩ | ⟨rfl, rfl⟩ | ⟨rfl, rfl⟩
  all_goals exact .call rfl (Refuses.lit h).seq

/-- No statement rule takes what another one opens. -/
theorem Reads.opened {P : List (ParseTree Rule) → Prop} (hr : (r, w) ∈ opened ++ [(exprStmt, "(")])
    (h : Reads (.call r) (w :: ws) rest P) : Reads (.call Rule.statement) (w :: ws) rest P := by
  have hn : ∀ r' w', (r', w') ∈ Twig.opened → ' ' ∉ w'.toList ∧ ¬w'.toList <+: w.toList →
      Refuses (.call r') (w :: ws ++ rest) := by
    intro r' w' hr' hk
    exact refuses_opened hr' (avoids_cons (List.forall_mem_singleton.2 hk))
  refine .silent rfl ?_
  simp only [Twig.opened, List.cons_append, List.nil_append, List.mem_cons, List.not_mem_nil,
    or_false, Prod.mk.injEq] at hr
  rcases hr with ⟨rfl, rfl⟩ | ⟨rfl, rfl⟩ | ⟨rfl, rfl⟩ | ⟨rfl, rfl⟩ | ⟨rfl, rfl⟩
  · exact .alt_left h
  · refine .alt_right (hn block "\x7b" (by decide) (by decide)) ?_
    exact .alt_left h
  · refine .alt_right (hn block "\x7b" (by decide) (by decide)) ?_
    refine .alt_right (hn ifStmt "if" (by decide) (by decide)) ?_
    exact .alt_left h
  · refine .alt_right (hn block "\x7b" (by decide) (by decide)) ?_
    refine .alt_right (hn ifStmt "if" (by decide) (by decide)) ?_
    refine .alt_right (hn whileStmt "while" (by decide) (by decide)) ?_
    exact .alt_left h
  · refine .alt_right (hn block "\x7b" (by decide) (by decide)) ?_
    refine .alt_right (hn ifStmt "if" (by decide) (by decide)) ?_
    refine .alt_right (hn whileStmt "while" (by decide) (by decide)) ?_
    exact .alt_right (hn returnStmt "return" (by decide) (by decide)) h

/-- No statement begins where neither its first token nor an expression does. -/
theorem refuses_statement_of_expr (ha : ∀ k ∈ opened, Avoids [k.2] ws)
    (he : Refuses (.call expr) ws) : Refuses (.call statement) ws := by
  have hn : ∀ r w, (r, w) ∈ opened → Refuses (.call r) ws :=
    fun r w hr => refuses_opened hr (ha (r, w) hr)
  refine .silent rfl (.alt (hn block "\x7b" (by decide)) (.alt (hn ifStmt "if" (by decide)) ?_))
  refine .alt (hn whileStmt "while" (by decide)) (.alt (hn returnStmt "return" (by decide)) ?_)
  exact .call rfl he.seq

theorem refuses_statement : Refuses (.call statement) ("\x7d" :: rest) := by
  have hk : ∀ k ∈ opened, ∀ w ∈ [k.2], ' ' ∉ w.toList ∧ ¬w.toList <+: "\x7d".toList := by decide
  exact refuses_statement_of_expr (fun k hm => avoids_cons (hk k hm)) (refuses_expr (by decide))

/-- A statement begins with one of the tokens that open statements. -/
theorem exists_opener (h : IsStatement a) :
    ∃ w ∈ openers, ∃ ws, tokens a = w :: ws := by
  cases h with
  | block => exact ⟨"\x7b", by decide, _, rfl⟩
  | branch => exact ⟨"if", by decide, _, rfl⟩
  | otherwise => exact ⟨"if", by decide, _, rfl⟩
  | loop => exact ⟨"while", by decide, _, rfl⟩
  | exit => exact ⟨"return", by decide, _, rfl⟩
  | give => exact ⟨"return", by decide, _, rfl⟩
  | expression => exact ⟨"(", by decide, _, rfl⟩

theorem avoids_else (h : ∀ a ∈ as, IsStatement a) :
    Avoids ["else"] (as.flatMap tokens ++ "\x7d" :: rest) := by
  cases as with
  | nil => exact avoids_cons (by decide)
  | cons a as =>
    obtain ⟨w, hw, ws, ha⟩ := exists_opener (h a List.mem_cons_self)
    have hk : ∀ w ∈ openers, ∀ k ∈ ["else"], ' ' ∉ k.toList ∧ ¬k.toList <+: w.toList := by
      decide
    rw [List.flatMap_cons, ha]
    exact avoids_cons (hk w hw)

theorem block_reads (hs : ∀ a ∈ as, IsStatement a)
    (h : ∀ a ∈ as, ∀ rest, (EndsOpen a → Avoids ["else"] rest) →
      Reads (.call statement) (tokens a) rest (StatementOf a)) :
    Reads (.call block) ("\x7b" :: as.flatMap tokens ++ ["\x7d"]) rest
      (StatementOf (.node (.plain .block b c) as)) := by
  have hm : Reads (many (.call statement)) (as.flatMap tokens) ("\x7d" :: rest)
      (Rows StatementOf as) := by
    refine .many (fun a bs hsuffix => ?_) refuses_statement
    have hbs : ∀ b ∈ bs, IsStatement b := fun b hb =>
      hs b (hsuffix.subset (List.mem_cons_of_mem a hb))
    exact h a (hsuffix.subset List.mem_cons_self) _ fun _ => avoids_else hbs
  refine .statement rfl rfl (by decide) (.lit_phrase (by decide) ?_)
  exact (hm.phrase_lit (by decide)).mono fun ts => partsOf_of_rows

/-- The tokens of a statement are read as that statement. If it ends openly, no `else` follows. -/
theorem statement_reads (h : IsStatement a) :
    ∀ rest, (EndsOpen a → Avoids ["else"] rest) →
      Reads (.call statement) (tokens a) rest (StatementOf a) := by
  induction h with
  | block hs ih =>
    intro rest _
    rw [tokens_block]
    exact .opened (by decide) (block_reads hs ih)
  | branch hc hb ihb =>
    intro rest hr
    rw [tokens_branch]
    exact .opened (by decide) (branch_reads hc (ihb rest fun _ => hr .branch) (hr .branch))
  | otherwise hc hb hclosed ho ihb iho =>
    intro rest hr
    rw [tokens_otherwise]
    have hother := iho rest fun hopen => hr (.otherwise hopen)
    -- The first branch does not end openly, so it leaves the `else` to this statement.
    exact .opened (by decide)
      (otherwise_reads hc (ihb _ fun hopen => absurd hopen hclosed) hother)
  | loop hc hb ihb =>
    intro rest hr
    rw [tokens_loop]
    exact .opened (by decide) (loop_reads hc (ihb rest fun hopen => hr (.loop hopen)))
  | exit => exact fun rest _ => .opened (by decide) exit_reads
  | give he =>
    intro rest _
    rw [tokens_give]
    exact .opened (by decide) (give_reads (expression_reads he))
  | expression he =>
    intro rest _
    rw [tokens_expression]
    exact .opened (by decide) (expression_statement_reads he)

end Statements

end TreeMetrics.Twig
