import TreeMetrics.Proofs.Data.Basic
import TreeMetrics.Proofs.Twig.DanglingElse
import TreeMetrics.Proofs.Twig.Schema
import TreeMetrics.Twig.Source

namespace TreeMetrics

namespace Twig

open TreeMetrics.Twig.Rule

variable {r op operand : Rule} {p q : Position} {s : String}
variable {t : ParseTree Rule} {ts : List (ParseTree Rule)} {left : Tree Node}

def BuildsExpression (t : ParseTree Rule) : Prop :=
  ∃ e, Build.expression t = .ok e ∧ IsExpression e

theorem mem_operators {l : Level} (hl : level? r = some l) :
    ∀ k ∈ l.spellings, k ∈ operators := by
  cases r with
  | orExpr | andExpr | eqExpr | relExpr | addExpr =>
    cases hl
    decide
  | _ => cases hl

theorem text_mem_operators {l : Level} (hl : level? r = some l) (h : Fits l.op t) :
    t.text ∈ operators :=
  mem_operators hl _ (h.spelling (stands_of_level? hl))

theorem expression_chain {l : Level} {e : Tree Node} (hl : level? r = some l)
    (he : Build.expression t = .ok e) :
    Build.expression (.node r p q s (t :: ts)) = Build.joinChain e (ts.map Build.part) := by
  cases r with
  | orExpr | andExpr | eqExpr | relExpr | addExpr =>
    exact Build.expression_leading (fun _ => rfl) he
  | _ => cases hl

theorem joinChain_ok (ho : ∀ {t}, Fits op t → t.text ∈ operators)
    (hb : ∀ t ∈ ts, Fits operand t → BuildsExpression t) (hl : IsExpression left)
    (h : Links op operand ts) :
    ∃ e, Build.joinChain left (ts.map Build.part) = .ok e ∧ IsExpression e := by
  induction h generalizing left with
  | nil => exact ⟨left, rfl, hl⟩
  | cons hop ht _ ih =>
    obtain ⟨-, hb⟩ := List.forall_mem_cons.1 hb
    obtain ⟨hbt, hb⟩ := List.forall_mem_cons.1 hb
    obtain ⟨e, he, hie⟩ := hbt ht
    rw [List.map_cons, List.map_cons, Build.joinChain_cons he]
    exact ih hb (.binary (ho hop) hl hie)

theorem expression_negations {os : List (ParseTree Rule)} {a : Tree Node}
    (ho : ∀ o ∈ os, Fits notOp o) (ht : Fits callChain t) (ha : Build.expression t = .ok a) :
    Build.expression (.node unary p q s (os ++ [t])) =
      .ok (os.foldr (fun o x => Build.negate p.line q.line x o.text) a) := by
  have hr : t.rule ≠ notOp := by
    rw [ht.1]
    decide
  exact Build.expression_unary (fun o hm => (ho o hm).1) hr ha

theorem isExpression_negations {os : List (ParseTree Rule)} {b e : Nat} {a : Tree Node}
    (ho : ∀ o ∈ os, Fits notOp o) (ha : IsExpression a) :
    IsExpression (os.foldr (fun o x => Build.negate b e x o.text) a) := by
  induction os with
  | nil => exact ha
  | cons o os ih =>
    obtain ⟨ho, hos⟩ := List.forall_mem_cons.1 ho
    rw [List.foldr_cons, ho.text_notOp]
    exact .negation (ih hos)

def BuildsArguments (t : ParseTree Rule) : Prop :=
  ∃ es, Build.arguments t = .ok es ∧ ∀ e ∈ es, IsExpression e

theorem applyCalls_ok (hl : IsExpression left) (hb : ∀ t ∈ ts, BuildsArguments t) :
    ∃ e, Build.applyCalls left (ts.map Build.part) = .ok e ∧ IsExpression e := by
  induction ts generalizing left with
  | nil => exact ⟨left, rfl, hl⟩
  | cons t ts ih =>
    obtain ⟨⟨es, hes, hies⟩, hts⟩ := List.forall_mem_cons.1 hb
    rw [List.map_cons, Build.applyCalls_cons hes]
    exact ih (.call hl hies) hts

theorem collect_ok (hb : ∀ t ∈ ts, BuildsExpression t) :
    ∃ es, Build.collect (ts.map Build.part) = .ok es ∧ ∀ e ∈ es, IsExpression e := by
  induction ts with
  | nil => exact ⟨[], rfl, fun e he => absurd he List.not_mem_nil⟩
  | cons t ts ih =>
    obtain ⟨⟨e, he, hie⟩, hts⟩ := List.forall_mem_cons.1 hb
    obtain ⟨es, hes, hies⟩ := ih hts
    exact ⟨e :: es, Build.collect_cons he hes, List.forall_mem_cons.2 ⟨hie, hies⟩⟩

def expressionRules : List Rule :=
  [expr, assignment, ternary, orExpr, andExpr, eqExpr, relExpr, addExpr, unary, callChain, number,
    identifier]

/-- What the rules of expressions make is built into expressions, and what stands in the brackets of
a call into a list of them. -/
structure Expressive (t : ParseTree Rule) : Prop where
  expression : ∀ r ∈ expressionRules, Fits r t → BuildsExpression t
  arguments : Fits callArgs t → BuildsArguments t

section Assembly

variable (ih : ∀ t ∈ ts, Expressive t)

include ih

theorem chain_builds {l : Level} (hl : level? r = some l) (ho : l.operand ∈ expressionRules)
    (h : Fits r (.node r p q s ts)) : BuildsExpression (.node r p q s ts) := by
  obtain ⟨t, us, rfl, ht, hus⟩ := h.inv_chain (stands_of_level? hl)
  obtain ⟨iht, ihus⟩ := List.forall_mem_cons.1 ih
  obtain ⟨e, he, hie⟩ := iht.expression _ ho ht
  obtain ⟨x, hx, hix⟩ := joinChain_ok (text_mem_operators hl)
    (fun u hu => (ihus u hu).expression _ ho) hie hus
  exact ⟨x, (expression_chain hl he).trans hx, hix⟩

theorem assignment_builds (h : Fits assignment (.node assignment p q s ts)) :
    BuildsExpression (.node assignment p q s ts) := by
  obtain ⟨t, ht, rfl | ⟨o, v, rfl, ho, hv⟩⟩ := h.inv_assignment
  · obtain ⟨e, he, hie⟩ := (ih t (by simp)).expression _ (by decide) ht
    exact ⟨e, Build.expression_target he, hie⟩
  · obtain ⟨e, he, hie⟩ := (ih t (by simp)).expression _ (by decide) ht
    obtain ⟨x, hx, hix⟩ := (ih v (by simp)).expression _ (by decide) hv
    refine ⟨_, Build.expression_assignment he hx, ?_⟩
    rw [ho.text_assignOp]
    exact .assignment hie hix

theorem ternary_builds (h : Fits ternary (.node ternary p q s ts)) :
    BuildsExpression (.node ternary p q s ts) := by
  obtain ⟨t, ht, rfl | ⟨y, n, rfl, hy, hn⟩⟩ := h.inv_ternary
  · obtain ⟨e, he, hie⟩ := (ih t (by simp)).expression _ (by decide) ht
    exact ⟨e, Build.expression_condition he, hie⟩
  · obtain ⟨e, he, hie⟩ := (ih t (by simp)).expression _ (by decide) ht
    obtain ⟨x, hx, hix⟩ := (ih y (by simp)).expression _ (by decide) hy
    obtain ⟨z, hz, hiz⟩ := (ih n (by simp)).expression _ (by decide) hn
    exact ⟨_, Build.expression_ternary he hx hz, .conditional hie hix hiz⟩

theorem unary_builds (h : Fits unary (.node unary p q s ts)) :
    BuildsExpression (.node unary p q s ts) := by
  obtain ⟨os, t, rfl, ho, ht⟩ := h.inv_unary
  obtain ⟨e, he, hie⟩ := (ih t (by simp)).expression _ (by decide) ht
  exact ⟨_, expression_negations ho ht he, isExpression_negations ho hie⟩

theorem callChain_builds (h : Fits callChain (.node callChain p q s ts)) :
    BuildsExpression (.node callChain p q s ts) := by
  obtain ⟨t, us, rfl, ht, hus⟩ := h.inv_callChain
  obtain ⟨iht, ihus⟩ := List.forall_mem_cons.1 ih
  have hb : BuildsExpression t := by
    rcases ht with ht | ht | ht
    all_goals exact iht.expression _ (by decide) ht
  obtain ⟨e, he, hie⟩ := hb
  obtain ⟨x, hx, hix⟩ := applyCalls_ok hie fun u hu => (ihus u hu).arguments (hus u hu)
  exact ⟨x, (Build.expression_callChain he).trans hx, hix⟩

theorem callArgs_builds (h : Fits callArgs (.node callArgs p q s ts)) :
    BuildsArguments (.node callArgs p q s ts) := by
  have ht := h.inv_callArgs
  obtain ⟨es, hes, hies⟩ := collect_ok fun t hm => (ih t hm).expression _ (by decide) (ht t hm)
  exact ⟨es, (Build.arguments_node ..).trans hes, hies⟩

end Assembly

theorem expressive (t : ParseTree Rule) : Expressive t := by
  induction t using ParseTree.induction with
  | h r p q s ts ih =>
    constructor
    · intro r' hr hf
      cases hf.1
      simp only [expressionRules, List.mem_cons, List.not_mem_nil, or_false] at hr
      rcases hr with rfl | rfl | rfl | rfl | rfl | rfl | rfl | rfl | rfl | rfl | rfl | rfl
      · obtain ⟨t, rfl, ht⟩ := hf.inv_expr
        obtain ⟨e, he, hie⟩ := (ih t (by simp)).expression _ (by decide) ht
        exact ⟨e, Build.expression_expr he, hie⟩
      · exact assignment_builds ih hf
      · exact ternary_builds ih hf
      · exact chain_builds ih (l := ⟨andExpr, orOp, _⟩) rfl (by decide) hf
      · exact chain_builds ih (l := ⟨eqExpr, andOp, _⟩) rfl (by decide) hf
      · exact chain_builds ih (l := ⟨relExpr, eqOp, _⟩) rfl (by decide) hf
      · exact chain_builds ih (l := ⟨addExpr, relOp, _⟩) rfl (by decide) hf
      · exact chain_builds ih (l := ⟨unary, addOp, _⟩) rfl (by decide) hf
      · exact unary_builds ih hf
      · exact callChain_builds ih hf
      · exact ⟨_, rfl, .literal hf.isNumber⟩
      · exact ⟨_, rfl, .name hf.isIdentifier⟩
    · intro hf
      cases hf.1
      exact callArgs_builds ih hf

theorem buildsExpression (h : Fits expr t) : BuildsExpression t :=
  (expressive t).expression expr (by decide) h

/-- The parse tree is built into a statement, which ends openly only if its match dangles. -/
def BuildsStatement (t : ParseTree Rule) : Prop :=
  ∃ a, Build.statement t = .ok a ∧ IsStatement a ∧ (EndsOpen a → Dangles t)

theorem statements_nil : Build.statements [] = .ok [] := rfl

theorem statements_cons_expr {e : Tree Node} {as : List (Tree Node)} (ht : t.rule = expr)
    (he : Build.expression t = .ok e) (hts : Build.statements ts = .ok as) :
    Build.statements (t :: ts) = .ok (e :: as) := by
  simp only [Build.statements, ht, if_true, he, hts]
  rfl

theorem statements_cons {a : Tree Node} {as : List (Tree Node)} (ht : t.rule ≠ expr)
    (ha : Build.statement t = .ok a) (hts : Build.statements ts = .ok as) :
    Build.statements (t :: ts) = .ok (a :: as) := by
  simp only [Build.statements, if_neg ht, ha, hts]
  rfl

theorem statement_node {k : Kind} {as : List (Tree Node)} (hk : Build.statementKind? r = some k)
    (h : Build.statements ts = .ok as) :
    Build.statement (.node r p q s ts) = .ok (.node (.plain k p.line q.line) as) := by
  simp only [Build.statement, hk, h]
  rfl

theorem rule_ne_expr (h : FitsOneOf statementRules t) : t.rule ≠ expr := by
  obtain ⟨r, hr, hf⟩ := h
  rw [hf.1]
  exact (by decide : ∀ r ∈ statementRules, r ≠ expr) r hr

theorem statements_ok (hf : ∀ t ∈ ts, FitsOneOf statementRules t)
    (hb : ∀ t ∈ ts, BuildsStatement t) :
    ∃ as, Build.statements ts = .ok as ∧ ∀ a ∈ as, IsStatement a := by
  induction ts with
  | nil => exact ⟨[], rfl, fun a ha => absurd ha List.not_mem_nil⟩
  | cons t ts ih =>
    obtain ⟨hft, hfts⟩ := List.forall_mem_cons.1 hf
    obtain ⟨⟨a, ha, hia, -⟩, hbts⟩ := List.forall_mem_cons.1 hb
    obtain ⟨as, has, hias⟩ := ih hfts hbts
    exact ⟨a :: as, statements_cons (rule_ne_expr hft) ha has, List.forall_mem_cons.2 ⟨hia, hias⟩⟩

structure Stately (t : ParseTree Rule) : Prop where
  statement : FitsOneOf statementRules t → BuildsStatement t
  clause : Fits elseClause t → ∃ p q s u b e a, t = .node elseClause p q s [u] ∧
    Build.statement t = .ok (.node (.plain .elseClause b e) [a]) ∧ IsStatement a ∧
    (EndsOpen a → Dangles u)

section Assembly

variable (ih : ∀ t ∈ ts, Stately t)

include ih

theorem block_builds (h : Fits block (.node block p q s ts)) :
    ∃ as, Build.statement (.node block p q s ts) = .ok (.node (.plain .block p.line q.line) as) ∧
      ∀ a ∈ as, IsStatement a := by
  have hf := h.inv_block
  obtain ⟨as, has, hias⟩ := statements_ok hf fun t ht => (ih t ht).statement (hf t ht)
  exact ⟨as, statement_node rfl has, hias⟩

theorem ifStmt_builds (h : Fits ifStmt (.node ifStmt p q s ts)) :
    BuildsStatement (.node ifStmt p q s ts) := by
  obtain ⟨t, u, ht, hu, rfl | ⟨v, rfl, hv⟩⟩ := h.inv_ifStmt
  · obtain ⟨e, he, hie⟩ := buildsExpression ht
    obtain ⟨a, ha, hia, -⟩ := (ih u (by simp)).statement hu
    have hs := statements_cons_expr ht.1 he (statements_cons (rule_ne_expr hu) ha statements_nil)
    exact ⟨_, statement_node rfl hs, .branch hie hia, fun _ => .branch⟩
  · obtain ⟨e, he, hie⟩ := buildsExpression ht
    obtain ⟨a, ha, hia, hoa⟩ := (ih u (by simp)).statement hu
    obtain ⟨p', q', s', w, b', e', o, rfl, ho, hio, hoo⟩ := (ih v (by simp)).clause hv
    have hs := statements_cons_expr ht.1 he (statements_cons (rule_ne_expr hu) ha
      (statements_cons (by rw [hv.1]; decide) ho statements_nil))
    refine ⟨_, statement_node rfl hs, .otherwise hie hia (fun hn => not_dangles h (hoa hn)) hio, ?_⟩
    intro hopen
    cases hopen with
    | otherwise hopen => exact .otherwise (hoo hopen)

theorem elseClause_builds (h : Fits elseClause (.node elseClause p q s ts)) :
    ∃ u a, ts = [u] ∧
      Build.statement (.node elseClause p q s ts) =
        .ok (.node (.plain .elseClause p.line q.line) [a]) ∧
      IsStatement a ∧ (EndsOpen a → Dangles u) := by
  obtain ⟨u, rfl, hu⟩ := h.inv_elseClause
  obtain ⟨a, ha, hia, hoa⟩ := (ih u (by simp)).statement hu
  have hs := statements_cons (rule_ne_expr hu) ha statements_nil
  exact ⟨u, a, rfl, statement_node rfl hs, hia, hoa⟩

theorem whileStmt_builds (h : Fits whileStmt (.node whileStmt p q s ts)) :
    BuildsStatement (.node whileStmt p q s ts) := by
  obtain ⟨t, u, rfl, ht, hu⟩ := h.inv_whileStmt
  obtain ⟨e, he, hie⟩ := buildsExpression ht
  obtain ⟨a, ha, hia, hoa⟩ := (ih u (by simp)).statement hu
  have hs := statements_cons_expr ht.1 he (statements_cons (rule_ne_expr hu) ha statements_nil)
  refine ⟨_, statement_node rfl hs, .loop hie hia, ?_⟩
  intro hopen
  cases hopen with
  | loop hopen => exact .loop (hoa hopen)

end Assembly

theorem returnStmt_builds (h : Fits returnStmt (.node returnStmt p q s ts)) :
    BuildsStatement (.node returnStmt p q s ts) := by
  rcases h.inv_returnStmt with rfl | ⟨t, rfl, ht⟩
  · refine ⟨_, statement_node rfl rfl, .exit, ?_⟩
    intro hopen
    cases hopen
  · obtain ⟨e, he, hie⟩ := buildsExpression ht
    refine ⟨_, statement_node rfl (statements_cons_expr ht.1 he statements_nil), .give hie, ?_⟩
    intro hopen
    cases hopen

theorem exprStmt_builds (h : Fits exprStmt (.node exprStmt p q s ts)) :
    BuildsStatement (.node exprStmt p q s ts) := by
  obtain ⟨t, rfl, ht⟩ := h.inv_exprStmt
  obtain ⟨e, he, hie⟩ := buildsExpression ht
  refine ⟨_, statement_node rfl (statements_cons_expr ht.1 he statements_nil), .expression hie, ?_⟩
  intro hopen
  cases hopen

theorem stately (t : ParseTree Rule) : Stately t := by
  induction t using ParseTree.induction with
  | h r p q s ts ih =>
    constructor
    · rintro ⟨r', hr, hf⟩
      cases hf.1
      simp only [statementRules, List.mem_cons, List.not_mem_nil, or_false] at hr
      rcases hr with rfl | rfl | rfl | rfl | rfl
      · obtain ⟨as, has, hias⟩ := block_builds ih hf
        refine ⟨_, has, .block hias, ?_⟩
        intro hopen
        cases hopen
      · exact ifStmt_builds ih hf
      · exact whileStmt_builds ih hf
      · exact returnStmt_builds hf
      · exact exprStmt_builds hf
    · intro hf
      cases hf.1
      obtain ⟨u, a, rfl, ha, hia, hoa⟩ := elseClause_builds ih hf
      exact ⟨p, q, s, u, _, _, a, rfl, ha, hia, hoa⟩

theorem isIdentifier_text (h : Fits identifier t) : IsIdentifier t.text := by
  obtain ⟨r, p, q, w, ts⟩ := t
  exact h.isIdentifier

theorem field_builds (h : Fits fieldDecl t) : ∃ a, Build.field t = .ok a ∧ IsMember a := by
  obtain ⟨r, p, q, w, ts⟩ := t
  cases h.1
  obtain ⟨u, v, rfl, -, hv⟩ := h.inv_fieldDecl
  exact ⟨_, rfl, .field (isIdentifier_text hv)⟩

theorem parameters_of_fits (h : Fits paramList t) :
    ∀ a ∈ t.children.map (Build.wordLeaf .formalParameter), IsParameter a := by
  obtain ⟨r, p, q, w, ts⟩ := t
  cases h.1
  have hp := h.inv_paramList
  intro a ha
  obtain ⟨u, hu, rfl⟩ := List.mem_map.1 ha
  exact .mk (isIdentifier_text (hp u hu))

theorem method_builds (h : Fits methodDecl t) : ∃ a, Build.method t = .ok a ∧ IsMember a := by
  obtain ⟨r, p, q, w, ts⟩ := t
  cases h.1
  obtain ⟨u, v, x, -, hv, hx, rfl | ⟨y, rfl, hy⟩⟩ := h.inv_methodDecl
  · exact ⟨_, rfl, .declaration (isIdentifier_text hv) (parameters_of_fits hx)⟩
  · obtain ⟨r, p', q', w', ts⟩ := y
    cases hy.1
    obtain ⟨as, has, hias⟩ := block_builds (fun t _ => stately t) hy
    have hm : Build.method (.node methodDecl p q w [u, v, x, .node block p' q' w' ts]) =
        .ok (.node ⟨.methodDeclaration, some v.text, Build.modifiers u, p.line, q.line⟩
          [.node (Build.spanning .formalParameters x)
              (x.children.map (Build.wordLeaf .formalParameter)),
            .node (.plain .block p'.line q'.line) as]) := by
      simp only [Build.method, ParseTree.children, has]
      rfl
    exact ⟨_, hm, .method (isIdentifier_text hv) (parameters_of_fits hx) hias⟩

theorem member_builds (h : FitsOneOf [fieldDecl, methodDecl] t) :
    ∃ a, Build.member t = .ok a ∧ IsMember a := by
  obtain ⟨r, hr, hf⟩ := h
  simp only [List.mem_cons, List.not_mem_nil, or_false] at hr
  rcases hr with rfl | rfl
  · simp only [Build.member, hf.1]
    exact field_builds hf
  · simp only [Build.member, hf.1]
    exact method_builds hf

theorem members_build (h : ∀ t ∈ ts, FitsOneOf [fieldDecl, methodDecl] t) :
    ∃ as, ts.mapM Build.member = .ok as ∧ ∀ a ∈ as, IsMember a := by
  induction ts with
  | nil => exact ⟨[], rfl, fun a ha => absurd ha List.not_mem_nil⟩
  | cons t ts ih =>
    obtain ⟨ht, hts⟩ := List.forall_mem_cons.1 h
    obtain ⟨a, ha, hia⟩ := member_builds ht
    obtain ⟨as, has, hias⟩ := ih hts
    refine ⟨a :: as, ?_, List.forall_mem_cons.2 ⟨hia, hias⟩⟩
    rw [List.mapM_cons, ha, has]
    rfl

theorem classDecl_builds (h : Fits classDecl t) : ∃ a, Build.classDecl t = .ok a ∧ IsClass a := by
  obtain ⟨r, p, q, w, ts⟩ := t
  cases h.1
  obtain ⟨u, us, rfl, hu, hus⟩ := h.inv_classDecl
  obtain ⟨as, has, hias⟩ := members_build hus
  have hc : Build.classDecl (.node classDecl p q w (u :: us)) =
      .ok (.node (.word .classDeclaration u.text p.line q.line) as) := by
    simp only [Build.classDecl, ParseTree.children, has]
    rfl
  exact ⟨_, hc, .mk (isIdentifier_text hu) hias⟩

theorem importDecl_builds (h : Fits importDecl t) :
    ∃ a, Build.importDecl t = .ok a ∧ IsImport a := by
  obtain ⟨r, p, q, w, ts⟩ := t
  cases h.1
  obtain ⟨⟨r', p', q', w', ts⟩, rfl, hu⟩ := h.inv_importDecl
  exact ⟨_, rfl, .mk hu.isDotted⟩

theorem classes_build (h : ∀ t ∈ ts, Fits classDecl t) {u : ParseTree Rule}
    (hu : Fits endOfInput u) :
    ∃ as, Build.declarations (ts ++ [u]) = .ok as ∧ ∀ a ∈ as, IsClass a := by
  induction ts with
  | nil =>
    refine ⟨[], ?_, fun a ha => absurd ha List.not_mem_nil⟩
    simp only [List.nil_append, Build.declarations, hu.1]
  | cons t ts ih =>
    obtain ⟨ht, hts⟩ := List.forall_mem_cons.1 h
    obtain ⟨a, ha, hia⟩ := classDecl_builds ht
    obtain ⟨as, has, hias⟩ := ih hts
    refine ⟨a :: as, ?_, List.forall_mem_cons.2 ⟨hia, hias⟩⟩
    simp only [List.cons_append, Build.declarations, ht.1, ha, has]
    rfl

theorem declarations_build (h : ∀ t ∈ ts, Fits importDecl t) {us : List (ParseTree Rule)}
    {classes : List (Tree Node)} (hu : Build.declarations us = .ok classes) :
    ∃ as, Build.declarations (ts ++ us) = .ok (as ++ classes) ∧ ∀ a ∈ as, IsImport a := by
  induction ts with
  | nil => exact ⟨[], hu, fun a ha => absurd ha List.not_mem_nil⟩
  | cons t ts ih =>
    obtain ⟨ht, hts⟩ := List.forall_mem_cons.1 h
    obtain ⟨a, ha, hia⟩ := importDecl_builds ht
    obtain ⟨as, has, hias⟩ := ih hts
    refine ⟨a :: as, ?_, List.forall_mem_cons.2 ⟨hia, hias⟩⟩
    simp only [List.cons_append, Build.declarations, ht.1, ha, has]
    rfl

/-- The builder makes a file of every parse tree of a file. -/
theorem file_builds (h : Fits file t) : ∃ a, Build.file t = .ok a ∧ IsFile a := by
  obtain ⟨r, p, q, w, ts⟩ := t
  cases h.1
  obtain ⟨us, vs, u, rfl, hus, hvs, hu⟩ := h.inv_file
  obtain ⟨classes, hclasses, hic⟩ := classes_build hvs hu
  obtain ⟨imports, himports, hii⟩ := declarations_build hus hclasses
  have hf : Build.file (.node file p q w (us ++ (vs ++ [u]))) =
      .ok (.node (.plain .compilationUnit p.line q.line) (imports ++ classes)) := by
    simp only [Build.file, ParseTree.children, himports]
    rfl
  exact ⟨_, hf, .mk hii hic⟩

theorem isFile_of_builds {a : Tree Node} (h : Fits file t) (ha : Build.file t = .ok a) :
    IsFile a := by
  obtain ⟨b, hb, hib⟩ := file_builds h
  rw [ha] at hb
  cases hb
  exact hib

/-- The parse tree of a source that is matched as a file. -/
theorem parseRule_file {source : String} {us : List (ParseTree Rule)}
    (h : parseRule .file source = .ok us) : ∃ t, us = [t] ∧ Fits file t := by
  unfold parseRule at h
  cases hp : grammar.parse .file source.toList with
  | ok m =>
    obtain ⟨ts, d⟩ := m
    rw [hp] at h
    cases h
    exact Makes.call (by decide) ⟨_, _, parse_eq_ok_iff.1 hp⟩
  | error a =>
    rw [hp] at h
    cases h

theorem parseRule_of_parse {r : Rule} {source : String} {d : Cursor}
    (h : grammar.parse r source.toList = .ok (ts, d)) : parseRule r source = .ok ts := by
  unfold parseRule
  rw [h]

theorem parse_eq_mapError {source : String} (h : parseRule .file source = .ok [t]) :
    parse source = (Build.file t).mapError .malformed := by
  unfold parse
  rw [h]

/-- A source is read as what the builder makes of its parse tree. -/
theorem parse_ok_iff {source : String} {a : Tree Node} :
    parse source = .ok a ↔ ∃ t d,
      Derives grammar false (.call file) (.ofText source.toList) (some ([t], d)) ∧
        Build.file t = .ok a := by
  constructor
  · intro h
    cases hp : grammar.parse .file source.toList with
    | ok m =>
      obtain ⟨ts, d⟩ := m
      have hr := parseRule_of_parse hp
      obtain ⟨t, rfl, -⟩ := parseRule_file hr
      rw [parse_eq_mapError hr] at h
      exact ⟨t, d, parse_eq_ok_iff.1 hp, mapError_eq_ok h⟩
    | error e =>
      unfold parse parseRule at h
      rw [hp] at h
      cases h
  · rintro ⟨t, d, hd, hb⟩
    rw [parse_eq_mapError (parseRule_of_parse (parse_eq_ok_iff.2 hd)), hb]
    rfl

theorem exists_fits_of_parse {source : String} {a : Tree Node} (h : parse source = .ok a) :
    ∃ t, Fits file t ∧ Build.file t = .ok a := by
  obtain ⟨t, d, hd, hb⟩ := parse_ok_iff.1 h
  obtain ⟨u, hu, hfits⟩ := Makes.call (by decide) ⟨_, _, hd⟩
  cases hu
  exact ⟨t, hfits, hb⟩

/-- Every tree that is read from a source is the tree of a file. -/
theorem isFile_of_parse (source : String) (a : Tree Node) (h : parse source = .ok a) :
    IsFile a := by
  unfold parse at h
  cases hp : parseRule .file source with
  | ok us =>
    obtain ⟨t, rfl, ht⟩ := parseRule_file hp
    obtain ⟨b, hb, hib⟩ := file_builds ht
    rw [hp] at h
    simp only [hb] at h
    cases h
    exact hib
  | error e =>
    rw [hp] at h
    cases h

theorem isFile_of_parse_nested_branches :
    ∃ a, parse "import a.if; class C \x7b public field x; method m(p, q) \x7b if (p) if (!q) p(x, 1);
      else return p ? q : x = 2; \x7d \x7d" = .ok a ∧ IsFile a := by
  refine (exists_ok_of_isSome ?_).imp fun a ha => ⟨ha, isFile_of_parse _ a ha⟩
  decide +kernel

theorem file_builds_of_derives {c d : Cursor}
    (h : Derives grammar false (.call file) c (some (ts, d))) :
    ∃ t a, ts = [t] ∧ Build.file t = .ok a := by
  obtain ⟨t, rfl, ht⟩ := Makes.call (by decide) ⟨_, _, h⟩
  obtain ⟨a, ha, -⟩ := file_builds ht
  exact ⟨t, a, rfl, ha⟩

theorem parse_of_derives_none {source : String}
    (h : Derives grammar false (.call file) (.ofText source.toList) none) :
    ∃ p expected, parse source = .error (.unmatched p expected) := by
  cases hp : grammar.parse .file source.toList with
  | ok m =>
    have hm := h.det (parse_eq_ok_iff.1 hp)
    cases hm
  | error e =>
    refine ⟨e.position, Rule.all.filter (e.rules.contains ·), ?_⟩
    unfold parse parseRule
    rw [hp]
    rfl

/-- A source is read if the grammar matches it as a file, and is refused for its syntax if it does
not: no parse tree of a file, at the beginning of a text or inside it, is refused by the builder. -/
theorem parse_ok_or_unmatched :
    (∀ source : String,
      (∃ t d a, Derives grammar false (.call file) (.ofText source.toList) (some ([t], d)) ∧
        Build.file t = .ok a ∧ parse source = .ok a) ∨
      Derives grammar false (.call file) (.ofText source.toList) none ∧
        ∃ p expected, parse source = .error (.unmatched p expected)) ∧
    ∀ (c d : Cursor) (ts : List (ParseTree Rule)),
      Derives grammar false (.call file) c (some (ts, d)) →
        ∃ t a, ts = [t] ∧ Build.file t = .ok a := by
  refine ⟨fun source => ?_, fun c d ts h => file_builds_of_derives h⟩
  obtain ⟨o, -, h⟩ := Grammar.exists_outcome survey_holds false (survey_guards .file)
    (.ofText source.toList) .none
  cases o with
  | none => exact .inr ⟨h, parse_of_derives_none h⟩
  | some m =>
    obtain ⟨ts, d⟩ := m
    obtain ⟨t, a, rfl, ha⟩ := file_builds_of_derives h
    exact .inl ⟨t, d, a, h, ha, parse_ok_iff.2 ⟨t, d, h, ha⟩⟩

theorem parse_ok_or_unmatched_negations :
    ∃ t d a, Derives grammar false (.call file) (.ofText "import a.b; class C \x7b
        abstract method m(p); method n() \x7b if (!!p) p(1)(); else x = a + b < c; \x7d \x7d".toList)
        (some ([t], d)) ∧ Build.file t = .ok a := by
  obtain ⟨⟨ts, d⟩, h⟩ := exists_ok_of_isSome (x := grammar.parse .file "import a.b; class C \x7b
        abstract method m(p); method n() \x7b if (!!p) p(1)(); else x = a + b < c; \x7d \x7d".toList)
    (by decide +kernel)
  have hd := parse_eq_ok_iff.1 h
  obtain ⟨t, a, rfl, ha⟩ := parse_ok_or_unmatched.2 _ d ts hd
  exact ⟨t, d, a, hd, ha⟩

end Twig

end TreeMetrics
