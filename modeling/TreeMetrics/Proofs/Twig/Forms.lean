import TreeMetrics.Proofs.Twig.Shape

namespace TreeMetrics.Twig

open TreeMetrics.Twig.Rule

def operatorRules : List Rule := [orOp, andOp, eqOp, relOp, addOp]

/-- Matches in a row, and the trees that are formed of them. -/
inductive Forms : List (ParseTree Rule) → List (Tree Node) → Prop where
  | nil : Forms [] []
  | append {ts us as bs} : Forms ts as → Forms us bs → Forms (ts ++ us) (as ++ bs)
  | literal {t} : Fits number t → Forms [t] [Build.wordLeaf .literal t]
  | name {t} : Fits identifier t → Forms [t] [Build.wordLeaf .name t]
  -- Rules that only group: what is formed of their parts stands for them.
  | single {r p q s t a} : r ∈ [expr, assignment, ternary] → Forms [t] [a] →
    Forms [.node r p q s [t]] [a]
  | chain {r p q s ts a} :
    r ∈ [orExpr, andExpr, eqExpr, relExpr, addExpr, unary, callChain] → Forms ts [a] →
    Forms [.node r p q s ts] [a]
  | binary {op o ts us a b} : op ∈ operatorRules → Fits op o → Forms ts [a] → Forms us [b] →
    Forms (ts ++ o :: us)
      [.node (.word .infixExpression o.text a.label.beginLine b.label.endLine) [a, b]]
  | negation {o ts a b e} : Fits notOp o → Forms ts [a] →
    Forms (o :: ts) [.node (.word .unaryExpression o.text b e) [a]]
  | call {ts a p q s us bs} : Forms ts [a] → Forms us bs →
    Forms (ts ++ [.node callArgs p q s us])
      [.node (.plain .methodCall a.label.beginLine q.line)
        [a, .node (.plain .arguments p.line q.line) bs]]
  | assignment {p q s t o u a b} : Fits assignOp o → Forms [t] [a] → Forms [u] [b] →
    Forms [.node assignment p q s [t, o, u]] [.node (.word .assignment o.text p.line q.line) [a, b]]
  | conditional {p q s ts as} : 1 < ts.length → Forms ts as →
    Forms [.node ternary p q s ts] [.node (.plain .conditionalExpression p.line q.line) as]
  | statement {r k p q s ts as} : Build.statementKind? r = some k → Forms ts as →
    Forms [.node r p q s ts] [.node (.plain k p.line q.line) as]
  | importDecl {p q s t} : Fits qualifiedName t →
    Forms [.node importDecl p q s [t]] [.leaf (.word .importDeclaration t.text p.line q.line)]
  | field {p q s m t} : Fits modifiers m → Fits identifier t →
    Forms [.node fieldDecl p q s [m, t]]
      [.leaf ⟨.fieldDeclaration, some t.text, Build.modifiers m, p.line, q.line⟩]
  | parameters {p q s ts} : (∀ t ∈ ts, Fits identifier t) →
    Forms [.node paramList p q s ts]
      [.node (.plain .formalParameters p.line q.line) (ts.map (Build.wordLeaf .formalParameter))]
  | method {p q s m t ts as} : Fits modifiers m → Fits identifier t → Forms ts as →
    Forms [.node methodDecl p q s (m :: t :: ts)]
      [.node ⟨.methodDeclaration, some t.text, Build.modifiers m, p.line, q.line⟩ as]
  | classDecl {p q s t ts as} : Fits identifier t → Forms ts as →
    Forms [.node classDecl p q s (t :: ts)]
      [.node (.word .classDeclaration t.text p.line q.line) as]
  | endOfInput {t} : Fits endOfInput t → Forms [t] []
  | file {p q s ts as} : Forms ts as →
    Forms [.node file p q s ts] [.node (.plain .compilationUnit p.line q.line) as]

/-- The function makes a tree of the parse tree, and that tree is formed of it. -/
def Formed (f : ParseTree Rule → Build.Result) (t : ParseTree Rule) : Prop :=
  ∃ a, f t = .ok a ∧ Forms [t] [a]

variable {r op operand : Rule} {p q : Position} {s : String}
variable {t : ParseTree Rule} {ts us : List (ParseTree Rule)} {left : Tree Node}

theorem joinChain_forms (hop : op ∈ operatorRules)
    (hb : ∀ t ∈ ts, Fits operand t → Formed Build.expression t) (hl : Forms us [left])
    (h : Links op operand ts) :
    ∃ a, Build.joinChain left (ts.map Build.part) = .ok a ∧ Forms (us ++ ts) [a] := by
  induction h generalizing left us with
  | nil =>
    rw [List.append_nil]
    exact ⟨left, rfl, hl⟩
  | @cons o t ts ho ht _ ih =>
    obtain ⟨-, hb⟩ := List.forall_mem_cons.1 hb
    obtain ⟨hbt, hb⟩ := List.forall_mem_cons.1 hb
    obtain ⟨b, he, hr⟩ := hbt ht
    have hnode := Forms.binary hop ho hl hr
    obtain ⟨a, ha, hf⟩ := ih hb hnode
    rw [List.append_assoc] at hf
    exact ⟨a, (Build.joinChain_cons he).trans ha, hf⟩

theorem negations_form {os : List (ParseTree Rule)} {b e : Nat} {a : Tree Node}
    (ho : ∀ o ∈ os, Fits notOp o) (ha : Forms [t] [a]) :
    Forms (os ++ [t]) [os.foldr (fun o x => Build.negate b e x o.text) a] := by
  induction os with
  | nil => exact ha
  | cons o os ih =>
    obtain ⟨ho, hos⟩ := List.forall_mem_cons.1 ho
    exact .negation ho (ih hos)

/-- The arguments of a call are formed, and the builder makes the trees of them. -/
def FormsArguments (t : ParseTree Rule) : Prop :=
  ∃ p q s ts as, t = .node callArgs p q s ts ∧ Forms ts as ∧ Build.arguments t = .ok as

theorem applyCalls_forms (hl : Forms us [left]) (hb : ∀ t ∈ ts, FormsArguments t) :
    ∃ a, Build.applyCalls left (ts.map Build.part) = .ok a ∧ Forms (us ++ ts) [a] := by
  induction ts generalizing left us with
  | nil =>
    rw [List.append_nil]
    exact ⟨left, rfl, hl⟩
  | cons t ts ih =>
    obtain ⟨⟨p, q, s, vs, as, rfl, hvs, he⟩, hts⟩ := List.forall_mem_cons.1 hb
    obtain ⟨a, ha, hf⟩ := ih (Forms.call hl hvs) hts
    rw [List.append_assoc] at hf
    exact ⟨a, (Build.applyCalls_cons he).trans ha, hf⟩

theorem collect_forms (hb : ∀ t ∈ ts, Formed Build.expression t) :
    ∃ as, Build.collect (ts.map Build.part) = .ok as ∧ Forms ts as := by
  induction ts with
  | nil => exact ⟨[], rfl, .nil⟩
  | cons t ts ih =>
    obtain ⟨⟨a, ha, hf⟩, hb⟩ := List.forall_mem_cons.1 hb
    obtain ⟨as, has, hfs⟩ := ih hb
    exact ⟨a :: as, Build.collect_cons ha has, hf.append hfs⟩

/-- What the rules of expressions match is formed. -/
structure FormsExpression (t : ParseTree Rule) : Prop where
  expression : ∀ r ∈ expressionRules, Fits r t → Formed Build.expression t
  arguments : Fits callArgs t → FormsArguments t

theorem mem_operatorRules {l : Level} (hl : level? r = some l) : l.op ∈ operatorRules := by
  cases r with
  | orExpr | andExpr | eqExpr | relExpr | addExpr =>
    cases hl
    decide
  | _ => cases hl

section Assembly

variable (ih : ∀ t ∈ ts, FormsExpression t)

include ih

theorem chain_forms {l : Level} (hl : level? r = some l) (ho : l.operand ∈ expressionRules)
    (hr : r ∈ [orExpr, andExpr, eqExpr, relExpr, addExpr, unary, callChain])
    (h : Fits r (.node r p q s ts)) : Formed Build.expression (.node r p q s ts) := by
  obtain ⟨t, us, rfl, ht, hus⟩ := h.inv_chain (stands_of_level? hl)
  obtain ⟨iht, ihus⟩ := List.forall_mem_cons.1 ih
  obtain ⟨a, ha, hf⟩ := iht.expression _ ho ht
  obtain ⟨b, hb, hfb⟩ := joinChain_forms (mem_operatorRules hl)
    (fun u hu => (ihus u hu).expression _ ho) hf hus
  exact ⟨b, (expression_chain hl ha).trans hb, .chain hr hfb⟩

theorem assignment_forms (h : Fits assignment (.node assignment p q s ts)) :
    Formed Build.expression (.node assignment p q s ts) := by
  obtain ⟨t, ht, rfl | ⟨o, u, rfl, ho, hu⟩⟩ := h.inv_assignment
  · obtain ⟨a, ha, hf⟩ := (ih t (by simp)).expression _ (by decide) ht
    exact ⟨a, Build.expression_target ha, .single (by decide) hf⟩
  · obtain ⟨a, ha, hf⟩ := (ih t (by simp)).expression _ (by decide) ht
    obtain ⟨b, hb, hfb⟩ := (ih u (by simp)).expression _ (by decide) hu
    exact ⟨_, Build.expression_assignment ha hb, .assignment ho hf hfb⟩

theorem ternary_forms (h : Fits ternary (.node ternary p q s ts)) :
    Formed Build.expression (.node ternary p q s ts) := by
  obtain ⟨t, ht, rfl | ⟨y, n, rfl, hy, hn⟩⟩ := h.inv_ternary
  · obtain ⟨a, ha, hf⟩ := (ih t (by simp)).expression _ (by decide) ht
    exact ⟨a, Build.expression_condition ha, .single (by decide) hf⟩
  · obtain ⟨a, ha, hf⟩ := (ih t (by simp)).expression _ (by decide) ht
    obtain ⟨b, hb, hfb⟩ := (ih y (by simp)).expression _ (by decide) hy
    obtain ⟨c, hc, hfc⟩ := (ih n (by simp)).expression _ (by decide) hn
    exact ⟨_, Build.expression_ternary ha hb hc,
      .conditional (by simp) (hf.append (hfb.append hfc))⟩

theorem unary_forms (h : Fits unary (.node unary p q s ts)) :
    Formed Build.expression (.node unary p q s ts) := by
  obtain ⟨os, t, rfl, ho, ht⟩ := h.inv_unary
  obtain ⟨a, ha, hf⟩ := (ih t (by simp)).expression _ (by decide) ht
  exact ⟨_, expression_negations ho ht ha, .chain (by decide) (negations_form ho hf)⟩

theorem callChain_forms (h : Fits callChain (.node callChain p q s ts)) :
    Formed Build.expression (.node callChain p q s ts) := by
  obtain ⟨t, us, rfl, ht, hus⟩ := h.inv_callChain
  obtain ⟨iht, ihus⟩ := List.forall_mem_cons.1 ih
  have hb : Formed Build.expression t := by
    rcases ht with ht | ht | ht
    all_goals exact iht.expression _ (by decide) ht
  obtain ⟨a, ha, hf⟩ := hb
  obtain ⟨b, hb, hfb⟩ := applyCalls_forms hf fun u hu => (ihus u hu).arguments (hus u hu)
  exact ⟨b, (Build.expression_callChain ha).trans hb, .chain (by decide) hfb⟩

theorem callArgs_forms (h : Fits callArgs (.node callArgs p q s ts)) :
    FormsArguments (.node callArgs p q s ts) := by
  have ht := h.inv_callArgs
  obtain ⟨as, has, hf⟩ := collect_forms fun t hm => (ih t hm).expression _ (by decide) (ht t hm)
  exact ⟨p, q, s, ts, as, rfl, hf, (Build.arguments_node ..).trans has⟩

end Assembly

theorem formsExpression (t : ParseTree Rule) : FormsExpression t := by
  induction t using ParseTree.induction with
  | h r p q s ts ih =>
    constructor
    · intro r' hr hf
      cases hf.1
      simp only [expressionRules, List.mem_cons, List.not_mem_nil, or_false] at hr
      rcases hr with rfl | rfl | rfl | rfl | rfl | rfl | rfl | rfl | rfl | rfl | rfl | rfl
      · obtain ⟨t, rfl, ht⟩ := hf.inv_expr
        obtain ⟨a, ha, hfa⟩ := (ih t (by simp)).expression _ (by decide) ht
        exact ⟨a, Build.expression_expr ha, .single (by decide) hfa⟩
      · exact assignment_forms ih hf
      · exact ternary_forms ih hf
      · exact chain_forms ih (l := ⟨andExpr, orOp, _⟩) rfl (by decide) (by decide) hf
      · exact chain_forms ih (l := ⟨eqExpr, andOp, _⟩) rfl (by decide) (by decide) hf
      · exact chain_forms ih (l := ⟨relExpr, eqOp, _⟩) rfl (by decide) (by decide) hf
      · exact chain_forms ih (l := ⟨addExpr, relOp, _⟩) rfl (by decide) (by decide) hf
      · exact chain_forms ih (l := ⟨unary, addOp, _⟩) rfl (by decide) (by decide) hf
      · exact unary_forms ih hf
      · exact callChain_forms ih hf
      · exact ⟨_, rfl, .literal hf⟩
      · exact ⟨_, rfl, .name hf⟩
    · intro hf
      cases hf.1
      exact callArgs_forms ih hf

theorem expr_forms (h : Fits expr t) : Formed Build.expression t :=
  (formsExpression t).expression expr (by decide) h

/-- The rules that make a node of their own in the body of a method. -/
def bodyRules : List Rule := elseClause :: statementRules

theorem bodyRules_of_statement (h : FitsOneOf statementRules t) : FitsOneOf bodyRules t := by
  obtain ⟨r, hr, hf⟩ := h
  exact ⟨r, List.mem_cons_of_mem _ hr, hf⟩

/-- What stands right under a statement: expressions, statements and their clauses. -/
theorem Fits.inv_bodyRules (hr : r ∈ bodyRules) (h : Fits r (.node r p q s ts)) :
    ∀ t ∈ ts, Fits expr t ∨ FitsOneOf bodyRules t := by
  simp only [bodyRules, statementRules, List.mem_cons, List.not_mem_nil, or_false] at hr
  rcases hr with rfl | rfl | rfl | rfl | rfl | rfl
  · obtain ⟨t, rfl, ht⟩ := h.inv_elseClause
    exact List.forall_mem_singleton.2 (.inr (bodyRules_of_statement ht))
  · exact fun t ht => .inr (bodyRules_of_statement (h.inv_block t ht))
  · obtain ⟨t, u, ht, hu, rfl | ⟨v, rfl, hv⟩⟩ := h.inv_ifStmt
    · exact List.forall_mem_cons.2 ⟨.inl ht,
        List.forall_mem_singleton.2 (.inr (bodyRules_of_statement hu))⟩
    · exact List.forall_mem_cons.2 ⟨.inl ht, List.forall_mem_cons.2
        ⟨.inr (bodyRules_of_statement hu), List.forall_mem_singleton.2 (.inr ⟨_, by decide, hv⟩)⟩⟩
  · obtain ⟨t, u, rfl, ht, hu⟩ := h.inv_whileStmt
    exact List.forall_mem_cons.2 ⟨.inl ht,
      List.forall_mem_singleton.2 (.inr (bodyRules_of_statement hu))⟩
  · rcases h.inv_returnStmt with rfl | ⟨t, rfl, ht⟩
    · exact List.forall_mem_nil _
    · exact List.forall_mem_singleton.2 (.inl ht)
  · obtain ⟨t, rfl, ht⟩ := h.inv_exprStmt
    exact List.forall_mem_singleton.2 (.inl ht)

theorem exists_statementKind? (hr : r ∈ bodyRules) :
    r ≠ expr ∧ ∃ k, Build.statementKind? r = some k := by
  simp only [bodyRules, statementRules, List.mem_cons, List.not_mem_nil, or_false] at hr
  rcases hr with rfl | rfl | rfl | rfl | rfl | rfl
  all_goals exact ⟨by decide, _, rfl⟩

theorem statements_form (hf : ∀ t ∈ ts, Fits expr t ∨ FitsOneOf bodyRules t)
    (hb : ∀ t ∈ ts, FitsOneOf bodyRules t → Formed Build.statement t) :
    ∃ as, Build.statements ts = .ok as ∧ Forms ts as := by
  induction ts with
  | nil => exact ⟨[], rfl, .nil⟩
  | cons t ts ih =>
    obtain ⟨hft, hfts⟩ := List.forall_mem_cons.1 hf
    obtain ⟨hbt, hbts⟩ := List.forall_mem_cons.1 hb
    obtain ⟨as, has, hforms⟩ := ih hfts hbts
    rcases hft with ht | ht
    · obtain ⟨a, ha, hfa⟩ := expr_forms ht
      exact ⟨a :: as, statements_cons_expr ht.1 ha has, hfa.append hforms⟩
    · obtain ⟨a, ha, hfa⟩ := hbt ht
      obtain ⟨r, hr, hfits⟩ := ht
      have hne : t.rule ≠ expr := by
        rw [hfits.1]
        exact (exists_statementKind? hr).1
      exact ⟨a :: as, statements_cons hne ha has, hfa.append hforms⟩

theorem statement_forms (h : FitsOneOf bodyRules t) : Formed Build.statement t := by
  induction t using ParseTree.induction with
  | h r p q s ts ih =>
    obtain ⟨r', hr, hf⟩ := h
    cases hf.1
    obtain ⟨as, has, hforms⟩ := statements_form (hf.inv_bodyRules hr) ih
    obtain ⟨-, k, hk⟩ := exists_statementKind? hr
    exact ⟨_, statement_node hk has, .statement hk hforms⟩

theorem field_forms (h : Fits fieldDecl t) : Formed Build.field t := by
  obtain ⟨r, p, q, w, ts⟩ := t
  cases h.1
  obtain ⟨m, u, rfl, hm, hu⟩ := h.inv_fieldDecl
  exact ⟨_, rfl, .field hm hu⟩

theorem paramList_forms (h : Fits paramList t) :
    Forms [t] [.node (Build.spanning .formalParameters t)
      (t.children.map (Build.wordLeaf .formalParameter))] := by
  obtain ⟨r, p, q, w, ts⟩ := t
  cases h.1
  exact .parameters h.inv_paramList

theorem method_forms (h : Fits methodDecl t) : Formed Build.method t := by
  obtain ⟨r, p, q, w, ts⟩ := t
  cases h.1
  obtain ⟨m, u, v, hm, hu, hv, rfl | ⟨b, rfl, hb⟩⟩ := h.inv_methodDecl
  · exact ⟨_, rfl, .method hm hu (paramList_forms hv)⟩
  · obtain ⟨a, ha, hf⟩ := statement_forms ⟨block, by decide, hb⟩
    refine ⟨_, ?_, .method hm hu ((paramList_forms hv).append hf)⟩
    simp only [Build.method, ParseTree.children, ha]
    rfl

theorem member_forms (h : FitsOneOf [fieldDecl, methodDecl] t) : Formed Build.member t := by
  obtain ⟨r, hr, hf⟩ := h
  simp only [List.mem_cons, List.not_mem_nil, or_false] at hr
  rcases hr with rfl | rfl
  · obtain ⟨a, ha, hfa⟩ := field_forms hf
    refine ⟨a, ?_, hfa⟩
    simp only [Build.member, hf.1, ha]
  · obtain ⟨a, ha, hfa⟩ := method_forms hf
    refine ⟨a, ?_, hfa⟩
    simp only [Build.member, hf.1, ha]

theorem mapM_forms {f : ParseTree Rule → Build.Result} (h : ∀ t ∈ ts, Formed f t) :
    ∃ as, ts.mapM f = .ok as ∧ Forms ts as := by
  induction ts with
  | nil => exact ⟨[], rfl, .nil⟩
  | cons t ts ih =>
    obtain ⟨⟨a, ha, hf⟩, hts⟩ := List.forall_mem_cons.1 h
    obtain ⟨as, has, hfs⟩ := ih hts
    refine ⟨a :: as, ?_, hf.append hfs⟩
    rw [List.mapM_cons, ha, has]
    rfl

theorem classDecl_forms (h : Fits classDecl t) : Formed Build.classDecl t := by
  obtain ⟨r, p, q, w, ts⟩ := t
  cases h.1
  obtain ⟨u, us, rfl, hu, hus⟩ := h.inv_classDecl
  obtain ⟨as, has, hf⟩ := mapM_forms fun t ht => member_forms (hus t ht)
  refine ⟨_, ?_, .classDecl hu hf⟩
  simp only [Build.classDecl, ParseTree.children, has]
  rfl

theorem importDecl_forms (h : Fits importDecl t) : Formed Build.importDecl t := by
  obtain ⟨r, p, q, w, ts⟩ := t
  cases h.1
  obtain ⟨u, rfl, hu⟩ := h.inv_importDecl
  exact ⟨_, rfl, .importDecl hu⟩

theorem declarations_form (h : ∀ t ∈ ts, Fits importDecl t ∨ Fits classDecl t ∨ Fits endOfInput t) :
    ∃ as, Build.declarations ts = .ok as ∧ Forms ts as := by
  induction ts with
  | nil => exact ⟨[], rfl, .nil⟩
  | cons t ts ih =>
    obtain ⟨ht, hts⟩ := List.forall_mem_cons.1 h
    obtain ⟨as, has, hfs⟩ := ih hts
    rcases ht with ht | ht | ht
    · obtain ⟨a, ha, hf⟩ := importDecl_forms ht
      refine ⟨a :: as, ?_, hf.append hfs⟩
      simp only [Build.declarations, ht.1, ha, has]
      rfl
    · obtain ⟨a, ha, hf⟩ := classDecl_forms ht
      refine ⟨a :: as, ?_, hf.append hfs⟩
      simp only [Build.declarations, ht.1, ha, has]
      rfl
    · refine ⟨as, ?_, (Forms.endOfInput ht).append hfs⟩
      simp only [Build.declarations, ht.1, has]

theorem file_forms (h : Fits file t) : Formed Build.file t := by
  obtain ⟨r, p, q, w, ts⟩ := t
  cases h.1
  obtain ⟨us, vs, u, rfl, hus, hvs, hu⟩ := h.inv_file
  have hparts : ∀ t ∈ us ++ (vs ++ [u]),
      Fits importDecl t ∨ Fits classDecl t ∨ Fits endOfInput t := by
    intro t ht
    simp only [List.mem_append, List.mem_singleton] at ht
    rcases ht with ht | ht | rfl
    · exact .inl (hus t ht)
    · exact .inr (.inl (hvs t ht))
    · exact .inr (.inr hu)
  obtain ⟨as, has, hf⟩ := declarations_form hparts
  refine ⟨_, ?_, .file hf⟩
  simp only [Build.file, ParseTree.children, has]
  rfl

end TreeMetrics.Twig
