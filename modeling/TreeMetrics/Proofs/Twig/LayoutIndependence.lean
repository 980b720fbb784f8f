import TreeMetrics.Proofs.Twig.Abreast
import TreeMetrics.Proofs.Twig.Shape

namespace TreeMetrics.Twig

open TreeMetrics.Twig.Rule

variable {r op operand : Rule} {p q p' q' : Position} {s s' : String}
variable {t t' : ParseTree Rule} {ts ts' : List (ParseTree Rule)} {left left' : Tree Node}

namespace Alike

theorem rule_eq (h : Alike t t') : t'.rule = t.rule := by
  cases h
  rfl

theorem children (h : Alike t t') : List.Forall₂ Alike t.children t'.children := by
  cases h with
  | node _ h => exact h

theorem text_eq (h : Alike t t') (hr : isSpelled t.rule = true) : t'.text = t.text := by
  cases h with
  | node hs _ => exact (hs hr).symm

theorem texts_eq (h : List.Forall₂ Alike ts ts') (hr : ∀ t ∈ ts, isSpelled t.rule = true) :
    ts'.map ParseTree.text = ts.map ParseTree.text := by
  induction h with
  | nil => rfl
  | cons h _ ih =>
    obtain ⟨hr, hrs⟩ := List.forall_mem_cons.1 hr
    rw [List.map_cons, List.map_cons, h.text_eq hr, ih hrs]

theorem inv_one (h : List.Forall₂ Alike [t] ts') : ∃ t', ts' = [t'] ∧ Alike t t' := by
  obtain ⟨t', _, ht, hnil, rfl⟩ := List.forall₂_cons_left_iff.1 h
  cases hnil
  exact ⟨t', rfl, ht⟩

theorem inv_three {u v : ParseTree Rule} (h : List.Forall₂ Alike [t, u, v] ts') :
    ∃ t' u' v', ts' = [t', u', v'] ∧ Alike t t' ∧ Alike u u' ∧ Alike v v' := by
  obtain ⟨t', _, ht, hrest, rfl⟩ := List.forall₂_cons_left_iff.1 h
  obtain ⟨u', _, hu, hlast, rfl⟩ := List.forall₂_cons_left_iff.1 hrest
  obtain ⟨v', rfl, hv⟩ := inv_one hlast
  exact ⟨t', u', v', rfl, ht, hu, hv⟩

theorem inv_snoc {os : List (ParseTree Rule)} (h : List.Forall₂ Alike (os ++ [t]) ts') :
    ∃ os' t', ts' = os' ++ [t'] ∧ List.Forall₂ Alike os os' ∧ Alike t t' := by
  induction os generalizing ts' with
  | nil =>
    obtain ⟨t', rfl, ht⟩ := inv_one h
    exact ⟨[], t', rfl, .nil, ht⟩
  | cons o os ih =>
    obtain ⟨o', _, ho, hrest, rfl⟩ := List.forall₂_cons_left_iff.1 h
    obtain ⟨os', t', rfl, hos, ht⟩ := ih hrest
    exact ⟨o' :: os', t', rfl, .cons ho hos, ht⟩

theorem rules_eq (h : List.Forall₂ Alike ts ts') (hr : ∀ t ∈ ts, t.rule = r) :
    ∀ t' ∈ ts', t'.rule = r := by
  induction h with
  | nil => exact List.forall_mem_nil _
  | cons h _ ih =>
    obtain ⟨hr, hrs⟩ := List.forall_mem_cons.1 hr
    exact List.forall_mem_cons.2 ⟨h.rule_eq.trans hr, ih hrs⟩

end Alike

/-- Both parse trees are built, and the trees differ at most in their lines. -/
def Concur (x y : Build.Result) : Prop :=
  ∃ a b, x = .ok a ∧ y = .ok b ∧ unplaced a = unplaced b

def ConcurAll (x y : Except Malformed (List (Tree Node))) : Prop :=
  ∃ as bs, x = .ok as ∧ y = .ok bs ∧ unplacedAll as = unplacedAll bs

section Expressions

theorem joinChain_concur (ho : isSpelled op = true)
    (hb : ∀ t ∈ ts, Fits operand t → ∀ t', Alike t t' →
      Concur (Build.expression t) (Build.expression t'))
    (h : Links op operand ts) (hts : List.Forall₂ Alike ts ts')
    (hl : unplaced left = unplaced left') :
    Concur (Build.joinChain left (ts.map Build.part))
      (Build.joinChain left' (ts'.map Build.part)) := by
  induction h generalizing left left' ts' with
  | nil =>
    cases hts
    exact ⟨left, left', rfl, rfl, hl⟩
  | cons hop ht _ ih =>
    cases hts with
    | cons hao hts =>
      cases hts with
      | cons hat hts =>
        obtain ⟨-, hb⟩ := List.forall_mem_cons.1 hb
        obtain ⟨hbt, hb⟩ := List.forall_mem_cons.1 hb
        obtain ⟨e, e', he, he', hee⟩ := hbt ht _ hat
        have hspelled := hao.text_eq (hop.1 ▸ ho)
        rw [List.map_cons, List.map_cons, List.map_cons, List.map_cons, Build.joinChain_cons he,
          Build.joinChain_cons he', hspelled]
        exact ih hb hts (unplaced_node rfl (unplacedAll_cons hl (unplacedAll_cons hee rfl)))

theorem negations_concur {os os' : List (ParseTree Rule)} {b e b' e' : Nat} {a a' : Tree Node}
    (ho : ∀ o ∈ os, Fits notOp o) (h : List.Forall₂ Alike os os') (ha : unplaced a = unplaced a') :
    unplaced (os.foldr (fun o x => Build.negate b e x o.text) a) =
      unplaced (os'.foldr (fun o x => Build.negate b' e' x o.text) a') := by
  induction h with
  | nil => exact ha
  | cons h _ ih =>
    obtain ⟨ho, hos⟩ := List.forall_mem_cons.1 ho
    rw [List.foldr_cons, List.foldr_cons, h.text_eq (ho.1 ▸ rfl)]
    exact unplaced_node rfl (unplacedAll_cons (ih hos) rfl)

theorem applyCalls_concur (hl : unplaced left = unplaced left')
    (hts : List.Forall₂ (fun t t' => ConcurAll (Build.arguments t) (Build.arguments t')) ts ts') :
    Concur (Build.applyCalls left (ts.map Build.part))
      (Build.applyCalls left' (ts'.map Build.part)) := by
  induction hts generalizing left left' with
  | nil => exact ⟨left, left', rfl, rfl, hl⟩
  | cons h _ ih =>
    obtain ⟨es, es', hes, hes', hees⟩ := h
    rw [List.map_cons, List.map_cons, Build.applyCalls_cons hes, Build.applyCalls_cons hes']
    apply ih
    exact unplaced_node rfl (unplacedAll_cons hl (unplacedAll_cons (unplaced_node rfl hees) rfl))

theorem collect_concur
    (hts : List.Forall₂ (fun t t' => Concur (Build.expression t) (Build.expression t')) ts ts') :
    ConcurAll (Build.collect (ts.map Build.part)) (Build.collect (ts'.map Build.part)) := by
  induction hts with
  | nil => exact ⟨[], [], rfl, rfl, rfl⟩
  | cons h _ ih =>
    obtain ⟨e, e', he, he', hee⟩ := h
    obtain ⟨es, es', hes, hes', hees⟩ := ih
    exact ⟨e :: es, e' :: es', Build.collect_cons he hes, Build.collect_cons he' hes',
      unplacedAll_cons hee hees⟩

/-- The builder makes the same expression, and the same arguments, of parse trees that are alike. -/
structure ExpressionsConcur (t : ParseTree Rule) : Prop where
  expression : ∀ r ∈ expressionRules, Fits r t → ∀ t', Alike t t' →
    Concur (Build.expression t) (Build.expression t')
  arguments : Fits callArgs t → ∀ t', Alike t t' →
    ConcurAll (Build.arguments t) (Build.arguments t')

theorem forall₂_of_alike {P : ParseTree Rule → ParseTree Rule → Prop}
    (h : ∀ t ∈ ts, ∀ t', Alike t t' → P t t') (hts : List.Forall₂ Alike ts ts') :
    List.Forall₂ P ts ts' := by
  induction hts with
  | nil => exact .nil
  | cons ha _ ih =>
    obtain ⟨ht, hts⟩ := List.forall_mem_cons.1 h
    exact .cons (ht _ ha) (ih hts)

section Assembly

variable (ih : ∀ t ∈ ts, ExpressionsConcur t) (hts : List.Forall₂ Alike ts ts')

include ih hts

theorem chain_concur {l : Level} (hl : level? r = some l) (ho : l.operand ∈ expressionRules)
    (hop : isSpelled l.op = true) (h : Fits r (.node r p q s ts)) :
    Concur (Build.expression (.node r p q s ts)) (Build.expression (.node r p' q' s' ts')) := by
  obtain ⟨t, us, rfl, ht, hus⟩ := h.inv_chain (stands_of_level? hl)
  obtain ⟨iht, ihus⟩ := List.forall_mem_cons.1 ih
  cases hts with
  | cons hat hus' =>
    obtain ⟨e, e', he, he', hee⟩ := iht.expression _ ho ht _ hat
    rw [expression_chain hl he, expression_chain hl he']
    exact joinChain_concur hop (fun u hu => (ihus u hu).expression _ ho) hus hus' hee

theorem assignment_concur (h : Fits assignment (.node assignment p q s ts)) :
    Concur (Build.expression (.node assignment p q s ts))
      (Build.expression (.node assignment p' q' s' ts')) := by
  obtain ⟨t, ht, rfl | ⟨o, v, rfl, ho, hv⟩⟩ := h.inv_assignment
  · obtain ⟨t', rfl, hat⟩ := Alike.inv_one hts
    obtain ⟨e, e', he, he', hee⟩ := (ih t (by simp)).expression ternary (by decide) ht t' hat
    exact ⟨e, e', Build.expression_target he, Build.expression_target he', hee⟩
  · obtain ⟨t', o', v', rfl, hat, hao, hav⟩ := Alike.inv_three hts
    obtain ⟨e, e', he, he', hee⟩ := (ih t (by simp)).expression ternary (by decide) ht t' hat
    obtain ⟨x, x', hx, hx', hxx⟩ := (ih v (by simp)).expression assignment (by decide) hv v' hav
    refine ⟨_, _, Build.expression_assignment he hx, Build.expression_assignment he' hx', ?_⟩
    rw [hao.text_eq (ho.1 ▸ rfl)]
    exact unplaced_node rfl (unplacedAll_cons hee (unplacedAll_cons hxx rfl))

theorem ternary_concur (h : Fits ternary (.node ternary p q s ts)) :
    Concur (Build.expression (.node ternary p q s ts))
      (Build.expression (.node ternary p' q' s' ts')) := by
  obtain ⟨t, ht, rfl | ⟨y, n, rfl, hy, hn⟩⟩ := h.inv_ternary
  · obtain ⟨t', rfl, hat⟩ := Alike.inv_one hts
    obtain ⟨e, e', he, he', hee⟩ := (ih t (by simp)).expression orExpr (by decide) ht t' hat
    exact ⟨e, e', Build.expression_condition he, Build.expression_condition he', hee⟩
  · obtain ⟨t', y', n', rfl, hat, hay, han⟩ := Alike.inv_three hts
    obtain ⟨e, e', he, he', hee⟩ := (ih t (by simp)).expression orExpr (by decide) ht t' hat
    obtain ⟨x, x', hx, hx', hxx⟩ := (ih y (by simp)).expression expr (by decide) hy y' hay
    obtain ⟨z, z', hz, hz', hzz⟩ := (ih n (by simp)).expression ternary (by decide) hn n' han
    exact ⟨_, _, Build.expression_ternary he hx hz, Build.expression_ternary he' hx' hz',
      unplaced_node rfl (unplacedAll_cons hee (unplacedAll_cons hxx (unplacedAll_cons hzz rfl)))⟩

theorem unary_concur (h : Fits unary (.node unary p q s ts)) :
    Concur (Build.expression (.node unary p q s ts))
      (Build.expression (.node unary p' q' s' ts')) := by
  obtain ⟨os, t, rfl, ho, ht⟩ := h.inv_unary
  obtain ⟨os', t', rfl, hos, hat⟩ := Alike.inv_snoc hts
  obtain ⟨e, e', he, he', hee⟩ := (ih t (by simp)).expression callChain (by decide) ht t' hat
  have hr : t'.rule ≠ notOp := by
    rw [hat.rule_eq, ht.1]
    decide
  have hos' := Alike.rules_eq hos fun o hm => (ho o hm).1
  exact ⟨_, _, expression_negations ho ht he, Build.expression_unary hos' hr he',
    negations_concur ho hos hee⟩

theorem callChain_concur (h : Fits callChain (.node callChain p q s ts)) :
    Concur (Build.expression (.node callChain p q s ts))
      (Build.expression (.node callChain p' q' s' ts')) := by
  obtain ⟨t, us, rfl, ht, hus⟩ := h.inv_callChain
  obtain ⟨iht, ihus⟩ := List.forall_mem_cons.1 ih
  obtain ⟨t', us', hat, hus', rfl⟩ := List.forall₂_cons_left_iff.1 hts
  have hb : Concur (Build.expression t) (Build.expression t') := by
    rcases ht with ht | ht | ht
    all_goals exact iht.expression _ (by decide) ht t' hat
  obtain ⟨e, e', he, he', hee⟩ := hb
  rw [Build.expression_callChain he, Build.expression_callChain he']
  exact applyCalls_concur hee
    (forall₂_of_alike (fun u hu => (ihus u hu).arguments (hus u hu)) hus')

theorem callArgs_concur (h : Fits callArgs (.node callArgs p q s ts)) :
    ConcurAll (Build.arguments (.node callArgs p q s ts))
      (Build.arguments (.node callArgs p' q' s' ts')) := by
  rw [Build.arguments_node, Build.arguments_node]
  apply collect_concur
  apply forall₂_of_alike _ hts
  intro t ht
  exact (ih t ht).expression expr (by decide) (h.inv_callArgs t ht)

end Assembly

theorem expressionsConcur (t : ParseTree Rule) : ExpressionsConcur t := by
  induction t using ParseTree.induction with
  | h r p q s ts ih =>
    constructor
    · intro r' hr hf t' ha
      cases hf.1
      obtain ⟨hs, hts⟩ := ha
      simp only [expressionRules, List.mem_cons, List.not_mem_nil, or_false] at hr
      rcases hr with rfl | rfl | rfl | rfl | rfl | rfl | rfl | rfl | rfl | rfl | rfl | rfl
      · obtain ⟨t, rfl, ht⟩ := hf.inv_expr
        obtain ⟨t', rfl, hat⟩ := Alike.inv_one hts
        obtain ⟨e, e', he, he', hee⟩ :=
          (ih t (by simp)).expression assignment (by decide) ht t' hat
        exact ⟨e, e', Build.expression_expr he, Build.expression_expr he', hee⟩
      · exact assignment_concur ih hts hf
      · exact ternary_concur ih hts hf
      · exact chain_concur ih hts (l := ⟨andExpr, orOp, _⟩) rfl (by decide) rfl hf
      · exact chain_concur ih hts (l := ⟨eqExpr, andOp, _⟩) rfl (by decide) rfl hf
      · exact chain_concur ih hts (l := ⟨relExpr, eqOp, _⟩) rfl (by decide) rfl hf
      · exact chain_concur ih hts (l := ⟨addExpr, relOp, _⟩) rfl (by decide) rfl hf
      · exact chain_concur ih hts (l := ⟨unary, addOp, _⟩) rfl (by decide) rfl hf
      · exact unary_concur ih hts hf
      · exact callChain_concur ih hts hf
      · cases hs rfl
        exact ⟨_, _, rfl, rfl, rfl⟩
      · cases hs rfl
        exact ⟨_, _, rfl, rfl, rfl⟩
    · intro hf t' ha
      cases hf.1
      obtain ⟨_, hts⟩ := ha
      exact callArgs_concur ih hts hf

end Expressions

section Statements

def innerRules : List Rule := expr :: elseClause :: statementRules

theorem fits_inner (hr : r ∈ elseClause :: statementRules) (h : Fits r (.node r p q s ts)) :
    ∀ t ∈ ts, FitsOneOf innerRules t := by
  have hexpr : ∀ {t}, Fits expr t → FitsOneOf innerRules t := fun h => ⟨expr, by decide, h⟩
  have hstmt : ∀ {t}, FitsOneOf statementRules t → FitsOneOf innerRules t := by
    rintro t ⟨r, hr, h⟩
    exact ⟨r, List.mem_cons_of_mem _ (List.mem_cons_of_mem _ hr), h⟩
  simp only [statementRules, List.mem_cons, List.not_mem_nil, or_false] at hr
  rcases hr with rfl | rfl | rfl | rfl | rfl | rfl
  · obtain ⟨t, rfl, ht⟩ := h.inv_elseClause
    simp only [List.forall_mem_singleton]
    exact hstmt ht
  · exact fun t ht => hstmt (h.inv_block t ht)
  · obtain ⟨t, u, ht, hu, rfl | ⟨v, rfl, hv⟩⟩ := h.inv_ifStmt
    · simp only [List.forall_mem_cons]
      exact ⟨hexpr ht, hstmt hu, List.forall_mem_nil _⟩
    · simp only [List.forall_mem_cons]
      exact ⟨hexpr ht, hstmt hu, ⟨elseClause, by decide, hv⟩, List.forall_mem_nil _⟩
  · obtain ⟨t, u, rfl, ht, hu⟩ := h.inv_whileStmt
    simp only [List.forall_mem_cons]
    exact ⟨hexpr ht, hstmt hu, List.forall_mem_nil _⟩
  · rcases h.inv_returnStmt with rfl | ⟨t, rfl, ht⟩
    · exact List.forall_mem_nil _
    · simp only [List.forall_mem_singleton]
      exact hexpr ht
  · obtain ⟨t, rfl, ht⟩ := h.inv_exprStmt
    simp only [List.forall_mem_singleton]
    exact hexpr ht

/-- The builder makes the same statement of parse trees that are alike. -/
def StatementsConcur (t : ParseTree Rule) : Prop :=
  ∀ r ∈ elseClause :: statementRules, Fits r t → ∀ t', Alike t t' →
    Concur (Build.statement t) (Build.statement t')

theorem statements_concur (ih : ∀ t ∈ ts, StatementsConcur t)
    (hf : ∀ t ∈ ts, FitsOneOf innerRules t) (hts : List.Forall₂ Alike ts ts') :
    ConcurAll (Build.statements ts) (Build.statements ts') := by
  induction hts with
  | nil => exact ⟨[], [], rfl, rfl, rfl⟩
  | @cons t t' ts ts' ha _ ihts =>
    obtain ⟨iht, ih⟩ := List.forall_mem_cons.1 ih
    obtain ⟨⟨r, hr, hft⟩, hf⟩ := List.forall_mem_cons.1 hf
    obtain ⟨as, bs, has, hbs, hab⟩ := ihts ih hf
    rcases List.mem_cons.1 hr with rfl | hr
    · obtain ⟨a, b, hta, htb, hu⟩ := (expressionsConcur t).expression expr (by decide) hft t' ha
      have hr' : t'.rule = expr := ha.rule_eq.trans hft.1
      exact ⟨a :: as, b :: bs, statements_cons_expr hft.1 hta has, statements_cons_expr hr' htb hbs,
        unplacedAll_cons hu hab⟩
    · obtain ⟨a, b, hta, htb, hu⟩ := iht r hr hft t' ha
      have hn : t.rule ≠ expr := by
        rw [hft.1]
        exact (by decide : ∀ r ∈ elseClause :: statementRules, r ≠ expr) r hr
      exact ⟨a :: as, b :: bs, statements_cons hn hta has,
        statements_cons (ha.rule_eq ▸ hn) htb hbs, unplacedAll_cons hu hab⟩

theorem statementsConcur (t : ParseTree Rule) : StatementsConcur t := by
  induction t using ParseTree.induction with
  | h r p q s ts ih =>
    intro r' hr hf t' ha
    cases hf.1
    cases ha with
    | node _ hts =>
      obtain ⟨as, bs, has, hbs, hab⟩ := statements_concur ih (fits_inner hr hf) hts
      obtain ⟨k, hk⟩ : ∃ k, Build.statementKind? r = some k := by
        simp only [statementRules, List.mem_cons, List.not_mem_nil, or_false] at hr
        rcases hr with rfl | rfl | rfl | rfl | rfl | rfl
        all_goals exact ⟨_, rfl⟩
      exact ⟨_, _, statement_node hk has, statement_node hk hbs, unplaced_node rfl hab⟩

end Statements

section Declarations

theorem text_eq_of_fits (h : Fits r t) (hr : isSpelled r = true) (ha : Alike t t') :
    t'.text = t.text :=
  ha.text_eq (h.1 ▸ hr)

theorem texts_eq_of_fits (h : ∀ t ∈ ts, Fits r t) (hr : isSpelled r = true)
    (hts : List.Forall₂ Alike ts ts') : ts'.map ParseTree.text = ts.map ParseTree.text :=
  Alike.texts_eq hts fun t ht => (h t ht).1 ▸ hr

theorem modifiers_eq (h : Fits modifiers t) (ha : Alike t t') :
    Build.modifiers t' = Build.modifiers t := by
  obtain ⟨r, p, q, w, ts⟩ := t
  cases h.1
  have hm : ∀ t ∈ ts, Fits modifier t := (h.children rfl).many_call (by decide)
  have htexts := texts_eq_of_fits hm rfl ha.children
  have hany : ∀ k : String, t'.children.any (fun m => m.text == k) =
      ts.any fun m => m.text == k := by
    intro k
    have hk := congrArg (List.any · (· == k)) htexts
    simp only [List.any_map] at hk
    exact hk
  simp only [Build.modifiers, hany]
  rfl

theorem parameters_eq (h : Fits paramList t) (ha : Alike t t') :
    unplacedAll (t'.children.map (Build.wordLeaf .formalParameter)) =
      unplacedAll (t.children.map (Build.wordLeaf .formalParameter)) := by
  obtain ⟨r, p, q, w, ts⟩ := t
  cases h.1
  have htexts := texts_eq_of_fits h.inv_paramList rfl ha.children
  have hleaf : ∀ us : List (ParseTree Rule),
      unplacedAll (us.map (Build.wordLeaf .formalParameter)) =
        (us.map ParseTree.text).map fun w => .leaf (.word .formalParameter w 0 0) := by
    intro us
    induction us with
    | nil => rfl
    | cons u us ih =>
      rw [List.map_cons, unplacedAll, ih]
      rfl
  rw [hleaf, hleaf, htexts]
  rfl

theorem field_concur (h : Fits fieldDecl t) (ha : Alike t t') :
    Concur (Build.field t) (Build.field t') := by
  obtain ⟨r, p, q, w, ts⟩ := t
  cases h.1
  obtain ⟨u, v, rfl, hu, hv⟩ := h.inv_fieldDecl
  cases ha with
  | node _ hts =>
    obtain ⟨u', _, hau, hlast, rfl⟩ := List.forall₂_cons_left_iff.1 hts
    obtain ⟨v', rfl, hav⟩ := Alike.inv_one hlast
    refine ⟨_, _, rfl, rfl, ?_⟩
    rw [text_eq_of_fits hv rfl hav, modifiers_eq hu hau]
    rfl

theorem method_concur (h : Fits methodDecl t) (ha : Alike t t') :
    Concur (Build.method t) (Build.method t') := by
  obtain ⟨r, p, q, w, ts⟩ := t
  cases h.1
  cases ha with
  | node _ hts =>
    obtain ⟨u, v, x, hu, hv, hx, rfl | ⟨y, rfl, hy⟩⟩ := h.inv_methodDecl
    · obtain ⟨u', v', x', rfl, hau, hav, hax⟩ := Alike.inv_three hts
      refine ⟨_, _, rfl, rfl, ?_⟩
      rw [text_eq_of_fits hv rfl hav, modifiers_eq hu hau]
      exact unplaced_node rfl (unplacedAll_cons (unplaced_node rfl (parameters_eq hx hax).symm) rfl)
    · obtain ⟨u', _, hau, hrest, rfl⟩ := List.forall₂_cons_left_iff.1 hts
      obtain ⟨v', x', y', rfl, hav, hax, hay⟩ := Alike.inv_three hrest
      obtain ⟨a, b, hya, hyb, hab⟩ := statementsConcur y block (by decide) hy y' hay
      simp only [Build.method, ParseTree.children, hya, hyb, text_eq_of_fits hv rfl hav,
        modifiers_eq hu hau]
      refine ⟨_, _, rfl, rfl, unplaced_node rfl ?_⟩
      exact unplacedAll_cons (unplaced_node rfl (parameters_eq hx hax).symm)
        (unplacedAll_cons hab rfl)

theorem member_concur (h : FitsOneOf [fieldDecl, methodDecl] t) (ha : Alike t t') :
    Concur (Build.member t) (Build.member t') := by
  obtain ⟨r, hr, hf⟩ := h
  simp only [List.mem_cons, List.not_mem_nil, or_false] at hr
  rcases hr with rfl | rfl
  · simp only [Build.member, ha.rule_eq, hf.1]
    exact field_concur hf ha
  · simp only [Build.member, ha.rule_eq, hf.1]
    exact method_concur hf ha

theorem members_concur (h : ∀ t ∈ ts, FitsOneOf [fieldDecl, methodDecl] t)
    (hts : List.Forall₂ Alike ts ts') :
    ConcurAll (ts.mapM Build.member) (ts'.mapM Build.member) := by
  induction hts with
  | nil => exact ⟨[], [], rfl, rfl, rfl⟩
  | cons ha _ ih =>
    obtain ⟨ht, hts⟩ := List.forall_mem_cons.1 h
    obtain ⟨a, b, hta, htb, hab⟩ := member_concur ht ha
    obtain ⟨as, bs, has, hbs, habs⟩ := ih hts
    rw [List.mapM_cons, List.mapM_cons, hta, htb, has, hbs]
    exact ⟨a :: as, b :: bs, rfl, rfl, unplacedAll_cons hab habs⟩

theorem classDecl_concur (h : Fits classDecl t) (ha : Alike t t') :
    Concur (Build.classDecl t) (Build.classDecl t') := by
  obtain ⟨r, p, q, w, ts⟩ := t
  cases h.1
  obtain ⟨u, us, rfl, hu, hus⟩ := h.inv_classDecl
  cases ha with
  | node _ hts =>
    obtain ⟨u', us', hau, haus, rfl⟩ := List.forall₂_cons_left_iff.1 hts
    obtain ⟨as, bs, has, hbs, hab⟩ := members_concur hus haus
    simp only [Build.classDecl, ParseTree.children, has, hbs, text_eq_of_fits hu rfl hau]
    exact ⟨_, _, rfl, rfl, unplaced_node rfl hab⟩

theorem importDecl_concur (h : Fits importDecl t) (ha : Alike t t') :
    Concur (Build.importDecl t) (Build.importDecl t') := by
  obtain ⟨r, p, q, w, ts⟩ := t
  cases h.1
  obtain ⟨u, rfl, hu⟩ := h.inv_importDecl
  cases ha with
  | node _ hts =>
    obtain ⟨u', rfl, hau⟩ := Alike.inv_one hts
    refine ⟨_, _, rfl, rfl, ?_⟩
    rw [text_eq_of_fits hu rfl hau]
    rfl

theorem declarations_concur
    (h : ∀ t ∈ ts, Fits importDecl t ∨ Fits classDecl t ∨ Fits endOfInput t)
    (hts : List.Forall₂ Alike ts ts') :
    ConcurAll (Build.declarations ts) (Build.declarations ts') := by
  induction hts with
  | nil => exact ⟨[], [], rfl, rfl, rfl⟩
  | cons ha _ ih =>
    obtain ⟨ht, hts⟩ := List.forall_mem_cons.1 h
    obtain ⟨as, bs, has, hbs, habs⟩ := ih hts
    rcases ht with ht | ht | ht
    · obtain ⟨a, b, hta, htb, hab⟩ := importDecl_concur ht ha
      simp only [Build.declarations, ha.rule_eq, ht.1, hta, htb, has, hbs]
      exact ⟨a :: as, b :: bs, rfl, rfl, unplacedAll_cons hab habs⟩
    · obtain ⟨a, b, hta, htb, hab⟩ := classDecl_concur ht ha
      simp only [Build.declarations, ha.rule_eq, ht.1, hta, htb, has, hbs]
      exact ⟨a :: as, b :: bs, rfl, rfl, unplacedAll_cons hab habs⟩
    · simp only [Build.declarations, ha.rule_eq, ht.1, has, hbs]
      exact ⟨as, bs, rfl, rfl, habs⟩

/-- The builder makes the same file of parse trees that are alike. -/
theorem file_concur (h : Fits file t) (ha : Alike t t') :
    Concur (Build.file t) (Build.file t') := by
  obtain ⟨r, p, q, w, ts⟩ := t
  cases h.1
  obtain ⟨us, vs, u, rfl, hus, hvs, hu⟩ := h.inv_file
  have hf : ∀ t ∈ us ++ (vs ++ [u]), Fits importDecl t ∨ Fits classDecl t ∨ Fits endOfInput t := by
    intro t ht
    rcases List.mem_append.1 ht with ht | ht
    · exact .inl (hus t ht)
    · rcases List.mem_append.1 ht with ht | ht
      · exact .inr (.inl (hvs t ht))
      · rw [List.mem_singleton.1 ht]
        exact .inr (.inr hu)
  cases ha with
  | node _ hts =>
    obtain ⟨as, bs, has, hbs, hab⟩ := declarations_concur hf hts
    simp only [Build.file, ParseTree.children, has, hbs]
    exact ⟨_, _, rfl, rfl, unplaced_node rfl hab⟩

end Declarations

section Parsing

open TreeMetrics.Expr

variable {c c' d : Cursor} {x : Expr Rule} {ws : List String} {cs cs' : List Char}

theorem Abreast.follow (hc : Abreast c c') (hx : gapwise x = true)
    (h : Derives grammar false x c (some (ts, d))) :
    ∃ ts' d', Derives grammar false x c' (some (ts', d')) ∧ List.Forall₂ Alike ts ts' ∧
      Abreast d d' := by
  obtain ⟨_, h', hm⟩ := inStep h hx hc
  cases hm with
  | takes ht hd _ => exact ⟨_, _, h', ht, hd⟩

/-- The end of the input is found behind a gap in both texts. -/
theorem Abreast.follow_end (hc : Abreast c c')
    (h : Derives grammar false (.seq Twig.gap (.call endOfInput)) c (some (ts, d))) :
    ∃ ts' d', Derives grammar false (.seq Twig.gap (.call endOfInput)) c' (some (ts', d')) ∧
      List.Forall₂ Alike ts ts' := by
  obtain ⟨e, e', he, he', -, hiff⟩ := hc.gap (q := false)
  obtain ⟨us, m, vs, hg, hcall, rfl⟩ := h.inv_seq
  cases hg.det he
  obtain ⟨ws, hb, rfl⟩ := hcall.inv_call (by decide)
  have hend : e.rest = [] ∧ ws = [] := by
    cases hb with
    | atEnd hrest => exact ⟨hrest, rfl⟩
  have hb' : Derives grammar false (pattern endOfInput) e' (some ([], e')) :=
    .atEnd (hiff.1 hend.1)
  refine ⟨_, _, .seq he' (.call (by decide) hb'), .cons (.node ?_ ?_) .nil⟩
  · intro hr
    cases hr
  · rw [hend.2]
    exact .nil

/-- A text that is matched as a file is matched so in another layout. -/
theorem file_follows (h : LaidOut ws cs) (h' : LaidOut ws cs')
    (hd : Derives grammar false (.call file) (.ofText cs) (some (ts, d))) :
    ∃ ts' d', Derives grammar false (.call file) (.ofText cs') (some (ts', d')) ∧
      List.Forall₂ Alike ts ts' := by
  obtain ⟨us, hbody, rfl⟩ := hd.inv_call (by decide)
  obtain ⟨_, c₁, us₁, hgap₁, hphrase, rfl⟩ := hbody.inv_seq
  obtain ⟨is, c₂, us₂, himports, hrest₂, rfl⟩ := hphrase.inv_seq
  obtain ⟨gs, c₃, us₃, hgap₃, hrest₃, rfl⟩ := hrest₂.inv_seq
  obtain ⟨ks, c₄, es, hclasses, hend, rfl⟩ := hrest₃.inv_seq
  -- The gaps before the first words bring the cursors abreast; from there on they stay so.
  obtain ⟨e, e', he, he', ha₁, -⟩ := Abreast.laidOut false .start .start h h'
  cases hgap₁.det he
  obtain ⟨is', c₂', himports', his, ha₂⟩ := ha₁.follow rfl himports
  obtain ⟨gs', c₃', hgap₃', hgs, ha₃⟩ := ha₂.follow rfl hgap₃
  obtain ⟨ks', c₄', hclasses', hks, ha₄⟩ := ha₃.follow rfl hclasses
  obtain ⟨es', c₅', hend', hes⟩ := ha₄.follow_end hend
  have hbody' : Derives grammar false (pattern file) (.ofText cs') _ :=
    .seq he' (.seq himports' (.seq hgap₃' (.seq hclasses' hend')))
  refine ⟨_, _, .call (by decide) hbody', .cons (.node ?_ ?_) .nil⟩
  · intro hr
    cases hr
  · exact List.rel_append his (List.rel_append hgs (List.rel_append hks hes))

/-- A source is read as the same tree as another one if the file there is matched alike. -/
theorem parse_of_alike {source source' : String} {a : Tree Node} (ha : parse source = .ok a)
    (h : ∀ {ts d}, Derives grammar false (.call file) (.ofText source.toList) (some (ts, d)) →
      ∃ ts' d', Derives grammar false (.call file) (.ofText source'.toList) (some (ts', d')) ∧
        List.Forall₂ Alike ts ts') :
    ∃ b, parse source' = .ok b ∧ unplaced a = unplaced b := by
  obtain ⟨t, d, hd, hb⟩ := parse_ok_iff.1 ha
  obtain ⟨ts', d', hd', hts⟩ := h hd
  obtain ⟨t', rfl, hat⟩ := Alike.inv_one hts
  obtain ⟨us, -, ht⟩ := hd.inv_call (by decide)
  have hf : Fits file t := by
    cases ht
    exact ⟨rfl, _, _, hd⟩
  obtain ⟨a₀, b, ha₀, hb', hab⟩ := file_concur hf hat
  cases hb.symm.trans ha₀
  exact ⟨b, parse_ok_iff.2 ⟨t', d', hd', hb'⟩, hab⟩

/-- A source that is read is read as the same tree in another layout. -/
theorem parse_follows {source source' : String} {a : Tree Node} (h : LaidOut ws source.toList)
    (h' : LaidOut ws source'.toList) (ha : parse source = .ok a) :
    ∃ b, parse source' = .ok b ∧ unplaced a = unplaced b :=
  parse_of_alike ha fun hd => file_follows h h' hd

/-- Whether and how a source is read does not depend on the gaps between its words. Words are
non-empty and hold neither blanks nor the character that begins a comment. -/
theorem parse_layout_independent (ws : List String) (source source' : String)
    (h : LaidOut ws source.toList) (h' : LaidOut ws source'.toList) :
    (∃ a b, parse source = .ok a ∧ parse source' = .ok b ∧ unplaced a = unplaced b) ∨
      ∃ e e', parse source = .error e ∧ parse source' = .error e' := by
  cases hp : parse source with
  | ok a =>
    obtain ⟨b, hb, hab⟩ := parse_follows h h' hp
    exact .inl ⟨a, b, rfl, hb, hab⟩
  | error e =>
    cases hp' : parse source' with
    | ok b =>
      obtain ⟨a, ha, -⟩ := parse_follows h' h hp'
      cases hp.symm.trans ha
    | error e' => exact .inr ⟨e, e', rfl, rfl⟩

def classWords : List String := ["class", "C", "\x7bmethod", "m(p,q)\x7breturn", "p+q;\x7d\x7d"]

def spacedClass : String := "class C \x7bmethod m(p,q)\x7breturn p+q;\x7d\x7d"

def commentedClass : String :=
  "//1\r\nclass/*2**/C\t\n\x7bmethod//\rm(p,q)\x7breturn/*//*/ p+q;\x7d\x7d\n"

theorem laidOut_spacedClass : LaidOut classWords spacedClass.toList := by
  have hspace : Gap [' '] := ⟨by decide, .one .space⟩
  apply LaidOut.cons blanks_nil (by decide)
  apply Trails.cons hspace (by decide)
  apply Trails.cons hspace (by decide)
  apply Trails.cons hspace (by decide)
  apply Trails.cons hspace (by decide)
  exact .nil blanks_nil

theorem laidOut_commentedClass : LaidOut classWords commentedClass.toList := by
  have h₁ : Blanks "//1\r\n".toList :=
    .one (@Blank.line ['1'] "\r\n".toList (List.forall_mem_singleton.2 rfl) (by decide))
  have h₂ : Gap "/*2**/".toList := ⟨by decide, .one (@Blank.block "2*".toList (by decide))⟩
  have h₃ : Gap "\t\n".toList := ⟨by decide, .two .tab (.lineBreak (by decide))⟩
  have h₄ : Gap "//\r".toList :=
    ⟨by decide, .one (@Blank.line [] "\r".toList (List.forall_mem_nil _) (by decide))⟩
  have h₅ : Gap "/*//*/ ".toList := ⟨by decide, .two (@Blank.block "//".toList (by decide)) .space⟩
  have h₆ : Blanks "\n".toList := .one (.lineBreak (by decide))
  apply LaidOut.cons h₁ (by decide)
  apply Trails.cons h₂ (by decide)
  apply Trails.cons h₃ (by decide)
  apply Trails.cons h₄ (by decide)
  apply Trails.cons h₅ (by decide)
  exact .nil h₆

theorem parse_layout_independent_commented :
    LaidOut classWords spacedClass.toList ∧ LaidOut classWords commentedClass.toList ∧
      ∃ a b, parse spacedClass = .ok a ∧ parse commentedClass = .ok b ∧
        unplaced a = unplaced b := by
  refine ⟨laidOut_spacedClass, laidOut_commentedClass, ?_⟩
  rcases parse_layout_independent classWords spacedClass commentedClass laidOut_spacedClass
    laidOut_commentedClass with hok | ⟨e, e', he, -⟩
  · exact hok
  · have hs : (parse spacedClass).toOption.isSome = true := by decide +kernel
    rw [he] at hs
    cases hs

end Parsing

end TreeMetrics.Twig
