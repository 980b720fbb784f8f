import TreeMetrics.Proofs.Twig.Gap
import TreeMetrics.Proofs.Twig.Words

namespace TreeMetrics.Twig

open TreeMetrics.Expr TreeMetrics.Twig.Rule

variable {r op operand : Rule} {x y : Expr Rule} {zs : List (Expr Rule)} {w : String}
variable {t : ParseTree Rule} {ts : List (ParseTree Rule)}

/-- A match of the expression can have these trees. -/
def Makes (x : Expr Rule) (ts : List (ParseTree Rule)) : Prop :=
  ∃ c d, Derives grammar false x c (some (ts, d))

/-- The tree belongs to the rule, and a match of the rule can have it. -/
def Fits (r : Rule) (t : ParseTree Rule) : Prop := t.rule = r ∧ Makes (.call r) [t]

namespace Makes

theorem lit (h : Makes (.lit w) ts) : ts = [] := by
  obtain ⟨c, d, h⟩ := h
  exact h.inv_lit.1

theorem alt (h : Makes (.alt x y) ts) : Makes x ts ∨ Makes y ts := by
  obtain ⟨c, d, h⟩ := h
  rcases h.inv_alt with h | ⟨-, h⟩
  · exact .inl ⟨c, d, h⟩
  · exact .inr ⟨c, d, h⟩

theorem opt (h : Makes x.opt ts) : Makes x ts ∨ ts = [] := by
  obtain ⟨c, d, h⟩ := h
  rcases h.inv_opt with h | ⟨-, rfl, -⟩
  · exact .inl ⟨c, d, h⟩
  · exact .inr rfl

theorem seq (h : Makes (.seq x y) ts) : ∃ us vs, ts = us ++ vs ∧ Makes x us ∧ Makes y vs := by
  obtain ⟨c, e, h⟩ := h
  obtain ⟨us, d, vs, hx, hy, rfl⟩ := h.inv_seq
  exact ⟨us, vs, rfl, ⟨c, d, hx⟩, ⟨d, e, hy⟩⟩

theorem gap_seq (h : Makes (.seq gap x) ts) : Makes x ts := by
  obtain ⟨us, vs, rfl, ⟨c, d, hg⟩, hx⟩ := h.seq
  rwa [trees_of_gap hg]

theorem phrase (h : Makes (phrase (x :: y :: zs)) ts) :
    ∃ us vs, ts = us ++ vs ∧ Makes x us ∧ Makes (Twig.phrase (y :: zs)) vs := by
  obtain ⟨us, vs, rfl, hx, hy⟩ := h.seq
  exact ⟨us, vs, rfl, hx, hy.gap_seq⟩

theorem lit_phrase (h : Makes (Twig.phrase (.lit w :: y :: zs)) ts) :
    Makes (Twig.phrase (y :: zs)) ts := by
  obtain ⟨us, vs, rfl, hl, hy⟩ := h.phrase
  rwa [hl.lit]

theorem oneOf {xs : List (Expr Rule)} (h : Makes (.oneOf xs) ts) : ∃ x ∈ xs, Makes x ts := by
  obtain ⟨c, d, h⟩ := h
  obtain ⟨x, hx, h⟩ := h.inv_oneOf
  exact ⟨x, hx, c, d, h⟩

theorem many (h : Makes (many x) ts) :
    ∃ tss : List (List (ParseTree Rule)), ts = tss.flatten ∧ ∀ us ∈ tss, Makes x us := by
  rcases h.opt with h | rfl
  · obtain ⟨us, vs, rfl, hx, c, d, hs⟩ := h.seq
    obtain ⟨-, tss, rfl, htss⟩ := hs.inv_star
    refine ⟨us :: tss, rfl, List.forall_mem_cons.2 ⟨hx, fun us hus => ?_⟩⟩
    obtain ⟨c, d, h⟩ := htss us hus
    exact gap_seq ⟨c, d, h⟩
  · exact ⟨[], rfl, fun us hus => absurd hus List.not_mem_nil⟩

theorem call (hv : visibility r ≠ .silent) (h : Makes (.call r) ts) : ∃ t, ts = [t] ∧ Fits r t := by
  obtain ⟨c, d, h⟩ := h
  obtain ⟨us, -, rfl⟩ := h.inv_call hv
  exact ⟨_, rfl, rfl, c, d, h⟩

theorem silent (hv : visibility r = .silent) (h : Makes (.call r) ts) : Makes (pattern r) ts := by
  obtain ⟨c, d, h⟩ := h
  exact ⟨c, d, h.inv_silent hv⟩

theorem many_call (hv : visibility r ≠ .silent) (h : Makes (Twig.many (.call r)) ts) :
    ∀ t ∈ ts, Fits r t := by
  obtain ⟨tss, rfl, htss⟩ := h.many
  intro t ht
  obtain ⟨us, hus, ht⟩ := List.mem_flatten.1 ht
  obtain ⟨u, rfl, hu⟩ := (htss us hus).call hv
  rwa [List.mem_singleton.1 ht]

theorem commaSeparated (hv : visibility r ≠ .silent) (h : Makes (Twig.commaSeparated r) ts) :
    ∀ t ∈ ts, Fits r t := by
  obtain ⟨us, vs, rfl, hu, hv'⟩ := h.phrase
  obtain ⟨t, rfl, ht⟩ := hu.call hv
  obtain ⟨tss, rfl, htss⟩ := hv'.many
  refine List.forall_mem_cons.2 ⟨ht, fun t ht => ?_⟩
  obtain ⟨us, hus, ht⟩ := List.mem_flatten.1 ht
  obtain ⟨u, rfl, hu⟩ := ((htss us hus).lit_phrase).call hv
  rwa [List.mem_singleton.1 ht]

end Makes

/-- The trees of a chain behind its first operand: operators and operands in turn. -/
inductive Links (op operand : Rule) : List (ParseTree Rule) → Prop where
  | nil : Links op operand []
  | cons {o t : ParseTree Rule} {ts : List (ParseTree Rule)} : Fits op o → Fits operand t →
    Links op operand ts → Links op operand (o :: t :: ts)

theorem Makes.chain (ho : visibility op ≠ .silent) (hv : visibility operand ≠ .silent)
    (h : Makes (chain operand op) ts) :
    ∃ t us, ts = t :: us ∧ Fits operand t ∧ Links op operand us := by
  obtain ⟨us, vs, rfl, hu, hm⟩ := h.phrase
  obtain ⟨t, rfl, ht⟩ := hu.call hv
  obtain ⟨tss, rfl, htss⟩ := hm.many
  refine ⟨t, tss.flatten, rfl, ht, ?_⟩
  clear hm h
  induction tss with
  | nil => exact .nil
  | cons us tss ih =>
    obtain ⟨hus, hrest⟩ := List.forall_mem_cons.1 htss
    obtain ⟨us, vs, rfl, hu, hv'⟩ := hus.phrase
    obtain ⟨o, rfl, ho⟩ := hu.call ho
    obtain ⟨t, rfl, ht⟩ := hv'.call hv
    exact .cons ho ht (ih hrest)

theorem Fits.children {p q : Position} {s : String} (hv : visibility r = .normal)
    (h : Fits r (.node r p q s ts)) : Makes (pattern r) ts := by
  obtain ⟨-, c, d, h⟩ := h
  have hn : (grammar.production r).visibility ≠ .silent := by
    rw [show (grammar.production r).visibility = .normal from hv]
    decide
  obtain ⟨us, hb, ht⟩ := h.inv_call hn
  cases ht
  rw [show (grammar.production r).visibility = .normal from hv] at hb
  exact ⟨c, d, hb⟩

section Words

variable {p q : Position} {s : String}

theorem Fits.isIdentifier (h : Fits identifier (.node r p q s ts)) : IsIdentifier s := by
  obtain ⟨-, c, d, h⟩ := h
  obtain ⟨w, hw, ht⟩ := inv_identifier h
  cases ht
  exact hw

theorem Fits.isNumber (h : Fits number (.node r p q s ts)) : IsNumber s := by
  obtain ⟨-, c, d, h⟩ := h
  obtain ⟨w, hw, ht⟩ := inv_number h
  cases ht
  exact hw

theorem Fits.isDotted (h : Fits qualifiedName (.node r p q s ts)) : IsDotted s := by
  obtain ⟨-, c, d, h⟩ := h
  obtain ⟨w, hw, ht⟩ := inv_qualifiedName h
  cases ht
  exact hw

/-- The text of an operator is one of its spellings. -/
theorem Fits.text_mem (hv : visibility r ≠ .silent) {ks : List String}
    (hb : ∀ {q c d ts}, Derives grammar q (pattern r) c (some (ts, d)) →
      ∃ k ∈ ks, c.Spans d k.toList)
    (h : Fits r t) : t.text ∈ ks := by
  obtain ⟨-, c, d, h⟩ := h
  obtain ⟨us, hd, ht⟩ := h.inv_call hv
  obtain ⟨k, hk, hs⟩ := hb hd
  cases ht
  rw [ParseTree.text, hs.upTo_eq, String.ofList_toList]
  exact hk

theorem inv_oneOf_lit {q : Bool} {c d : Cursor} (ks : List String)
    (h : Derives grammar q (oneOf (ks.map Expr.lit)) c (some (ts, d))) :
    ∃ k ∈ ks, c.Spans d k.toList := by
  obtain ⟨x, hx, h⟩ := h.inv_oneOf
  obtain ⟨k, hk, rfl⟩ := List.mem_map.1 hx
  exact ⟨k, hk, h.inv_lit.2⟩

theorem inv_lit_not {q : Bool} {c d : Cursor}
    (h : Derives grammar q (tight [Expr.lit w, Expr.not x]) c (some (ts, d))) :
    ∃ k ∈ [w], c.Spans d k.toList := by
  obtain ⟨us, m, vs, hl, hn, -⟩ := h.inv_seq
  obtain ⟨-, -, rfl⟩ := hn.inv_not
  exact ⟨w, List.mem_singleton_self w, hl.inv_lit.2⟩

theorem Fits.text_assignOp (h : Fits assignOp t) : t.text = "=" :=
  List.mem_singleton.1 (h.text_mem (by decide) inv_lit_not)

theorem Fits.text_notOp (h : Fits notOp t) : t.text = "!" :=
  List.mem_singleton.1 (h.text_mem (by decide) inv_lit_not)

end Words

/-- A level of operators: its operands, and the rule and the spellings of its operators. -/
structure Level where
  operand : Rule
  op : Rule
  spellings : List String

/-- The levels on which operators join operands from the left. -/
def level? : Rule → Option Level
  | orExpr => some ⟨andExpr, orOp, ["||"]⟩
  | andExpr => some ⟨eqExpr, andOp, ["&&"]⟩
  | eqExpr => some ⟨relExpr, eqOp, ["==", "!="]⟩
  | relExpr => some ⟨addExpr, relOp, ["<=", ">=", "<", ">"]⟩
  | addExpr => some ⟨unary, addOp, ["+", "-"]⟩
  | _ => none

/-- What the grammar says of a level. -/
structure Level.Stands (l : Level) (r : Rule) : Prop where
  pattern : pattern r = chain l.operand l.op
  pattern_op : Twig.pattern l.op = oneOf (l.spellings.map lit)
  normal : visibility r = .normal
  normal_op : visibility l.op = .normal
  normal_operand : visibility l.operand = .normal

theorem stands_of_level? {l : Level} (h : level? r = some l) : l.Stands r := by
  cases r with
  | orExpr | andExpr | eqExpr | relExpr | addExpr =>
    cases h
    exact ⟨rfl, rfl, rfl, rfl, rfl⟩
  | _ => cases h

theorem ne_silent_of_normal (h : visibility r = .normal) : visibility r ≠ .silent := by
  rw [h]
  decide

namespace Fits

variable {p q : Position} {s : String}

theorem spelling {l : Level} (hl : l.Stands r) (h : Fits l.op t) : t.text ∈ l.spellings := by
  refine h.text_mem (ne_silent_of_normal hl.normal_op) fun hd => ?_
  rw [hl.pattern_op] at hd
  exact inv_oneOf_lit l.spellings hd

theorem inv_chain {l : Level} (hl : l.Stands r) (h : Fits r (.node r p q s ts)) :
    ∃ t us, ts = t :: us ∧ Fits l.operand t ∧ Links l.op l.operand us := by
  have hm := h.children hl.normal
  rw [hl.pattern] at hm
  exact hm.chain (ne_silent_of_normal hl.normal_op) (ne_silent_of_normal hl.normal_operand)

theorem inv_expr (h : Fits expr (.node expr p q s ts)) : ∃ t, ts = [t] ∧ Fits assignment t :=
  (h.children rfl).call (by decide)

theorem inv_assignment (h : Fits assignment (.node assignment p q s ts)) :
    ∃ t, Fits ternary t ∧
      (ts = [t] ∨ ∃ o v, ts = [t, o, v] ∧ Fits assignOp o ∧ Fits assignment v) := by
  obtain ⟨us, vs, rfl, hu, hrest⟩ := (h.children rfl).phrase
  obtain ⟨t, rfl, ht⟩ := hu.call (by decide)
  refine ⟨t, ht, ?_⟩
  rcases hrest.opt with hm | rfl
  · obtain ⟨os, vs, rfl, ho, hv⟩ := hm.phrase
    obtain ⟨o, rfl, hfo⟩ := ho.call (by decide)
    obtain ⟨v, rfl, hfv⟩ := hv.call (by decide)
    exact .inr ⟨o, v, rfl, hfo, hfv⟩
  · exact .inl rfl

theorem inv_ternary (h : Fits ternary (.node ternary p q s ts)) :
    ∃ t, Fits orExpr t ∧ (ts = [t] ∨ ∃ y n, ts = [t, y, n] ∧ Fits expr y ∧ Fits ternary n) := by
  obtain ⟨us, vs, rfl, hu, hrest⟩ := (h.children rfl).phrase
  obtain ⟨t, rfl, ht⟩ := hu.call (by decide)
  refine ⟨t, ht, ?_⟩
  rcases hrest.opt with hm | rfl
  · obtain ⟨ys, vs, rfl, hy, hn⟩ := hm.lit_phrase.phrase
    obtain ⟨y, rfl, hfy⟩ := hy.call (by decide)
    obtain ⟨n, rfl, hfn⟩ := hn.lit_phrase.call (by decide)
    exact .inr ⟨y, n, rfl, hfy, hfn⟩
  · exact .inl rfl

theorem inv_unary (h : Fits unary (.node unary p q s ts)) :
    ∃ os t, ts = os ++ [t] ∧ (∀ o ∈ os, Fits notOp o) ∧ Fits callChain t := by
  obtain ⟨os, vs, rfl, ho, hv⟩ := (h.children rfl).phrase
  obtain ⟨t, rfl, ht⟩ := hv.call (by decide)
  exact ⟨os, t, rfl, ho.many_call (by decide), ht⟩

theorem inv_callChain (h : Fits callChain (.node callChain p q s ts)) :
    ∃ t us, ts = t :: us ∧ (Fits number t ∨ Fits identifier t ∨ Fits expr t) ∧
      ∀ u ∈ us, Fits callArgs u := by
  obtain ⟨us, vs, rfl, hu, hv⟩ := (h.children rfl).phrase
  obtain ⟨x, hx, hm⟩ := (hu.silent rfl).oneOf
  have ht : ∃ t, us = [t] ∧ (Fits number t ∨ Fits identifier t ∨ Fits expr t) := by
    simp only [List.mem_cons, List.not_mem_nil, or_false] at hx
    rcases hx with rfl | rfl | rfl
    · obtain ⟨t, ht, hf⟩ := hm.call (by decide)
      exact ⟨t, ht, .inl hf⟩
    · obtain ⟨t, ht, hf⟩ := hm.call (by decide)
      exact ⟨t, ht, .inr (.inl hf)⟩
    · obtain ⟨ws, vs, rfl, hw, hl⟩ := hm.lit_phrase.phrase
      obtain ⟨t, rfl, hf⟩ := hw.call (by decide)
      rw [Makes.lit hl]
      exact ⟨t, rfl, .inr (.inr hf)⟩
  obtain ⟨t, rfl, ht⟩ := ht
  exact ⟨t, vs, rfl, ht, hv.many_call (by decide)⟩

theorem inv_callArgs (h : Fits callArgs (.node callArgs p q s ts)) : ∀ t ∈ ts, Fits expr t := by
  obtain ⟨us, vs, rfl, hu, hl⟩ := (h.children rfl).lit_phrase.phrase
  rw [Makes.lit hl, List.append_nil]
  rcases hu.opt with hu | rfl
  · exact hu.commaSeparated (by decide)
  · exact fun t ht => absurd ht List.not_mem_nil

end Fits

def statementRules : List Rule := [block, ifStmt, whileStmt, returnStmt, exprStmt]

/-- The tree is a match of one of the rules. -/
def FitsOneOf (rs : List Rule) (t : ParseTree Rule) : Prop := ∃ r ∈ rs, Fits r t

theorem Makes.call_oneOf {rs : List Rule} (hv : ∀ r ∈ rs, visibility r ≠ .silent)
    (h : Makes (Expr.oneOf (rs.map Expr.call)) ts) : ∃ t, ts = [t] ∧ FitsOneOf rs t := by
  obtain ⟨x, hx, hm⟩ := h.oneOf
  obtain ⟨r, hr, rfl⟩ := List.mem_map.1 hx
  obtain ⟨t, rfl, ht⟩ := hm.call (hv r hr)
  exact ⟨t, rfl, r, hr, ht⟩

theorem Makes.statement (h : Makes (.call statement) ts) :
    ∃ t, ts = [t] ∧ FitsOneOf statementRules t :=
  Makes.call_oneOf (by decide) (h.silent rfl)

theorem Makes.member (h : Makes (.call member) ts) :
    ∃ t, ts = [t] ∧ FitsOneOf [fieldDecl, methodDecl] t :=
  Makes.call_oneOf (by decide) (h.silent rfl)

theorem Makes.many_oneOf {rs : List Rule} (hx : ∀ us, Makes x us → ∃ t, us = [t] ∧ FitsOneOf rs t)
    (h : Makes (Twig.many x) ts) : ∀ t ∈ ts, FitsOneOf rs t := by
  obtain ⟨tss, rfl, htss⟩ := h.many
  intro t ht
  obtain ⟨us, hus, ht⟩ := List.mem_flatten.1 ht
  obtain ⟨u, rfl, hu⟩ := hx us (htss us hus)
  rwa [List.mem_singleton.1 ht]

namespace Fits

variable {p q : Position} {s : String}

theorem inv_block (h : Fits block (.node block p q s ts)) :
    ∀ t ∈ ts, FitsOneOf statementRules t := by
  obtain ⟨us, vs, rfl, hu, hl⟩ := (h.children rfl).lit_phrase.phrase
  rw [Makes.lit hl, List.append_nil]
  exact hu.many_oneOf fun us => Makes.statement

theorem inv_ifStmt (h : Fits ifStmt (.node ifStmt p q s ts)) :
    ∃ t u, Fits expr t ∧ FitsOneOf statementRules u ∧
      (ts = [t, u] ∨ ∃ v, ts = [t, u, v] ∧ Fits elseClause v) := by
  obtain ⟨us, vs, rfl, hc, hrest⟩ := (h.children rfl).lit_phrase.lit_phrase.phrase
  obtain ⟨t, rfl, ht⟩ := hc.call (by decide)
  obtain ⟨us, vs, rfl, hs, ho⟩ := hrest.lit_phrase.phrase
  obtain ⟨u, rfl, hu⟩ := hs.statement
  refine ⟨t, u, ht, hu, ?_⟩
  rcases ho.opt with he | rfl
  · obtain ⟨v, rfl, hv⟩ := he.call (by decide)
    exact .inr ⟨v, rfl, hv⟩
  · exact .inl rfl

theorem inv_elseClause (h : Fits elseClause (.node elseClause p q s ts)) :
    ∃ t, ts = [t] ∧ FitsOneOf statementRules t :=
  (h.children rfl).lit_phrase.statement

theorem inv_whileStmt (h : Fits whileStmt (.node whileStmt p q s ts)) :
    ∃ t u, ts = [t, u] ∧ Fits expr t ∧ FitsOneOf statementRules u := by
  obtain ⟨us, vs, rfl, hc, hrest⟩ := (h.children rfl).lit_phrase.lit_phrase.phrase
  obtain ⟨t, rfl, ht⟩ := hc.call (by decide)
  obtain ⟨u, rfl, hu⟩ := hrest.lit_phrase.statement
  exact ⟨t, u, rfl, ht, hu⟩

theorem inv_returnStmt (h : Fits returnStmt (.node returnStmt p q s ts)) :
    ts = [] ∨ ∃ t, ts = [t] ∧ Fits expr t := by
  obtain ⟨us, vs, rfl, ho, hl⟩ := (h.children rfl).lit_phrase.phrase
  rw [Makes.lit hl, List.append_nil]
  rcases ho.opt with he | rfl
  · exact .inr (he.call (by decide))
  · exact .inl rfl

theorem inv_exprStmt (h : Fits exprStmt (.node exprStmt p q s ts)) :
    ∃ t, ts = [t] ∧ Fits expr t := by
  obtain ⟨us, vs, rfl, he, hl⟩ := (h.children rfl).phrase
  rw [Makes.lit hl, List.append_nil]
  exact he.call (by decide)

theorem inv_paramList (h : Fits paramList (.node paramList p q s ts)) :
    ∀ t ∈ ts, Fits identifier t := by
  rcases (h.children rfl).opt with hc | rfl
  · exact hc.commaSeparated (by decide)
  · exact fun t ht => absurd ht List.not_mem_nil

theorem inv_fieldDecl (h : Fits fieldDecl (.node fieldDecl p q s ts)) :
    ∃ t u, ts = [t, u] ∧ Fits modifiers t ∧ Fits identifier u := by
  obtain ⟨us, vs, rfl, hm, hrest⟩ := (h.children rfl).phrase
  obtain ⟨t, rfl, ht⟩ := hm.call (by decide)
  obtain ⟨us, vs, rfl, hi, hl⟩ := hrest.lit_phrase.phrase
  obtain ⟨u, rfl, hu⟩ := hi.call (by decide)
  rw [Makes.lit hl]
  exact ⟨t, u, rfl, ht, hu⟩

theorem inv_methodDecl (h : Fits methodDecl (.node methodDecl p q s ts)) :
    ∃ t u v, Fits modifiers t ∧ Fits identifier u ∧ Fits paramList v ∧
      (ts = [t, u, v] ∨ ∃ b, ts = [t, u, v, b] ∧ Fits block b) := by
  obtain ⟨us, vs, rfl, hm, hrest⟩ := (h.children rfl).phrase
  obtain ⟨t, rfl, ht⟩ := hm.call (by decide)
  obtain ⟨us, vs, rfl, hi, hps⟩ := hrest.lit_phrase.phrase
  obtain ⟨u, rfl, hu⟩ := hi.call (by decide)
  obtain ⟨us, vs, rfl, hp, hb⟩ := hps.lit_phrase.phrase
  obtain ⟨v, rfl, hv⟩ := hp.call (by decide)
  refine ⟨t, u, v, ht, hu, hv, ?_⟩
  rcases hb.lit_phrase.alt with hb | hl
  · obtain ⟨b, rfl, hfb⟩ := Makes.call (by decide) hb
    exact .inr ⟨b, rfl, hfb⟩
  · rw [Makes.lit hl]
    exact .inl rfl

theorem inv_classDecl (h : Fits classDecl (.node classDecl p q s ts)) :
    ∃ t us, ts = t :: us ∧ Fits identifier t ∧ ∀ u ∈ us, FitsOneOf [fieldDecl, methodDecl] u := by
  obtain ⟨us, vs, rfl, hi, hrest⟩ := (h.children rfl).lit_phrase.phrase
  obtain ⟨t, rfl, ht⟩ := hi.call (by decide)
  obtain ⟨us, vs, rfl, hm, hl⟩ := hrest.lit_phrase.phrase
  rw [Makes.lit hl, List.append_nil]
  exact ⟨t, us, rfl, ht, hm.many_oneOf fun us => Makes.member⟩

theorem inv_importDecl (h : Fits importDecl (.node importDecl p q s ts)) :
    ∃ t, ts = [t] ∧ Fits qualifiedName t := by
  obtain ⟨us, vs, rfl, hq, hl⟩ := (h.children rfl).lit_phrase.phrase
  rw [Makes.lit hl, List.append_nil]
  exact hq.call (by decide)

theorem inv_file (h : Fits file (.node file p q s ts)) :
    ∃ us vs t, ts = us ++ (vs ++ [t]) ∧ (∀ u ∈ us, Fits importDecl u) ∧
      (∀ v ∈ vs, Fits classDecl v) ∧ Fits endOfInput t := by
  obtain ⟨us, vs, rfl, hi, hrest⟩ := (h.children rfl).gap_seq.phrase
  obtain ⟨vs, ws, rfl, hc, he⟩ := hrest.phrase
  obtain ⟨t, rfl, ht⟩ := he.call (by decide)
  exact ⟨us, vs, t, rfl, hi.many_call (by decide), hc.many_call (by decide), ht⟩

end Fits

end TreeMetrics.Twig
