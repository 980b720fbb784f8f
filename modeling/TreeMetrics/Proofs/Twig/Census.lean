import Mathlib.Data.List.Basic
import TreeMetrics.Proofs.Twig.Forms

namespace TreeMetrics

namespace ParseTree

variable {ρ : Type}

/-- The matches lie between two places, and those of atomic rules one behind the other. -/
structure InOrder (g : Grammar ρ) (i j : Nat) (us : List (ParseTree ρ)) : Prop where
  le : i ≤ j
  within : ∀ u ∈ us, i ≤ u.start.index ∧ u.stop.index ≤ j
  atoms : (us.filter fun u => (g.production u.rule).visibility = .atomic).Pairwise
    fun u v => u.stop.index ≤ v.start.index

namespace InOrder

variable {g : Grammar ρ} {i j k : Nat} {us vs ts : List (ParseTree ρ)}

theorem nil (h : i ≤ j) : InOrder g i j [] :=
  ⟨h, List.forall_mem_nil _, .nil⟩

theorem append (h : InOrder g i j us) (h' : InOrder g j k vs) : InOrder g i k (us ++ vs) where
  le := Nat.le_trans h.le h'.le
  within := by
    intro u hu
    rcases List.mem_append.1 hu with hu | hu
    · exact ⟨(h.within u hu).1, Nat.le_trans (h.within u hu).2 h'.le⟩
    · exact ⟨Nat.le_trans h.le (h'.within u hu).1, (h'.within u hu).2⟩
  atoms := by
    rw [List.filter_append, List.pairwise_append]
    refine ⟨h.atoms, h'.atoms, ?_⟩
    intro u hu v hv
    have hstop := (h.within u (List.mem_filter.1 hu |>.1)).2
    have hstart := (h'.within v (List.mem_filter.1 hv |>.1)).1
    exact Nat.le_trans hstop hstart

theorem node {r : ρ} {p q : Position} {s : String} (h : InOrder g p.index q.index (subtreesAll ts))
    (hr : (g.production r).visibility = .atomic → ts = []) :
    InOrder g p.index q.index (subtreesAll [.node r p q s ts]) := by
  rw [subtreesAll_singleton, subtrees]
  refine ⟨h.le, List.forall_mem_cons.2 ⟨⟨Nat.le_refl _, Nat.le_refl _⟩, h.within⟩, ?_⟩
  by_cases ha : (g.production r).visibility = .atomic
  · rw [hr ha, subtreesAll, List.filter_cons_of_pos]
    · exact List.pairwise_singleton _ _
    · exact decide_eq_true ha
  · rw [List.filter_cons_of_neg]
    · exact h.atoms
    · simp only [rule, ha, decide_false, Bool.false_eq_true, not_false_iff]

end InOrder

end ParseTree

open ParseTree in
/-- The matches of an expression stand in the order of the text. -/
theorem Derives.inOrder {ρ : Type} {g : Grammar ρ} {q : Bool} {x : Expr ρ} {c d : Cursor}
    {ts : List (ParseTree ρ)} (h : Derives g q x c (some (ts, d))) :
    InOrder g c.position.index d.position.index (subtreesAll ts) := by
  have hle : ∀ {q x c d ts}, Derives g q x c (some (ts, d)) →
      c.position.index ≤ d.position.index := by
    intro q x c d ts h
    obtain ⟨cs, hs⟩ := h.spans
    rw [hs.position, Position.after_index]
    exact Nat.le_add_right ..
  generalize ho : some (ts, d) = o at h
  induction h generalizing ts d with
  | empty | atEnd | star_nil | not =>
    cases ho
    exact .nil (Nat.le_refl _)
  | lit hd =>
    cases ho
    exact .nil (hle (.lit (q := true) hd))
  | char hd =>
    cases ho
    exact .nil (hle (.char (q := true) hd))
  | seq _ _ ihx ihy | star_cons _ _ ihx ihy =>
    cases ho
    rw [subtreesAll_append]
    exact (ihx rfl).append (ihy rfl)
  | alt_left _ ih => exact ih ho
  | alt_right _ _ _ ih => exact ih ho
  | call_quiet _ ih | call_silent _ _ ih => exact ih ho
  | call hv hb ih =>
    cases ho
    apply InOrder.node (ih rfl)
    intro ha
    rw [ha] at hb
    exact hb.trees_of_quiet
  | _ => cases ho

namespace Twig

open TreeMetrics.Twig.Rule

/-- The kinds of nodes that stand for a name or a number. -/
def wordKinds : List Kind :=
  [.importDeclaration, .classDeclaration, .fieldDeclaration, .methodDeclaration, .formalParameter,
    .name, .literal]

def wordRules : List Rule := [qualifiedName, identifier, number]

/-- The images of the nodes that stand for a name or a number. -/
def images (us : List (Tree Node)) : List (Option String) :=
  (us.filter fun a => a.label.kind ∈ wordKinds).map fun a => a.label.image

/-- The texts of the names and numbers that were matched. -/
def words (us : List (ParseTree Rule)) : List String :=
  (us.filter fun t => t.rule ∈ wordRules).map ParseTree.text

/-- The kinds of nodes for which something other than a name or a number is matched. -/
def countedKinds : List Kind :=
  [.infixExpression, .unaryExpression, .assignment, .methodCall, .conditionalExpression, .block,
    .ifStatement, .elseClause, .whileStatement, .returnStatement, .expressionStatement]

/-- The kind of the node for which a match stands, apart from what is matched inside it: operators
stand for what they make of their operands, and the brackets of a call for the call. -/
def nodeKind? (t : ParseTree Rule) : Option Kind :=
  match t.rule with
  | orOp | andOp | eqOp | relOp | addOp => some .infixExpression
  | notOp => some .unaryExpression
  | assignOp => some .assignment
  | callArgs => some .methodCall
  | ternary => if 1 < t.children.length then some .conditionalExpression else none
  | block => some .block
  | ifStmt => some .ifStatement
  | elseClause => some .elseClause
  | whileStmt => some .whileStatement
  | returnStmt => some .returnStatement
  | exprStmt => some .expressionStatement
  | _ => none

/-- The trees have the words of the matches and as many nodes of each kind as the matches say. -/
structure Records (ts : List (ParseTree Rule)) (as : List (Tree Node)) : Prop where
  words : images (Tree.subtreesAll as) = (words (ParseTree.subtreesAll ts)).map some
  counts : ∀ k ∈ countedKinds, (Tree.subtreesAll as).countP (fun a => a.label.kind = k) =
    (ParseTree.subtreesAll ts).countP fun t => nodeKind? t = some k

variable {r : Rule} {p q : Position} {s : String}
variable {k : Kind} {i : Option String} {m : Modifiers} {b e : Nat}
variable {t : ParseTree Rule} {ts us vs : List (ParseTree Rule)} {as bs : List (Tree Node)}

theorem images_append (as bs : List (Tree Node)) : images (as ++ bs) = images as ++ images bs := by
  rw [images, List.filter_append, List.map_append]
  rfl

theorem words_append (ts us : List (ParseTree Rule)) : words (ts ++ us) = words ts ++ words us := by
  rw [words, List.filter_append, List.map_append]
  rfl

theorem images_of_mem (h : k ∈ wordKinds) :
    images (.node ⟨k, i, m, b, e⟩ bs :: as) = i :: images as := by
  rw [images, List.filter_cons_of_pos]
  · rfl
  · exact decide_eq_true h

theorem images_of_notMem (h : k ∉ wordKinds) :
    images (.node ⟨k, i, m, b, e⟩ bs :: as) = images as := by
  rw [images, List.filter_cons_of_neg]
  · rfl
  · rw [decide_eq_true_eq]
    exact h

theorem words_of_mem (h : r ∈ wordRules) : words (.node r p q s us :: ts) = s :: words ts := by
  rw [words, List.filter_cons_of_pos]
  · rfl
  · exact decide_eq_true h

theorem words_of_notMem (h : r ∉ wordRules) : words (.node r p q s us :: ts) = words ts := by
  rw [words, List.filter_cons_of_neg]
  · rfl
  · rw [decide_eq_true_eq]
    exact h

theorem subtreesAll_singleton (a : Tree Node) : Tree.subtreesAll [a] = a.subtrees := by
  rw [Tree.subtreesAll, Tree.subtreesAll, List.append_nil]

theorem subtreesAll_node (n : Node) (as : List (Tree Node)) :
    Tree.subtreesAll [.node n as] = .node n as :: Tree.subtreesAll as := by
  rw [subtreesAll_singleton, Tree.subtrees]

/-- A kind that is not counted adds to no count. -/
theorem countP_uncounted (h : k ∉ countedKinds) {l : Kind} (hl : l ∈ countedKinds) :
    (Tree.subtreesAll [.node ⟨k, i, m, b, e⟩ as]).countP (fun a => a.label.kind = l) =
      (Tree.subtreesAll as).countP fun a => a.label.kind = l := by
  rw [subtreesAll_node, List.countP_cons_of_neg]
  rw [decide_eq_true_eq]
  rintro rfl
  exact h hl

namespace Records

theorem nil : Records [] [] := ⟨rfl, fun _ _ => rfl⟩

theorem append (h : Records ts as) (h' : Records us bs) : Records (ts ++ us) (as ++ bs) where
  words := by
    rw [Tree.subtreesAll_append, ParseTree.subtreesAll_append, images_append, words_append,
      List.map_append, h.words, h'.words]
  counts := by
    intro l hl
    rw [Tree.subtreesAll_append, ParseTree.subtreesAll_append, List.countP_append,
      List.countP_append, h.counts l hl, h'.counts l hl]

/-- A match around others that makes no node. -/
theorem group (hk : nodeKind? (.node r p q s ts) = none) (hr : r ∉ wordRules)
    (h : Records ts as) : Records [.node r p q s ts] as where
  words := by
    rw [ParseTree.subtreesAll_singleton, ParseTree.subtrees, words_of_notMem hr]
    exact h.words
  counts := by
    intro l hl
    rw [ParseTree.subtreesAll_singleton, ParseTree.subtrees, List.countP_cons_of_neg]
    · exact h.counts l hl
    · rw [hk]
      exact Bool.false_ne_true

/-- A node around others for which nothing is matched. -/
theorem wrap (hw : k ∉ wordKinds) (hk : k ∉ countedKinds) (h : Records ts as) :
    Records ts [.node ⟨k, i, m, b, e⟩ as] where
  words := by
    rw [subtreesAll_node, images_of_notMem hw]
    exact h.words
  counts := by
    intro l hl
    rw [countP_uncounted hk hl]
    exact h.counts l hl

/-- A name or a number in front of what is matched for the rest of its node. -/
theorem word (hr : r ∈ wordRules) (hw : k ∈ wordKinds) (h : Records ts as) :
    Records (.node r p q s [] :: ts) [.node ⟨k, some s, m, b, e⟩ as] where
  words := by
    rw [subtreesAll_node, ParseTree.subtreesAll_cons, words_of_mem hr, images_of_mem hw, h.words]
    rfl
  counts := by
    have hk : k ∉ countedKinds := (by decide : ∀ k ∈ wordKinds, k ∉ countedKinds) k hw
    have hnone : nodeKind? (.node r p q s []) = none := by
      simp only [wordRules, List.mem_cons, List.not_mem_nil, or_false] at hr
      rcases hr with rfl | rfl | rfl
      all_goals rfl
    intro l hl
    rw [countP_uncounted hk hl, ParseTree.subtreesAll_cons, List.countP_cons_of_neg]
    · exact h.counts l hl
    · rw [hnone]
      exact Bool.false_ne_true

/-- A match that stands for a node, somewhere among what is matched for its children. -/
theorem node (h : Records (ts ++ (us ++ vs)) as) (hk : nodeKind? (.node r p q s us) = some k)
    (hr : r ∉ wordRules) (hw : k ∉ wordKinds) :
    Records (ts ++ .node r p q s us :: vs) [.node ⟨k, i, m, b, e⟩ as] where
  words := by
    rw [subtreesAll_node, images_of_notMem hw, h.words]
    simp only [ParseTree.subtreesAll_append, ParseTree.subtreesAll_cons, words_append,
      words_of_notMem hr]
  counts := by
    intro l hl
    have hc := h.counts l hl
    simp only [ParseTree.subtreesAll_append, List.countP_append] at hc
    rw [subtreesAll_node, ParseTree.subtreesAll_append, ParseTree.subtreesAll_cons,
      List.countP_append]
    by_cases hkl : k = l
    · rw [List.countP_cons_of_pos, List.countP_cons_of_pos, List.countP_append]
      · omega
      · exact decide_eq_true (hk.trans (congrArg some hkl))
      · exact decide_eq_true hkl
    · rw [List.countP_cons_of_neg, List.countP_cons_of_neg, List.countP_append]
      · omega
      · rw [hk, decide_eq_true_eq, Option.some.injEq]
        exact hkl
      · exact mt of_decide_eq_true hkl

theorem around (hk : nodeKind? (.node r p q s ts) = some k) (hr : r ∉ wordRules)
    (hw : k ∉ wordKinds) (h : Records ts as) :
    Records [.node r p q s ts] [.node ⟨k, i, m, b, e⟩ as] := by
  have hts : Records ([] ++ (ts ++ [])) as := by rwa [List.nil_append, List.append_nil]
  exact hts.node hk hr hw

end Records

theorem Fits.children_eq_nil
    (hr : visibility r = .atomic ∨ (pattern r).mute (fun _ => false) = true ∧
      visibility r = .normal)
    (h : Fits r t) : t.children = [] := by
  obtain ⟨-, c, d, h⟩ := h
  have hv : visibility r ≠ .silent := by
    rcases hr with hr | ⟨-, hr⟩
    all_goals
      rw [hr]
      decide
  obtain ⟨us, hb, ht⟩ := h.inv_call hv
  cases ht
  rcases hr with hr | ⟨hm, -⟩
  · rw [show (grammar.production r).visibility = .atomic from hr] at hb
    exact hb.trees_of_quiet
  · refine hb.trees_of_mute ?_ hm
    intro r hr
    cases hr

/-- What a match of a word or an operator says of itself. -/
theorem Fits.exists_leaf
    (hr : visibility r = .atomic ∨ (pattern r).mute (fun _ => false) = true ∧
      visibility r = .normal)
    (h : Fits r t) : ∃ p q, t = .node r p q t.text [] := by
  have hc := h.children_eq_nil hr
  obtain ⟨r', p, q, s, ts⟩ := t
  cases h.1
  cases hc
  exact ⟨p, q, rfl⟩

theorem Records.leaf (hr : r ∈ wordRules) (hw : k ∈ wordKinds) (ht : Fits r t)
    (h : Records ts as) : Records (t :: ts) [.node ⟨k, some t.text, m, b, e⟩ as] := by
  have hv : ∀ r ∈ wordRules, visibility r = .atomic := by decide
  obtain ⟨p, q, he⟩ := ht.exists_leaf (.inl (hv r hr))
  rw [he]
  exact .word hr hw h

theorem Records.operator (h : Records (ts ++ us) as) (ht : Fits r t)
    (hk : ∀ p q s, nodeKind? (.node r p q s []) = some k)
    (hr : visibility r = .atomic ∨ (pattern r).mute (fun _ => false) = true ∧
      visibility r = .normal)
    (hr' : r ∉ wordRules) (hw : k ∉ wordKinds) :
    Records (ts ++ t :: us) [.node ⟨k, i, m, b, e⟩ as] := by
  obtain ⟨p, q, he⟩ := ht.exists_leaf hr
  rw [he]
  exact h.node (hk _ _ _) hr' hw

/-- Modifiers are kept in the node of their member and form no tree. -/
theorem Records.modifiers (h : Fits modifiers t) : Records [t] [] := by
  obtain ⟨r, p, q, s, ts⟩ := t
  cases h.1
  have hts : ∀ u ∈ ts, Fits modifier u := (h.children rfl).many_call (by decide)
  apply Records.group rfl (by decide)
  clear h
  induction ts with
  | nil => exact .nil
  | cons u us ih =>
    obtain ⟨hu, hus⟩ := List.forall_mem_cons.1 hts
    obtain ⟨p, q, he⟩ := hu.exists_leaf (.inl rfl)
    rw [he]
    exact (Records.group rfl (by decide) .nil).append (ih hus)

theorem Records.parameters (h : ∀ t ∈ ts, Fits identifier t) :
    Records ts (ts.map (Build.wordLeaf .formalParameter)) := by
  induction ts with
  | nil => exact .nil
  | cons t ts ih =>
    obtain ⟨ht, hts⟩ := List.forall_mem_cons.1 h
    have hleaf : Records [t] [Build.wordLeaf .formalParameter t] :=
      .leaf (by decide) (by decide) ht .nil
    exact hleaf.append (ih hts)

theorem Forms.records (h : Forms ts as) : Records ts as := by
  induction h with
  | nil => exact .nil
  | append _ _ ih ih' => exact ih.append ih'
  | literal ht => exact .leaf (by decide) (by decide) ht .nil
  | name ht => exact .leaf (by decide) (by decide) ht .nil
  | single hr _ ih =>
    simp only [List.mem_cons, List.not_mem_nil, or_false] at hr
    rcases hr with rfl | rfl | rfl
    all_goals exact .group rfl (by decide) ih
  | chain hr _ ih =>
    simp only [List.mem_cons, List.not_mem_nil, or_false] at hr
    rcases hr with rfl | rfl | rfl | rfl | rfl | rfl | rfl
    all_goals exact .group rfl (by decide) ih
  | binary hop ho _ _ ih ih' =>
    simp only [operatorRules, List.mem_cons, List.not_mem_nil, or_false] at hop
    rcases hop with rfl | rfl | rfl | rfl | rfl
    all_goals
      exact (ih.append ih').operator ho (fun _ _ _ => rfl) (.inr ⟨rfl, rfl⟩) (by decide) (by decide)
  | negation ho _ ih =>
    have hparts := Records.nil.append ih
    exact hparts.operator ho (fun _ _ _ => rfl) (.inl rfl) (by decide) (by decide)
  | @call ts a p q s us bs _ _ ih ih' =>
    have hargs : Records us [.node ⟨.arguments, none, .none, p.line, q.line⟩ bs] :=
      .wrap (by decide) (by decide) ih'
    have hparts := ih.append (hargs.append .nil)
    exact hparts.node rfl (by decide) (by decide)
  | assignment ho _ _ ih ih' =>
    apply Records.group rfl (by decide)
    exact (ih.append ih').operator ho (fun _ _ _ => rfl) (.inl rfl) (by decide) (by decide)
  | conditional hlen _ ih => exact .around (if_pos hlen) (by decide) (by decide) ih
  | @statement r k p q s us as hk _ ih =>
    cases r with
    | block | ifStmt | elseClause | whileStmt | returnStmt | exprStmt =>
      cases hk
      exact .around rfl (by decide) (by decide) ih
    | _ => cases hk
  | importDecl ht => exact .group rfl (by decide) (.leaf (by decide) (by decide) ht .nil)
  | field hm ht =>
    apply Records.group rfl (by decide)
    exact (Records.modifiers hm).append (.leaf (by decide) (by decide) ht .nil)
  | parameters ht => exact .group rfl (by decide) (.wrap (by decide) (by decide) (.parameters ht))
  | method hm ht _ ih =>
    apply Records.group rfl (by decide)
    exact (Records.modifiers hm).append (.leaf (by decide) (by decide) ht ih)
  | classDecl ht _ ih => exact .group rfl (by decide) (.leaf (by decide) (by decide) ht ih)
  | endOfInput ht =>
    obtain ⟨p, q, he⟩ := ht.exists_leaf (.inr ⟨rfl, rfl⟩)
    rw [he]
    exact .group rfl (by decide) .nil
  | file _ ih => exact .group rfl (by decide) (.wrap (by decide) (by decide) ih)

theorem atomic_of_mem_wordRules (hr : r ∈ wordRules) :
    (grammar.production r).visibility = .atomic :=
  (by decide : ∀ r ∈ wordRules, visibility r = .atomic) r hr

/-- Every match of a file is built into a tree with the same words in the order of the source, and
with a node for each match that stands for one. -/
theorem file_loses_nothing (c d : Cursor) (ts : List (ParseTree Rule))
    (h : Derives grammar false (.call file) c (some (ts, d))) :
    ∃ t a, ts = [t] ∧ Build.file t = .ok a ∧
      images a.subtrees = (words t.subtrees).map some ∧
      ((t.subtrees.filter fun u => u.rule ∈ wordRules).Pairwise
        fun u v => u.stop.index ≤ v.start.index) ∧
      ∀ k ∈ countedKinds, a.subtrees.countP (fun b => b.label.kind = k) =
        t.subtrees.countP fun u => nodeKind? u = some k := by
  obtain ⟨t, rfl, ht⟩ := Makes.call (by decide) ⟨c, d, h⟩
  obtain ⟨a, ha, hforms⟩ := file_forms ht
  obtain ⟨hwords, hcounts⟩ := hforms.records
  have horder := h.inOrder.atoms
  rw [ParseTree.subtreesAll_singleton] at hwords hcounts horder
  rw [subtreesAll_singleton] at hwords hcounts
  refine ⟨t, a, rfl, ha, hwords, ?_, hcounts⟩
  apply List.Pairwise.sublist (List.monotone_filter_right _ _) horder
  intro u hu
  exact decide_eq_true (atomic_of_mem_wordRules (of_decide_eq_true hu))

/-- A source with a chain of calls among its operands. -/
def callingSource : String :=
  "import a.b; class C \x7b field f; method m(p, q) \x7b f = !p(1)(q) + f - 2 < q; \x7d \x7d"

theorem file_loses_nothing_of_calls :
    ∃ t d a, Derives grammar false (.call file) (.ofText callingSource.toList) (some ([t], d)) ∧
      Build.file t = .ok a ∧
      images a.subtrees = ["a.b", "C", "f", "m", "p", "q", "f", "p", "1", "q", "f", "2", "q"].map
        some ∧
      a.subtrees.countP (fun b => b.label.kind = .infixExpression) = 3 := by
  have hrun : ((grammar.parse .file callingSource.toList).toOption.map fun m =>
      (words (ParseTree.subtreesAll m.1), (ParseTree.subtreesAll m.1).countP fun u =>
        nodeKind? u = some .infixExpression)) =
      some (["a.b", "C", "f", "m", "p", "q", "f", "p", "1", "q", "f", "2", "q"], 3) := by
    decide +kernel
  cases hp : grammar.parse .file callingSource.toList with
  | error e =>
    rw [hp] at hrun
    cases hrun
  | ok m =>
    obtain ⟨ts, d⟩ := m
    rw [hp] at hrun
    obtain ⟨hwords, hcount⟩ := Prod.mk.inj (Option.some.inj hrun)
    have hd := parse_eq_ok_iff.1 hp
    obtain ⟨t, a, rfl, ha, himages, -, hcounts⟩ := file_loses_nothing _ d ts hd
    rw [ParseTree.subtreesAll_singleton] at hwords hcount
    refine ⟨t, d, a, hd, ha, ?_, ?_⟩
    · rw [himages, hwords]
    · rw [hcounts _ (by decide), hcount]

end Twig

end TreeMetrics
