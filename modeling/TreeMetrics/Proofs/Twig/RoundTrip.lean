import TreeMetrics.Proofs.Twig.ReadStatement

namespace TreeMetrics.Twig

open TreeMetrics.Expr TreeMetrics.Twig.Rule

variable {r : Rule} {w k : String} {ws us rest : List String}
variable {t : ParseTree Rule} {ts vs : List (ParseTree Rule)} {a : Tree Node} {m : Modifiers}
variable {x y : Expr Rule} {zs : List (Expr Rule)} {as bs params : List (Tree Node)}
variable {b c b' c' : Nat} {P : List (ParseTree Rule) → Prop}

/-- The trees are a single one, from which the member of a class is built. -/
def MemberOf (a : Tree Node) (ts : List (ParseTree Rule)) : Prop :=
  ∃ t, ts = [t] ∧ Yields (Build.member t) a

def DeclarationOf (a : Tree Node) (ts : List (ParseTree Rule)) : Prop :=
  ∃ t, ts = [t] ∧ (t.rule = importDecl ∧ Yields (Build.importDecl t) a ∨
    t.rule = classDecl ∧ Yields (Build.classDecl t) a)

section Members

theorem texts_of_rows (h : Rows (Spells r) ws ts) : ts.map ParseTree.text = ws := by
  induction h with
  | nil => rfl
  | cons ha _ ih =>
    obtain ⟨p, q, us, rfl⟩ := ha
    rw [List.singleton_append, List.map_cons, ih]
    rfl

theorem any_print_modifiers (m : Modifiers) :
    (⟨(Print.modifiers m).any (· == "public"), (Print.modifiers m).any (· == "abstract")⟩ :
      Modifiers) = m := by
  obtain ⟨isPublic, isAbstract⟩ := m
  cases isPublic <;> cases isAbstract <;> decide

theorem mem_print_modifiers : ∀ w ∈ Print.modifiers m, w ∈ ["public", "abstract"] := by
  obtain ⟨isPublic, isAbstract⟩ := m
  cases isPublic <;> cases isAbstract <;> decide

theorem modifiers_reads (hr : Avoids ["public", "abstract"] rest) :
    Reads (.call modifiers) (Print.modifiers m) rest
      fun ts => ∃ t, ts = [t] ∧ Build.modifiers t = m := by
  have hn : Refuses (.call modifier) rest := .spelling (by decide) rfl hr
  have hm : Reads (pattern modifiers) ((Print.modifiers m).flatMap fun w => [w]) rest
      (Rows (Spells modifier) (Print.modifiers m)) :=
    .many (fun w ws hw => .modifier (mem_print_modifiers w (hw.subset List.mem_cons_self))) hn
  rw [List.flatMap_singleton'] at hm
  refine (hm.call rfl).mono ?_
  rintro _ ⟨p, q, s, us, rfl, hrows⟩
  refine ⟨_, rfl, ?_⟩
  rw [← any_print_modifiers m, ← texts_of_rows hrows, List.any_map, List.any_map]
  rfl

theorem field_reads (hw : IsIdentifier w) :
    Reads (.call fieldDecl) (Print.modifiers m ++ ["field", w, ";"]) rest
      (MemberOf (.leaf ⟨.fieldDeclaration, some w, m, b, c⟩)) := by
  have hname : Reads (phrase [.lit "field", .call identifier, .lit ";"]) ["field", w, ";"] rest
      (Spells identifier w) :=
    .lit_phrase (by decide) (.phrase_lit (by decide) (.identifier hw))
  have hp : Reads (pattern fieldDecl) (Print.modifiers m ++ ["field", w, ";"]) rest _ :=
    .phrase (modifiers_reads (m := m) (avoids_cons (by decide))) hname
  refine (hp.call rfl).mono ?_
  rintro _ ⟨p, q, s, _, rfl, _, _, rfl, ⟨t, rfl, rfl⟩, p', q', us, rfl⟩
  exact ⟨_, rfl, _, rfl, rfl⟩

def ParameterOf (a : Tree Node) (ts : List (ParseTree Rule)) : Prop :=
  ∃ t, ts = [t] ∧ unplaced (Build.wordLeaf .formalParameter t) = unplaced a

/-- The formal parameters of a method are built from the parts of the tree. -/
def ParametersOf (params : List (Tree Node)) (t : ParseTree Rule) : Prop :=
  unplacedAll (t.children.map (Build.wordLeaf .formalParameter)) = unplacedAll params

theorem parametersOf_of_rows {p q : Position} {s : String}
    (h : Rows ParameterOf params ts) : ParametersOf params (.node r p q s ts) := by
  rw [ParametersOf, ParseTree.children]
  induction h with
  | nil => rfl
  | cons ha _ ih =>
    obtain ⟨t, rfl, ht⟩ := ha
    exact unplacedAll_cons ht ih

theorem parameters_read (h : ∀ a ∈ params, IsParameter a) :
    Reads (.call paramList) (Print.commas (params.map tokens)) (")" :: rest)
      fun ts => ∃ t, ts = [t] ∧ ParametersOf params t := by
  have hn : ∀ us, Refuses (.call identifier) (")" :: us) := fun us =>
    refuses_identifier fun z hz => by cases hz; rfl
  have hi : ∀ a ∈ params, ∀ w ∈ [",", ")"], ∀ us,
      Reads (.call identifier) (tokens a) (w :: us) (ParameterOf a) := by
    intro a ha w _ us
    cases h a ha with
    | mk hv =>
      refine (Reads.identifier hv).mono ?_
      rintro _ ⟨p, q, us, rfl⟩
      exact ⟨_, rfl, rfl⟩
  have hp : Reads (pattern paramList) (Print.commas (params.map tokens)) (")" :: rest) _ :=
    .opt_commaSeparated hn hi
  refine (hp.call rfl).mono ?_
  rintro _ ⟨p, q, s, us, rfl, hrows⟩
  exact ⟨_, rfl, parametersOf_of_rows hrows⟩

/-- The parts of a method up to its parameters, in front of what the last part reads. -/
theorem signature_reads (hw : IsIdentifier w) (hparams : ∀ a ∈ params, IsParameter a)
    (h : Reads x ws rest P) :
    Reads (phrase [.call modifiers, .lit "method", .call identifier, .lit "(", .call paramList,
        .lit ")", x])
      (Print.modifiers m ++ "method" :: w :: "(" :: (Print.commas (params.map tokens) ++ ")" :: ws))
      rest fun ts => ∃ mods name formals us, ts = mods :: name :: formals :: us ∧
        Build.modifiers mods = m ∧ name.text = w ∧ ParametersOf params formals ∧ P us := by
  have hparen : Reads (phrase [.lit "(", .call paramList, .lit ")", x])
      ("(" :: (Print.commas (params.map tokens) ++ ")" :: ws)) rest _ :=
    .lit_phrase (by decide) (.phrase (parameters_read hparams) (h.lit_pair (by decide)))
  have hname : Reads
      (phrase [.lit "method", .call identifier, .lit "(", .call paramList, .lit ")", x])
      ("method" :: w :: "(" :: (Print.commas (params.map tokens) ++ ")" :: ws)) rest _ :=
    .lit_phrase (by decide) (.phrase (.identifier hw) hparen)
  refine (Reads.phrase (modifiers_reads (m := m) (avoids_cons (by decide))) hname).mono ?_
  rintro _ ⟨_, _, rfl, ⟨mods, rfl, hmods⟩, _, _, rfl, ⟨p, q, us, rfl⟩, _, vs, rfl,
    ⟨formals, rfl, hf⟩, hP⟩
  exact ⟨mods, _, formals, vs, rfl, hmods, rfl, hf, hP⟩

theorem declaration_reads (hw : IsIdentifier w) (hparams : ∀ a ∈ params, IsParameter a) :
    Reads (.call methodDecl)
      (Print.modifiers m ++
        "method" :: w :: "(" :: (Print.commas (params.map tokens) ++ [")", ";"]))
      rest (MemberOf (.node ⟨.methodDeclaration, some w, m, b, c⟩
        [.node (.plain .formalParameters b' c') params])) := by
  have hn : Refuses (.call block) (";" :: rest) :=
    .call rfl (Refuses.lit (avoids_cons (by decide))).seq
  have hb : Reads (oneOf [.call block, .lit ";"]) [";"] rest (· = []) :=
    .alt_right hn (.lit (by decide))
  have hp : Reads (pattern methodDecl) (Print.modifiers m ++ "method" :: w :: "(" ::
      (Print.commas (params.map tokens) ++ [")", ";"])) rest _ := signature_reads hw hparams hb
  refine (hp.call rfl).mono ?_
  rintro _ ⟨p, q, s, _, rfl, mods, name, formals, _, rfl, rfl, rfl, hf, rfl⟩
  exact ⟨_, rfl, _, rfl, unplaced_node rfl (unplacedAll_cons (unplaced_node rfl hf) rfl)⟩

theorem method_reads (hw : IsIdentifier w) (hparams : ∀ a ∈ params, IsParameter a)
    (h : Reads (.call block) ws rest (StatementOf a)) :
    Reads (.call methodDecl)
      (Print.modifiers m ++ "method" :: w :: "(" :: (Print.commas (params.map tokens) ++ ")" :: ws))
      rest (MemberOf (.node ⟨.methodDeclaration, some w, m, b, c⟩
        [.node (.plain .formalParameters b' c') params, a])) := by
  have hb : Reads (oneOf [.call block, .lit ";"]) ws rest (StatementOf a) := h.alt_left
  have hp : Reads (pattern methodDecl) (Print.modifiers m ++ "method" :: w :: "(" ::
      (Print.commas (params.map tokens) ++ ")" :: ws)) rest _ := signature_reads hw hparams hb
  refine (hp.call rfl).mono ?_
  rintro _ ⟨p, q, s, _, rfl, mods, name, formals, _, rfl, rfl, rfl, hf, t, rfl, -, x, hx, hux⟩
  have hm : Build.member (.node methodDecl p q s [mods, name, formals, t]) =
      ((Build.statement t).map ([·])).bind fun body =>
        .ok (.node ⟨.methodDeclaration, some name.text, Build.modifiers mods, p.line, q.line⟩
          (.node (.plain .formalParameters formals.start.line formals.stop.line)
            (formals.children.map (Build.wordLeaf .formalParameter)) :: body)) := rfl
  rw [hx] at hm
  exact ⟨_, rfl, _, hm,
    unplaced_node rfl (unplacedAll_cons (unplaced_node rfl hf) (unplacedAll_cons hux rfl))⟩

/-- A member that is introduced by another keyword is refused behind its modifiers. -/
theorem refuses_member_rule (hv : visibility r = .normal)
    (hp : pattern r = phrase (.call modifiers :: .lit k :: y :: zs)) (hs : Starts us)
    (hm : Avoids ["public", "abstract"] us) (hk : Avoids [k] us) :
    Refuses (.call r) (Print.modifiers m ++ us) := by
  refine .call hv ?_
  rw [hp]
  exact (modifiers_reads hm).refuses hs (Refuses.lit hk).seq

theorem refuses_fieldDecl : Refuses (.call fieldDecl) (Print.modifiers m ++ "method" :: us) := by
  have hm : Avoids ["public", "abstract"] ("method" :: us) := avoids_cons (by decide)
  exact refuses_member_rule rfl rfl (Starts.cons (by decide)) hm (avoids_cons (by decide))

theorem member_reads (h : IsMember a) : Reads (.call member) (tokens a) rest (MemberOf a) := by
  refine .silent rfl ?_
  cases h with
  | field hw => exact .alt_left (field_reads hw)
  | declaration hw hparams =>
    rw [tokens_declaration]
    refine .alt_right ?_ (declaration_reads hw hparams)
    rw [List.append_assoc]
    exact refuses_fieldDecl
  | method hw hparams hbody =>
    rw [tokens_method]
    refine .alt_right ?_ (method_reads hw hparams ?_)
    · rw [List.append_assoc]
      exact refuses_fieldDecl
    · rw [tokens_block]
      exact block_reads hbody fun a ha => statement_reads (hbody a ha)

theorem refuses_member : Refuses (.call member) ("\x7d" :: rest) := by
  have hs : Starts ("\x7d" :: rest) := Starts.cons (by decide)
  have hm : Avoids ["public", "abstract"] ("\x7d" :: rest) := avoids_cons (by decide)
  refine .silent rfl (.alt ?_ ?_)
  · exact refuses_member_rule (m := .none) rfl rfl hs hm (avoids_cons (by decide))
  · exact refuses_member_rule (m := .none) rfl rfl hs hm (avoids_cons (by decide))

end Members

section Declarations

theorem members_yield (h : Rows MemberOf as ts) : YieldsAll (ts.mapM Build.member) as := by
  induction h with
  | nil => exact ⟨[], rfl, rfl⟩
  | cons ha _ ih =>
    obtain ⟨t, rfl, x, hx, hux⟩ := ha
    obtain ⟨bs, hbs, hubs⟩ := ih
    refine ⟨x :: bs, ?_, unplacedAll_cons hux hubs⟩
    rw [List.singleton_append, List.mapM_cons, hx, hbs]
    rfl

theorem class_reads_members {members : List (Tree Node)} (hw : IsIdentifier w)
    (h : Reads (many (.call member)) ws ("\x7d" :: rest) (Rows MemberOf members)) :
    Reads (.call classDecl) ("class" :: w :: "\x7b" :: (ws ++ ["\x7d"])) rest
      (DeclarationOf (.node (.word .classDeclaration w b c) members)) := by
  have hbody : Reads (phrase [.lit "\x7b", many (.call member), .lit "\x7d"])
      ("\x7b" :: (ws ++ ["\x7d"])) rest (Rows MemberOf members) :=
    .lit_phrase (by decide) (h.phrase_lit (by decide))
  have hp : Reads (pattern classDecl) ("class" :: w :: "\x7b" :: (ws ++ ["\x7d"])) rest _ :=
    .lit_phrase (by decide) (.phrase (.identifier hw) hbody)
  refine (hp.call rfl).mono ?_
  rintro _ ⟨p, q, s, _, rfl, _, us, rfl, ⟨p', q', vs, rfl⟩, hrows⟩
  obtain ⟨bs, hbs, hubs⟩ := members_yield hrows
  have hc : Build.classDecl (.node classDecl p q s (.node identifier p' q' w vs :: us)) =
      .ok (.node (.word .classDeclaration w p.line q.line) bs) := by
    simp only [Build.classDecl, ParseTree.children, hbs]
    rfl
  exact ⟨_, rfl, .inr ⟨rfl, _, hc, unplaced_node rfl hubs⟩⟩

theorem class_reads (h : IsClass a) :
    Reads (.call classDecl) (tokens a) rest (DeclarationOf a) := by
  cases h with
  | @mk w b c members hw hmembers =>
    rw [tokens_class]
    refine class_reads_members hw (.many (fun a bs ha => ?_) refuses_member)
    exact member_reads (hmembers a (ha.subset List.mem_cons_self))

theorem import_reads (h : IsImport a) :
    Reads (.call importDecl) (tokens a) rest (DeclarationOf a) := by
  cases h with
  | @mk w b c hw =>
    have hp : Reads (pattern importDecl) ["import", w, ";"] rest _ :=
      .lit_phrase (by decide) (.phrase_lit (by decide) (.qualifiedName hw))
    refine (hp.call rfl).mono ?_
    rintro _ ⟨p, q, s, _, rfl, p', q', us, rfl⟩
    exact ⟨_, rfl, .inl ⟨rfl, _, rfl, rfl⟩⟩

theorem declarations_yield (h : Rows DeclarationOf as ts)
    (hv : YieldsAll (Build.declarations vs) bs) :
    YieldsAll (Build.declarations (ts ++ vs)) (as ++ bs) := by
  induction h with
  | nil => exact hv
  | cons ha _ ih =>
    obtain ⟨t, rfl, ha⟩ := ha
    obtain ⟨ds, hds, huds⟩ := ih
    rcases ha with ⟨hr, x, hx, hux⟩ | ⟨hr, x, hx, hux⟩
    · refine ⟨x :: ds, ?_, unplacedAll_cons hux huds⟩
      simp only [List.cons_append, List.nil_append, Build.declarations, hr, hx, hds]
      rfl
    · refine ⟨x :: ds, ?_, unplacedAll_cons hux huds⟩
      simp only [List.cons_append, List.nil_append, Build.declarations, hr, hx, hds]
      rfl

theorem endOfInput_reads : Reads (.call endOfInput) [] []
    fun ts => ∃ p q s us, ts = [.node endOfInput p q s us] ∧ us = [] := by
  have hp : Reads (pattern endOfInput) [] [] (· = []) := fun _ =>
    ⟨trivial, fun c hc => ⟨[], c, .atEnd hc, .inl hc, rfl⟩⟩
  exact hp.call rfl

theorem refuses_importDecl (h : ∀ a ∈ as, IsClass a) :
    Refuses (.call importDecl) (as.flatMap tokens) := by
  refine .call rfl (Refuses.seq (.lit ?_))
  cases as with
  | nil => exact avoids_nil (by decide)
  | cons a as =>
    rw [List.flatMap_cons]
    cases h a List.mem_cons_self with
    | mk =>
      rw [tokens_class]
      exact avoids_cons (by decide)

theorem declarations_read {imports classes : List (Tree Node)}
    (himports : ∀ a ∈ imports, IsImport a) (hn : Refuses (.call importDecl) ws)
    (hclasses : Reads (many (.call classDecl)) ws [] (Rows DeclarationOf classes)) :
    Reads (phrase [many (.call importDecl), many (.call classDecl), .call endOfInput])
      (imports.flatMap tokens ++ ws) []
      fun ts => YieldsAll (Build.declarations ts) (imports ++ classes) := by
  have hi : Reads (many (.call importDecl)) (imports.flatMap tokens) (ws ++ [])
      (Rows DeclarationOf imports) := by
    rw [List.append_nil]
    exact .many (fun a _ ha => import_reads (himports a (ha.subset List.mem_cons_self))) hn
  have hc : Reads (many (.call classDecl)) ws ([] ++ []) (Rows DeclarationOf classes) := hclasses
  have hrest := Reads.pair hc endOfInput_reads
  rw [List.append_nil] at hrest
  refine (Reads.phrase hi hrest).mono ?_
  rintro _ ⟨_, _, rfl, his, _, _, rfl, hcs, p, q, s, us, rfl, rfl⟩
  have hnone : YieldsAll (Build.declarations [.node endOfInput p q s []]) [] := ⟨[], rfl, rfl⟩
  have hboth := declarations_yield his (declarations_yield hcs hnone)
  rwa [List.append_nil] at hboth

theorem file_reads_declarations
    (h : Reads (phrase [many (.call importDecl), many (.call classDecl), .call endOfInput]) ws []
      fun ts => YieldsAll (Build.declarations ts) as) :
    Reads (.call file) ws []
      fun ts => ∃ t, ts = [t] ∧ Yields (Build.file t) (.node (.plain .compilationUnit b c) as) := by
  have hp : Reads (pattern file) ws [] _ := h.gap_seq
  refine (hp.call rfl).mono ?_
  rintro _ ⟨p, q, s, us, rfl, bs, hbs, hubs⟩
  refine ⟨_, rfl, .node (.plain .compilationUnit p.line q.line) bs, ?_, unplaced_node rfl hubs⟩
  simp only [Build.file, ParseTree.children, hbs]
  rfl

theorem refuses_classDecl_nil : Refuses (.call classDecl) [] :=
  .call rfl (Refuses.lit (avoids_nil (by decide))).seq

theorem file_reads (h : IsFile a) :
    Reads (.call file) (tokens a) [] fun ts => ∃ t, ts = [t] ∧ Yields (Build.file t) a := by
  cases h with
  | @mk b c imports classes himports hclasses =>
    rw [tokens_file, List.flatMap_append]
    have hc : Reads (many (.call classDecl)) (classes.flatMap tokens) []
        (Rows DeclarationOf classes) :=
      .many (fun a _ ha => class_reads (hclasses a (ha.subset List.mem_cons_self)))
        refuses_classDecl_nil
    exact file_reads_declarations (declarations_read himports (refuses_importDecl hclasses) hc)

end Declarations

/-- A text of tokens, with a blank between any two of them, is parsed as what the tokens are. -/
theorem parse_of_reads
    (h : Reads (.call file) ws [] fun ts => ∃ t, ts = [t] ∧ Yields (Build.file t) a) :
    ∃ b, parse (" ".intercalate ws) = .ok b ∧ unplaced b = unplaced a := by
  obtain ⟨-, h⟩ := h trivial
  have hrest : (Cursor.ofText (" ".intercalate ws).toList).rest = layout (ws ++ []) := by
    rw [List.append_nil]
    exact toList_intercalate ws
  obtain ⟨_, d, hd, -, t, rfl, b, hb, hub⟩ := h _ hrest
  exact ⟨b, parse_ok_iff.2 ⟨t, d, hd, hb⟩, hub⟩

/-- Parsing undoes printing: the canonical text of a file is parsed as that file, up to lines. -/
theorem parse_print (t : Tree Node) (h : IsFile t) :
    (parse (print t)).map unplaced = .ok (unplaced t) := by
  obtain ⟨a, ha, hua⟩ := parse_of_reads (file_reads h)
  rw [print, ha, ← hua]
  rfl

/-- An `if` without `else` in a block in front of an `else`, and operands in parentheses. -/
def nestedBranches : Tree Node :=
  .node (.plain .ifStatement 1 5)
    [.leaf (.word .name "p" 1 1),
      .node (.plain .block 1 3)
        [.node (.plain .ifStatement 2 2)
          [.node (.word .unaryExpression "!" 2 2) [.leaf (.word .name "q" 2 2)],
            .node (.plain .expressionStatement 2 2)
              [.node (.plain .methodCall 2 2)
                [.leaf (.word .name "p" 2 2),
                  .node (.plain .arguments 2 2) [.leaf (.word .literal "10" 2 2)]]]]],
      .node (.plain .elseClause 3 5)
        [.node (.plain .returnStatement 4 4)
          [.node (.word .assignment "=" 4 4)
            [.leaf (.word .name "q" 4 4),
              .node (.word .infixExpression "<=" 4 4)
                [.leaf (.word .name "p" 4 4), .leaf (.word .literal "2" 4 4)]]]]]

theorem nestedBranches_isStatement : IsStatement nestedBranches := by
  have hp : IsIdentifier "p" := by decide
  have hq : IsIdentifier "q" := by decide
  have hcall : IsExpression (.node (.plain .methodCall 2 2) [.leaf (.word .name "p" 2 2),
      .node (.plain .arguments 2 2) [.leaf (.word .literal "10" 2 2)]]) :=
    .call (.name hp) (List.forall_mem_singleton.2 (.literal (by decide)))
  refine .otherwise (.name hp) (.block (List.forall_mem_singleton.2 ?_)) ?_ (.give ?_)
  · exact .branch (.negation (.name hq)) (.expression hcall)
  · intro hopen
    cases hopen
  · exact .assignment (.name hq) (.binary (by decide) (.name hp) (.literal (by decide)))

/-- A file in which a dotted name has a keyword for a part. -/
def nestedFile : Tree Node :=
  .node (.plain .compilationUnit 1 6)
    ([.leaf (.word .importDeclaration "a.if" 1 1)] ++
      [.node (.word .classDeclaration "C" 1 6)
        [.leaf ⟨.fieldDeclaration, some "x", ⟨true, false⟩, 1, 1⟩,
          .node ⟨.methodDeclaration, some "m", ⟨true, true⟩, 1, 6⟩
            [.node (.plain .formalParameters 1 1)
                [.leaf (.word .formalParameter "p" 1 1), .leaf (.word .formalParameter "q" 1 1)],
              .node (.plain .block 1 6) [nestedBranches]]]])

theorem parse_print_nestedFile :
    IsFile nestedFile ∧ (parse (print nestedFile)).map unplaced = .ok (unplaced nestedFile) := by
  have hparams : ∀ t ∈ [Tree.leaf (Node.word .formalParameter "p" 1 1),
      .leaf (.word .formalParameter "q" 1 1)], IsParameter t :=
    List.forall_mem_cons.2 ⟨.mk (by decide), List.forall_mem_singleton.2 (.mk (by decide))⟩
  have hi : IsImport (.leaf (.word .importDeclaration "a.if" 1 1)) :=
    .mk ⟨['a'], [['i', 'f']], rfl, by decide, by decide⟩
  have hf : IsFile nestedFile := by
    refine .mk (List.forall_mem_singleton.2 hi) (List.forall_mem_singleton.2 (.mk (by decide) ?_))
    refine List.forall_mem_cons.2 ⟨.field (by decide), List.forall_mem_singleton.2 ?_⟩
    exact .method (by decide) hparams (List.forall_mem_singleton.2 nestedBranches_isStatement)
  exact ⟨hf, parse_print nestedFile hf⟩

end TreeMetrics.Twig
