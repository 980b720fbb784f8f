import TreeMetrics.Proofs.Twig.Belonging
import TreeMetrics.Proofs.Twig.Ends
import TreeMetrics.Proofs.Twig.Locality
import TreeMetrics.Proofs.Twig.Nesting

namespace TreeMetrics.Twig

open Document TreeMetrics.Twig.Rule

variable {c d m : Cursor} {p : ParseTree Rule} {ts : List (ParseTree Rule)} {n : Node}
variable {a : Tree Node} {as : List (Tree Node)} {bs cs source : List Char}

/-- The line breaks of a text: line feeds, each with or without a carriage return before it. -/
def lineEnds : List Char → Nat
  | [] => 0
  | '\r' :: '\n' :: cs => lineEnds cs + 1
  | z :: cs => if z = '\n' then lineEnds cs + 1 else lineEnds cs

theorem lineEnds_eq_count (cs : List Char) : lineEnds cs = cs.count '\n' := by
  fun_induction lineEnds cs with
  | case1 => rfl
  | case2 cs ih => rw [ih, List.count_cons_of_ne (by decide), List.count_cons_self]
  | case3 cs _ ih => rw [ih, List.count_cons_self]
  | case4 z cs _ hz ih => rw [ih, List.count_cons_of_ne hz]

theorem lineEnds_append (cs ds : List Char) : lineEnds (cs ++ ds) = lineEnds cs + lineEnds ds := by
  simp only [lineEnds_eq_count, List.count_append]

theorem line_after_start (cs : List Char) :
    (Position.start.after cs).line = 1 + lineEnds cs := by
  rw [Position.after_line, lineEnds_eq_count]
  rfl

/-- The node has the lines of the match, whose text stands in the source where the match says,
begins with one of the words `opens` and ends with `close`. It has a line more than the text has
line breaks. -/
structure Covers (source : List Char) (opens : List String) (close : Char) (p : ParseTree Rule)
    (n : Node) : Prop where
  place : ∃ before behind, source = before ++ p.text.toList ++ behind ∧
    p.start = Position.start.after before ∧ n.beginLine = 1 + lineEnds before ∧
    n.endLine = 1 + lineEnds (before ++ p.text.toList)
  opens : ∃ w ∈ opens, w.toList <+: p.text.toList
  closes : [close] <:+ p.text.toList
  lines : lineCount n = 1 + lineEnds p.text.toList

/-- A class covers a text from its keyword to its closing brace. -/
def CoversClass (source : List Char) (p : ParseTree Rule) (c : Tree Node) : Prop :=
  Covers source ["class"] '\x7d' p c.label

/-- A method covers a text from its first modifier or its keyword to the end of its body, or to the
semicolon that stands for one. -/
def CoversMethod (source : List Char) (p : ParseTree Rule) (m : Tree Node) : Prop :=
  Covers source ["public", "abstract", "method"] (if (body? m).isSome then '\x7d' else ';') p
    m.label

def partsOf (r : Rule) (p : ParseTree Rule) : List (ParseTree Rule) :=
  p.children.filter fun q => q.rule = r

theorem covers_of_spans {opens : List String} {close : Char}
    (hm : (Cursor.ofText source).Spans m bs) (hs : m.Spans d cs)
    (hp : p = .node p.rule m.position d.position (m.upTo d) p.children)
    (hb : n.beginLine = p.start.line) (he : n.endLine = p.stop.line)
    (hopens : ∃ w ∈ opens, w.toList <+: cs) (hcloses : [close] <:+ cs) :
    Covers source opens close p n := by
  have htext : p.text.toList = cs := by
    rw [hp, ParseTree.text, hs.upTo_eq, String.toList_ofList]
  have hstart : p.start = Position.start.after bs := by
    rw [hp]
    exact hm.position
  have hstop : p.stop = Position.start.after (bs ++ cs) := by
    rw [hp]
    exact (hm.trans hs).position
  have hsource : source = bs ++ cs ++ d.rest := (hm.trans hs).rest
  rw [hstart, line_after_start] at hb
  rw [hstop, line_after_start] at he
  rw [← htext] at hopens hcloses hsource he
  refine ⟨⟨bs, d.rest, hsource, hstart, hb, he⟩, hopens, hcloses, ?_⟩
  rw [lineEnds_append] at he
  have hcount := lineCount_of_le (n := n) (by omega)
  omega

theorem Located.exists_spans {s : Cursor} (hr : visibility p.rule ≠ .silent) (h : Located s p) :
    ∃ m d bs cs, s.Spans m bs ∧ m.Spans d cs ∧ Settled m ∧
      Derives grammar false (.call p.rule) m (some ([p], d)) ∧
      p = .node p.rule m.position d.position (m.upTo d) p.children := by
  obtain ⟨m, d, ⟨bs, hm⟩, hset, hd⟩ := h
  obtain ⟨cs, hs⟩ := hd.spans
  obtain ⟨us, -, hp⟩ := hd.inv_call hr
  refine ⟨m, d, bs, cs, hm, hs, hset, hd, ?_⟩
  cases p
  cases hp
  rfl

theorem covers_class (h : Located (.ofText source) p) (hr : p.rule = classDecl)
    (ha : Build.classDecl p = .ok a) : CoversClass source p a := by
  obtain ⟨m, d, bs, cs, hm, hs, -, hd, hp⟩ := h.exists_spans (by rw [hr]; decide)
  rw [hr] at hd
  obtain ⟨name, members, as, -, -, rfl⟩ := Build.inv_classDecl ha
  obtain ⟨hopens, hcloses⟩ := classDecl_ends hd hs
  exact covers_of_spans hm hs hp rfl rfl ⟨"class", List.mem_singleton_self _, hopens⟩ hcloses

theorem kind_of_statement {b : ParseTree Rule} (hb : b.rule = block)
    (h : Build.statement b = .ok a) : a.label.kind = .block := by
  obtain ⟨r, p, q, s, ts⟩ := b
  cases hb
  unfold Build.statement at h
  obtain ⟨as, -, h⟩ := bind_eq_ok_iff.1 h
  cases h
  rfl

/-- A method has a body if its match has a fourth part. -/
theorem isSome_body {t u v : ParseTree Rule} {vs : List (ParseTree Rule)}
    (hp : p.children = t :: u :: v :: vs) (hvs : ∀ b ∈ vs, b.rule = block)
    (ha : Build.method p = .ok a) : (body? a).isSome = !vs.isEmpty := by
  obtain ⟨mods, name, params, rest, body, hc, rfl, hbody⟩ := Build.inv_method ha
  rw [hp] at hc
  cases hc
  rcases hbody with ⟨rfl, rfl⟩ | ⟨b, bs, c, rfl, hc, rfl⟩
  · rfl
  · have hkind : isOf .block c = true :=
      beq_iff_eq.2 (kind_of_statement (hvs b List.mem_cons_self) hc)
    have hbody : List.find? (isOf .block) [c] = some c := List.find?_cons_of_pos hkind
    exact congrArg Option.isSome hbody

theorem covers_method (h : Located (.ofText source) p) (hr : p.rule = methodDecl)
    (ha : Build.method p = .ok a) : CoversMethod source p a := by
  obtain ⟨m, d, bs, cs, hm, hs, hset, hd, hp⟩ := h.exists_spans (by rw [hr]; decide)
  rw [hr] at hd
  have hopens := methodDecl_begins hset hd hs
  have hcloses : [if (body? a).isSome then '\x7d' else ';'] <:+ cs := by
    obtain ⟨t, u, v, vs, hparts, ⟨rfl, hcloses⟩ | ⟨b, rfl, hb, hcloses⟩⟩ := methodDecl_ends hd hs
    · rw [isSome_body hparts (List.forall_mem_nil _) ha]
      exact hcloses
    · rw [isSome_body hparts (List.forall_mem_singleton.2 hb) ha]
      exact hcloses
  obtain ⟨mods, name, params, rest, body, -, rfl, -⟩ := Build.inv_method ha
  exact covers_of_spans hm hs hp rfl rfl hopens hcloses

/-- The trees of a kind are in turn what a function makes of the matches of a rule. -/
def Paired (f : ParseTree Rule → Build.Result) (r : Rule) (k : Kind) (ts : List (ParseTree Rule))
    (as : List (Tree Node)) : Prop :=
  List.Forall₂ (fun p a => f p = .ok a) (ts.filter fun p => p.rule = r) (as.filter (isOf k))

namespace Paired

variable {f : ParseTree Rule → Build.Result} {r : Rule} {k : Kind}

theorem keep (h : Paired f r k ts as) (hp : p.rule = r) (hk : isOf k a = true)
    (ha : f p = .ok a) : Paired f r k (p :: ts) (a :: as) := by
  rw [Paired, List.filter_cons_of_pos, List.filter_cons_of_pos hk]
  · exact .cons ha h
  · exact decide_eq_true hp

theorem skip (h : Paired f r k ts as) (hp : p.rule ≠ r) : Paired f r k (p :: ts) as := by
  rw [Paired, List.filter_cons_of_neg]
  · exact h
  · exact mt of_decide_eq_true hp

theorem skip_tree (h : Paired f r k ts as) (hk : isOf k a = false) :
    Paired f r k ts (a :: as) := by
  rw [Paired, List.filter_cons_of_neg (Bool.eq_false_iff.1 hk)]
  exact h

/-- What is shown of every match of a rule and its tree holds of the pairs. -/
theorem imp {R : ParseTree Rule → Tree Node → Prop} (h : Paired f r k ts as)
    (hR : ∀ p ∈ ts, p.rule = r → ∀ a, f p = .ok a → R p a) :
    List.Forall₂ R (ts.filter fun p => p.rule = r) (as.filter (isOf k)) := by
  have hparts : ∀ p ∈ ts.filter (fun p => p.rule = r), ∀ a, f p = .ok a → R p a := by
    intro p hp
    obtain ⟨hp, hr⟩ := List.mem_filter.1 hp
    exact hR p hp (of_decide_eq_true hr)
  apply ((List.forall₂_and_left _ _).2 ⟨hparts, h⟩).imp
  intro p a ⟨hp, ha⟩
  exact hp a ha

end Paired

theorem paired_classes (h : Build.declarations ts = .ok as) :
    Paired Build.classDecl classDecl .classDeclaration ts as := by
  induction ts generalizing as with
  | nil =>
    cases h
    exact .nil
  | cons t ts ih =>
    rcases Build.inv_declarations h with ⟨hr, h⟩ | ⟨a, bs, hbs, rfl, ⟨hr, ha⟩ | ⟨hr, ha⟩⟩
    · exact (ih h).skip (by rw [hr]; decide)
    · obtain ⟨image, rfl⟩ := Build.inv_importDecl ha
      exact ((ih hbs).skip_tree rfl).skip (by rw [hr]; decide)
    · apply (ih hbs).keep hr _ ha
      obtain ⟨name, members, as, -, -, rfl⟩ := Build.inv_classDecl ha
      rfl

theorem paired_methods (h : ts.mapM Build.member = .ok as) :
    Paired Build.method methodDecl .methodDeclaration ts as := by
  induction ts generalizing as with
  | nil =>
    cases h
    exact .nil
  | cons t ts ih =>
    obtain ⟨a, bs, ha, hbs, rfl⟩ := Build.inv_members h
    rcases Build.inv_member ha with ⟨hr, image, mods, rfl⟩ | ⟨hr, ha⟩
    · exact ((ih hbs).skip_tree rfl).skip (by rw [hr]; decide)
    · apply (ih hbs).keep hr _ ha
      obtain ⟨mods, name, params, rest, body, -, rfl, -⟩ := Build.inv_method ha
      rfl

theorem covers_methods (h : Located (.ofText source) p) (hr : p.rule = classDecl)
    (ha : Build.classDecl p = .ok a) :
    List.Forall₂ (CoversMethod source) (partsOf methodDecl p) (methodsIn a) := by
  obtain ⟨m, d, hm, hset, hd⟩ := h
  rw [hr] at hd
  have hfits : Fits classDecl p := ⟨hr, m, d, hd⟩
  obtain ⟨us, hb, hp⟩ := hd.inv_call (by decide)
  cases hp
  obtain ⟨name, members, as, hc, has, rfl⟩ := Build.inv_classDecl ha
  obtain ⟨t, ts, ht, hname, -⟩ := hfits.inv_classDecl
  have hparts : Paired Build.method methodDecl .methodDeclaration us as := by
    cases hc
    cases ht
    exact (paired_methods has).skip (by rw [hname.1]; decide)
  apply hparts.imp
  intro q hq hr b hb'
  exact covers_method ((standing_classDecl m us d hset hb q hq).behind hm) hr hb'

/-- The classes of a file and their methods cover pieces of the source. -/
theorem covers_classes {file : ParseTree Rule}
    (h : Derives grammar false (.call Rule.file) (.ofText source) (some ([file], d)))
    (ha : Build.file file = .ok a) :
    List.Forall₂ (fun p c => CoversClass source p c ∧
        List.Forall₂ (CoversMethod source) (partsOf methodDecl p) (methodsIn c))
      (partsOf classDecl file) (classesIn a) := by
  obtain ⟨us, hb, hp⟩ := h.inv_call (by decide)
  cases hp
  obtain ⟨vs, m, ws, hg, hparts, rfl⟩ := hb.inv_seq
  obtain ⟨as, has, ha⟩ := bind_eq_ok_iff.1 ha
  cases ha
  cases trees_of_gap hg
  apply (paired_classes has).imp
  intro p hp hr c hc
  have hlocated := (standing_file m ws d (settled_of_gap hg) hparts p hp).behind hg.spans
  exact ⟨covers_class hlocated hr hc, covers_methods hlocated hr hc⟩

section Nodes

variable {doc : Document Node} {k index : Nat} {parent : Option NodeId} {u : Tree Node}
variable (hdoc : IsFile doc.tree) (h : doc.Stands k u parent index)

include hdoc h

theorem mem_classesIn (hu : isOf .classDeclaration u = true) : u ∈ classesIn doc.tree := by
  have hlayers := hdoc.onLayer
  have hlayer : u.label.kind.layer = 1 := by
    rw [eq_of_beq hu]
    rfl
  rcases hlayers.exists_above h (by omega) with ⟨-, h0⟩ | ⟨p, v, grand, i, hv, huv, h1⟩
  · omega
  rcases hlayers.exists_above hv (by omega) with ⟨rfl, -⟩ | ⟨_, w, _, _, _, _, h2⟩
  · exact List.mem_filter.2 ⟨huv, hu⟩
  · omega

theorem exists_mem_methodsIn (hu : isOf .methodDeclaration u = true) :
    ∃ c ∈ classesIn doc.tree, u ∈ methodsIn c := by
  have hlayer : u.label.kind.layer = 2 := by
    rw [eq_of_beq hu]
    rfl
  rcases hdoc.onLayer.exists_above h (by omega) with ⟨-, h0⟩ | ⟨p, v, grand, i, hv, huv, h1⟩
  · omega
  have hclass : isOf .classDeclaration v = true := by
    rcases hdoc.declaration_of_stands hv (by omega) with himport | hclass
    · cases himport
      cases huv
    · cases hclass
      rfl
  exact ⟨v, mem_classesIn hdoc hv hclass, List.mem_filter.2 ⟨huv, hu⟩⟩

end Nodes

theorem mem_subtrees_of_child {t c u : Tree Node} (hc : c ∈ t.children) (hu : u ∈ c.subtrees) :
    u ∈ t.subtrees := by
  cases t
  rw [Tree.subtrees, Tree.subtreesAll_eq_flatMap]
  exact List.mem_cons_of_mem _ (List.mem_flatMap_of_mem hc hu)

theorem lineCount_le_of_method {source : String} {t c m : Tree Node} (hp : parse source = .ok t)
    (hc : c ∈ classesIn t) (hm : m ∈ methodsIn c) : lineCount m.label ≤ lineCount c.label := by
  have hct := (List.mem_filter.1 hc).1
  have hmc := (List.mem_filter.1 hm).1
  have hclass := linesNest_of_parse hp (mem_subtrees_of_child hct (mem_subtrees_self c))
  have hmethod := linesNest_of_parse hp
    (mem_subtrees_of_child hct (mem_subtrees_of_child hmc (mem_subtrees_self m)))
  obtain ⟨hb, he⟩ := hclass.within m hmc
  have hcount := hclass.count
  have hcount' := hmethod.count
  omega

/-- Every node begins on a line and ends on the same or a later one, around its children, which
follow one another. The classes of a file, and the methods of each, are those that are matched in
the source, in turn, and have the lines of their own text. No method has more lines than its class,
and the value of the metric at a declaration is its number of lines. -/
theorem declaration_lines (source : String) (t : Tree Node) (hp : parse source = .ok t) :
    (∀ u ∈ t.subtrees, LinesNest u) ∧
    (∃ file, parseRule .file source = .ok [file] ∧
      List.Forall₂ (fun p c => CoversClass source.toList p c ∧
          List.Forall₂ (CoversMethod source.toList) (partsOf methodDecl p) (methodsIn c))
        (partsOf classDecl file) (classesIn t)) ∧
    (∀ c ∈ classesIn t, ∀ m ∈ methodsIn c, lineCount m.label ≤ lineCount c.label) ∧
    ∀ n u, (ofTree t).tree? n = some u →
      ∀ (h : History (ofTree t)) (again : Bool) (o : OptionSet),
        (isOf .classDeclaration u = true → u ∈ classesIn t ∧
          h.value again .classLoc n o = .ok (Number.ofCount (lineCount u.label))) ∧
        (isOf .methodDeclaration u = true → (∃ c ∈ classesIn t, u ∈ methodsIn c) ∧
          h.value again .methodLoc n o = .ok (Number.ofCount (lineCount u.label))) := by
  obtain ⟨file, d, hd, hb⟩ := parse_ok_iff.1 hp
  refine ⟨fun u hu => linesNest_of_parse hp hu, ⟨file, ?_, covers_classes hd hb⟩,
    fun c hc m hm => lineCount_le_of_method hp hc hm, ?_⟩
  · exact parseRule_of_parse (parse_eq_ok_iff.2 hd)
  · intro n u hu h again o
    obtain ⟨pt, hfits, hpt⟩ := exists_fits_of_parse hp
    have hdoc : IsFile (ofTree t).tree := isFile_of_builds hfits hpt
    obtain ⟨parent, index, hs⟩ := exists_stands_of_tree? hu
    constructor
    · intro hclass
      refine ⟨mem_classesIn hdoc hs hclass, ?_⟩
      rw [h.value_eq (Conditioned.file hdoc) hs]
      exact congrArg Except.ok (if_pos hclass)
    · intro hmethod
      refine ⟨exists_mem_methodsIn hdoc hs hmethod, ?_⟩
      rw [h.value_eq (Conditioned.file hdoc) hs]
      exact congrArg Except.ok (if_pos hmethod)

/-- A class with a method of two lines without a body and one of three lines with a body. -/
def brokenLines : String :=
  "\nclass A \x7b // a\n abstract method m(\r\n);\n method n()\n\x7b x = 1\n; \x7d\n\n\x7d\n"

theorem declaration_lines_broken :
    ∃ t file, parse brokenLines = .ok t ∧ (∀ u ∈ t.subtrees, LinesNest u) ∧
      parseRule .file brokenLines = .ok [file] ∧
      ((partsOf classDecl file).flatMap (partsOf methodDecl)).map ParseTree.text =
        ["abstract method m(\r\n);", "method n()\n\x7b x = 1\n; \x7d"] ∧
      ((classesIn t).flatMap methodsIn).map (fun m => lineCount m.label) = [2, 3] ∧
      ∀ (h : History (ofTree t)) (again : Bool) (o : OptionSet),
        h.value again .classLoc 1 o = .ok (Number.ofCount 8) := by
  have hrun : (parse brokenLines).toOption.any (fun t =>
      ((classesIn t).flatMap methodsIn).map (fun m => lineCount m.label) == [2, 3] &&
      ((ofTree t).tree? 1).any fun u =>
        isOf .classDeclaration u && lineCount u.label == 8) = true := by
    decide +kernel
  have htexts : (parseRule .file brokenLines).toOption.map (fun files =>
      (files.flatMap fun file =>
        (partsOf classDecl file).flatMap (partsOf methodDecl)).map ParseTree.text) =
      some ["abstract method m(\r\n);", "method n()\n\x7b x = 1\n; \x7d"] := by
    decide +kernel
  obtain ⟨t, hp⟩ := exists_ok_of_isSome (Option.isSome_of_any hrun)
  rw [hp, Except.toOption, Option.any_some, Bool.and_eq_true] at hrun
  obtain ⟨hmethods, hnode⟩ := hrun
  obtain ⟨u, hu, hnode⟩ := (Option.any_eq_true _ _).1 hnode
  obtain ⟨hclass, hlines⟩ := Bool.and_eq_true _ _ ▸ hnode
  obtain ⟨hnest, ⟨file, hfile, -⟩, -, hvalues⟩ := declaration_lines brokenLines t hp
  rw [hfile] at htexts
  refine ⟨t, file, hp, hnest, hfile, ?_, eq_of_beq hmethods, ?_⟩
  · rw [Except.toOption, Option.map_some, List.flatMap_singleton] at htexts
    exact Option.some.inj htexts
  · intro h again o
    rw [((hvalues 1 u hu h again o).1 hclass).2, eq_of_beq hlines]

end TreeMetrics.Twig
