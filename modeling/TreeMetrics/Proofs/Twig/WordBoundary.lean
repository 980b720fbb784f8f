import TreeMetrics.Proofs.Twig.BareCall
import TreeMetrics.Proofs.Twig.Precedence

namespace TreeMetrics.Twig

open TreeMetrics.Expr TreeMetrics.Twig.Rule

variable {c c' d d' e f k k' m : Cursor} {t v : ParseTree Rule} {ts us : List (ParseTree Rule)}
variable {u : List Char} {b x w : String} {rest : List String} {a : Tree Node}

/-- Behind the statements, a keyword at the beginning of the word is taken for itself. -/
def Swallowed (ts : List (ParseTree Rule)) (x : String) : Prop :=
  Splits "return" x ∨ Splits "else" x ∧ ∃ t ∈ ts.getLast?, Dangles t

def callOf (x : String) : Tree Node := callStatement (.leaf (.word .name x 0 0))

theorem Dangles.rule_ne (h : Dangles t) : t.rule ≠ exprStmt := by
  cases h with
  | branch | otherwise _ | loop _ => exact fun hr => by cases hr

section Series

theorem opens_of_name (hx : IsIdentifier x) (hc : d.rest = x.toList ++ u) :
    ∀ z ∈ d.rest.head?, opensToken z = true := by
  rw [hc]
  intro z hz
  exact opensToken_of_isWordChar (isWordChar_of_isWordStart (hx.1.head_append z hz))

/-- The last statement takes the call behind it for an `else`. -/
theorem series_swallows (h : Series k ts e) (he : e.rest ≠ []) (hs : k.Spans e u)
    (hs' : k'.Spans d u) (hx : Splits "else" x) (ht : t ∈ ts.getLast?) (hdangles : Dangles t)
    (hd : d.rest = x.toList ++ callEnd ("\x7d" :: rest)) :
    ∃ us v f, Series k' (us ++ [v]) f ∧ f.rest = layout ("\x7d" :: rest) ∧ v.rule ≠ exprStmt := by
  have ho := opens_of_name (hx.isIdentifier (by decide)) hd
  have hstarts : Starts ("\x7d" :: rest) := Starts.cons (by decide)
  obtain ⟨_, m, helse, hnear, -⟩ := elseClause_takes hx hstarts hd
  obtain ⟨f, hgap, hf⟩ := hnear.gap hstarts
  have hn : Derives grammar false (.call elseClause) f none :=
    refuses_elseClause (avoids_cons (by decide)) f hf
  obtain ⟨ts', hseries, hrules⟩ := series_travels h he hs hs' ho
    (fun hshut => absurd hdangles (hshut t ht))
    (fun t' _ hdangles' => .dangling hdangles' ho (.alt_left helse) hgap hn)
  -- The last statement is the same `if` or `while`, and it has an `else` now.
  have hlast : (ts'.map ParseTree.rule).getLast? = some t.rule := by
    rw [hrules, List.getLast?_map, ht]
    rfl
  rw [List.getLast?_map, Option.map_eq_some_iff] at hlast
  obtain ⟨v, hv, hrule⟩ := hlast
  obtain ⟨us, rfl⟩ := List.getLast?_eq_some_iff.1 hv
  exact ⟨us, v, f, hseries, hf, hrule ▸ hdangles.rule_ne⟩

/-- The statements end in front of the call. -/
theorem series_stops (h : Series k ts e) (he : e.rest ≠ []) (hs : k.Spans e u)
    (hs' : k'.Spans d u) (hx : IsIdentifier x)
    (hn : Splits "else" x → ∀ t ∈ ts.getLast?, ¬Dangles t)
    (hd : d.rest = x.toList ++ callEnd rest) : ∃ us, Series k' us d := by
  have ho := opens_of_name hx hd
  have hopen : ∀ t ∈ ts.getLast?, Dangles t → Resumes t d d := by
    intro t ht hdangles
    have helse : Derives grammar false (.call elseClause) d none :=
      elseClause_none hx.1.isWordChar (fun hsplits => hn hsplits t ht hdangles) hd
    exact .dangling hdangles ho (.alt_right helse .empty) (settled_of_opens ho).gap helse
  obtain ⟨us, hseries, -⟩ := series_travels h he hs hs' ho (fun _ => rfl) hopen
  exact ⟨us, hseries⟩

/-- A call behind statements is one more of them, unless it is swallowed. -/
theorem series_extends (h : Series k ts e) (he : e.rest ≠ []) (hs : k.Spans e u)
    (hs' : k'.Spans d u) (hx : IsIdentifier x)
    (hd : d.rest = x.toList ++ callEnd ("\x7d" :: rest)) :
    ∃ us v f, Series k' (us ++ [v]) f ∧ f.rest = layout ("\x7d" :: rest) ∧
      (Swallowed ts x → v.rule ≠ exprStmt) ∧ (¬Swallowed ts x → StatementOf (callOf x) [v]) := by
  have hstarts : Starts ("\x7d" :: rest) := Starts.cons (by decide)
  by_cases hswallows : Splits "else" x ∧ ∃ t ∈ ts.getLast?, Dangles t
  · obtain ⟨hsplits, t, ht, hdangles⟩ := hswallows
    obtain ⟨us, v, f, hseries, hf, hv⟩ := series_swallows h he hs hs' hsplits ht hdangles hd
    exact ⟨us, v, f, hseries, hf, fun _ => hv,
      fun hn => absurd (.inr ⟨hsplits, t, ht, hdangles⟩) hn⟩
  · obtain ⟨us, hseries⟩ := series_stops h he hs hs' hx
      (fun hsplits t ht hdangles => hswallows ⟨hsplits, t, ht, hdangles⟩) hd
    by_cases hreturn : Splits "return" x
    · obtain ⟨_, m, hm, hnear, v, rfl, hv⟩ := statement_takes_return hreturn hstarts hd
      obtain ⟨f, hgap, hf⟩ := hnear.gap hstarts
      refine ⟨us, v, f, hseries.append (.cons hm hgap (.nil (settled_of_gap hgap))), hf, ?_, ?_⟩
      · intro _
        rw [hv]
        decide
      · exact fun hn => absurd (.inl hreturn) hn
    · obtain ⟨_, m, hm, hnear, hof⟩ :=
        statement_takes_call (.inl hx) hreturn (operand_name hx) hstarts hd
      obtain ⟨f, hgap, hf⟩ := hnear.gap hstarts
      obtain ⟨v, rfl, -⟩ := inv_statement hm
      refine ⟨us, v, f, hseries.append (.cons hm hgap (.nil (settled_of_gap hgap))), hf, ?_, ?_⟩
      · exact fun hs => absurd hs (not_or.2 ⟨hreturn, hswallows⟩)
      · exact fun _ => hof

end Series

section Building

variable {p : Position} {y : Expr Rule} {P : List (ParseTree Rule) → Prop}

theorem statementKind?_of_statement (h : Build.statement v = .ok a) :
    Build.statementKind? v.rule = some a.label.kind := by
  obtain ⟨r, p, q, s, ts⟩ := v
  cases hk : Build.statementKind? r with
  | none =>
    rw [Build.statement, hk] at h
    cases h
  | some k =>
    cases hb : Build.statements ts with
    | error x =>
      rw [Build.statement, hk, hb] at h
      cases h
    | ok as =>
      cases h.symm.trans (statement_node hk hb)
      exact hk

theorem rule_of_statementKind? {r : Rule}
    (h : Build.statementKind? r = some .expressionStatement) : r = exprStmt := by
  cases r <;> first | rfl | cases h

theorem exists_partsOf (hf : ∀ t ∈ ts, FitsOneOf statementRules t) (hv : StatementOf a [v]) :
    ∃ as, PartsOf (as ++ [a]) (ts ++ [v]) := by
  induction ts with
  | nil => exact ⟨[], partsOf_of_statementOf hv⟩
  | cons t ts ih =>
    obtain ⟨ht, hts⟩ := List.forall_mem_cons.1 hf
    obtain ⟨as, has⟩ := ih hts
    obtain ⟨x, hx, -⟩ := (stately t).statement ht
    have hparts : PartsOf (x :: (as ++ [a])) ([t] ++ (ts ++ [v])) :=
      has.append ⟨t, rfl, rule_ne_expr ht, x, hx, rfl⟩
    exact ⟨x :: as, hparts⟩

theorem exists_statementOf (hf : FitsOneOf statementRules v)
    (hyes : Swallowed ts x → v.rule ≠ exprStmt)
    (hno : ¬Swallowed ts x → StatementOf (callOf x) [v]) :
    ∃ s, StatementOf s [v] ∧ (unplaced s = callOf x ↔ ¬Swallowed ts x) := by
  by_cases h : Swallowed ts x
  · obtain ⟨a, ha, -⟩ := (stately v).statement hf
    refine ⟨a, ⟨v, rfl, rule_ne_expr hf, a, ha, rfl⟩, ?_, fun hn => absurd h hn⟩
    intro heq
    have hrule := statementKind?_of_statement ha
    obtain ⟨n, as⟩ := a
    have hkind : n.kind = .expressionStatement := congrArg (fun a => a.label.kind) heq
    rw [Tree.label, hkind] at hrule
    exact absurd (rule_of_statementKind? hrule) (hyes h)
  · exact ⟨callOf x, hno h, fun _ => h, fun _ => rfl⟩

/-- What is read at one place is read at every place in front of the same tokens. -/
theorem Takes.reads (h : Takes y ⟨p, layout (w :: rest)⟩ rest P) (hP : Placeless y P)
    (hw : Starts [w]) : Reads y [w] rest P := by
  refine fun _ => ⟨hw, ?_⟩
  intro c hc
  obtain ⟨ts, d, hd, hnear, hts⟩ := h
  obtain ⟨_, hd', hm⟩ := rest_paces.inStep hd hc.symm
  cases hm with
  | takes hts' hrest _ =>
    refine ⟨_, _, hd', ?_, hP _ _ _ _ hd hts' hts⟩
    rwa [Near, ← hrest]

/-- A block is read with one more call at its end, whatever becomes of that call. -/
theorem block_extends (h : Derives grammar false (.call block) c (some ([t], d)))
    (hd : d.rest = []) (hc : c.rest = '\x7b' :: (u ++ ['\x7d'])) (hx : IsIdentifier x)
    (hc' : c'.rest = '\x7b' :: (u ++ (x.toList ++ callEnd ("\x7d" :: rest)))) :
    ∃ body s, Takes (.call block) c' rest (StatementOf (.node (.plain .block 0 0) (body ++ [s]))) ∧
      (unplaced s = callOf x ↔ ¬Swallowed t.children x) := by
  obtain ⟨_, _, _, us, m, k, e, hopen, hgap, hseries, hclose, ht⟩ := inv_block h
  cases ht
  obtain ⟨g, hg, -, hblanks⟩ := inv_gap hgap
  obtain ⟨v, hv⟩ := hseries.spans
  have he : e.rest ≠ [] := rest_ne_nil_of_cons hclose
  have htext : u = g ++ v := by
    have hrest := hc.symm.trans hopen.rest
    rw [hg.rest, hv.rest, hclose.rest, hd] at hrest
    have hcancel : u ++ ['\x7d'] = g ++ (v ++ ['\x7d']) := (List.cons.inj hrest).2
    rw [← List.append_assoc] at hcancel
    exact List.append_cancel_right hcancel
  -- The same text, with the call behind it.
  have hall : c'.Spans ⟨c'.position.after ("\x7b".toList ++ (g ++ v)),
      x.toList ++ callEnd ("\x7d" :: rest)⟩ ("\x7b".toList ++ (g ++ v)) := by
    refine ⟨?_, rfl⟩
    rw [hc', htext]
    rfl
  obtain ⟨m', hopen', hinner⟩ := hall.split
  obtain ⟨k', hg', hv'⟩ := hinner.split
  have hgap' := gap_of_spans (q := false) (hblanks (hv.rest_ne_nil he)) hg'
    (hseries.opens (settled_of_gap hgap) hv hv' (opens_of_name hx rfl))
  obtain ⟨us', w, f, hseries', hf, hyes, hno⟩ := series_extends hseries he hv hv' hx rfl
  have hclose' : f.Spans ⟨f.position.after "\x7d".toList, trail rest⟩ "\x7d".toList := ⟨hf, rfl⟩
  obtain ⟨p, q, s, hblock⟩ := block_of_series hopen' hgap' hseries' hclose'
  obtain ⟨hfits, hlast⟩ := List.forall_mem_append.1 hseries'.fits
  obtain ⟨a, ha, hiff⟩ := exists_statementOf (hlast w (List.mem_singleton_self w)) hyes hno
  obtain ⟨body, bs, hbs, hubs⟩ := exists_partsOf hfits ha
  refine ⟨body, a, ⟨_, _, hblock, .inr rfl, ?_⟩, hiff⟩
  exact ⟨_, rfl, (by decide : block ≠ expr), _, statement_node rfl hbs, unplaced_node rfl hubs⟩

end Building

theorem isIdentifier_of_parse (h : grammar.parse identifier x.toList = .ok (us, e))
    (he : e.rest = []) : IsIdentifier x := by
  have hd := parse_eq_ok_iff.1 h
  obtain ⟨w, hw, rfl⟩ := inv_identifier hd
  obtain ⟨cs, hs⟩ := hd.spans
  obtain ⟨_, -, ht⟩ := hd.inv_call (by decide)
  have hx : x.toList = cs := by
    have hrest := hs.rest
    rw [he, List.append_nil] at hrest
    exact hrest
  cases ht
  rwa [hs.upTo_eq, ← hx, String.ofList_toList] at hw

theorem unplacedAll_append (as bs : List (Tree Node)) :
    unplacedAll (as ++ bs) = unplacedAll as ++ unplacedAll bs := by
  induction as with
  | nil => rfl
  | cons a as ih => rw [List.cons_append, unplacedAll, ih, unplacedAll, List.cons_append]

theorem unplaced_soleMethod (as : List (Tree Node)) :
    unplaced (soleMethod as) = soleMethod (unplacedAll as) := rfl

/-- A block of the statements and then a call of the word. -/
def blockWithCall (b x : String) : String := "\x7b " ++ b ++ " " ++ x ++ "(); \x7d"

def sourceWithCall (b x : String) : String :=
  "class C \x7b method m() \x7b " ++ b ++ " " ++ x ++ "(); \x7d \x7d"

theorem toList_blockWithCall (b x : String) : (blockWithCall b x).toList =
    '\x7b' :: (' ' :: (b.toList ++ [' ']) ++ (x.toList ++ "(); \x7d".toList)) := by
  unfold blockWithCall
  rw [String.toList_append, String.toList_append, String.toList_append, String.toList_append]
  simp

theorem starts_blockWithCall (b x : String) : Starts [blockWithCall b x] := by
  rw [Starts, toList_blockWithCall]
  rfl

/-- What is read in the block is read in the source. -/
theorem parse_sourceWithCall {as : List (Tree Node)}
    (h : Reads (.call block) [blockWithCall b x] ["\x7d"]
      (StatementOf (.node (.plain .block 0 0) as))) :
    ∃ a, parse (sourceWithCall b x) = .ok a ∧ unplaced a = soleMethod (unplacedAll as) := by
  obtain ⟨a', ha', hua'⟩ := parse_of_reads (soleMethod_reads h)
  have hspaced : (" ".intercalate ("class" :: "C" :: "\x7b" :: ("method" :: "m" :: "(" :: ")" ::
      [blockWithCall b x] ++ ["\x7d"]))).toList = "class C \x7b method m".toList ++
        ' ' :: '(' :: ' ' :: ')' :: (' ' :: ((blockWithCall b x).toList ++ " \x7d".toList)) := by
    rw [toList_intercalate]
    rfl
  have htight : (sourceWithCall b x).toList = "class C \x7b method m".toList ++
      '(' :: ')' :: (' ' :: ((blockWithCall b x).toList ++ " \x7d".toList)) := by
    unfold sourceWithCall
    rw [toList_blockWithCall, String.toList_append, String.toList_append, String.toList_append,
      String.toList_append]
    simp
  obtain ⟨a, ha, hua⟩ := parse_without_inner_blanks (by decide) hspaced htight ha'
  exact ⟨a, ha, by rw [← hua, hua', unplaced_soleMethod]⟩

/-- Behind the statements of a method, a call of a word is the last statement of the method exactly
if no keyword at the beginning of the word is taken for itself; and the source is read in any case.
-/
theorem last_statement_eq_callOf_iff {t : ParseTree Rule}
    (hb : grammar.parse block ("\x7b " ++ b ++ " \x7d").toList = .ok ([t], d)) (hd : d.rest = [])
    (hx : grammar.parse identifier x.toList = .ok (us, e)) (he : e.rest = []) :
    ∃ a body s, parse (sourceWithCall b x) = .ok a ∧ unplaced a = soleMethod (body ++ [s]) ∧
      (s = callOf x ↔ ¬Swallowed t.children x) := by
  have htext : ("\x7b " ++ b ++ " \x7d").toList =
      '\x7b' :: (' ' :: (b.toList ++ [' ']) ++ ['\x7d']) := by
    rw [String.toList_append, String.toList_append]
    simp
  have hrest : (Cursor.ofText (layout [blockWithCall b x, "\x7d"])).rest =
      '\x7b' :: (' ' :: (b.toList ++ [' ']) ++ (x.toList ++ callEnd ["\x7d", "\x7d"])) := by
    rw [Cursor.ofText, layout, toList_blockWithCall, List.cons_append, List.append_assoc,
      List.append_assoc]
    rfl
  obtain ⟨body, s, htakes, hiff⟩ :=
    block_extends (parse_eq_ok_iff.1 hb) hd htext (isIdentifier_of_parse hx he) hrest
  obtain ⟨a, ha, hua⟩ := parse_sourceWithCall
    (htakes.reads (placeless_statementOf (by decide)) (starts_blockWithCall b x))
  rw [unplacedAll_append] at hua
  exact ⟨a, unplacedAll body, unplaced s, ha, hua, hiff⟩

theorem last_statement_eq_callOf_elseif :
    (∃ t d, grammar.parse block ("\x7b " ++ "if (p) q();" ++ " \x7d").toList = .ok ([t], d) ∧
        d.rest = []) ∧
      (∃ us e, grammar.parse identifier "elseif".toList = .ok (us, e) ∧ e.rest = []) ∧
      ∃ a body, parse (sourceWithCall "if (p) q();" "elseif") = .ok a ∧
        unplaced a = soleMethod (body ++ [callOf "elseif"]) := by
  have hb : ∃ t d, grammar.parse block ("\x7b " ++ "if (p) q();" ++ " \x7d").toList = .ok ([t], d) ∧
      d.rest = [] := ⟨_, _, rfl, rfl⟩
  have hx : ∃ us e, grammar.parse identifier "elseif".toList = .ok (us, e) ∧ e.rest = [] :=
    ⟨_, _, rfl, rfl⟩
  refine ⟨hb, hx, ?_⟩
  obtain ⟨t, d, hb, hd⟩ := hb
  obtain ⟨us, e, hx, he⟩ := hx
  obtain ⟨a, body, s, ha, hua, hiff⟩ := last_statement_eq_callOf_iff hb hd hx he
  -- What is left of the word behind `else` is a keyword, so it is no operand.
  have hkept : ¬Swallowed t.children "elseif" :=
    not_or.2 ⟨by decide, fun h => absurd h.1 (by decide)⟩
  rw [hiff.2 hkept] at hua
  exact ⟨a, body, ha, hua⟩

/-- The kinds and the words of the nodes of a source, in document order. -/
def outline (source : String) : Option (List (Kind × Option String)) :=
  (parse source).toOption.map fun a => a.subtrees.map fun t => (t.label.kind, t.label.image)

example : outline (sourceWithCall "if (p) q();" "elsewhere") =
    some [(.compilationUnit, none), (.classDeclaration, some "C"), (.methodDeclaration, some "m"),
      (.formalParameters, none), (.block, none), (.ifStatement, none), (.name, some "p"),
      (.expressionStatement, none), (.methodCall, none), (.name, some "q"), (.arguments, none),
      (.elseClause, none), (.expressionStatement, none), (.methodCall, none),
      (.name, some "where"), (.arguments, none)] := by
  decide +kernel

/-- The word `returnx` is an identifier, and a call of it returns the value of `x()`. -/
theorem outline_returnx :
    (∃ t d, grammar.parse block ("\x7b " ++ "a();" ++ " \x7d").toList = .ok ([t], d) ∧
      d.rest = []) ∧
    (∃ us e, grammar.parse identifier "returnx".toList = .ok (us, e) ∧ e.rest = []) ∧
    outline (sourceWithCall "a();" "returnx") =
      some [(.compilationUnit, none), (.classDeclaration, some "C"), (.methodDeclaration, some "m"),
        (.formalParameters, none), (.block, none), (.expressionStatement, none),
        (.methodCall, none), (.name, some "a"), (.arguments, none), (.returnStatement, none),
        (.methodCall, none), (.name, some "x"), (.arguments, none)] :=
  ⟨⟨_, _, rfl, rfl⟩, ⟨_, _, rfl, rfl⟩, by decide +kernel⟩

end TreeMetrics.Twig
