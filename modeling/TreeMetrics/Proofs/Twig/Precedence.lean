import TreeMetrics.Proofs.Twig.Delimiter
import TreeMetrics.Proofs.Twig.RoundTrip

namespace TreeMetrics.Twig

open TreeMetrics.Expr TreeMetrics.Twig.Rule

variable {n k : Nat} {e : Tree Node} {ws : List String}

namespace Terse

/-- The levels of the operators between two operands, the strongest one first. -/
def levels : List (List String) :=
  [["+", "-"], ["<=", ">=", "<", ">"], ["==", "!="], ["&&"], ["||"]]

def opRank (w : String) : Nat := 3 + levels.findIdx (·.contains w)

/-- The rank of a node: operands that stand for themselves, calls, negations, the levels of
operators, conditionals and assignments. -/
def rank (n : Node) : Nat :=
  match n.kind with
  | .methodCall => 1
  | .unaryExpression => 2
  | .infixExpression => opRank (n.image.getD "")
  | .conditionalExpression => 8
  | .assignment => 9
  | _ => 0

structure Piece where
  rank : Nat
  tokens : List String

/-- The tokens of an operand whose rank may go up to a limit. -/
def Piece.upTo (limit : Nat) (p : Piece) : List String :=
  if p.rank ≤ limit then p.tokens else "(" :: p.tokens ++ [")"]

/-- The tokens of a node, given the pieces under it. Operators of one level associate to the left,
conditionals and assignments to the right. -/
def join (n : Node) (parts : List Piece) : List String :=
  let image := n.image.getD ""
  match n.kind, parts with
  | .assignment, [target, value] => target.upTo 8 ++ image :: value.upTo 9
  | .conditionalExpression, [condition, yes, no] =>
    condition.upTo 7 ++ "?" :: yes.tokens ++ ":" :: no.upTo 8
  | .infixExpression, [left, right] =>
    left.upTo (opRank image) ++ image :: right.upTo (opRank image - 1)
  | .unaryExpression, [operand] => image :: operand.upTo 2
  | .methodCall, [callee, arguments] => callee.upTo 1 ++ arguments.tokens
  | .arguments, _ => "(" :: Print.commas (parts.map (·.tokens)) ++ [")"]
  | _, _ => [image]

end Terse

mutual

/-- The tokens of an expression, with parentheses where ranks require them. -/
def terse : Tree Node → List String
  | .node n ts => Terse.join n (tersePieces ts)

def tersePieces : List (Tree Node) → List Terse.Piece
  | [] => []
  | t :: ts => ⟨Terse.rank t.label, terse t⟩ :: tersePieces ts

end

def terseUpTo (limit : Nat) (t : Tree Node) : List String :=
  Terse.Piece.upTo limit ⟨Terse.rank t.label, terse t⟩

theorem map_terse (ts : List (Tree Node)) : (tersePieces ts).map (·.tokens) = ts.map terse := by
  induction ts with
  | nil => rfl
  | cons t ts ih => rw [tersePieces, List.map_cons, List.map_cons, ih]

section Tokens

variable {b c b' c' : Nat} {w : String} {left right condition yes no callee : Tree Node}
variable {args : List (Tree Node)}

theorem terse_assignment : terse (.node (.word .assignment w b c) [left, right]) =
    terseUpTo 8 left ++ w :: terseUpTo 9 right := rfl

theorem terse_conditional :
    terse (.node (.plain .conditionalExpression b c) [condition, yes, no]) =
      terseUpTo 7 condition ++ "?" :: terse yes ++ ":" :: terseUpTo 8 no := rfl

theorem terse_binary : terse (.node (.word .infixExpression w b c) [left, right]) =
    terseUpTo (Terse.opRank w) left ++ w :: terseUpTo (Terse.opRank w - 1) right := rfl

theorem terse_negation : terse (.node (.word .unaryExpression w b c) [e]) =
    w :: terseUpTo 2 e := rfl

theorem terse_call :
    terse (.node (.plain .methodCall b c) [callee, .node (.plain .arguments b' c') args]) =
      terseUpTo 1 callee ++ bracketed terse args := by
  rw [bracketed, ← map_terse]
  rfl

end Tokens

/-- The tokens can be read where operands up to a rank stand. -/
def Stage : Nat → Tree Node → List String → Prop
  | 0 => Operand
  | 1 => CallChain terse
  | 2 => Negation
  | n + 3 => if n < 5 then Chain n else OnRung (n + 1)

namespace Stage

theorem chain (hn : n < 5) : Stage (n + 3) e ws ↔ Chain n e ws := by
  rw [Stage, if_pos hn]

theorem onRung (h : Stage (n + 2) e ws) : OnRung n e ws := by
  cases n with
  | zero => exact Negation.onRung h
  | succ n =>
    by_cases hn : n < 5
    · exact ((chain hn).1 h).onRung hn
    · rwa [Stage, if_neg hn] at h

theorem succ (h : Stage n e ws) : Stage (n + 1) e ws := by
  match n with
  | 0 => exact CallChain.head h
  | 1 => exact Negation.operand (CallChain.onCall h)
  | n + 2 =>
    by_cases hn : n < 5
    · exact (chain hn).2 (.head h.onRung)
    · rw [Stage, if_neg hn]
      exact h.onRung.rise (by omega)

theorem mono (h : Stage k e ws) (hn : k ≤ n) : Stage n e ws := by
  induction hn with
  | refl => exact h
  | step _ ih => exact ih.succ

end Stage

theorem opRank_le (w : String) : Terse.opRank w ≤ 8 := by
  have h : Terse.levels.findIdx (·.contains w) ≤ 5 := List.findIdx_le_length
  rw [Terse.opRank]
  omega

theorem rank_le (n : Node) : Terse.rank n ≤ 9 := by
  unfold Terse.rank
  split
  case h_3 => exact Nat.le_succ_of_le (opRank_le _)
  all_goals decide

theorem Stage.onExpr {n : Node} (h : Stage (Terse.rank n) e ws) : OnRung 8 e ws :=
  Stage.onRung (h.mono (by have := rank_le n; omega))

/-- With parentheses where its rank requires them, an operand can stand anywhere. -/
theorem stage_upTo (h : Stage (Terse.rank e.label) e (terse e)) (n : Nat) :
    Stage n e (terseUpTo n e) := by
  by_cases hn : Terse.rank e.label ≤ n
  · rw [terseUpTo, Terse.Piece.upTo, if_pos hn]
    exact h.mono hn
  · rw [terseUpTo, Terse.Piece.upTo, if_neg hn]
    have ho : Stage 0 e ("(" :: terse e ++ [")"]) := operand_parenthesised h.onExpr
    exact ho.mono n.zero_le

theorem exists_level : ∀ w ∈ operators, ∃ n < 5, Terse.opRank w = n + 3 ∧ w ∈ stops (n + 1) := by
  decide

/-- An expression with no more parentheses than needed is read on its own rank. -/
theorem terse_stage (he : IsExpression e) : Stage (Terse.rank e.label) e (terse e) := by
  induction he with
  | name hw => exact operand_name hw
  | literal hw => exact operand_literal hw
  | assignment _ _ ihl ihr =>
    have hl : OnRung 6 _ _ := (stage_upTo ihl 8).onRung
    have hr : OnRung 7 _ _ := (stage_upTo ihr 9).onRung
    exact assignment_onRung hl hr
  | conditional _ _ _ ihc ihy ihn =>
    have hc : OnRung 5 _ _ := (stage_upTo ihc 7).onRung
    have hn : OnRung 6 _ _ := (stage_upTo ihn 8).onRung
    exact conditional_onRung hc ihy.onExpr hn
  | @binary w b c left right hw _ _ ihl ihr =>
    obtain ⟨n, hn, hrank, hw⟩ := exists_level w hw
    show Stage (Terse.opRank w) _ _
    rw [terse_binary, hrank]
    -- Operators of the same level stand to the left only, so the chain there takes one more link.
    have hl := (Stage.chain hn).1 (stage_upTo ihl (n + 3))
    exact (Stage.chain hn).2 (.link hl hw (stage_upTo ihr (n + 2)).onRung)
  | negation _ ih => exact Negation.negate (stage_upTo ih 2)
  | call _ _ ihf iha =>
    rw [terse_call]
    exact CallChain.call (stage_upTo ihf 1) fun a ha => (iha a ha).onExpr

section Slashes

theorem terseUpTo_unslashed (h : ∀ w ∈ terse e, '/' ∉ w.toList) :
    ∀ w ∈ terseUpTo n e, '/' ∉ w.toList := by
  rw [terseUpTo, Terse.Piece.upTo]
  split
  · exact h
  · rw [List.cons_append, List.forall_mem_cons, List.forall_mem_append, List.forall_mem_singleton]
    exact ⟨by decide, h, by decide⟩

theorem commas_unslashed {wss : List (List String)} (h : ∀ ws ∈ wss, ∀ w ∈ ws, '/' ∉ w.toList) :
    ∀ w ∈ Print.commas wss, '/' ∉ w.toList := by
  cases wss with
  | nil => exact List.forall_mem_nil _
  | cons us wss =>
    obtain ⟨hus, hwss⟩ := List.forall_mem_cons.1 h
    rw [Print.commas, List.forall_mem_append]
    refine ⟨hus, ?_⟩
    intro w hw
    obtain ⟨ws, hws, hw⟩ := List.mem_flatMap.1 hw
    rcases List.mem_cons.1 hw with rfl | hw
    · decide
    · exact hwss ws hws w hw

/-- No token of an expression begins a comment. -/
theorem terse_unslashed (he : IsExpression e) : ∀ w ∈ terse e, '/' ∉ w.toList := by
  induction he with
  | name hw =>
    refine List.forall_mem_singleton.2 fun hm => ?_
    cases hw.1.isWordChar '/' hm
  | literal hw =>
    refine List.forall_mem_singleton.2 fun hm => ?_
    cases hw.2 '/' hm
  | assignment _ _ ihl ihr =>
    rw [terse_assignment, List.forall_mem_append, List.forall_mem_cons]
    exact ⟨terseUpTo_unslashed ihl, by decide, terseUpTo_unslashed ihr⟩
  | conditional _ _ _ ihc ihy ihn =>
    rw [terse_conditional, List.forall_mem_append, List.forall_mem_append, List.forall_mem_cons,
      List.forall_mem_cons]
    exact ⟨⟨terseUpTo_unslashed ihc, by decide, ihy⟩, by decide, terseUpTo_unslashed ihn⟩
  | binary hw _ _ ihl ihr =>
    have hop : ∀ w ∈ operators, '/' ∉ w.toList := by decide
    rw [terse_binary, List.forall_mem_append, List.forall_mem_cons]
    exact ⟨terseUpTo_unslashed ihl, hop _ hw, terseUpTo_unslashed ihr⟩
  | negation _ ih =>
    rw [terse_negation, List.forall_mem_cons]
    exact ⟨by decide, terseUpTo_unslashed ih⟩
  | call _ _ ihf iha =>
    rw [terse_call, bracketed, List.forall_mem_append, List.cons_append, List.forall_mem_cons,
      List.forall_mem_append, List.forall_mem_singleton]
    refine ⟨terseUpTo_unslashed ihf, by decide, commas_unslashed ?_, by decide⟩
    intro ws hws
    obtain ⟨a, ha, rfl⟩ := List.mem_map.1 hws
    exact iha a ha

theorem terse_ne_nil (he : IsExpression e) : terse e ≠ [] := by
  cases he with
  | name | literal | negation => exact List.cons_ne_nil _ _
  | assignment | conditional | binary => exact List.append_ne_nil_of_right_ne_nil _ (by simp)
  | call =>
    rw [terse_call]
    exact List.append_ne_nil_of_right_ne_nil _ (by simp [bracketed])

end Slashes

section SoleMethod

/-- A class whose only method has no parameters and the given statements. -/
def soleMethod (as : List (Tree Node)) : Tree Node :=
  .node (.plain .compilationUnit 0 0)
    [.node (.word .classDeclaration "C" 0 0)
      [.node (.word .methodDeclaration "m" 0 0)
        [.node (.plain .formalParameters 0 0) [], .node (.plain .block 0 0) as]]]

theorem soleMethod_reads {as : List (Tree Node)}
    (h : Reads (.call block) ws ["\x7d"] (StatementOf (.node (.plain .block 0 0) as))) :
    Reads (.call file)
      ("class" :: "C" :: "\x7b" :: ("method" :: "m" :: "(" :: ")" :: ws ++ ["\x7d"])) []
      fun ts => ∃ t, ts = [t] ∧ Yields (Build.file t) (soleMethod as) := by
  have hmethod : Reads (.call methodDecl) ("method" :: "m" :: "(" :: ")" :: ws) ["\x7d"]
      (MemberOf (.node (.word .methodDeclaration "m" 0 0)
        [.node (.plain .formalParameters 0 0) [], .node (.plain .block 0 0) as])) :=
    method_reads (m := .none) (by decide) (List.forall_mem_nil _) h
  have hmember : Reads (.call member) ("method" :: "m" :: "(" :: ")" :: ws) ["\x7d"] _ :=
    .silent rfl (.alt_right (refuses_fieldDecl (m := .none)) hmethod)
  have hmembers := (hmember.many_one refuses_member).mono fun ts => Rows.one
  have hclass := class_reads_members (w := "C") (b := 0) (c := 0) (by decide) hmembers
  have hclasses := (hclass.many_one refuses_classDecl_nil).mono fun ts => Rows.one
  have hn : Refuses (.call importDecl)
      ("class" :: "C" :: "\x7b" :: ("method" :: "m" :: "(" :: ")" :: ws ++ ["\x7d"])) :=
    .call rfl (Refuses.lit (avoids_cons (by decide))).seq
  exact file_reads_declarations (declarations_read (List.forall_mem_nil _) hn hclasses)

/-- The blanks in front of a pair of parentheses and inside it can be left out. -/
theorem parse_without_inner_blanks {source source' : String} {a : Tree Node} {u v : List Char}
    (hu : '/' ∉ u) (hs : source.toList = u ++ ' ' :: '(' :: ' ' :: ')' :: v)
    (hs' : source'.toList = u ++ '(' :: ')' :: v) (ha : parse source = .ok a) :
    ∃ b, parse source' = .ok b ∧ unplaced a = unplaced b := by
  obtain ⟨a₁, h₁, hu₁⟩ := parse_without_blank (by decide) hu hs String.toList_ofList ha
  have hs₁ : u ++ '(' :: ' ' :: ')' :: v = (u ++ ['(']) ++ ' ' :: ')' :: v := by simp
  have hs₂ : source'.toList = (u ++ ['(']) ++ ')' :: v := by simp [hs']
  have hn : '/' ∉ u ++ ['('] := by simp [hu]
  rw [hs₁] at h₁
  obtain ⟨b, hb, hu₂⟩ := parse_without_blank (by decide) hn String.toList_ofList hs₂ h₁
  exact ⟨b, hb, hu₁.trans hu₂⟩

end SoleMethod

section Returning

/-- A class whose only method returns the value of an expression. -/
def returning (e : Tree Node) : Tree Node := soleMethod [.node (.plain .returnStatement 0 0) [e]]

def returningTokens (ws : List String) : List String :=
  ["class", "C", "\x7b", "method", "m", "(", ")", "\x7b", "return"] ++
    (ws ++ [";", "\x7d", "\x7d"])

theorem returning_reads (h : OnRung 8 e ws) :
    Reads (.call file) (returningTokens ws) []
      fun ts => ∃ t, ts = [t] ∧ Yields (Build.file t) (returning e) := by
  have hreturn : Reads (.call statement) ("return" :: (ws ++ [";"])) ["\x7d", "\x7d"]
      (StatementOf (.node (.plain .returnStatement 0 0) [e])) :=
    .opened (by decide) (give_reads h)
  have hblock : Reads (.call block) ("\x7b" :: ("return" :: (ws ++ [";"]) ++ ["\x7d"])) ["\x7d"]
      (StatementOf (.node (.plain .block 0 0) [.node (.plain .returnStatement 0 0) [e]])) := by
    refine .statement rfl rfl (by decide) (.lit_phrase (by decide) ?_)
    exact ((hreturn.many_one refuses_statement).phrase_lit (by decide)).mono
      fun ts => partsOf_of_statementOf
  have htokens : returningTokens ws = "class" :: "C" :: "\x7b" :: ("method" :: "m" :: "(" :: ")" ::
      "\x7b" :: ("return" :: (ws ++ [";"]) ++ ["\x7d"]) ++ ["\x7d"]) := by
    simp [returningTokens]
  rw [htokens]
  exact soleMethod_reads hblock

theorem not_mem_layout {z : Char} (h : ∀ w ∈ ws, z ∉ w.toList) (hz : z ≠ ' ') : z ∉ layout ws := by
  have ht : ∀ ws : List String, (∀ w ∈ ws, z ∉ w.toList) → z ∉ trail ws := by
    intro ws h hm
    obtain ⟨w, hw, hm⟩ := List.mem_flatMap.1 hm
    exact (List.mem_cons.1 hm).elim hz (h w hw)
  cases ws with
  | nil => exact List.not_mem_nil
  | cons w ws =>
    obtain ⟨hw, hws⟩ := List.forall_mem_cons.1 h
    rw [layout, List.mem_append, not_or]
    exact ⟨hw, ht ws hws⟩

theorem layout_returningTokens (h : ws ≠ []) :
    layout (returningTokens ws) = "class C \x7b method m".toList ++ ' ' :: '(' :: ' ' :: ')' ::
      (" \x7b return ".toList ++ layout ws ++ ' ' :: ';' :: " \x7d \x7d".toList) := by
  obtain ⟨w, us, rfl⟩ := List.exists_cons_of_ne_nil h
  rw [returningTokens, layout_append (List.cons_ne_nil _ _), List.cons_append, trail_cons,
    ← List.cons_append, layout_append h, List.append_assoc]
  rfl

/-- The source of the class, with the text of the expression in it. -/
def returningSource (text : String) : String :=
  "class C \x7b method m() \x7b return " ++ text ++ "; \x7d \x7d"

theorem toList_returningSource :
    (returningSource (" ".intercalate ws)).toList = "class C \x7b method m".toList ++ '(' :: ')' ::
      (" \x7b return ".toList ++ layout ws ++ ';' :: " \x7d \x7d".toList) := by
  unfold returningSource
  rw [String.toList_append, String.toList_append, toList_intercalate]
  simp

/-- The blanks in front of a pair of parentheses, inside it and in front of a semicolon can be left
out. -/
theorem parse_without_blanks {source source' : String} {a : Tree Node} {u v w : List Char}
    (hu : '/' ∉ u) (hv : '/' ∉ v)
    (hs : source.toList = u ++ ' ' :: '(' :: ' ' :: ')' :: (v ++ ' ' :: ';' :: w))
    (hs' : source'.toList = u ++ '(' :: ')' :: (v ++ ';' :: w)) (ha : parse source = .ok a) :
    ∃ b, parse source' = .ok b ∧ unplaced a = unplaced b := by
  obtain ⟨a₁, h₁, hu₁⟩ := parse_without_inner_blanks hu hs String.toList_ofList ha
  have hs₁ : u ++ '(' :: ')' :: (v ++ ' ' :: ';' :: w) =
      (u ++ ['(', ')'] ++ v) ++ ' ' :: ';' :: w := by simp
  have hs₂ : source'.toList = (u ++ ['(', ')'] ++ v) ++ ';' :: w := by simp [hs']
  have hn : '/' ∉ u ++ ['(', ')'] ++ v := by simp [hu, hv]
  rw [hs₁] at h₁
  obtain ⟨b, hb, hu₂⟩ := parse_without_blank (by decide) hn String.toList_ofList hs₂ h₁
  exact ⟨b, hb, hu₁.trans hu₂⟩

end Returning

/-- An expression with no more parentheses than the ranks of its operators require is read as that
expression. -/
theorem parse_terse (e : Tree Node) (he : IsExpression e) :
    (parse (returningSource (" ".intercalate (terse e)))).map unplaced =
      .ok (unplaced (returning e)) := by
  obtain ⟨a, ha, hua⟩ := parse_of_reads (returning_reads (terse_stage he).onExpr)
  have hu : '/' ∉ " \x7b return ".toList ++ layout (terse e) := by
    rw [List.mem_append, not_or]
    exact ⟨by decide, not_mem_layout (terse_unslashed he) (by decide)⟩
  obtain ⟨b, hb, hab⟩ := parse_without_blanks (by decide) hu
    ((toList_intercalate _).trans (layout_returningTokens (terse_ne_nil he)))
    toList_returningSource ha
  rw [hb, ← hua, hab]
  rfl

/-- Operators of every rank, with operands that need parentheses and operands that do not. -/
def crowded : Tree Node :=
  let name (w : String) : Tree Node := .leaf (.word .name w 1 1)
  let number (w : String) : Tree Node := .leaf (.word .literal w 1 1)
  let infixed (w : String) (l r : Tree Node) : Tree Node :=
    .node (.word .infixExpression w 1 1) [l, r]
  let assigned (l r : Tree Node) : Tree Node := .node (.word .assignment "=" 1 1) [l, r]
  let chosen (c y n : Tree Node) : Tree Node :=
    .node (.plain .conditionalExpression 1 1) [c, y, n]
  let called (f : Tree Node) (args : List (Tree Node)) : Tree Node :=
    .node (.plain .methodCall 1 1) [f, .node (.plain .arguments 1 1) args]
  let target := chosen (chosen (name "p") (name "q") (name "r")) (assigned (name "s") (name "t"))
    (chosen (name "u") (name "v") (name "w"))
  let sum := infixed "+" (infixed "-" (name "a") (infixed "-" (name "b") (name "c"))) (name "d")
  let call := called (called (infixed "+" (name "x") (name "y"))
    [number "1", assigned (name "z") (number "2")]) []
  let test := infixed "==" (infixed "<" sum (number "3"))
    (.node (.word .unaryExpression "!" 1 1) [.node (.word .unaryExpression "!" 1 1) [call]])
  assigned target (assigned (name "k") (infixed "||" test (infixed "&&" (name "f") (name "g"))))

theorem crowded_isExpression : IsExpression crowded := by
  refine .assignment (.conditional ?_ ?_ ?_)
    (.assignment (.name (by decide)) (.binary (by decide) (.binary (by decide) ?_ ?_) ?_))
  · exact .conditional (.name (by decide)) (.name (by decide)) (.name (by decide))
  · exact .assignment (.name (by decide)) (.name (by decide))
  · exact .conditional (.name (by decide)) (.name (by decide)) (.name (by decide))
  · refine .binary (by decide) (.binary (by decide) ?_ (.name (by decide))) (.literal (by decide))
    refine .binary (by decide) (.name (by decide)) ?_
    exact .binary (by decide) (.name (by decide)) (.name (by decide))
  · refine .negation (.negation (.call (.call ?_ ?_) (List.forall_mem_nil _)))
    · exact .binary (by decide) (.name (by decide)) (.name (by decide))
    · refine List.forall_mem_cons.2 ⟨.literal (by decide), List.forall_mem_singleton.2 ?_⟩
      exact .assignment (.name (by decide)) (.literal (by decide))
  · exact .binary (by decide) (.name (by decide)) (.name (by decide))

theorem parse_terse_crowded : IsExpression crowded ∧
    " ".intercalate (terse crowded) = "( p ? q : r ) ? s = t : u ? v : w = k = " ++
      "a - ( b - c ) + d < 3 == ! ! ( x + y ) ( 1 , z = 2 ) ( ) || f && g" ∧
    (parse (returningSource (" ".intercalate (terse crowded)))).map unplaced =
      .ok (unplaced (returning crowded)) :=
  ⟨crowded_isExpression, by decide +kernel, parse_terse crowded crowded_isExpression⟩

end TreeMetrics.Twig
