import TreeMetrics.Proofs.Twig.Reading
import TreeMetrics.Proofs.Twig.Shape

namespace TreeMetrics.Twig

open TreeMetrics.Expr TreeMetrics.Twig.Rule

variable {r : Rule} {p q : Position} {s w : String} {ws us rest : List String}
variable {t : ParseTree Rule} {ts : List (ParseTree Rule)} {a e : Tree Node}

/-- The result is a tree that differs from the given one at most in lines. -/
def Yields (x : Build.Result) (a : Tree Node) : Prop := ∃ b, x = .ok b ∧ unplaced b = unplaced a

/-- The trees are a single one, from which the expression is built. -/
def ExpressionOf (e : Tree Node) (ts : List (ParseTree Rule)) : Prop :=
  ∃ t, ts = [t] ∧ Yields (Build.expression t) e

/-- The tokens are read by the rule as a tree for the expression. -/
def ReadsAs (r : Rule) (e : Tree Node) (ws rest : List String) : Prop :=
  Reads (.call r) ws rest fun ts => ∃ t, ts = [t] ∧ t.rule = r ∧ Yields (Build.expression t) e

/-- The rules of operators from the strongest to the weakest. -/
def rung : Nat → Rule
  | 0 => unary
  | 1 => addExpr
  | 2 => relExpr
  | 3 => eqExpr
  | 4 => andExpr
  | 5 => orExpr
  | 6 => ternary
  | 7 => assignment
  | _ => expr

/-- The texts with which a rung goes on behind its first operand. -/
def stops : Nat → List String
  | 1 => ["+", "-"]
  | 2 => ["<=", ">=", "<", ">"]
  | 3 => ["==", "!="]
  | 4 => ["&&"]
  | 5 => ["||"]
  | 6 => ["?"]
  | 7 => ["="]
  | _ => []

theorem level_rung {n : Nat} (hn : n < 5) :
    ∃ op, level? (rung (n + 1)) = some ⟨rung n, op, stops (n + 1)⟩ := by
  have hc : n = 0 ∨ n = 1 ∨ n = 2 ∨ n = 3 ∨ n = 4 := by omega
  rcases hc with rfl | rfl | rfl | rfl | rfl
  · exact ⟨addOp, rfl⟩
  · exact ⟨relOp, rfl⟩
  · exact ⟨eqOp, rfl⟩
  · exact ⟨andOp, rfl⟩
  · exact ⟨orOp, rfl⟩

theorem exists_upper_rung {n : Nat} (hn : ¬n < 5) :
    n = 5 ∨ n = 6 ∨ n = 7 ∨ ∃ m, n = m + 8 := by
  by_cases h : n < 8
  · omega
  · exact .inr (.inr (.inr ⟨n - 8, by omega⟩))

theorem refuses_op {l : Level} (hl : l.Stands r) (h : Avoids l.spellings ws) :
    Refuses (.call l.op) ws := by
  refine .call hl.normal_op ?_
  rw [hl.pattern_op]
  exact .oneOf_lit h

namespace ReadsAs

variable {r₀ : Rule}

/-- A rule that hands on the tree of its only part. -/
theorem lift (hv : visibility r = .normal)
    (hb : ∀ {p q s t a}, t.rule = r₀ → Build.expression t = .ok a →
      Build.expression (.node r p q s [t]) = .ok a)
    (h : Reads (pattern r) ws rest
      fun ts => ∃ t, ts = [t] ∧ t.rule = r₀ ∧ Yields (Build.expression t) e) :
    ReadsAs r e ws rest := by
  refine (h.call hv).mono ?_
  rintro _ ⟨p, q, s, us, rfl, t, rfl, ht, a, ha, hu⟩
  exact ⟨_, rfl, rfl, a, hb ht ha, hu⟩

theorem chain {l : Level} (hl : level? r = some l) (h : ReadsAs l.operand e ws rest)
    (hr : Avoids l.spellings rest) : ReadsAs r e ws rest := by
  have hs := stands_of_level? hl
  have hp : Reads (pattern r) ws rest
      fun ts => ∃ t, ts = [t] ∧ t.rule = l.operand ∧ Yields (Build.expression t) e := by
    rw [hs.pattern]
    exact h.pair_none (.many_none (refuses_op hs hr).seq)
  refine lift hs.normal (fun _ ha => ?_) hp
  exact expression_chain hl ha

theorem ternary (h : ReadsAs orExpr e ws rest) (hr : Avoids ["?"] rest) :
    ReadsAs ternary e ws rest :=
  lift rfl (fun _ => Build.expression_condition) (h.pair_none (.opt_none (Refuses.lit hr).seq))

theorem assignment (h : ReadsAs Rule.ternary e ws rest) (hr : Avoids ["="] rest) :
    ReadsAs assignment e ws rest :=
  lift rfl (fun _ => Build.expression_target)
    (h.pair_none (.opt_none (Refuses.spelling (by decide) rfl hr).seq))

/-- An operand rises to the next rung if the operators there do not follow it. -/
theorem step {n : Nat} (h : ReadsAs (rung n) e ws rest) (hr : Avoids (stops (n + 1)) rest) :
    ReadsAs (rung (n + 1)) e ws rest := by
  -- The lower rungs are chains of operators; the upper ones have patterns of their own.
  by_cases hn : n < 5
  · obtain ⟨op, hl⟩ := level_rung hn
    exact chain hl h hr
  · obtain rfl | rfl | rfl | ⟨m, rfl⟩ := exists_upper_rung hn
    · exact ternary h hr
    · exact assignment h hr
    · exact lift rfl (fun _ => Build.expression_expr) h
    · exact h

theorem climb {n : Nat} (m : Nat) (h : ReadsAs (rung n) e ws rest)
    (hr : ∀ i, n < i → i ≤ n + m → Avoids (stops i) rest) : ReadsAs (rung (n + m)) e ws rest := by
  induction m with
  | zero => exact h
  | succ m ih =>
    have hm := ih fun i hn hi => hr i hn (by omega)
    exact step hm (hr (n + m + 1) (by omega) (by omega))

end ReadsAs

section Primary

theorem refuses_number (h : ∀ z ∈ (layout ws).head?, z.isDigit = false) :
    Refuses (.call number) ws := by
  rintro ⟨p, cs⟩ hc
  cases hc
  exact number_fails p h

theorem refuses_identifier (h : ∀ z ∈ (layout ws).head?, isWordStart z = false) :
    Refuses (.call identifier) ws := by
  rintro ⟨p, cs⟩ hc
  cases hc
  exact identifier_fails p h

theorem primary_name {b c : Nat} (hw : IsIdentifier w) :
    Reads (.call primary) [w] rest (ExpressionOf (.leaf (.word .name w b c))) := by
  have hn : Refuses (.call number) (w :: rest) := by
    refine refuses_number fun z hz => ?_
    obtain ⟨hw, -⟩ := hw
    rw [layout] at hz
    cases hc : w.toList with
    | nil =>
      rw [hc] at hw
      cases hw
    | cons y ys =>
      rw [hc] at hw hz
      cases hz
      exact isDigit_of_isWordStart hw.1
  have hp : Reads (pattern primary) [w] rest _ := .alt_right hn (.alt_left (.identifier hw))
  refine (hp.silent rfl).mono ?_
  rintro _ ⟨p, q, us, rfl⟩
  exact ⟨_, rfl, _, rfl, rfl⟩

theorem primary_literal {b c : Nat} (hw : IsNumber w) :
    Reads (.call primary) [w] rest (ExpressionOf (.leaf (.word .literal w b c))) := by
  have hp : Reads (pattern primary) [w] rest _ := .alt_left (.number hw)
  refine (hp.silent rfl).mono ?_
  rintro _ ⟨p, q, us, rfl⟩
  exact ⟨_, rfl, _, rfl, rfl⟩

theorem primary_parenthesised (h : ReadsAs expr e ws (")" :: rest)) :
    Reads (.call primary) ("(" :: ws ++ [")"]) rest (ExpressionOf e) := by
  have hn : Refuses (.call number) ("(" :: ws ++ [")"] ++ rest) :=
    refuses_number fun z hz => by cases hz; rfl
  have hi : Refuses (.call identifier) ("(" :: ws ++ [")"] ++ rest) :=
    refuses_identifier fun z hz => by cases hz; rfl
  have hp : Reads (pattern primary) ("(" :: ws ++ [")"]) rest _ :=
    .alt_right hn (.alt_right hi (.lit_phrase (by decide) (.phrase_lit (by decide) h)))
  refine (hp.silent rfl).mono ?_
  rintro _ ⟨t, rfl, -, hy⟩
  exact ⟨t, rfl, hy⟩

end Primary

/-- The texts with which an operand could go on up to a rung. -/
def stopsUpTo (n : Nat) : List String := "(" :: (List.range (n + 1)).flatMap stops

theorem stops_subset {i n : Nat} (hi : i ≤ n) : stops i ⊆ stopsUpTo n := by
  intro k hk
  have hr : i ∈ List.range (n + 1) := List.mem_range.2 (by omega)
  exact List.mem_cons_of_mem _ (List.mem_flatMap.2 ⟨i, hr, hk⟩)

theorem stopsUpTo_subset {m n : Nat} (h : m ≤ n) : stopsUpTo m ⊆ stopsUpTo n := by
  intro k hk
  rcases List.mem_cons.1 hk with rfl | hk
  · exact List.mem_cons_self
  · obtain ⟨i, hi, hk⟩ := List.mem_flatMap.1 hk
    have hm : i < m + 1 := List.mem_range.1 hi
    exact stops_subset (by omega) hk

/-- Nothing goes on behind an expression in front of these tokens. -/
abbrev Closes (ws : List String) : Prop := Avoids (stopsUpTo 8) ws

theorem closes_cons : ∀ w ∈ [")", ",", ";", ":"], Closes (w :: ws) := by
  intro w hw
  have hc : ∀ w ∈ [")", ",", ";", ":"], ∀ k ∈ stopsUpTo 8,
      ' ' ∉ k.toList ∧ ¬k.toList <+: w.toList := by decide
  exact avoids_cons (hc w hw)

theorem refuses_step {n : Nat} (h : Refuses (.call (rung n)) ws) :
    Refuses (.call (rung (n + 1))) ws := by
  by_cases hn : n < 5
  · obtain ⟨op, hl⟩ := level_rung hn
    have hs := stands_of_level? hl
    refine .call hs.normal ?_
    rw [hs.pattern]
    exact h.seq
  · obtain rfl | rfl | rfl | ⟨m, rfl⟩ := exists_upper_rung hn
    · exact .call rfl h.seq
    · exact .call rfl h.seq
    · exact .call rfl h
    · exact h

theorem refuses_rung (n : Nat) (h : Refuses (.call unary) ws) : Refuses (.call (rung n)) ws := by
  induction n with
  | zero => exact h
  | succ n ih => exact refuses_step ih

theorem refuses_primary (hh : ∀ z ∈ (layout ws).head?, isWordChar z = false)
    (hp : Avoids ["("] ws) : Refuses (.call primary) ws := by
  have hn : Refuses (.call number) ws := by
    refine refuses_number fun z hz => Bool.eq_false_iff.2 fun hd => ?_
    exact absurd (isWordChar_of_isDigit hd) (Bool.eq_false_iff.1 (hh z hz))
  have hi : Refuses (.call identifier) ws := by
    refine refuses_identifier fun z hz => Bool.eq_false_iff.2 fun hs => ?_
    exact absurd (isWordChar_of_isWordStart hs) (Bool.eq_false_iff.1 (hh z hz))
  exact .silent rfl (hn.alt (hi.alt (Refuses.lit hp).seq))

/-- No expression begins where no operand does. -/
theorem refuses_expr_of_primary (hs : Starts ws) (ha : Avoids ["!"] ws)
    (hp : Refuses (.call primary) ws) : Refuses (.call expr) ws := by
  have hc : Refuses (.call callChain) ws := .call rfl hp.seq
  have hu : Refuses (.call unary) ws :=
    .call rfl (Reads.refuses (.many_none (Refuses.spelling (by decide) rfl ha)) hs hc)
  exact refuses_rung 8 hu

/-- No expression begins with a token that ends one. -/
theorem refuses_expr (hw : w ∈ [")", ";", "\x7d"]) : Refuses (.call expr) (w :: ws) := by
  have hs : ∀ w ∈ [")", ";", "\x7d"], Starts [w] := by decide
  have hk : ∀ w ∈ [")", ";", "\x7d"], ∀ k ∈ ["!", "("],
      ' ' ∉ k.toList ∧ ¬k.toList <+: w.toList := by decide
  have ha : Avoids ["!", "("] (w :: ws) := avoids_cons (hk w hw)
  have hh : ∀ z ∈ (layout (w :: ws)).head?, isWordChar z = false := by
    simp only [List.mem_cons, List.not_mem_nil, or_false] at hw
    rcases hw with rfl | rfl | rfl
    all_goals exact fun z hz => by cases hz; rfl
  exact refuses_expr_of_primary (hs w hw) (ha.mono (by decide))
    (refuses_primary hh (ha.mono (by decide)))

/-- No expression begins with a character that begins neither a word nor another operand. -/
theorem refuses_expr_of_head {z : Char} {cs : List Char} (hopens : opensToken z = true)
    (hword : isWordChar z = false) (hk : ∀ k ∈ ["!", "("], k.toList.head?.any (· != z) = true) :
    Refuses (.call expr) [String.ofList (z :: cs)] := by
  have ha : Avoids ["!", "("] [String.ofList (z :: cs)] := avoids_of_head hk
  have hh : ∀ y ∈ (layout [String.ofList (z :: cs)]).head?, isWordChar y = false := by
    rw [layout_ofList]
    intro y hy
    cases hy
    exact hword
  have hs : Starts [String.ofList (z :: cs)] := by
    rw [Starts, String.toList_ofList]
    exact hopens
  exact refuses_expr_of_primary hs (ha.mono (by decide))
    (refuses_primary hh (ha.mono (by decide)))

/-- The tokens are read as an operand, whatever follows. -/
structure Operand (e : Tree Node) (ws : List String) : Prop where
  primary : ∀ rest, Reads (.call primary) ws rest (ExpressionOf e)
  avoids : ∀ rest, Avoids ["!"] (ws ++ rest)

/-- The tokens are read on a rung, in front of all that neither it nor one below goes on with. -/
def OnRung (n : Nat) (e : Tree Node) (ws : List String) : Prop :=
  ∀ rest, Avoids (stopsUpTo n) rest → ReadsAs (rung n) e ws rest

theorem OnRung.rise {m n : Nat} (h : OnRung m e ws) (hn : m ≤ n) : OnRung n e ws := by
  intro rest hrest
  have hm := h rest (hrest.mono (stopsUpTo_subset hn))
  have hc := hm.climb (n - m) fun i _ hi => hrest.mono (stops_subset (by omega))
  rwa [show m + (n - m) = n by omega] at hc

section Calls

variable {f : Tree Node → List String} {args : List (Tree Node)} {b c b' c' : Nat}

theorem collect_yields (h : Rows ExpressionOf args ts) :
    ∃ as, Build.collect (ts.map Build.part) = .ok as ∧ unplacedAll as = unplacedAll args := by
  induction h with
  | nil => exact ⟨[], rfl, rfl⟩
  | cons ha _ ih =>
    obtain ⟨t, rfl, x, hx, hux⟩ := ha
    obtain ⟨as, has, huas⟩ := ih
    exact ⟨x :: as, Build.collect_cons hx has, unplacedAll_cons hux huas⟩

/-- The only tree of a list, of which these arguments are built. -/
def ArgumentsOf (args : List (Tree Node)) (ts : List (ParseTree Rule)) : Prop :=
  ∃ t as, ts = [t] ∧ Build.arguments t = .ok as ∧ unplacedAll as = unplacedAll args

def bracketed (f : Tree Node → List String) (args : List (Tree Node)) : List String :=
  "(" :: Print.commas (args.map f) ++ [")"]

theorem callArgs_reads (h : ∀ a ∈ args, OnRung 8 a (f a)) :
    Reads (.call callArgs) (bracketed f args) rest (ArgumentsOf args) := by
  have ha : ∀ a ∈ args, ∀ w ∈ [",", ")"], ∀ us,
      Reads (.call expr) (f a) (w :: us) (ExpressionOf a) := by
    intro a ha w hw us
    refine (h a ha (w :: us) (closes_cons w ?_)).mono ?_
    · exact (by decide : ∀ w ∈ [",", ")"], w ∈ [")", ",", ";", ":"]) w hw
    · rintro ts ⟨t, rfl, -, hy⟩
      exact ⟨t, rfl, hy⟩
  have hp : Reads (pattern callArgs) (bracketed f args) rest _ :=
    .lit_phrase (by decide) (.phrase_lit (by decide)
      (.opt_commaSeparated (fun us => refuses_expr (by decide)) ha))
  refine (hp.call rfl).mono ?_
  rintro _ ⟨p, q, s, us, rfl, hrows⟩
  obtain ⟨as, has, huas⟩ := collect_yields hrows
  exact ⟨_, as, rfl, (Build.arguments_node ..).trans has, huas⟩

theorem refuses_callArgs (hr : Avoids ["("] rest) : Refuses (.call callArgs) rest :=
  .call rfl (Refuses.lit hr).seq

/-- The tokens are read as something to be called, in front of all that does not call it. -/
structure OnCall (e : Tree Node) (ws : List String) : Prop where
  reads : ∀ rest, Avoids ["("] rest → ReadsAs callChain e ws rest
  avoids : ∀ rest, Avoids ["!"] (ws ++ rest)

/-- The tokens are an operand with any number of lists of arguments behind it. -/
inductive CallChain (f : Tree Node → List String) : Tree Node → List String → Prop where
  | head {e : Tree Node} {ws : List String} : Operand e ws → CallChain f e ws
  | call {e : Tree Node} {ws : List String} {args : List (Tree Node)} {b c b' c' : Nat} :
      CallChain f e ws → (∀ a ∈ args, OnRung 8 a (f a)) →
      CallChain f (.node (.plain .methodCall b c) [e, .node (.plain .arguments b' c') args])
        (ws ++ bracketed f args)

def applied (e : Tree Node) (args : List (Tree Node)) : Tree Node :=
  .node (.plain .methodCall 0 0) [e, .node (.plain .arguments 0 0) args]

theorem CallChain.flatten (h : CallChain f e ws) :
    ∃ head hs, ∃ argss : List (List (Tree Node)), Operand head hs ∧
      (∀ args ∈ argss, ∀ a ∈ args, OnRung 8 a (f a)) ∧
        ws = hs ++ argss.flatMap (bracketed f) ∧
          unplaced e = unplaced (argss.foldl applied head) := by
  induction h with
  | @head e ws h => exact ⟨e, ws, [], h, by simp, by simp, rfl⟩
  | @call e ws args _ _ _ _ _ ha ih =>
    obtain ⟨head, hs, argss, hhead, hargs, rfl, hu⟩ := ih
    refine ⟨head, hs, argss ++ [args], hhead, ?_, by simp, ?_⟩
    · exact List.forall_mem_append.2 ⟨hargs, List.forall_mem_singleton.2 ha⟩
    · rw [List.foldl_append]
      exact unplaced_node rfl (unplacedAll_cons hu (unplacedAll_cons (unplaced_node rfl rfl) rfl))

theorem applyCalls_yields {argss : List (List (Tree Node))} {x : Tree Node}
    (h : Rows ArgumentsOf argss ts) (hx : unplaced x = unplaced e) :
    Yields (Build.applyCalls x (ts.map Build.part)) (argss.foldl applied e) := by
  induction h generalizing x e with
  | nil => exact ⟨x, rfl, hx⟩
  | cons ha _ ih =>
    obtain ⟨t, as, rfl, has, huas⟩ := ha
    rw [List.singleton_append, List.map_cons, Build.applyCalls_cons has, List.foldl_cons]
    exact ih (unplaced_node rfl (unplacedAll_cons hx
      (unplacedAll_cons (unplaced_node rfl huas) rfl)))

theorem CallChain.onCall (h : CallChain f e ws) : OnCall e ws := by
  obtain ⟨head, hs, argss, hhead, hargs, rfl, hu⟩ := h.flatten
  constructor
  · intro rest hrest
    have hmany : Reads (many (.call callArgs)) (argss.flatMap (bracketed f)) rest
        (Rows ArgumentsOf argss) :=
      .many (fun args _ hs => callArgs_reads (hargs args (hs.subset List.mem_cons_self)))
        (refuses_callArgs hrest)
    have hp : Reads (pattern callChain) (hs ++ argss.flatMap (bracketed f)) rest _ :=
      .pair (hhead.primary _) hmany
    refine (hp.call rfl).mono ?_
    rintro _ ⟨p, q, s, _, rfl, _, ts, rfl, ⟨t, rfl, x, hx, hux⟩, hts⟩
    obtain ⟨y, hy, huy⟩ := applyCalls_yields hts hux
    exact ⟨_, rfl, rfl, y, (Build.expression_callChain hx).trans hy, huy.trans hu.symm⟩
  · intro rest
    rw [List.append_assoc]
    exact hhead.avoids _

end Calls

section Negations

variable {marks us : List String} {b c : Nat}

/-- The tokens are something to be called with any number of negations in front of it. -/
inductive Negation : Tree Node → List String → Prop where
  | operand {e : Tree Node} {ws : List String} : OnCall e ws → Negation e ws
  | negate {e : Tree Node} {ws : List String} {b c : Nat} : Negation e ws →
      Negation (.node (.word .unaryExpression "!" b c) [e]) ("!" :: ws)

def negated (w : String) (e : Tree Node) : Tree Node := .node (.word .unaryExpression w 0 0) [e]

theorem Negation.flatten (h : Negation e ws) :
    ∃ marks head hs, OnCall head hs ∧ (∀ w ∈ marks, w = "!") ∧ ws = marks ++ hs ∧
      unplaced e = unplaced (marks.foldr negated head) := by
  induction h with
  | @operand e ws h => exact ⟨[], e, ws, h, by simp, rfl, rfl⟩
  | negate _ ih =>
    obtain ⟨marks, head, hs, hhead, hmarks, rfl, hu⟩ := ih
    refine ⟨"!" :: marks, head, hs, hhead, List.forall_mem_cons.2 ⟨rfl, hmarks⟩, rfl, ?_⟩
    exact unplaced_node rfl (unplacedAll_cons hu rfl)

theorem rules_of_spells (h : Rows (Spells r) marks ts) : ∀ t ∈ ts, t.rule = r := by
  induction h with
  | nil => exact List.forall_mem_nil _
  | cons ha _ ih =>
    obtain ⟨p, q, us, rfl⟩ := ha
    exact List.forall_mem_cons.2 ⟨rfl, ih⟩

theorem negations_unplaced {x : Tree Node} (h : Rows (Spells notOp) marks ts)
    (hx : unplaced x = unplaced e) :
    unplaced (ts.foldr (fun o y => Build.negate b c y o.text) x) =
      unplaced (marks.foldr negated e) := by
  induction h with
  | nil => exact hx
  | cons ha _ ih =>
    obtain ⟨p, q, us, rfl⟩ := ha
    exact unplaced_node rfl (unplacedAll_cons ih rfl)

theorem Negation.onRung (h : Negation e ws) : OnRung 0 e ws := by
  intro rest hrest
  obtain ⟨marks, head, hs, hhead, hmarks, rfl, hu⟩ := h.flatten
  have hmany : Reads (many (.call notOp)) (marks.flatMap fun w => [w]) (hs ++ rest)
      (Rows (Spells notOp) marks) := by
    refine .many (fun w ws hw => ?_) (Refuses.spelling (by decide) rfl (hhead.avoids rest))
    rw [hmarks w (hw.subset List.mem_cons_self)]
    exact .lookahead (by decide) rfl (by decide)
  rw [List.flatMap_singleton'] at hmany
  have hp : Reads (pattern unary) (marks ++ hs) rest _ :=
    .pair hmany (hhead.reads rest (hrest.mono (by simp [stopsUpTo])))
  refine (hp.call rfl).mono ?_
  rintro _ ⟨p, q, s, _, rfl, ts, _, rfl, hts, t, rfl, ht, x, hx, hux⟩
  have hn : t.rule ≠ notOp := by
    rw [ht]
    decide
  exact ⟨_, rfl, rfl, _, Build.expression_unary (rules_of_spells hts) hn hx,
    (negations_unplaced hts hux).trans hu.symm⟩

end Negations

section Chains

variable {n : Nat} {x left : Tree Node} {op : Rule}

/-- An operator with the operand behind it and the tokens of that operand. -/
structure Link where
  op : String
  right : Tree Node
  words : List String

namespace Link

def text (l : Link) : List String := l.op :: l.words

def join (left : Tree Node) (l : Link) : Tree Node :=
  .node (.word .infixExpression l.op 0 0) [left, l.right]

/-- The operator belongs to the rung above the one on which its operand is read. -/
structure Above (l : Link) (n : Nat) : Prop where
  op_mem : l.op ∈ stops (n + 1)
  onRung : OnRung n l.right l.words

def Of (op : Rule) (l : Link) (ts : List (ParseTree Rule)) : Prop :=
  ∃ p q us u, ts = [.node op p q l.op us, u] ∧ Yields (Build.expression u) l.right

end Link

/-- The tokens are operands of a rung with operators of the next one between them. -/
inductive Chain (n : Nat) : Tree Node → List String → Prop where
  | head {e : Tree Node} {ws : List String} : OnRung n e ws → Chain n e ws
  | link {left right : Tree Node} {ls rs : List String} {w : String} {b c : Nat} :
      Chain n left ls → w ∈ stops (n + 1) → OnRung n right rs →
      Chain n (.node (.word .infixExpression w b c) [left, right]) (ls ++ w :: rs)

theorem Chain.flatten (h : Chain n e ws) :
    ∃ head hs, ∃ links : List Link, OnRung n head hs ∧ (∀ l ∈ links, l.Above n) ∧
      ws = hs ++ links.flatMap Link.text ∧
        unplaced e = unplaced (links.foldl Link.join head) := by
  induction h with
  | @head e ws h => exact ⟨e, ws, [], h, by simp, by simp, rfl⟩
  | @link _ right _ rs w _ _ _ hw hr ih =>
    obtain ⟨head, hs, links, hhead, hlinks, rfl, hu⟩ := ih
    refine ⟨head, hs, links ++ [⟨w, right, rs⟩], hhead, ?_, by simp [Link.text], ?_⟩
    · exact List.forall_mem_append.2 ⟨hlinks, List.forall_mem_singleton.2 ⟨hw, hr⟩⟩
    · rw [List.foldl_append]
      exact unplaced_node rfl (unplacedAll_cons hu (unplacedAll_cons rfl rfl))

theorem joinChain_yields {links : List Link} (h : Rows (Link.Of op) links ts)
    (hx : unplaced x = unplaced left) :
    Yields (Build.joinChain x (ts.map Build.part)) (links.foldl Link.join left) := by
  induction h generalizing x left with
  | nil => exact ⟨x, rfl, hx⟩
  | cons ha _ ih =>
    obtain ⟨p, q, us, u, rfl, y, hy, huy⟩ := ha
    rw [List.cons_append, List.singleton_append, List.map_cons, List.map_cons,
      Build.joinChain_cons hy, List.foldl_cons]
    exact ih (unplaced_node rfl (unplacedAll_cons hx (unplacedAll_cons huy rfl)))

/-- An operator is the first text of its rung that it begins with, and no rung below goes on with
it. -/
theorem operator_stands : ∀ n < 5, ∀ w ∈ stops (n + 1),
    (stops (n + 1)).find? (fun k => k.toList.isPrefixOf w.toList) = some w ∧ Starts [w] ∧
      ∀ k ∈ stopsUpTo n, ' ' ∉ k.toList ∧ ¬k.toList <+: w.toList := by
  decide

theorem stops_unspaced : ∀ n < 6, ∀ k ∈ stops n, ' ' ∉ k.toList := by
  decide

theorem avoids_links (hn : n < 5) {links : List Link} (h : ∀ l ∈ links, l.Above n)
    (hrest : Avoids (stopsUpTo (n + 1)) rest) :
    Avoids (stopsUpTo n) (links.flatMap Link.text ++ rest) := by
  cases links with
  | nil => exact hrest.mono (stopsUpTo_subset (by omega))
  | cons l links =>
    obtain ⟨-, -, hk⟩ := operator_stands n hn l.op (h l List.mem_cons_self).op_mem
    exact avoids_cons hk

theorem Chain.onRung (hn : n < 5) (h : Chain n e ws) : OnRung (n + 1) e ws := by
  intro rest hrest
  -- The rule takes all operators of the level in one repetition, so the nest is laid out flat.
  obtain ⟨head, hs, links, hhead, hlinks, rfl, hu⟩ := h.flatten
  obtain ⟨op, hlevel⟩ := level_rung hn
  have hstands := stands_of_level? hlevel
  have hmany : Reads (many (phrase [.call op, .call (rung n)])) (links.flatMap Link.text) rest
      (Rows (Link.Of op) links) := by
    refine .many (fun l ls hl => ?_)
      (refuses_op hstands (hrest.mono (stops_subset (Nat.le_refl _)))).seq
    have hls : ∀ k ∈ l :: ls, k.Above n := fun k hk => hlinks k (hl.subset hk)
    obtain ⟨hw, hright⟩ := hls l List.mem_cons_self
    obtain ⟨hf, hs, -⟩ := operator_stands n hn l.op hw
    have ho : Reads (.call op) [l.op] (l.words ++ (ls.flatMap Link.text ++ rest))
        (Spells op l.op) :=
      .oneOf_spelling (ne_silent_of_normal hstands.normal_op) hstands.pattern_op hs
        (stops_unspaced (n + 1) (by omega)) hf
    have hr := hright _ (avoids_links hn (fun k hk => hls k (List.mem_cons_of_mem l hk)) hrest)
    refine (Reads.pair ho hr).mono ?_
    rintro _ ⟨_, _, rfl, ⟨p, q, us, rfl⟩, u, rfl, -, hy⟩
    exact ⟨p, q, us, u, rfl, hy⟩
  have hpattern : pattern (rung (n + 1)) =
      phrase [.call (rung n), many (phrase [.call op, .call (rung n)])] := hstands.pattern
  have hp := Reads.pair (hhead _ (avoids_links hn hlinks hrest)) hmany
  rw [← hpattern] at hp
  refine (hp.call hstands.normal).mono ?_
  rintro _ ⟨p, q, s, _, rfl, _, ts, rfl, ⟨t, rfl, -, y, hy, huy⟩, hts⟩
  obtain ⟨z, hz, huz⟩ := joinChain_yields hts huy
  exact ⟨_, rfl, rfl, z, (expression_chain hlevel hy).trans hz, huz.trans hu.symm⟩

end Chains

section Constructors

variable {b c : Nat} {left right condition yes no : Tree Node} {ls rs ys ns : List String}
variable {p' q' : Position} {u v : ParseTree Rule}

theorem yields_assignment (hx : Yields (Build.expression t) left)
    (hy : Yields (Build.expression u) right) :
    Yields (Build.expression (.node assignment p q s [t, .node assignOp p' q' "=" ts, u]))
      (.node (.word .assignment "=" b c) [left, right]) := by
  obtain ⟨x, hx, hux⟩ := hx
  obtain ⟨y, hy, huy⟩ := hy
  exact ⟨_, Build.expression_assignment hx hy,
    unplaced_node rfl (unplacedAll_cons hux (unplacedAll_cons huy rfl))⟩

theorem yields_conditional (hx : Yields (Build.expression t) condition)
    (hy : Yields (Build.expression u) yes) (hz : Yields (Build.expression v) no) :
    Yields (Build.expression (.node ternary p q s [t, u, v]))
      (.node (.plain .conditionalExpression b c) [condition, yes, no]) := by
  obtain ⟨x, hx, hux⟩ := hx
  obtain ⟨y, hy, huy⟩ := hy
  obtain ⟨z, hz, huz⟩ := hz
  exact ⟨_, Build.expression_ternary hx hy hz,
    unplaced_node rfl (unplacedAll_cons hux (unplacedAll_cons huy (unplacedAll_cons huz rfl)))⟩

theorem assignment_onRung (hl : OnRung 6 left ls) (hr : OnRung 7 right rs) :
    OnRung 7 (.node (.word .assignment "=" b c) [left, right]) (ls ++ "=" :: rs) := by
  intro rest hrest
  have ho : Reads (.call assignOp) ["="] (rs ++ rest) (Spells assignOp "=") :=
    .lookahead (by decide) rfl (by decide)
  have hleft := hl ("=" :: rs ++ rest) (avoids_cons (by decide))
  have hp : Reads (pattern assignment) (ls ++ "=" :: rs) rest _ :=
    .pair hleft (.opt (.pair ho (hr rest hrest)))
  refine (hp.call rfl).mono ?_
  rintro _ ⟨p, q, s, _, rfl, _, _, rfl, ⟨t, rfl, -, ht⟩, _, _, rfl, ⟨p', q', us, rfl⟩, u, rfl, -,
    hu⟩
  exact ⟨_, rfl, rfl, yields_assignment ht hu⟩

theorem conditional_onRung (hc : OnRung 5 condition ws) (hy : OnRung 8 yes ys)
    (hn : OnRung 6 no ns) :
    OnRung 6 (.node (.plain .conditionalExpression b c) [condition, yes, no])
      (ws ++ "?" :: ys ++ ":" :: ns) := by
  intro rest hrest
  have hcondition := hc ("?" :: (ys ++ ":" :: ns) ++ rest) (avoids_cons (by decide))
  have hyes := hy (":" :: ns ++ rest) (closes_cons ":" (by decide))
  rw [List.append_assoc, List.cons_append]
  have hp : Reads (pattern ternary) (ws ++ "?" :: (ys ++ ":" :: ns)) rest _ :=
    .pair hcondition (.opt (.lit_phrase (by decide)
      (.phrase hyes (.lit_pair (by decide) (hn rest hrest)))))
  refine (hp.call rfl).mono ?_
  rintro _ ⟨p, q, s, _, rfl, _, _, rfl, ⟨t, rfl, -, ht⟩, _, _, rfl, ⟨u, rfl, -, hu⟩, v, rfl, -,
    hv⟩
  exact ⟨_, rfl, rfl, yields_conditional ht hu hv⟩

theorem Operand.onRung (h : Operand e ws) (n : Nat) : OnRung n e ws := by
  have hc : CallChain tokens e ws := .head h
  exact (Negation.operand hc.onCall).onRung.rise n.zero_le

theorem operand_name (hw : IsIdentifier w) : Operand (.leaf (.word .name w b c)) [w] where
  primary _ := primary_name hw
  avoids _ := hw.beginsWord.avoids (by decide)

theorem operand_literal (hw : IsNumber w) : Operand (.leaf (.word .literal w b c)) [w] where
  primary _ := primary_literal hw
  avoids _ := hw.beginsWord.avoids (by decide)

theorem operand_parenthesised (h : OnRung 8 e ws) : Operand e ("(" :: ws ++ [")"]) where
  primary _ := primary_parenthesised (h _ (closes_cons ")" (by decide)))
  avoids _ := avoids_cons (by decide)

theorem operand_of_reads (he : IsExpression e) (h : OnRung 8 e (tokens e)) :
    Operand e (operand e) := by
  cases he with
  | name hw => exact operand_name hw
  | literal hw => exact operand_literal hw
  | assignment | conditional | binary | negation | call => exact operand_parenthesised h

theorem exists_rung : ∀ w ∈ operators, ∃ n < 5, w ∈ stops (n + 1) := by
  decide

/-- The tokens of an expression are read as that expression, up to a token that closes it. -/
theorem expression_reads (he : IsExpression e) : OnRung 8 e (tokens e) := by
  induction he with
  | name hw => exact (operand_name hw).onRung 8
  | literal hw => exact (operand_literal hw).onRung 8
  | assignment hl hr ihl ihr =>
    exact (assignment_onRung ((operand_of_reads hl ihl).onRung 6)
      ((operand_of_reads hr ihr).onRung 7)).rise (by decide)
  | conditional hc hy hn ihc ihy ihn =>
    exact (conditional_onRung ((operand_of_reads hc ihc).onRung 5)
      ((operand_of_reads hy ihy).onRung 8) ((operand_of_reads hn ihn).onRung 6)).rise (by decide)
  | binary hw hl hr ihl ihr =>
    obtain ⟨n, hn, hw⟩ := exists_rung _ hw
    exact (Chain.onRung hn (.link (.head ((operand_of_reads hl ihl).onRung n)) hw
      ((operand_of_reads hr ihr).onRung n))).rise (by omega)
  | negation hx ihx =>
    have hc : CallChain tokens _ _ := .head (operand_of_reads hx ihx)
    exact (Negation.negate (.operand hc.onCall)).onRung.rise (by decide)
  | call hf ha ihf iha =>
    rw [tokens_call, List.append_assoc]
    have hc : CallChain tokens _ _ := .head (operand_of_reads hf ihf)
    exact (Negation.operand (hc.call iha).onCall).onRung.rise (by decide)

end Constructors

end TreeMetrics.Twig
