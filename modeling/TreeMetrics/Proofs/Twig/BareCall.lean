import TreeMetrics.Proofs.Twig.Delimiter
import TreeMetrics.Proofs.Twig.Series

namespace TreeMetrics.Twig

open TreeMetrics.Expr TreeMetrics.Twig.Rule

variable {c d : Cursor} {p : Position} {r : Rule} {w : String} {rest : List String} {z : Char}
variable {u v : List Char} {x : Expr Rule} {ts : List (ParseTree Rule)} {e : Tree Node}
variable {P : List (ParseTree Rule) → Prop}

def IsOperand (w : String) : Prop := IsIdentifier w ∨ IsNumber w

instance : DecidablePred IsOperand := fun w =>
  inferInstanceAs (Decidable (IsIdentifier w ∨ IsNumber w))

/-- The end of a call without arguments that is a statement, and the tokens behind it. -/
def callEnd (rest : List String) : List Char := '(' :: ')' :: ';' :: trail rest

theorem endsWord_callEnd : EndsWord (callEnd rest) := by
  intro z hz
  cases hz
  rfl

/-- At the cursor, the expression matches what stands in front of the tokens, with trees that have
the property. -/
def Takes (x : Expr Rule) (c : Cursor) (rest : List String) (P : List (ParseTree Rule) → Prop) :
    Prop :=
  ∃ ts d, Derives grammar false x c (some (ts, d)) ∧ Near d rest ∧ P ts

section Tight

theorem Nearing.rest_eq {d' : Cursor} (h : Nearing z v d d') (hd : d.rest.length ≤ v.length) :
    d'.rest = d.rest := by
  cases h with
  | before _ =>
    simp only [List.length_append, List.length_cons] at hd
    omega
  | after => rfl

theorem Near.length_le (h : Near d rest) : d.rest.length ≤ (trail rest).length := by
  rcases h with h | h
  · rw [h]
    cases rest with
    | nil => exact Nat.le_refl _
    | cons w rest =>
      rw [trail_cons]
      exact Nat.le_succ _
  · rw [h]

/-- The property of the trees does not depend on where they begin. -/
def Placeless (x : Expr Rule) (P : List (ParseTree Rule) → Prop) : Prop :=
  ∀ c d ts ts', Derives grammar false x c (some (ts, d)) → List.Forall₂ Alike ts ts' → P ts → P ts'

theorem Takes.without_blank (h : Takes x ⟨p, u ++ ' ' :: z :: v⟩ rest P) (hP : Placeless x P)
    (hz : z ∈ delimiters) (hx : tidy z x = true) (hu : '/' ∉ u) (hne : u ≠ [])
    (hv : (trail rest).length ≤ v.length) : Takes x ⟨p, u ++ z :: v⟩ rest P := by
  obtain ⟨ts, d, hd, hnear, hts⟩ := h
  have ht : Tried z v x ⟨p, u ++ ' ' :: z :: v⟩ ⟨p, u ++ z :: v⟩ :=
    .before hx (fun hn => absurd hn hne) hu
  obtain ⟨_, hd', hm⟩ := (tried_paces hz).inStep hd ht
  cases hm with
  | @takes _ ts' _ d' hts' hnear' _ =>
    have hrest := hnear'.rest_eq (hnear.length_le.trans hv)
    refine ⟨ts', d', hd', ?_, hP _ _ _ _ hd hts' hts⟩
    rwa [Near, hrest]

/-- A call is read without blanks as well as with them. -/
theorem Reads.tight (h : Reads x [w, "(", ")", ";"] rest P) (hP : Placeless x P)
    (hx : ['(', ')', ';'].all (tidy · x) = true) (hs : Starts rest)
    (hw : ∀ z ∈ w.toList, isWordChar z = true) (hne : w.toList ≠ [])
    (hc : c.rest = w.toList ++ callEnd rest) : Takes x c rest P := by
  obtain ⟨p, cs⟩ := c
  cases hc
  have hslash : '/' ∉ w.toList := by
    intro hm
    cases hw '/' hm
  rw [List.all_eq_true] at hx
  have h₀ : Takes x ⟨p, w.toList ++ ' ' :: '(' :: ' ' :: ')' :: ' ' :: ';' :: trail rest⟩ rest P :=
    (h hs).2 _ rfl
  have h₁ : Takes x ⟨p, w.toList ++ ['('] ++ ' ' :: ')' :: ' ' :: ';' :: trail rest⟩ rest P := by
    rw [List.append_assoc]
    apply h₀.without_blank hP (by decide) (hx '(' (by decide)) hslash hne
    simp only [List.length_cons]
    omega
  have h₂ : Takes x ⟨p, w.toList ++ ['(', ')'] ++ ' ' :: ';' :: trail rest⟩ rest P := by
    have h := h₁.without_blank hP (by decide) (hx ')' (by decide)) (by simp [hslash]) (by simp)
      (by simp only [List.length_cons]; omega)
    rwa [List.append_assoc] at h ⊢
  have h₃ := h₂.without_blank hP (by decide) (hx ';' (by decide)) (by simp [hslash]) (by simp)
    (Nat.le_refl _)
  rwa [List.append_assoc] at h₃

end Tight

section Operands

theorem IsOperand.isWordChar (h : IsOperand w) : ∀ z ∈ w.toList, isWordChar z = true := by
  rcases h with h | h
  · exact h.1.isWordChar
  · exact fun z hz => isWordChar_of_isDigit (h.2 z hz)

theorem IsOperand.beginsWord (h : IsOperand w) : BeginsWord w := by
  rcases h with h | h
  · exact h.beginsWord
  · exact h.beginsWord

theorem BeginsWord.ne_nil (h : BeginsWord w) : w.toList ≠ [] := by
  obtain ⟨z, zs, hw, -⟩ := h
  rw [hw]
  exact List.cons_ne_nil z zs

theorem exists_operand (h : IsOperand w) : ∃ e, Operand e [w] := by
  rcases h with h | h
  · exact ⟨.leaf (.word .name w 0 0), operand_name h⟩
  · exact ⟨.leaf (.word .literal w 0 0), operand_literal h⟩

theorem Operand.call_reads (h : Operand e [w]) :
    ReadsAs expr (applied e []) [w, "(", ")"] (";" :: rest) := by
  have hc : CallChain tokens (applied e []) ([w] ++ bracketed tokens []) :=
    .call (.head h) (List.forall_mem_nil _)
  have hrung : OnRung 8 (applied e []) [w, "(", ")"] :=
    (Negation.operand hc.onCall).onRung.rise (by decide)
  exact hrung _ (closes_cons ";" (by decide))

def callStatement (e : Tree Node) : Tree Node :=
  .node (.plain .expressionStatement 0 0) [applied e []]

theorem placeless_statementOf {a : Tree Node} (hr : r ∈ statementRules) :
    Placeless (.call r) (StatementOf a) := by
  rintro c d _ ts' h hts ⟨t, rfl, hne, x, hx, hux⟩
  obtain ⟨t', rfl, ha⟩ := Alike.inv_one hts
  obtain ⟨_, ht, hfits⟩ := fits_of_statement_rule hr h
  cases ht
  obtain ⟨y, z, hy, hz, hyz⟩ := statementsConcur t r (List.mem_cons_of_mem _ hr) hfits t' ha
  cases hx.symm.trans hy
  exact ⟨t', rfl, ha.rule_eq ▸ hne, z, hz, hyz.symm.trans hux⟩

theorem exprStmt_takes (h : IsOperand w) (he : Operand e [w]) (hs : Starts rest)
    (hc : c.rest = w.toList ++ callEnd rest) :
    Takes (.call exprStmt) c rest (StatementOf (callStatement e)) := by
  have hread : Reads (.call exprStmt) [w, "(", ")", ";"] rest (StatementOf (callStatement e)) := by
    refine .statement rfl rfl (by decide) ((he.call_reads.phrase_lit (by decide)).mono ?_)
    rintro _ ⟨t, rfl, ht, hy⟩
    exact partsOf_nil.cons_expr ht hy
  exact hread.tight (placeless_statementOf (by decide)) (by decide) hs h.isWordChar
    h.beginsWord.ne_nil hc

/-- What may stand behind `return`. -/
theorem given_takes (h : IsOperand w) (hs : Starts rest)
    (hc : c.rest = w.toList ++ callEnd rest) :
    Takes (phrase [opt (.call expr), .lit ";"]) c rest fun _ => True := by
  obtain ⟨e, he⟩ := exists_operand h
  have hread : Reads (phrase [opt (.call expr), .lit ";"]) [w, "(", ")", ";"] rest fun _ => True :=
    (he.call_reads.opt.phrase_lit (by decide)).mono fun _ _ => trivial
  exact hread.tight (fun _ _ _ _ _ _ _ => trivial) (by decide) hs h.isWordChar
    h.beginsWord.ne_nil hc

end Operands

section Refusal

/-- A rung goes no further in front of a word. -/
theorem rung_rises {n : Nat} (h : Derives grammar false (.call (rung n)) c (some (ts, d)))
    (hd : Settled d) (ha : Avoids (stops (n + 1)) [String.ofList d.rest]) :
    ∃ us, Derives grammar false (.call (rung (n + 1))) c (some (us, d)) := by
  have hpair {y : Expr Rule} (hy : Derives grammar false y d none) :
      Derives grammar false (phrase [.call (rung n), opt y]) c (some (ts ++ [], d)) :=
    .seq h (.seq hd.gap (.alt_right hy .empty))
  by_cases hn : n < 5
  · obtain ⟨op, hl⟩ := level_rung hn
    have hs := stands_of_level? hl
    have hb : Derives grammar false (pattern (rung (n + 1))) c (some (ts ++ [], d)) := by
      rw [hs.pattern]
      exact hpair (.seq_none_left (.seq_none_left ((refuses_op hs ha).of_rest rfl)))
    have hnormal : (grammar.production (rung (n + 1))).visibility = .normal := hs.normal
    exact ⟨_, .call (ne_silent_of_normal hs.normal) (by rw [hnormal]; exact hb)⟩
  · obtain rfl | rfl | rfl | ⟨m, rfl⟩ := exists_upper_rung hn
    · have hy := (Refuses.lit ha).of_rest rfl
      exact ⟨_, .call (g := grammar) (r := ternary) (by decide) (hpair (.seq_none_left hy))⟩
    · have hy := (Refuses.spelling (r := assignOp) (by decide) rfl ha).of_rest rfl
      exact ⟨_, .call (g := grammar) (r := assignment) (by decide) (hpair (.seq_none_left hy))⟩
    · exact ⟨_, .call (g := grammar) (r := expr) (by decide) h⟩
    · exact ⟨_, h⟩

theorem beginsWord_append (h : BeginsWord w) (v : List Char) :
    BeginsWord (String.ofList (w.toList ++ v)) := by
  obtain ⟨z, zs, hw, hz⟩ := h
  exact ⟨z, zs ++ v, by rw [String.toList_ofList, hw, List.cons_append], hz⟩

theorem BeginsWord.settled (h : BeginsWord (String.ofList c.rest)) : Settled c := by
  have hs : Starts [String.ofList c.rest] := h.starts
  exact settled_of_starts hs (layout_ofList c.rest).symm

/-- A number in front of a word is an expression. -/
theorem expr_of_number (hw : IsNumber w) (hs : c.Spans d w.toList)
    (hd : BeginsWord (String.ofList d.rest)) (hz : ∀ z ∈ d.rest.head?, z.isDigit = false) :
    ∃ ts, Derives grammar false (.call expr) c (some (ts, d)) := by
  have hc : BeginsWord (String.ofList c.rest) := by
    rw [hs.rest]
    exact beginsWord_append hw.beginsWord d.rest
  have hnumber := number_append c.position hw hz
  rw [← hs.rest, ← hs.position] at hnumber
  have hprimary := Derives.silent (r := primary) rfl (.alt_left hnumber)
  have hargs : Derives grammar false (.call callArgs) d none :=
    (refuses_callArgs (hd.avoids (by decide))).of_rest rfl
  have hchain := Derives.call (g := grammar) (r := callChain) (by decide)
    (.seq hprimary (.seq hd.settled.gap (.alt_right (.seq_none_left hargs) .empty)))
  have hmark : Avoids ["!"] [String.ofList c.rest] := hc.avoids (by decide)
  have hnot : Derives grammar false (.call notOp) c none :=
    (Refuses.spelling (by decide) rfl hmark).of_rest rfl
  have hunary := Derives.call (g := grammar) (r := unary) (by decide)
    (.seq (.alt_right (.seq_none_left hnot) .empty) (.seq hc.settled.gap hchain))
  have hstops : ∀ n < 9, ∀ k ∈ stops n, k.toList.head?.any (!isWordChar ·) = true := by decide
  have hrung : ∀ n < 9, ∃ ts, Derives grammar false (.call (rung n)) c (some (ts, d)) := by
    intro n hn
    induction n with
    | zero => exact ⟨_, hunary⟩
    | succ n ih =>
      obtain ⟨ts, hts⟩ := ih (by omega)
      exact rung_rises hts hd.settled (hd.avoids (hstops (n + 1) hn))
  exact hrung 8 (by decide)

theorem isDigit_of_not_isWordStart (h : isWordChar z = true) (hn : isWordStart z = false) :
    z.isDigit = true := by
  rw [isWordStart, Bool.or_eq_false_iff] at hn
  simpa [isWordChar, Char.isAlphanum, hn.1, hn.2] using h

/-- Letters, digits and underscores are an operand, or a keyword, or a word behind a number. -/
theorem word_cases (hw : ∀ z ∈ w.toList, isWordChar z = true) :
    w = "" ∨ w ∈ keywords ∨ IsOperand w ∨
      ∃ n z zs, IsNumber n ∧ isWordStart z = true ∧ w.toList = n.toList ++ z :: zs := by
  cases hcs : w.toList with
  | nil => exact .inl (String.toList_eq_nil_iff.1 hcs)
  | cons y ys =>
    rw [hcs] at hw
    obtain ⟨hy, hys⟩ := List.forall_mem_cons.1 hw
    cases hstart : isWordStart y with
    | true =>
      have hword : IsWord w.toList := hcs ▸ ⟨hstart, hys⟩
      by_cases hk : w ∈ keywords
      · exact .inr (.inl hk)
      · exact .inr (.inr (.inl (.inl ⟨hword, hk⟩)))
    | false =>
      have hdigits : ∀ z ∈ y :: ys.takeWhile Char.isDigit, z.isDigit = true :=
        List.forall_mem_cons.2
          ⟨isDigit_of_not_isWordStart hy hstart, List.all_eq_true.1 List.all_takeWhile⟩
      have hsplit : ys = ys.takeWhile Char.isDigit ++ ys.dropWhile Char.isDigit :=
        (List.takeWhile_append_dropWhile).symm
      have hhead := List.head?_dropWhile_not Char.isDigit ys
      cases hrest : ys.dropWhile Char.isDigit with
      | nil =>
        rw [hrest, List.append_nil] at hsplit
        rw [← hsplit] at hdigits
        exact .inr (.inr (.inl (.inr ⟨by rw [hcs]; exact List.cons_ne_nil y ys, hcs ▸ hdigits⟩)))
      | cons z zs =>
        rw [hrest] at hsplit hhead
        have hz : isWordChar z = true := hys z (hsplit ▸ List.mem_append_right _ List.mem_cons_self)
        have hzstart : isWordStart z = true := by
          by_contra hn
          rw [Bool.not_eq_true] at hn
          have hdigit := isDigit_of_not_isWordStart hz hn
          simp [hdigit] at hhead
        refine .inr (.inr (.inr ⟨String.ofList (y :: ys.takeWhile Char.isDigit), z, zs, ?_⟩))
        rw [IsNumber, String.toList_ofList, List.cons_append, ← hsplit]
        exact ⟨⟨List.cons_ne_nil _ _, hdigits⟩, hzstart, rfl⟩

theorem exists_head (rest : List String) (hw : ∀ z ∈ w.toList, isWordChar z = true) :
    ∃ z zs, w.toList ++ callEnd rest = z :: zs ∧ (isWordChar z = true ∨ z = '(') := by
  cases hcs : w.toList with
  | nil => exact ⟨'(', ')' :: ';' :: trail rest, rfl, .inr rfl⟩
  | cons y ys => exact ⟨y, _, rfl, .inl (hw y (hcs ▸ List.mem_cons_self))⟩

theorem settled_called (hw : ∀ z ∈ w.toList, isWordChar z = true)
    (hc : c.rest = w.toList ++ callEnd rest) : Settled c := by
  obtain ⟨z, zs, hcs, hz⟩ := exists_head rest hw
  apply settled_of_opens
  rw [hc, hcs]
  intro y hy
  cases hy
  rcases hz with hz | rfl
  · exact opensToken_of_isWordChar hz
  · rfl

theorem avoids_called {ks : List String} (hw : ∀ z ∈ w.toList, isWordChar z = true)
    (hk : ∀ k ∈ ks, k.toList.head?.any (fun z => !isWordChar z && z != '(') = true) :
    Avoids ks [String.ofList (w.toList ++ callEnd rest)] := by
  obtain ⟨z, zs, hcs, hz⟩ := exists_head rest hw
  rw [hcs]
  apply avoids_of_head
  intro k hm
  obtain ⟨y, hy, hn⟩ := Option.any_eq_true _ _ |>.1 (hk k hm)
  rw [Bool.and_eq_true, Bool.not_eq_true', bne_iff_ne] at hn
  rw [hy, Option.any_some, bne_iff_ne]
  rintro rfl
  rcases hz with hz | hz
  · rw [hn.1] at hz
    cases hz
  · exact hn.2 hz

/-- An empty pair of parentheses is no expression in parentheses. -/
theorem parentheses_none {y : Expr Rule} {zs : List (Expr Rule)} (hc : c.rest = callEnd rest) :
    Derives grammar false (phrase (.lit "(" :: .call expr :: y :: zs)) c none := by
  obtain ⟨p, cs⟩ := c
  cases hc
  have hd : Settled ⟨p.after "(".toList, ')' :: ';' :: trail rest⟩ := by
    apply settled_of_opens
    intro z hz
    cases hz
    rfl
  exact .seq_none_right (.lit_append "(" p _) (.seq_none_right hd.gap
    (.seq_none_left ((refuses_expr_of_head rfl rfl (by decide)).of_rest rfl)))

/-- No expression begins with an empty pair of parentheses. -/
theorem refuses_expr_callEnd : Refuses (.call expr) [String.ofList (callEnd rest)] := by
  have hnumber : Refuses (.call number) [String.ofList (callEnd rest)] := by
    apply refuses_number
    rw [layout_ofList]
    intro z hz
    cases hz
    rfl
  have hname : Refuses (.call identifier) [String.ofList (callEnd rest)] := by
    apply refuses_identifier
    rw [layout_ofList]
    intro z hz
    cases hz
    rfl
  have hparen : Refuses (phrase [.lit "(", .call expr, .lit ")"])
      [String.ofList (callEnd rest)] :=
    fun c hc => parentheses_none (hc.trans (layout_ofList _))
  have hs : Starts [String.ofList (callEnd rest)] := by
    rw [Starts, String.toList_ofList]
    rfl
  exact refuses_expr_of_primary hs (avoids_of_head (by decide))
    (.silent rfl (hnumber.alt (hname.alt hparen)))

theorem IsWord.head_append (h : IsWord u) : ∀ z ∈ (u ++ v).head?, isWordStart z = true := by
  cases u with
  | nil => cases h
  | cons y ys =>
    intro z hz
    cases hz
    exact h.1

/-- No expression begins with a keyword. -/
theorem refuses_expr_keyword (hk : w ∈ keywords) (hv : EndsWord v) :
    Refuses (.call expr) [String.ofList (w.toList ++ v)] := by
  have hbegins : BeginsWord (String.ofList (w.toList ++ v)) :=
    beginsWord_append (IsWord.exists_cons (isWord_of_keyword w hk)) v
  have hnumber : Refuses (.call number) [String.ofList (w.toList ++ v)] := by
    apply refuses_number
    rw [layout_ofList]
    exact fun z hz => isDigit_of_isWordStart ((isWord_of_keyword w hk).head_append z hz)
  have hname : Refuses (.call identifier) [String.ofList (w.toList ++ v)] := by
    intro c hc
    rw [layout_ofList] at hc
    obtain ⟨p, cs⟩ := c
    cases hc
    exact .call_none (by decide) (.seq_none_left (.not_none (keyword_append p hk hv)))
  have hparen : Avoids ["("] [String.ofList (w.toList ++ v)] := hbegins.avoids (by decide)
  exact refuses_expr_of_primary hbegins.starts (hbegins.avoids (by decide))
    (.silent rfl (hnumber.alt (hname.alt (Refuses.lit hparen).seq)))

/-- Where what is called is no operand, an expression does not begin or ends inside the word. -/
theorem expr_outcome (hw : ∀ z ∈ w.toList, isWordChar z = true) (hn : ¬IsOperand w)
    (hc : c.rest = w.toList ++ callEnd rest) :
    Derives grammar false (.call expr) c none ∨ ∃ ts d,
      Derives grammar false (.call expr) c (some (ts, d)) ∧ BeginsWord (String.ofList d.rest) := by
  rcases word_cases hw with rfl | hk | ho | ⟨n, z, zs, hnumber, hz, hcs⟩
  · exact .inl (refuses_expr_callEnd.of_rest hc)
  · exact .inl ((refuses_expr_keyword hk endsWord_callEnd).of_rest hc)
  · exact absurd ho hn
  · right
    rw [hcs, List.append_assoc] at hc
    have hs : c.Spans ⟨c.position.after n.toList, z :: zs ++ callEnd rest⟩ n.toList := ⟨hc, rfl⟩
    have hd : BeginsWord (String.ofList (z :: zs ++ callEnd rest)) :=
      ⟨z, zs ++ callEnd rest, String.toList_ofList, isWordChar_of_isWordStart hz⟩
    obtain ⟨ts, h⟩ := expr_of_number hnumber hs hd fun y hy => by
      cases hy
      exact isDigit_of_isWordStart hz
    exact ⟨ts, _, h, hd⟩

/-- Nothing that is not an operand is called. -/
theorem call_none (hw : ∀ z ∈ w.toList, isWordChar z = true) (hn : ¬IsOperand w)
    (hc : c.rest = w.toList ++ callEnd rest) :
    Derives grammar false (phrase [.call expr, .lit ";"]) c none ∧
      Derives grammar false (phrase [opt (.call expr), .lit ";"]) c none := by
  rcases expr_outcome hw hn hc with h | ⟨ts, d, h, hd⟩
  · have hlit : Derives grammar false (.lit ";") c none :=
      (Refuses.lit (avoids_called hw (by decide))).of_rest hc
    exact ⟨.seq_none_left h, .seq_none_right (.alt_right h .empty)
      (.seq_none_right (settled_called hw hc).gap hlit)⟩
  · have hlit : Derives grammar false (.lit ";") d none :=
      (Refuses.lit (hd.avoids (by decide))).of_rest rfl
    have hrest := Derives.seq_none_right hd.settled.gap hlit
    exact ⟨.seq_none_right h hrest, .seq_none_right (.alt_left h) hrest⟩

end Refusal

section Statements

variable {k y : String}

theorem lit_split (hc : c.rest = (k ++ y).toList ++ callEnd rest) :
    ∃ m, Derives grammar false (.lit k) c (some ([], m)) ∧ m.rest = y.toList ++ callEnd rest := by
  rw [String.toList_append, List.append_assoc] at hc
  have hs : c.Spans ⟨c.position.after k.toList, y.toList ++ callEnd rest⟩ k.toList := ⟨hc, rfl⟩
  exact ⟨_, lit_of_spans hs, rfl⟩

/-- A keyword at a call is the beginning of what is called. -/
theorem lit_called (hk : k ∈ keywords) (hw : ∀ z ∈ w.toList, isWordChar z = true)
    (hc : c.rest = w.toList ++ callEnd rest) :
    Derives grammar false (.lit k) c none ∨
      ∃ y m, w = k ++ y ∧ Derives grammar false (.lit k) c (some ([], m)) ∧
        (∀ z ∈ y.toList, isWordChar z = true) ∧ m.rest = y.toList ++ callEnd rest := by
  by_cases hp : k.toList <+: c.rest
  · right
    rw [hc] at hp
    obtain ⟨u, hu⟩ := isPrefix_word (isWord_of_keyword k hk).isWordChar endsWord_callEnd hp
    have hy : w = k ++ String.ofList u := by
      rw [← String.toList_inj, String.toList_append, String.toList_ofList, hu]
    subst hy
    obtain ⟨m, hm, hrest⟩ := lit_split hc
    refine ⟨String.ofList u, m, rfl, hm, ?_, hrest⟩
    rw [String.toList_ofList]
    exact fun z hz => hw z (hu ▸ List.mem_append_right _ hz)
  · exact .inl (.lit_none (Cursor.text?_eq_none hp))

/-- A call is not taken for a condition. -/
theorem condition_none {zs : List (Expr Rule)} {x : Expr Rule} (hk : k ∈ keywords)
    (hw : ∀ z ∈ w.toList, isWordChar z = true) (hc : c.rest = w.toList ++ callEnd rest) :
    Derives grammar false (phrase (.lit k :: .lit "(" :: .call expr :: x :: zs)) c none := by
  rcases lit_called hk hw hc with h | ⟨y, m, -, h, hy, hm⟩
  · exact .seq_none_left h
  · refine .seq_none_right h (.seq_none_right (settled_called hy hm).gap ?_)
    cases hcs : y.toList with
    | nil =>
      rw [hcs, List.nil_append] at hm
      exact parentheses_none hm
    | cons z zs =>
      have hz : isWordChar z = true := hy z (hcs ▸ List.mem_cons_self)
      refine .seq_none_left (.lit_none (Cursor.text?_eq_none ?_))
      rw [hm, hcs]
      intro hp
      obtain ⟨rfl, -⟩ := List.cons_prefix_cons.1 hp
      cases hz

theorem earlier_none (hw : ∀ z ∈ w.toList, isWordChar z = true)
    (hc : c.rest = w.toList ++ callEnd rest) :
    ∀ r ∈ [block, ifStmt, whileStmt], Derives grammar false (.call r) c none := by
  have hblock : Derives grammar false (.call block) c none :=
    (refuses_opened (w := "\x7b") (by decide) (avoids_called hw (by decide))).of_rest hc
  have hif : Derives grammar false (.call ifStmt) c none :=
    .call_none (by decide) (condition_none (by decide) hw hc)
  have hwhile : Derives grammar false (.call whileStmt) c none :=
    .call_none (by decide) (condition_none (by decide) hw hc)
  simp only [List.forall_mem_cons]
  exact ⟨hblock, hif, hwhile, List.forall_mem_nil _⟩

/-- The word begins with a keyword, and what is left of it is an operand. -/
def Splits (k w : String) : Prop := ∃ y, IsOperand y ∧ w = k ++ y

theorem splits_iff : Splits k w ↔
    k.toList <+: w.toList ∧ IsOperand (String.ofList (w.toList.drop k.toList.length)) := by
  constructor
  · rintro ⟨y, hy, rfl⟩
    rw [String.toList_append, List.drop_left, String.ofList_toList]
    exact ⟨List.prefix_append _ _, hy⟩
  · rintro ⟨⟨u, hu⟩, hy⟩
    rw [← hu, List.drop_left] at hy
    refine ⟨String.ofList u, hy, ?_⟩
    rw [← String.toList_inj, String.toList_append, String.toList_ofList, hu]

instance (k w : String) : Decidable (Splits k w) := decidable_of_iff' _ splits_iff

theorem Splits.isIdentifier (h : Splits k w) (hk : k ∈ keywords) : IsIdentifier w := by
  obtain ⟨y, hy, rfl⟩ := h
  have hword := isWord_of_keyword k hk
  constructor
  · rw [String.toList_append]
    cases hcs : k.toList with
    | nil =>
      rw [hcs] at hword
      cases hword
    | cons z zs =>
      rw [hcs] at hword
      exact ⟨hword.1, List.forall_mem_append.2 ⟨hword.2, hy.isWordChar⟩⟩
  · intro hm
    have heq := keyword_eq_of_isPrefix k hk _ hm ⟨y.toList, String.toList_append.symm⟩
    rw [← String.toList_inj, String.toList_append, List.self_eq_append_right] at heq
    exact hy.beginsWord.ne_nil heq

theorem returnStmt_takes (h : Splits "return" w) (hs : Starts rest)
    (hc : c.rest = w.toList ++ callEnd rest) :
    Takes (.call returnStmt) c rest fun ts => ∃ t, ts = [t] ∧ t.rule = returnStmt := by
  obtain ⟨y, hy, rfl⟩ := h
  obtain ⟨m, hlit, hm⟩ := lit_split hc
  obtain ⟨ts, d, hd, hnear, -⟩ := given_takes hy hs hm
  have hcall := Derives.call (g := grammar) (r := returnStmt) (by decide)
    (.seq hlit (.seq (settled_called hy.isWordChar hm).gap hd))
  exact ⟨_, d, hcall, hnear, _, rfl, rfl⟩

theorem returnStmt_none (hw : ∀ z ∈ w.toList, isWordChar z = true) (hn : ¬Splits "return" w)
    (hc : c.rest = w.toList ++ callEnd rest) : Derives grammar false (.call returnStmt) c none := by
  apply Derives.call_none (by decide)
  rcases lit_called (k := "return") (by decide) hw hc with h | ⟨y, m, rfl, h, hy, hm⟩
  · exact .seq_none_left h
  · have hno : ¬IsOperand y := fun ho => hn ⟨y, ho, rfl⟩
    exact .seq_none_right h (.seq_none_right (settled_called hy hm).gap (call_none hy hno hm).2)

theorem statement_takes_return (h : Splits "return" w) (hs : Starts rest)
    (hc : c.rest = w.toList ++ callEnd rest) :
    Takes (.call statement) c rest fun ts => ∃ t, ts = [t] ∧ t.rule = returnStmt := by
  obtain ⟨ts, d, hd, hrest⟩ := returnStmt_takes h hs hc
  have hw := (h.isIdentifier (by decide)).1.isWordChar
  exact ⟨ts, d, statement_of_rule (r := returnStmt) (by decide) (earlier_none hw hc) hd, hrest⟩

theorem statement_takes_call (h : IsOperand w) (hn : ¬Splits "return" w) (he : Operand e [w])
    (hs : Starts rest) (hc : c.rest = w.toList ++ callEnd rest) :
    Takes (.call statement) c rest (StatementOf (callStatement e)) := by
  obtain ⟨ts, d, hd, hrest⟩ := exprStmt_takes h he hs hc
  refine ⟨ts, d, statement_of_rule (r := exprStmt) (by decide) ?_ hd, hrest⟩
  have hreturn := returnStmt_none h.isWordChar hn hc
  exact List.forall_mem_append.2
    ⟨earlier_none h.isWordChar hc, List.forall_mem_singleton.2 hreturn⟩

theorem statement_takes (h : IsOperand w) (hs : Starts rest)
    (hc : c.rest = w.toList ++ callEnd rest) : Takes (.call statement) c rest fun _ => True := by
  by_cases hr : Splits "return" w
  · obtain ⟨ts, d, hd, hnear, -⟩ := statement_takes_return hr hs hc
    exact ⟨ts, d, hd, hnear, trivial⟩
  · obtain ⟨e, he⟩ := exists_operand h
    obtain ⟨ts, d, hd, hnear, -⟩ := statement_takes_call h hr he hs hc
    exact ⟨ts, d, hd, hnear, trivial⟩

theorem statement_none (hw : ∀ z ∈ w.toList, isWordChar z = true) (hn : ¬IsOperand w)
    (hc : c.rest = w.toList ++ callEnd rest) : Derives grammar false (.call statement) c none := by
  have hreturn : Derives grammar false (.call returnStmt) c none :=
    returnStmt_none hw (fun h => hn (.inl (h.isIdentifier (by decide)))) hc
  have hexpr : Derives grammar false (.call exprStmt) c none :=
    .call_none (by decide) (call_none hw hn hc).1
  have hlast : ∀ r ∈ [returnStmt, exprStmt], Derives grammar false (.call r) c none :=
    List.forall_mem_cons.2 ⟨hreturn, List.forall_mem_singleton.2 hexpr⟩
  have hall : ∀ r ∈ statementRules, Derives grammar false (.call r) c none :=
    List.forall_mem_append.2 ⟨earlier_none hw hc, hlast⟩
  exact .call_silent rfl (.oneOf_call_none hall)

theorem elseClause_takes (h : Splits "else" w) (hs : Starts rest)
    (hc : c.rest = w.toList ++ callEnd rest) : Takes (.call elseClause) c rest fun _ => True := by
  obtain ⟨y, hy, rfl⟩ := h
  obtain ⟨m, hlit, hm⟩ := lit_split hc
  obtain ⟨ts, d, hd, hnear, -⟩ := statement_takes hy hs hm
  have hcall := Derives.call (g := grammar) (r := elseClause) (by decide)
    (.seq hlit (.seq (settled_called hy.isWordChar hm).gap hd))
  exact ⟨_, d, hcall, hnear, trivial⟩

theorem elseClause_none (hw : ∀ z ∈ w.toList, isWordChar z = true) (hn : ¬Splits "else" w)
    (hc : c.rest = w.toList ++ callEnd rest) :
    Derives grammar false (.call elseClause) c none := by
  apply Derives.call_none (by decide)
  rcases lit_called (k := "else") (by decide) hw hc with h | ⟨y, m, rfl, h, hy, hm⟩
  · exact .seq_none_left h
  · have hno : ¬IsOperand y := fun ho => hn ⟨y, ho, rfl⟩
    exact .seq_none_right h (.seq_none_right (settled_called hy hm).gap (statement_none hy hno hm))

end Statements

end TreeMetrics.Twig
