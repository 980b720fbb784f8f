import TreeMetrics.Proofs.Twig.Declaration

namespace TreeMetrics.Twig

open TreeMetrics.Expr TreeMetrics.Twig.Rule

variable {q : Bool} {c c' d d' : Cursor} {o : Outcome Rule} {x y : Expr Rule} {r : Rule}
variable {ts : List (ParseTree Rule)} {z : Char} {g u v rest rest' : List Char}

/-- The characters that end a statement or stand around a block. -/
def marks : List Char := [';', '\x7b', '\x7d']

/-- A character that is neither a mark nor the beginning of a gap. -/
def isInner (z : Char) : Bool := opensToken z && !marks.contains z

/-- Text without marks. Marks in comments do not count. -/
inductive Stretch : List Char → Prop where
  | nil : Stretch []
  | inner {z : Char} {u : List Char} : isInner z = true → Stretch u → Stretch (z :: u)
  | blank {b u : List Char} : Blank b → Stretch u → Stretch (b ++ u)

theorem opensToken_of_isInner (h : isInner z = true) : opensToken z = true :=
  (Bool.and_eq_true_iff.1 h).1

theorem not_mem_marks_of_isInner (h : isInner z = true) : z ∉ marks := by
  obtain ⟨-, hm⟩ := Bool.and_eq_true_iff.1 h
  rwa [Bool.not_eq_true', ← Bool.not_eq_true, List.contains_iff_mem] at hm

theorem opensToken_of_mark (hz : z ∈ marks) : opensToken z = true := by
  have hall : marks.all opensToken = true := by decide
  exact List.all_eq_true.1 hall z hz

namespace Stretch

theorem inners (h : ∀ z ∈ u, isInner z = true) : Stretch u := by
  induction u with
  | nil => exact .nil
  | cons z u ih =>
    obtain ⟨hz, hu⟩ := List.forall_mem_cons.1 h
    exact .inner hz (ih hu)

theorem append (hu : Stretch u) (hv : Stretch v) : Stretch (u ++ v) := by
  induction hu with
  | nil => exact hv
  | inner hz _ ih => exact .inner hz ih
  | blank hb _ ih =>
    rw [List.append_assoc]
    exact .blank hb ih

theorem blanks (hg : Blanks g) : Stretch g := by
  obtain ⟨bs, hbs, rfl⟩ := hg
  induction bs with
  | nil => exact .nil
  | cons b bs ih =>
    obtain ⟨hb, hbs⟩ := List.forall_mem_cons.1 hbs
    exact .blank hb (ih hbs)

theorem of_inner_cons (hz : isInner z = true) (h : Stretch (z :: u)) : Stretch u := by
  generalize hv : z :: u = v at h
  cases h with
  | nil => cases hv
  | inner _ h =>
    cases hv
    exact h
  | blank hb _ =>
    obtain ⟨y, b, rfl, hy⟩ := hb.exists_cons
    cases hv
    rw [opensToken_of_isInner hz] at hy
    cases hy

theorem of_inners_append (hv : ∀ z ∈ v, isInner z = true) (h : Stretch (v ++ u)) : Stretch u := by
  induction v with
  | nil => exact h
  | cons z v ih =>
    obtain ⟨hz, hv⟩ := List.forall_mem_cons.1 hv
    exact ih hv (h.of_inner_cons hz)

/-- The blank text at the beginning comes to an end. -/
theorem exists_gap (h : Stretch u) :
    ∃ g v, u = g ++ v ∧ Blanks g ∧ Stretch v ∧ ∀ z ∈ v.head?, opensToken z = true := by
  induction h with
  | nil => exact ⟨[], [], rfl, blanks_nil, .nil, fun z hz => by cases hz⟩
  | @inner z u hz h _ =>
    refine ⟨[], z :: u, rfl, blanks_nil, .inner hz h, fun y hy => ?_⟩
    cases hy
    exact opensToken_of_isInner hz
  | blank hb _ ih =>
    obtain ⟨g, v, rfl, hg, hv, hz⟩ := ih
    exact ⟨_, v, (List.append_assoc _ g v).symm, (Blanks.one hb).append hg, hv, hz⟩

end Stretch

/-- The rules for expressions and what they are made of. -/
def isInline : Rule → Bool
  | expr | assignment | ternary | orExpr | andExpr | eqExpr | relExpr | addExpr | unary | callChain
  | callArgs | primary | assignOp | orOp | andOp | eqOp | relOp | addOp | notOp | number | keyword
  | identChar | identRaw | identifier => true
  | _ => false

/-- Decides whether an expression takes no marks, and blank text only as a gap. -/
def inline : Expr Rule → Bool
  | .empty => true
  | .lit s => s.toList.all isInner
  | .char k => k != .any
  | .atEnd => false
  | .call r => isInline r
  | .seq x y => .seq x y == gap || inline x && inline y
  | .alt x y => inline x && inline y
  | .star x | .not x => inline x

theorem inline_pattern (h : isInline r = true) : inline (pattern r) = true := by
  cases r <;> first | rfl | cases h

theorem inline_seq (h : inline (.seq x y) = true) :
    .seq x y = gap ∨ inline x = true ∧ inline y = true := by
  rwa [inline, Bool.or_eq_true, Bool.and_eq_true, beq_iff_eq] at h

theorem isInner_of_holds {k : CharClass} (hk : k ≠ .any) (h : k.holds z = true) :
    isInner z = true := by
  have hw := Abreast.isWordChar_of_holds hk h
  rw [isInner, opensToken_of_isWordChar hw, Bool.true_and, Bool.not_eq_true', ← Bool.not_eq_true,
    List.contains_iff_mem]
  intro hm
  simp only [marks, List.mem_cons, List.not_mem_nil, or_false] at hm
  rcases hm with rfl | rfl | rfl
  all_goals cases hw

/-- What such an expression takes has no marks. -/
theorem stretch_of_derives (h : Derives grammar q x c (some (ts, d))) (hx : inline x = true)
    (hd : d.rest ≠ []) : ∃ u, c.Spans d u ∧ Stretch u := by
  generalize ho : some (ts, d) = o at h
  induction h generalizing ts d with
  | empty | star_nil | not =>
    cases ho
    exact ⟨[], .refl _, .nil⟩
  | lit hc =>
    cases ho
    exact ⟨_, Cursor.text?_eq_some.1 hc, .inners (List.all_eq_true.1 hx)⟩
  | char hc =>
    cases ho
    obtain ⟨z, hz, hs⟩ := Cursor.char?_eq_some.1 hc
    exact ⟨[z], hs, .inner (isInner_of_holds (bne_iff_ne.1 hx) hz) .nil⟩
  | atEnd => cases hx
  | seq hl hr ihl ihr =>
    cases ho
    rcases inline_seq hx with hg | ⟨hx, hy⟩
    · have hgap := Derives.seq hl hr
      rw [hg] at hgap
      obtain ⟨g, hs, -, hb⟩ := inv_gap hgap
      exact ⟨g, hs, .blanks (hb hd)⟩
    · obtain ⟨v, hs', hv⟩ := ihr hy hd rfl
      obtain ⟨u, hs, hu⟩ := ihl hx (hs'.rest_ne_nil hd) rfl
      exact ⟨u ++ v, hs.trans hs', hu.append hv⟩
  | alt_left _ ih => exact ih (Bool.and_eq_true_iff.1 hx).1 hd ho
  | alt_right _ _ _ ih => exact ih (Bool.and_eq_true_iff.1 hx).2 hd ho
  | star_cons _ _ ihx ihs =>
    cases ho
    obtain ⟨v, hs', hv⟩ := ihs hx hd rfl
    obtain ⟨u, hs, hu⟩ := ihx hx (hs'.rest_ne_nil hd) rfl
    exact ⟨u ++ v, hs.trans hs', hu.append hv⟩
  | call_quiet _ ih | call_silent _ _ ih => exact ih (inline_pattern hx) hd ho
  | call _ _ ih =>
    cases ho
    exact ih (inline_pattern hx) hd rfl
  | _ => cases ho

/-- The same text without marks stands at both cursors, and the same mark behind it. -/
def Poised (z : Char) (rest rest' : List Char) (c c' : Cursor) : Prop :=
  ∃ v, Stretch v ∧ c.rest = v ++ z :: rest ∧ c'.rest = v ++ z :: rest'

namespace Poised

theorem isPrefix_iff (hz : z ∈ marks) (hu : ∀ y ∈ u, isInner y = true) :
    u <+: v ++ z :: rest ↔ u <+: v := by
  have hn : z ∉ u := fun hm => not_mem_marks_of_isInner (hu z hm) hz
  exact ⟨isPrefix_of_not_mem hn, fun h => h.trans (List.prefix_append v _)⟩

/-- Both cursors are moved over the same text. -/
theorem step (hz : z ∈ marks) (h : Poised z rest rest' c c') (hu : ∀ y ∈ u, isInner y = true)
    (hs : c.Spans d u) (hs' : c'.Spans d' u) : Poised z rest rest' d d' := by
  obtain ⟨v, hv, hrest, hrest'⟩ := h
  have hp : u <+: v := by
    have hp' : u <+: c.rest := ⟨d.rest, hs.rest.symm⟩
    rw [hrest] at hp'
    exact (isPrefix_iff hz hu).1 hp'
  obtain ⟨w, rfl⟩ := hp
  rw [hs.rest, List.append_assoc] at hrest
  rw [hs'.rest, List.append_assoc] at hrest'
  exact ⟨w, hv.of_inners_append hu, List.append_cancel_left hrest, List.append_cancel_left hrest'⟩

theorem isPrefix_congr (hz : z ∈ marks) (h : Poised z rest rest' c c')
    (hu : ∀ y ∈ u, isInner y = true) : u <+: c.rest ↔ u <+: c'.rest := by
  obtain ⟨v, -, hrest, hrest'⟩ := h
  rw [hrest, hrest', isPrefix_iff hz hu, isPrefix_iff hz hu]

/-- The same gap stands at both cursors. -/
theorem passes (hz : z ∈ marks) (h : Poised z rest rest' c c') :
    Passes (Poised z rest rest') c c' := by
  intro q
  obtain ⟨p, cs⟩ := c
  obtain ⟨p', cs'⟩ := c'
  obtain ⟨v, hv, rfl, rfl⟩ := h
  obtain ⟨g, w, rfl, hg, hw, hopens⟩ := hv.exists_gap
  have hhead : ∀ rest, ∀ y ∈ (w ++ z :: rest).head?, opensToken y = true := by
    intro rest y hy
    cases w with
    | nil =>
      cases hy
      exact opensToken_of_mark hz
    | cons a w => exact hopens y hy
  rw [List.append_assoc, List.append_assoc]
  exact ⟨_, _, gap_append hg (hhead rest) q p, gap_append hg (hhead rest') q p', w, hw, rfl, rfl⟩

end Poised

theorem poised_paces (hz : z ∈ marks) :
    Paces (fun x c c' => inline x = true ∧ Poised z rest rest' c c') (Poised z rest rest') where
  near h := h.2
  lit h := by
    have hs := List.all_eq_true.1 h.1
    exact .text (h.2.isPrefix_congr hz hs) fun d d' hd hd' => h.2.step hz hs hd hd'
  char {k _ _} h := by
    have hk : ∀ y, k.holds y = true → ∀ y' ∈ [y], isInner y' = true := fun y hy =>
      List.forall_mem_singleton.2 (isInner_of_holds (bne_iff_ne.1 h.1) hy)
    exact .char (fun y hy => h.2.isPrefix_congr hz (hk y hy)) fun y d d' hy hd hd' =>
      h.2.step hz (hk y hy) hd hd'
  atEnd h := by cases h.1
  seq h := by
    rcases inline_seq h.1 with hg | ⟨hx, hy⟩
    · exact .inl ⟨hg, h.2.passes hz⟩
    · exact .inr (.inr ⟨⟨hx, h.2⟩, fun d d' hd => ⟨hy, hd⟩⟩)
  alt h := by
    obtain ⟨hx, hy⟩ := Bool.and_eq_true_iff.1 h.1
    exact ⟨⟨hx, h.2⟩, hy, h.2⟩
  star h := ⟨h, fun d d' hd => ⟨h.1, hd⟩⟩
  not h := h
  call h := ⟨inline_pattern h.1, h.2⟩

namespace Poised

/-- An expression that takes no marks takes the same text at both cursors. -/
theorem takes (hz : z ∈ marks) (hc : Poised z rest rest' c c') (hx : inline x = true)
    (h : Derives grammar q x c (some (ts, d))) :
    ∃ ts' d' u, Derives grammar q x c' (some (ts', d')) ∧ c.Spans d u ∧ c'.Spans d' u ∧
      Poised z rest rest' d d' := by
  obtain ⟨o', h', hm⟩ := (poised_paces hz).inStep h ⟨hx, hc⟩
  cases hm with
  | takes _ hd _ =>
    obtain ⟨u, hs⟩ := h.spans
    obtain ⟨u', hs'⟩ := h'.spans
    obtain ⟨v, -, hrest, hrest'⟩ := hc
    obtain ⟨w, -, hw, hw'⟩ := id hd
    have hv : v = u ++ w := by
      rw [hs.rest, hw, ← List.append_assoc] at hrest
      exact (List.append_cancel_right hrest).symm
    have hv' : v = u' ++ w := by
      rw [hs'.rest, hw', ← List.append_assoc] at hrest'
      exact (List.append_cancel_right hrest').symm
    cases List.append_cancel_right (hv.symm.trans hv')
    exact ⟨_, _, u, h', hs, hs', hd⟩

theorem refuses (hz : z ∈ marks) (hc : Poised z rest rest' c c') (hx : inline x = true)
    (h : Derives grammar q x c none) : Derives grammar q x c' none := by
  obtain ⟨o', h', hm⟩ := (poised_paces hz).inStep h ⟨hx, hc⟩
  cases hm
  exact h'

end Poised

/-- What takes no marks is matched wherever it stands, if the same text up to a mark follows. -/
theorem inline_travels {e e' : Cursor} {w : List Char} (hz : z ∈ marks) (hv : Stretch v)
    (hx : inline x = true) (h : Derives grammar q x c (some (ts, d))) (hs : c.Spans d u)
    (he : d.Spans e (v ++ z :: w)) (hs' : c'.Spans d' u) (he' : d'.Spans e' (v ++ z :: w)) :
    ∃ ts', Derives grammar q x c' (some (ts', d')) := by
  have hne : d.rest ≠ [] := by
    rw [he.rest]
    simp
  obtain ⟨u', hu', hstretch⟩ := stretch_of_derives h hx hne
  cases hs.text_inj hu'
  have hc : Poised z (w ++ e.rest) (w ++ e'.rest) c c' := by
    refine ⟨u ++ v, hstretch.append hv, ?_, ?_⟩
    · rw [hs.rest, he.rest]
      simp
    · rw [hs'.rest, he'.rest]
      simp
  obtain ⟨ts', e₁, u₁, h', ht, ht', -⟩ := hc.takes hz hx h
  cases hs.text_inj ht
  cases hs'.det ht'
  exact ⟨ts', h'⟩

end TreeMetrics.Twig
