import TreeMetrics.Proofs.Twig.Reading

namespace TreeMetrics.Twig

open TreeMetrics.Expr TreeMetrics.Twig.Rule

variable {q : Bool} {b e g body rest : List Char} {z : Char}

def lineBreaks : List (List Char) := [['\n'], ['\r', '\n'], ['\r']]

def breaksLine (z : Char) : Bool := z == '\n' || z == '\r'

/-- A piece of blank text: a space, a tab, the end of a line, a comment between `/*` and the next
`*/`, or a comment from `//` to the end of the line, which belongs to it. -/
inductive Blank : List Char → Prop where
  | space : Blank [' ']
  | tab : Blank ['\t']
  | lineBreak {e : List Char} : e ∈ lineBreaks → Blank e
  | block {body : List Char} : ¬['*', '/'] <:+: body ++ ['*'] →
    Blank ('/' :: '*' :: (body ++ ['*', '/']))
  | line {body e : List Char} : (∀ z ∈ body, breaksLine z = false) → e ∈ lineBreaks →
    Blank ('/' :: '/' :: (body ++ e))

def Blanks (g : List Char) : Prop := ∃ bs : List (List Char), (∀ b ∈ bs, Blank b) ∧ g = bs.flatten

/-- Blank text that sets words apart. -/
def Gap (g : List Char) : Prop := g ≠ [] ∧ Blanks g

/-- A word that no gap can begin in. -/
def Unbroken (w : String) : Prop := w.toList ≠ [] ∧ ∀ z ∈ w.toList, opensToken z = true

instance (w : String) : Decidable (Unbroken w) :=
  decidable_of_iff (w.toList ≠ [] ∧ w.toList.all opensToken = true)
    (and_congr_right fun _ => List.all_eq_true)

/-- The words follow, each of them behind a gap, and perhaps one more gap behind the last. -/
inductive Trails : List String → List Char → Prop where
  | nil {g : List Char} : Blanks g → Trails [] g
  | cons {g t : List Char} {w : String} {ws : List String} : Gap g → Unbroken w → Trails ws t →
    Trails (w :: ws) (g ++ (w.toList ++ t))

/-- The words with gaps between them, and perhaps before the first and behind the last. -/
inductive LaidOut : List String → List Char → Prop where
  | nil {g : List Char} : Blanks g → LaidOut [] g
  | cons {g t : List Char} {w : String} {ws : List String} : Blanks g → Unbroken w → Trails ws t →
    LaidOut (w :: ws) (g ++ (w.toList ++ t))

section Pieces

/-- The texts that the rule for blanks takes, in the order in which it tries them. -/
def blankTexts : List String := [" ", "\t", "\n", "\r\n", "\r"]

/-- A character that the rule for blanks takes. -/
def isBlankChar (z : Char) : Bool := [' ', '\t', '\n', '\r'].contains z

theorem whitespace_append {k : String}
    (h : blankTexts.find? (fun k' => k'.toList.isPrefixOf (k.toList ++ rest)) = some k)
    (p : Position) :
    Derives grammar q (.call whitespace) ⟨p, k.toList ++ rest⟩
      (some ([], ⟨p.after k.toList, rest⟩)) :=
  .silent rfl (.oneOf_lit_append h)

theorem whitespace_fails (h : ∀ z ∈ rest.head?, isBlankChar z = false) (p : Position) :
    Derives grammar q (.call whitespace) ⟨p, rest⟩ none := by
  apply Derives.silent rfl
  show Derives grammar q (.oneOf (blankTexts.map .lit)) ⟨p, rest⟩ none
  apply Derives.oneOf_lit_fails
  intro k hk hp
  obtain ⟨t, rfl⟩ := hp
  simp only [blankTexts, List.mem_cons, List.not_mem_nil, or_false] at hk
  rcases hk with rfl | rfl | rfl | rfl | rfl
  all_goals cases h _ rfl

theorem find?_return {cs : List Char} (h : cs.head? ≠ some '\n') :
    blankTexts.find? (fun k => k.toList.isPrefixOf ('\r' :: cs)) = some "\r" := by
  have hn : "\r\n".toList.isPrefixOf ('\r' :: cs) = false := by
    cases cs with
    | nil => rfl
    | cons y cs =>
      have hy : ('\n' == y) = false := beq_false_of_ne fun hy => h (congrArg some hy.symm)
      show ('\n' == y && _) = false
      rw [hy, Bool.false_and]
  have h4 : ["\r\n", "\r"].find? (fun k => k.toList.isPrefixOf ('\r' :: cs)) = some "\r" := by
    rw [List.find?_cons, hn]
    rfl
  exact h4

/-- The rule for blanks takes one or two characters of a run of them. -/
theorem exists_whitespace (q : Bool) (hb : ∀ y ∈ z :: b, isBlankChar y = true)
    (hr : ∀ y ∈ rest.head?, isBlankChar y = false) (p : Position) :
    ∃ u v, z :: b = u ++ v ∧ u ≠ [] ∧
      Derives grammar q (.call whitespace) ⟨p, u ++ (v ++ rest)⟩
        (some ([], ⟨p.after u, v ++ rest⟩)) := by
  have hz := List.mem_of_elem_eq_true (hb z List.mem_cons_self)
  simp only [List.mem_cons, List.not_mem_nil, or_false] at hz
  rcases hz with rfl | rfl | rfl | rfl
  · exact ⟨[' '], b, rfl, List.cons_ne_nil _ _, whitespace_append (k := " ") rfl p⟩
  · exact ⟨['\t'], b, rfl, List.cons_ne_nil _ _, whitespace_append (k := "\t") rfl p⟩
  · exact ⟨['\n'], b, rfl, List.cons_ne_nil _ _, whitespace_append (k := "\n") rfl p⟩
  · by_cases hn : ∃ b', b = '\n' :: b'
    · obtain ⟨b', rfl⟩ := hn
      exact ⟨['\r', '\n'], b', rfl, List.cons_ne_nil _ _, whitespace_append (k := "\r\n") rfl p⟩
    · refine ⟨['\r'], b, rfl, List.cons_ne_nil _ _, whitespace_append (k := "\r") ?_ p⟩
      apply find?_return
      intro hh
      cases b with
      | nil => cases hr '\n' hh
      | cons y b =>
        cases hh
        exact hn ⟨b, rfl⟩

theorem star_whitespace (hb : ∀ y ∈ b, isBlankChar y = true)
    (hr : ∀ y ∈ rest.head?, isBlankChar y = false) (p : Position) :
    Derives grammar q (.star (.call whitespace)) ⟨p, b ++ rest⟩
      (some ([], ⟨p.after b, rest⟩)) := by
  generalize hn : b.length = n
  induction n using Nat.strongRecOn generalizing b p with
  | ind n ih =>
    cases b with
    | nil => exact .star_nil (whitespace_fails hr p)
    | cons z b =>
      obtain ⟨u, v, he, hu, h⟩ := exists_whitespace q hb hr p
      rw [he] at hb hn ⊢
      have hlt : v.length < n := by
        have hpos := List.length_pos_iff.2 hu
        rw [List.length_append] at hn
        omega
      have hs := ih _ hlt (fun y hy => hb y (List.mem_append_right u hy)) (p.after u) rfl
      rw [List.append_assoc, Position.after_append]
      exact .star_cons h hs

theorem newline_cons (h : breaksLine z = true) (p : Position) (cs : List Char) :
    ∃ d, Derives grammar q newline ⟨p, z :: cs⟩ (some ([], d)) := by
  rw [breaksLine, Bool.or_eq_true, beq_iff_eq, beq_iff_eq] at h
  rcases h with rfl | rfl
  · exact ⟨_, .alt_left (.lit_append "\n" p cs)⟩
  · have hn : ¬"\n".toList <+: '\r' :: cs := fun hp => by cases (List.cons_prefix_cons.1 hp).1
    by_cases hc : "\n".toList <+: cs
    · obtain ⟨cs, rfl⟩ := hc
      exact ⟨_, .alt_right (.lit_fails hn) (.alt_left (.lit_append "\r\n" p cs))⟩
    · have hr : ¬"\r\n".toList <+: '\r' :: cs := fun hp => hc (List.cons_prefix_cons.1 hp).2
      exact ⟨_, .alt_right (.lit_fails hn) (.alt_right (.lit_fails hr) (.lit_append "\r" p cs))⟩

theorem newline_fails {cs : List Char} (h : ∀ z ∈ cs.head?, breaksLine z = false) (p : Position) :
    Derives grammar q newline ⟨p, cs⟩ none := by
  show Derives grammar q (.oneOf (["\n", "\r\n", "\r"].map .lit)) ⟨p, cs⟩ none
  apply Derives.oneOf_lit_fails
  intro k hk hp
  obtain ⟨t, rfl⟩ := hp
  simp only [List.mem_cons, List.not_mem_nil, or_false] at hk
  rcases hk with rfl | rfl | rfl
  all_goals cases h _ rfl

theorem breaksLine_head (he : e ∈ lineBreaks) : ∀ z ∈ (e ++ rest).head?, breaksLine z = true := by
  simp only [lineBreaks, List.mem_cons, List.not_mem_nil, or_false] at he
  intro z hz
  rcases he with rfl | rfl | rfl
  all_goals
    cases hz
    rfl

/-- A comment that begins with `//` ends before the end of the line or of the text. -/
theorem comment_line_append (hb : ∀ z ∈ body, breaksLine z = false)
    (hr : ∀ z ∈ rest.head?, breaksLine z = true) (p : Position) :
    Derives grammar q (.call comment) ⟨p, '/' :: '/' :: body ++ rest⟩
      (some ([], ⟨p.after ('/' :: '/' :: body), rest⟩)) := by
  apply Derives.silent rfl
  refine .alt_left (.seq (.lit_append "//" p _) ?_)
  apply Derives.star_chars (P := fun z => !breaksLine z)
  · intro p z cs hz
    rw [Bool.not_eq_true'] at hz
    have hn : ∀ y ∈ (z :: cs).head?, breaksLine y = false := fun y hy => by
      cases hy
      exact hz
    exact .seq (.not (newline_fails hn p)) (.char_cons rfl)
  · intro p cs hcs
    cases cs with
    | nil =>
      refine .seq_none_right (.not (newline_fails (fun z hz => ?_) p)) (.char_fails fun z hz => ?_)
      all_goals cases hz
    | cons z cs =>
      have hz := hcs z rfl
      rw [Bool.not_eq_false'] at hz
      obtain ⟨d, hd⟩ := newline_cons hz p cs
      exact .seq_none_left (.not_none hd)
  · intro z hz
    rw [hb z hz]
    rfl
  · intro z hz
    rw [hr z hz]
    rfl

theorem comment_line (hb : ∀ z ∈ body, breaksLine z = false) (he : e ∈ lineBreaks) (p : Position) :
    Derives grammar q (.call comment) ⟨p, '/' :: '/' :: body ++ (e ++ rest)⟩
      (some ([], ⟨p.after ('/' :: '/' :: body), e ++ rest⟩)) :=
  comment_line_append hb (breaksLine_head he) p

theorem not_isPrefix_close {cs : List Char} (hb : ¬['*', '/'] <:+: z :: body ++ ['*']) :
    ¬"*/".toList <+: z :: (body ++ '*' :: cs) := by
  intro hp
  obtain ⟨hz, hp⟩ := List.cons_prefix_cons.1 hp
  cases body with
  | nil => cases (List.cons_prefix_cons.1 hp).1
  | cons y body =>
    obtain ⟨hy, -⟩ := List.cons_prefix_cons.1 hp
    rw [← hz, ← hy] at hb
    exact hb (List.prefix_append ['*', '/'] (body ++ ['*'])).isInfix

theorem star_inside (hb : ¬['*', '/'] <:+: body ++ ['*']) (p : Position) :
    Derives grammar q (.star (tight [.not (.lit "*/"), .char .any]))
      ⟨p, body ++ '*' :: '/' :: rest⟩ (some ([], ⟨p.after body, '*' :: '/' :: rest⟩)) := by
  induction body generalizing p with
  | nil => exact .star_nil (.seq_none_left (.not_none (.lit_append "*/" p rest)))
  | cons z body ih =>
    have hx : Derives grammar q (tight [.not (.lit "*/"), .char .any])
        ⟨p, z :: (body ++ '*' :: '/' :: rest)⟩
        (some ([], ⟨p.advance z, body ++ '*' :: '/' :: rest⟩)) :=
      .seq (.not (.lit_fails (not_isPrefix_close hb))) (.char_cons rfl)
    exact .star_cons hx (ih (fun hi => hb (List.infix_cons hi)) (p.advance z))

/-- A comment that begins with `/*` ends with the next `*/`. -/
theorem comment_block (hb : ¬['*', '/'] <:+: body ++ ['*']) (p : Position) :
    Derives grammar q (.call comment) ⟨p, '/' :: '*' :: (body ++ ['*', '/']) ++ rest⟩
      (some ([], ⟨p.after ('/' :: '*' :: (body ++ ['*', '/'])), rest⟩)) := by
  show Derives grammar q (.call comment) ⟨p, '/' :: '*' :: (body ++ ['*', '/'] ++ rest)⟩ _
  rw [List.append_assoc]
  apply Derives.silent rfl
  apply Derives.alt_right
  · apply Derives.seq_none_left
    apply Derives.lit_fails
    intro hp
    cases (List.cons_prefix_cons.1 (List.cons_prefix_cons.1 hp).2).1
  · have hc := Derives.lit_append (g := grammar) (q := q) "*/"
      ((p.after ['/', '*']).after body) rest
    have hp : p.after ('/' :: '*' :: (body ++ ['*', '/'])) =
        ((p.after ['/', '*']).after body).after ['*', '/'] :=
      Position.after_append (p.after ['/', '*']) body ['*', '/']
    rw [hp]
    exact .seq (.lit_append "/*" p _) (.seq (star_inside hb _) hc)

theorem comment_fails (h : ∀ z ∈ rest.head?, z ≠ '/') (p : Position) :
    Derives grammar q (.call comment) ⟨p, rest⟩ none := by
  have hn : ∀ k : List Char, ¬ '/' :: k <+: rest := by
    intro k hp
    obtain ⟨t, rfl⟩ := hp
    exact h '/' rfl rfl
  apply Derives.silent rfl
  exact .alt_right (.seq_none_left (.lit_fails (hn _))) (.seq_none_left (.lit_fails (hn _)))

theorem isBlankChar_of_mem_lineBreaks (he : e ∈ lineBreaks) : ∀ y ∈ e, isBlankChar y = true := by
  simp only [lineBreaks, List.mem_cons, List.not_mem_nil, or_false] at he
  rcases he with rfl | rfl | rfl
  all_goals exact List.all_eq_true.1 rfl

theorem opensToken_iff : opensToken z = true ↔ isBlankChar z = false ∧ z ≠ '/' := by
  rw [opensToken, isBlankChar, Bool.not_eq_true', List.contains_cons, Bool.or_eq_false_iff,
    beq_eq_false_iff_ne]
  exact and_comm

end Pieces

section Gaps

variable {bs : List (List Char)}

/-- The blanks of a gap up to a comment, and the comments and blanks from there on. -/
def Skips (q : Bool) (p : Position) (g rest : List Char) : Prop :=
  ∃ d, Derives grammar q (.star (.call whitespace)) ⟨p, g ++ rest⟩ (some ([], d)) ∧
    Derives grammar q (.star (tight [.call comment, .star (.call whitespace)])) d
      (some ([], ⟨p.after g, rest⟩))

theorem Skips.comment {u : List Char} (hb : ∀ y ∈ b, isBlankChar y = true)
    (hu : ∀ p, Derives grammar q (.call comment) ⟨p, '/' :: u ++ (g ++ rest)⟩
      (some ([], ⟨p.after ('/' :: u), g ++ rest⟩)))
    (h : ∀ p, Skips q p g rest) (p : Position) : Skips q p (b ++ ('/' :: u ++ g)) rest := by
  have hw : Derives grammar q (.star (.call whitespace)) ⟨p, b ++ ('/' :: u ++ (g ++ rest))⟩
      (some ([], ⟨p.after b, '/' :: u ++ (g ++ rest)⟩)) := by
    apply star_whitespace hb
    intro y hy
    cases hy
    rfl
  obtain ⟨d, hs, hc⟩ := h ((p.after b).after ('/' :: u))
  rw [Skips, Position.after_append, Position.after_append, List.append_assoc, List.append_assoc]
  exact ⟨_, hw, .star_cons (.seq (hu _) hs) hc⟩

/-- Comments begin where a run of blanks ends, so the induction carries the run `b` that stands
before the next piece. -/
theorem skips_append {t : List Char} (hbs : ∀ b ∈ bs, Blank b)
    (ht : ∀ b p, (∀ y ∈ b, isBlankChar y = true) → Skips q p (b ++ t) rest)
    (hb : ∀ y ∈ b, isBlankChar y = true) (p : Position) :
    Skips q p (b ++ (bs.flatten ++ t)) rest := by
  induction bs generalizing b p with
  | nil => exact ht b p hb
  | cons u bs ih =>
    obtain ⟨hu, hbs⟩ := List.forall_mem_cons.1 hbs
    have ih := fun {b} => ih (b := b) hbs
    rw [List.flatten_cons, List.append_assoc]
    have hblank : (∀ y ∈ u, isBlankChar y = true) →
        Skips q p (b ++ (u ++ (bs.flatten ++ t))) rest := by
      intro hu
      rw [← List.append_assoc]
      apply ih
      intro y hy
      exact (List.mem_append.1 hy).elim (hb y) (hu y)
    cases hu with
    | space => exact hblank (List.forall_mem_singleton.2 rfl)
    | tab => exact hblank (List.forall_mem_singleton.2 rfl)
    | lineBreak he => exact hblank (isBlankChar_of_mem_lineBreaks he)
    | block hbody =>
      apply Skips.comment hb
      · exact fun p => comment_block hbody p
      · exact ih (List.forall_mem_nil _)
    | @line body e hbody he =>
      show Skips q p (b ++ ('/' :: '/' :: body ++ e ++ (bs.flatten ++ t))) rest
      rw [List.append_assoc ('/' :: '/' :: body)]
      apply Skips.comment hb
      · intro p
        rw [List.append_assoc]
        exact comment_line hbody he p
      · exact ih (isBlankChar_of_mem_lineBreaks he)

theorem skips_pieces (hbs : ∀ b ∈ bs, Blank b) (hr : ∀ z ∈ rest.head?, opensToken z = true)
    (hb : ∀ y ∈ b, isBlankChar y = true) (p : Position) : Skips q p (b ++ bs.flatten) rest := by
  have hw : ∀ z ∈ rest.head?, isBlankChar z = false := fun z hz => (opensToken_iff.1 (hr z hz)).1
  have hc : ∀ z ∈ rest.head?, z ≠ '/' := fun z hz => (opensToken_iff.1 (hr z hz)).2
  rw [← List.append_nil bs.flatten]
  apply skips_append hbs _ hb
  intro b p hb
  rw [List.append_nil]
  exact ⟨_, star_whitespace hb hw p, .star_nil (.seq_none_left (comment_fails hc _))⟩

theorem gap_append (hg : Blanks g) (hr : ∀ z ∈ rest.head?, opensToken z = true) (q : Bool)
    (p : Position) : Derives grammar q gap ⟨p, g ++ rest⟩ (some ([], ⟨p.after g, rest⟩)) := by
  obtain ⟨bs, hbs, rfl⟩ := hg
  obtain ⟨d, hw, hc⟩ := skips_pieces (b := []) hbs hr (List.forall_mem_nil _) p
  exact .seq hw hc

end Gaps

section Heads

variable {t : List Char} {ws : List String}

theorem blanks_nil : Blanks [] := ⟨[], List.forall_mem_nil _, rfl⟩

theorem Blanks.one (h : Blank b) : Blanks b :=
  ⟨[b], List.forall_mem_singleton.2 h, List.flatten_singleton.symm⟩

theorem Blanks.two (h : Blank b) (h' : Blank e) : Blanks (b ++ e) := by
  refine ⟨[b, e], List.forall_mem_cons.2 ⟨h, List.forall_mem_singleton.2 h'⟩, ?_⟩
  rw [List.flatten_cons, List.flatten_singleton]

theorem Blank.exists_cons (h : Blank b) : ∃ z b', b = z :: b' ∧ opensToken z = false := by
  cases h with
  | space | tab | block | line => exact ⟨_, _, rfl, rfl⟩
  | lineBreak he =>
    simp only [lineBreaks, List.mem_cons, List.not_mem_nil, or_false] at he
    rcases he with rfl | rfl | rfl
    all_goals exact ⟨_, _, rfl, rfl⟩

theorem Blanks.head (h : Blanks g) : ∀ z ∈ g.head?, opensToken z = false := by
  obtain ⟨bs, hbs, rfl⟩ := h
  intro z hz
  cases bs with
  | nil => cases hz
  | cons b bs =>
    obtain ⟨y, b', rfl, hy⟩ := (hbs b List.mem_cons_self).exists_cons
    cases hz
    exact hy

/-- No word goes on where other words follow it. -/
theorem Trails.head (h : Trails ws t) : ∀ z ∈ t.head?, opensToken z = false := by
  cases h with
  | nil hg => exact hg.head
  | cons hg _ _ =>
    obtain ⟨y, g, rfl⟩ := List.exists_cons_of_ne_nil hg.1
    intro z hz
    cases hz
    exact hg.2.head y rfl

theorem Trails.laidOut (h : Trails ws t) : LaidOut ws t := by
  cases h with
  | nil hg => exact .nil hg
  | cons hg hw ht => exact .cons hg.2 hw ht

end Heads

end TreeMetrics.Twig
