import TreeMetrics.Proofs.Twig.Survey

namespace TreeMetrics.Twig

open TreeMetrics.Expr TreeMetrics.Twig.Rule

def isWordStart (z : Char) : Bool := z.isAlpha || z == '_'

def isWordChar (z : Char) : Bool := z.isAlphanum || z == '_'

/-- A letter or an underscore, then letters, digits and underscores. -/
def IsWord : List Char → Prop
  | [] => False
  | z :: zs => isWordStart z = true ∧ ∀ y ∈ zs, isWordChar y = true

instance : DecidablePred IsWord
  | [] => inferInstanceAs (Decidable False)
  | z :: zs =>
    decidable_of_iff ((isWordStart z && zs.all isWordChar) = true) (by
      rw [Bool.and_eq_true, List.all_eq_true, IsWord])

def IsIdentifier (s : String) : Prop := IsWord s.toList ∧ s ∉ keywords

instance : DecidablePred IsIdentifier := fun s =>
  decidable_of_iff (IsWord s.toList ∧ keywords.contains s = false) (by
    rw [IsIdentifier, ← Bool.not_eq_true, List.contains_iff_mem])

/-- Words, keywords among them, with dots between them. -/
def IsDotted (s : String) : Prop :=
  ∃ (w : List Char) (ws : List (List Char)),
    s.toList = w ++ ws.flatMap ('.' :: ·) ∧ IsWord w ∧ ∀ v ∈ ws, IsWord v

def IsNumber (s : String) : Prop := s.toList ≠ [] ∧ ∀ z ∈ s.toList, z.isDigit = true

instance : DecidablePred IsNumber := fun s =>
  decidable_of_iff (s.toList.isEmpty = false ∧ s.toList.all Char.isDigit = true) (by
    rw [IsNumber, List.all_eq_true, List.isEmpty_eq_false_iff])

/-- No word goes on into the text. -/
def EndsWord (cs : List Char) : Prop := ∀ z ∈ cs.head?, isWordChar z = false

theorem isWordChar_of_isWordStart {z : Char} (h : isWordStart z = true) : isWordChar z = true := by
  simp only [isWordStart, isWordChar, Char.isAlphanum, Bool.or_eq_true] at h ⊢
  rcases h with h | h
  · exact .inl (.inl h)
  · exact .inr h

theorem isWordChar_of_isDigit {z : Char} (h : z.isDigit = true) : isWordChar z = true := by
  rw [isWordChar, Char.isAlphanum, h, Bool.or_true, Bool.true_or]

theorem isDigit_of_isWordStart {z : Char} (h : isWordStart z = true) : z.isDigit = false := by
  rw [isWordStart, Bool.or_eq_true, beq_iff_eq] at h
  rcases h with h | rfl
  · have hl : (decide (z.val ≥ 'A'.val ∧ z.val ≤ 'Z'.val) ||
        (decide (z.val ≥ 'a'.val) && decide (z.val ≤ 'z'.val))) = true := h
    refine Bool.eq_false_iff.2 fun hd => ?_
    have hd : (decide (z.val ≥ '0'.val) && decide (z.val ≤ '9'.val)) = true := hd
    simp only [Bool.or_eq_true, Bool.and_eq_true, decide_eq_true_eq] at hl hd
    rcases hl with hl | hl
    · exact absurd (UInt32.le_trans hl.1 hd.2) (by decide)
    · exact absurd (UInt32.le_trans hl.1 hd.2) (by decide)
  · rfl

theorem IsWord.isWordChar {cs : List Char} (h : IsWord cs) : ∀ z ∈ cs, isWordChar z = true := by
  cases cs with
  | nil => cases h
  | cons z zs => exact List.forall_mem_cons.2 ⟨isWordChar_of_isWordStart h.1, h.2⟩

section Words

variable {q : Bool} {p : Position} {z : Char} {cs rest : List Char}

theorem identChar_cons (p : Position) (rest : List Char) (h : isWordChar z = true) :
    Derives grammar q (.call identChar) ⟨p, z :: rest⟩ (some ([], ⟨p.advance z, rest⟩)) := by
  refine .silent rfl ?_
  by_cases ha : z.isAlphanum = true
  · exact .alt_left (.char_cons ha)
  · have hz : z = '_' := by
      simpa [isWordChar, ha] using h
    subst hz
    exact .alt_right (.char_fails fun z hz => by cases hz; rfl) (.lit_append "_" p rest)

theorem identChar_fails (p : Position) (h : EndsWord cs) :
    Derives grammar q (.call identChar) ⟨p, cs⟩ none := by
  refine .silent rfl ?_
  have ha : ∀ z ∈ cs.head?, CharClass.holds .alphanumeric z = false := by
    intro z hz
    have hw := h z hz
    rw [isWordChar, Bool.or_eq_false_iff] at hw
    exact hw.1
  refine .alt_right (.char_fails ha) (.lit_fails ?_)
  rintro ⟨t, rfl⟩
  have hw := h '_' rfl
  cases hw

theorem wordChars_append (p : Position) (hcs : ∀ z ∈ cs, isWordChar z = true)
    (hrest : EndsWord rest) :
    Derives grammar q (.star (.call identChar)) ⟨p, cs ++ rest⟩ (some ([], ⟨p.after cs, rest⟩)) :=
  .star_chars (fun p _ rest => identChar_cons p rest) (fun p _ => identChar_fails p) hcs hrest p

theorem wordStart_cons (p : Position) (rest : List Char) (h : isWordStart z = true) :
    Derives grammar q (oneOf [char .letter, lit "_"]) ⟨p, z :: rest⟩
      (some ([], ⟨p.advance z, rest⟩)) := by
  by_cases ha : z.isAlpha = true
  · exact .alt_left (.char_cons ha)
  · have hz : z = '_' := by
      simpa [isWordStart, ha] using h
    subst hz
    exact .alt_right (.char_fails fun z hz => by cases hz; rfl) (.lit_append "_" p rest)

theorem identRaw_append (p : Position) (hcs : IsWord cs) (hrest : EndsWord rest) :
    Derives grammar q (.call identRaw) ⟨p, cs ++ rest⟩ (some ([], ⟨p.after cs, rest⟩)) := by
  cases cs with
  | nil => cases hcs
  | cons z zs =>
    exact .silent rfl (.seq (wordStart_cons p _ hcs.1) (wordChars_append _ hcs.2 hrest))

theorem identRaw_fails (p : Position) (h : ∀ z ∈ cs.head?, isWordStart z = false) :
    Derives grammar q (.call identRaw) ⟨p, cs⟩ none := by
  refine .silent rfl (.seq_none_left ?_)
  have ha : ∀ z ∈ cs.head?, CharClass.holds .letter z = false := by
    intro z hz
    have hw := h z hz
    rw [isWordStart, Bool.or_eq_false_iff] at hw
    exact hw.1
  refine .alt_right (.char_fails ha) (.lit_fails ?_)
  rintro ⟨t, rfl⟩
  have hw := h '_' rfl
  cases hw

/-- Every text begins with a word or with something else. -/
theorem word_or_not (cs : List Char) :
    (∃ w rest, cs = w ++ rest ∧ IsWord w ∧ EndsWord rest) ∨
      ∀ z ∈ cs.head?, isWordStart z = false := by
  cases cs with
  | nil => exact .inr fun z hz => by cases hz
  | cons z zs =>
    cases hz : isWordStart z with
    | false => exact .inr fun y hy => by cases hy; exact hz
    | true =>
      refine .inl ⟨z :: zs.takeWhile isWordChar, zs.dropWhile isWordChar, ?_, ?_, ?_⟩
      · rw [List.cons_append, List.takeWhile_append_dropWhile]
      · exact ⟨hz, List.all_eq_true.1 List.all_takeWhile⟩
      · intro y hy
        have hd := List.head?_dropWhile_not isWordChar zs
        rw [hy] at hd
        simpa using hd

/-- What a raw identifier matches is a word that goes on no further. -/
theorem inv_identRaw {c d : Cursor} {ts : List (ParseTree Rule)}
    (h : Derives grammar q (.call identRaw) c (some (ts, d))) :
    ts = [] ∧ ∃ w, IsWord w ∧ c.Spans d w ∧ EndsWord d.rest := by
  obtain ⟨p, cs⟩ := c
  rcases word_or_not cs with ⟨w, rest, rfl, hw, hrest⟩ | hn
  · cases h.det (identRaw_append p hw hrest)
    exact ⟨rfl, w, hw, ⟨rfl, rfl⟩, hrest⟩
  · cases h.det (identRaw_fails p hn)

theorem isWord_of_keyword : ∀ k ∈ keywords, IsWord k.toList := by
  decide

theorem keyword_eq_of_isPrefix : ∀ k ∈ keywords, ∀ k' ∈ keywords,
    k.toList <+: k'.toList → k = k' := by
  decide

/-- Characters of a word that a text begins with are a part of its first word. -/
theorem isPrefix_word {k : List Char} (hk : ∀ z ∈ k, isWordChar z = true) (hrest : EndsWord rest)
    (h : k <+: cs ++ rest) : k <+: cs := by
  induction k generalizing cs with
  | nil => exact List.nil_prefix
  | cons z zs ih =>
    obtain ⟨hz, hzs⟩ := List.forall_mem_cons.1 hk
    cases cs with
    | nil =>
      obtain ⟨t, ht⟩ := h
      have hn := hrest z (by rw [← List.nil_append rest, ← ht]; rfl)
      rw [hz] at hn
      cases hn
    | cons y ys =>
      obtain ⟨rfl, hp⟩ := List.cons_prefix_cons.1 h
      exact List.cons_prefix_cons.2 ⟨rfl, ih hzs hp⟩

/-- At most one keyword stands at the beginning of a text. -/
theorem keyword_unique {k k' : String} (hk : k ∈ keywords) (hk' : k' ∈ keywords)
    (h : k.toList <+: cs) (h' : k'.toList <+: cs) : k = k' := by
  rcases List.prefix_or_prefix_of_prefix h h' with hp | hp
  · exact keyword_eq_of_isPrefix k hk k' hk' hp
  · exact (keyword_eq_of_isPrefix k' hk' k hk hp).symm

theorem find?_keyword {k : String} (hk : k ∈ keywords) (h : k.toList <+: cs) :
    keywords.find? (fun k' => k'.toList.isPrefixOf cs) = some k := by
  cases hf : keywords.find? fun k' => k'.toList.isPrefixOf cs with
  | none => exact absurd (List.isPrefixOf_iff_prefix.2 h) (List.find?_eq_none.1 hf k hk)
  | some k' =>
    have hp := List.find?_some hf
    rw [keyword_unique (List.mem_of_find?_eq_some hf) hk (List.isPrefixOf_iff_prefix.1 hp) h]

theorem keyword_append {k : String} (p : Position) (hk : k ∈ keywords) (hrest : EndsWord rest) :
    Derives grammar true (.call keyword) ⟨p, k.toList ++ rest⟩
      (some ([], ⟨p.after k.toList, rest⟩)) := by
  have hf := find?_keyword hk (List.prefix_append k.toList rest)
  exact .call_quiet (.seq (.oneOf_lit_append hf) (.not (identChar_fails _ hrest)))

theorem keyword_fails {w : String} (p : Position) (hw : IsIdentifier w) (hrest : EndsWord rest) :
    Derives grammar true (.call keyword) ⟨p, w.toList ++ rest⟩ none := by
  refine .call_quiet ?_
  by_cases hp : ∃ k ∈ keywords, k.toList <+: w.toList ++ rest
  · obtain ⟨k, hk, hp⟩ := hp
    obtain ⟨t, ht⟩ := isPrefix_word (isWord_of_keyword k hk).isWordChar hrest hp
    cases t with
    | nil =>
      rw [List.append_nil] at ht
      exact absurd (String.toList_inj.1 ht ▸ hk) hw.2
    | cons z t =>
      -- The keyword is only the beginning of a longer word, so it is refused by the look ahead.
      have hz : isWordChar z = true :=
        hw.1.isWordChar z (ht ▸ List.mem_append_right _ List.mem_cons_self)
      rw [← ht, List.append_assoc, List.cons_append] at hp ⊢
      exact .seq_none_right (.oneOf_lit_append (find?_keyword hk hp))
        (.not_none (identChar_cons _ _ hz))
  · exact .seq_none_left (.oneOf_lit_fails fun k hk h => hp ⟨k, hk, h⟩)

/-- At a text that begins with no word there is no keyword. -/
theorem keyword_fails_of_head (p : Position) (h : ∀ z ∈ cs.head?, isWordStart z = false) :
    Derives grammar true (.call keyword) ⟨p, cs⟩ none := by
  refine .call_quiet (.seq_none_left (.oneOf_lit_fails fun k hk hp => ?_))
  have hw := isWord_of_keyword k hk
  obtain ⟨t, rfl⟩ := hp
  cases hc : k.toList with
  | nil =>
    rw [hc] at hw
    cases hw
  | cons z zs =>
    rw [hc] at hw
    have hn := h z (by rw [hc]; rfl)
    rw [hw.1] at hn
    cases hn

/-- The match of a word is a node for the word itself. -/
theorem identifier_append {w : String} (p : Position) (hw : IsIdentifier w)
    (hrest : EndsWord rest) :
    Derives grammar false (.call identifier) ⟨p, w.toList ++ rest⟩
      (some ([.node identifier p (p.after w.toList) w []], ⟨p.after w.toList, rest⟩)) := by
  have hb : Derives grammar true (pattern identifier) ⟨p, w.toList ++ rest⟩
      (some ([], ⟨p.after w.toList, rest⟩)) :=
    .seq (.not (keyword_fails p hw hrest)) (identRaw_append p hw.1 hrest)
  have hc := Derives.call (g := grammar) (r := identifier) (by decide) hb
  have hs : Cursor.Spans ⟨p, w.toList ++ rest⟩ ⟨p.after w.toList, rest⟩ w.toList := ⟨rfl, rfl⟩
  rwa [hs.upTo_eq, String.ofList_toList] at hc

theorem identifier_fails (p : Position) (h : ∀ z ∈ cs.head?, isWordStart z = false) :
    Derives grammar false (.call identifier) ⟨p, cs⟩ none :=
  .call_none (by decide) (.seq_none_right (.not (keyword_fails_of_head p h)) (identRaw_fails p h))

theorem inv_identifier {c d : Cursor} {ts : List (ParseTree Rule)}
    (h : Derives grammar false (.call identifier) c (some (ts, d))) :
    ∃ w, IsIdentifier w ∧ ts = [.node identifier c.position d.position w []] := by
  obtain ⟨us, hb, rfl⟩ := h.inv_call (by decide)
  obtain ⟨us₁, m, us₂, hn, hr, rfl⟩ := hb.inv_seq
  obtain ⟨hk, rfl, rfl⟩ := hn.inv_not
  obtain ⟨rfl, w, hw, hs, hrest⟩ := inv_identRaw hr
  refine ⟨String.ofList w, ⟨?_, fun hm => ?_⟩, ?_⟩
  · rwa [String.toList_ofList]
  · have hk' := keyword_append m.position hm hrest
    rw [String.toList_ofList, ← hs.rest] at hk'
    cases hk.det hk'
  · rw [hs.upTo_eq]
    rfl

theorem digit_cons (p : Position) (rest : List Char) (h : z.isDigit = true) :
    Derives grammar q (.char .digit) ⟨p, z :: rest⟩ (some ([], ⟨p.advance z, rest⟩)) :=
  .char_cons h

theorem digit_fails (p : Position) (h : ∀ z ∈ cs.head?, z.isDigit = false) :
    Derives grammar q (.char .digit) ⟨p, cs⟩ none :=
  .char_fails h

theorem number_append {w : String} (p : Position) (hw : IsNumber w)
    (hrest : ∀ z ∈ rest.head?, z.isDigit = false) :
    Derives grammar false (.call number) ⟨p, w.toList ++ rest⟩
      (some ([.node number p (p.after w.toList) w []], ⟨p.after w.toList, rest⟩)) := by
  have hs : Cursor.Spans ⟨p, w.toList ++ rest⟩ ⟨p.after w.toList, rest⟩ w.toList := ⟨rfl, rfl⟩
  have hb : Derives grammar true (pattern number) ⟨p, w.toList ++ rest⟩
      (some ([], ⟨p.after w.toList, rest⟩)) := by
    cases hc : w.toList with
    | nil => exact absurd hc hw.1
    | cons z zs =>
      obtain ⟨hz, hzs⟩ := List.forall_mem_cons.1 (hc ▸ hw.2)
      exact .seq (digit_cons p _ hz)
        (.star_chars (fun p _ rest => digit_cons p rest) (fun p _ => digit_fails p) hzs hrest _)
  have hc := Derives.call (g := grammar) (r := number) (by decide) hb
  rwa [hs.upTo_eq, String.ofList_toList] at hc

theorem number_fails (p : Position) (h : ∀ z ∈ cs.head?, z.isDigit = false) :
    Derives grammar false (.call number) ⟨p, cs⟩ none :=
  .call_none (by decide) (.seq_none_left (digit_fails p h))

theorem inv_number {c d : Cursor} {ts : List (ParseTree Rule)}
    (h : Derives grammar false (.call number) c (some (ts, d))) :
    ∃ w, IsNumber w ∧ ts = [.node number c.position d.position w []] := by
  obtain ⟨us, hb, rfl⟩ := h.inv_call (by decide)
  rw [hb.trees_of_quiet]
  obtain ⟨us₁, m, us₂, hz, hr, -⟩ := hb.inv_seq
  obtain ⟨-, z, hz, hs⟩ := hz.inv_char
  obtain ⟨css, hss, hds⟩ := hr.inv_star_spans (Q := fun cs => ∀ y ∈ cs, y.isDigit = true)
    fun hy => by
    obtain ⟨-, y, hy, hs⟩ := hy.inv_char
    exact ⟨[y], hs, List.forall_mem_singleton.2 hy⟩
  refine ⟨String.ofList (z :: css.flatten), ⟨?_, ?_⟩, ?_⟩
  · rw [String.toList_ofList]
    exact List.cons_ne_nil _ _
  · rw [String.toList_ofList]
    refine List.forall_mem_cons.2 ⟨hz, fun y hy => ?_⟩
    obtain ⟨cs, hcs, hy⟩ := List.mem_flatten.1 hy
    exact hds cs hcs y hy
  · rw [(hs.trans hss).upTo_eq]
    rfl

theorem endsWord_dotted {ws : List (List Char)}
    (hrest : ∀ z ∈ rest.head?, isWordChar z = false ∧ z ≠ '.') :
    EndsWord (ws.flatMap ('.' :: ·) ++ rest) := by
  cases ws with
  | nil => exact fun z hz => (hrest z hz).1
  | cons w ws =>
    intro z hz
    cases hz
    rfl

theorem dottedWords_append {ws : List (List Char)} (p : Position) (hws : ∀ w ∈ ws, IsWord w)
    (hrest : ∀ z ∈ rest.head?, isWordChar z = false ∧ z ≠ '.') :
    Derives grammar true (star (tight [lit ".", call identRaw]))
      ⟨p, ws.flatMap ('.' :: ·) ++ rest⟩ (some ([], ⟨p.after (ws.flatMap ('.' :: ·)), rest⟩)) := by
  induction ws generalizing p with
  | nil =>
    refine .star_nil (.seq_none_left (.lit_fails ?_))
    rintro ⟨t, rfl⟩
    exact (hrest '.' rfl).2 rfl
  | cons w ws ih =>
    obtain ⟨hw, hws⟩ := List.forall_mem_cons.1 hws
    have hd : Derives grammar true (tight [lit ".", call identRaw])
        ⟨p, '.' :: w ++ (ws.flatMap ('.' :: ·) ++ rest)⟩
        (some ([], ⟨p.after ('.' :: w), ws.flatMap ('.' :: ·) ++ rest⟩)) :=
      .seq (.lit_append "." p _) (identRaw_append _ hw (endsWord_dotted hrest))
    have hs := Derives.star_cons hd (ih _ hws)
    rwa [← Position.after_append, ← List.append_assoc] at hs

theorem qualifiedName_append {w : String} (p : Position) (hw : IsDotted w)
    (hrest : ∀ z ∈ rest.head?, isWordChar z = false ∧ z ≠ '.') :
    Derives grammar false (.call qualifiedName) ⟨p, w.toList ++ rest⟩
      (some ([.node qualifiedName p (p.after w.toList) w []], ⟨p.after w.toList, rest⟩)) := by
  obtain ⟨v, vs, hw, hv, hvs⟩ := hw
  have hs : Cursor.Spans ⟨p, w.toList ++ rest⟩ ⟨p.after w.toList, rest⟩ w.toList := ⟨rfl, rfl⟩
  have hb : Derives grammar true (pattern qualifiedName) ⟨p, w.toList ++ rest⟩
      (some ([], ⟨p.after w.toList, rest⟩)) := by
    rw [hw, List.append_assoc, Position.after_append]
    exact .seq (identRaw_append p hv (endsWord_dotted hrest)) (dottedWords_append _ hvs hrest)
  have hc := Derives.call (g := grammar) (r := qualifiedName) (by decide) hb
  rwa [hs.upTo_eq, String.ofList_toList] at hc

theorem flatten_dotted {css : List (List Char)} (h : ∀ cs ∈ css, ∃ w, cs = '.' :: w ∧ IsWord w) :
    ∃ ws : List (List Char), css.flatten = ws.flatMap ('.' :: ·) ∧ ∀ w ∈ ws, IsWord w := by
  induction css with
  | nil => exact ⟨[], rfl, fun w hw => absurd hw List.not_mem_nil⟩
  | cons cs css ih =>
    obtain ⟨⟨w, rfl, hw⟩, hcss⟩ := List.forall_mem_cons.1 h
    obtain ⟨ws, hf, hws⟩ := ih hcss
    refine ⟨w :: ws, ?_, List.forall_mem_cons.2 ⟨hw, hws⟩⟩
    rw [List.flatten_cons, hf, List.flatMap_cons]

theorem inv_qualifiedName {c d : Cursor} {ts : List (ParseTree Rule)}
    (h : Derives grammar false (.call qualifiedName) c (some (ts, d))) :
    ∃ w, IsDotted w ∧ ts = [.node qualifiedName c.position d.position w []] := by
  obtain ⟨us, hb, rfl⟩ := h.inv_call (by decide)
  rw [hb.trees_of_quiet]
  obtain ⟨us₁, m, us₂, hv, hr, -⟩ := hb.inv_seq
  obtain ⟨-, v, hv, hs, -⟩ := inv_identRaw hv
  obtain ⟨css, hss, hcs⟩ := hr.inv_star_spans (Q := fun cs => ∃ w, cs = '.' :: w ∧ IsWord w)
    fun hy => by
      obtain ⟨us, e, vs, hd, hw, -⟩ := hy.inv_seq
      obtain ⟨-, hd⟩ := hd.inv_lit
      obtain ⟨-, w, hw, hsw, -⟩ := inv_identRaw hw
      exact ⟨_, hd.trans hsw, w, rfl, hw⟩
  obtain ⟨ws, hf, hws⟩ := flatten_dotted hcs
  rw [hf] at hss
  refine ⟨String.ofList (v ++ ws.flatMap ('.' :: ·)), ⟨v, ws, ?_, hv, hws⟩, ?_⟩
  · rw [String.toList_ofList]
  · rw [(hs.trans hss).upTo_eq]

end Words

end TreeMetrics.Twig
