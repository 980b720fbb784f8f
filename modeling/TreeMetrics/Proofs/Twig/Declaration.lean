import TreeMetrics.Proofs.Twig.Enclosure

namespace TreeMetrics

namespace Cursor

theorem Spans.split {c e : Cursor} {cs ds : List Char} (h : c.Spans e (cs ++ ds)) :
    ∃ d, c.Spans d cs ∧ d.Spans e ds := by
  refine ⟨⟨c.position.after cs, ds ++ e.rest⟩, ⟨?_, rfl⟩, ⟨rfl, ?_⟩⟩
  · rw [h.rest, List.append_assoc]
  · rw [h.position, Position.after_append]

theorem Spans.text_inj {c d : Cursor} {cs ds : List Char} (h : c.Spans d cs) (h' : c.Spans d ds) :
    cs = ds :=
  List.append_cancel_right (h.rest.symm.trans h'.rest)

theorem Spans.det {c d e : Cursor} {cs : List Char} (h : c.Spans d cs) (h' : c.Spans e cs) :
    d = e := by
  obtain ⟨p, rest⟩ := d
  obtain ⟨p', rest'⟩ := e
  cases h.position.trans h'.position.symm
  cases List.append_cancel_left (h.rest.symm.trans h'.rest)
  rfl

end Cursor

namespace Twig

open TreeMetrics.Expr TreeMetrics.Twig.Rule

variable {q : Bool} {c d e : Cursor} {r : Rule} {x : Expr Rule} {s : String} {w : String}
variable {ts ts' : List (ParseTree Rule)} {j k : Nat} {g rest u : List Char} {p p' : Position}

/-- The builder makes the same declarations of both, but for the lines. -/
theorem Apart.declarations (h : Apart j k ts ts') :
    (Build.declarations ts).map (List.map (moved j)) =
      (Build.declarations ts').map (List.map (moved k)) := by
  rw [← declarations_relocate (f := onLine j) (fun _ => rfl), h,
    declarations_relocate (f := onLine k) fun _ => rfl]

/-- The text is matched wherever it stands and whatever follows, and the match is the same as the
given one on the given line, but for the lines. -/
def Travels (r : Rule) (cs : List Char) (line : Nat) (ts : List (ParseTree Rule)) : Prop :=
  ∀ c d : Cursor, c.Spans d cs → ∀ j k : Nat, line + j = c.position.line + k →
    ∃ ts', Derives grammar false (.call r) c (some (ts', d)) ∧ Apart j k ts ts'

theorem spans_of_text (hv : visibility r ≠ .silent)
    (h : Derives grammar false (.call r) c (some ([.node r p p' w ts], d))) :
    c.Spans d w.toList := by
  obtain ⟨us, -, ht⟩ := h.inv_call hv
  obtain ⟨cs, hs⟩ := h.spans
  cases ht
  rwa [hs.upTo_eq, String.toList_ofList]

section Between

variable {z : Char}

theorem rest_ne_nil_of_cons (h : c.Spans d (z :: g)) : c.rest ≠ [] := by
  rw [h.rest]
  exact List.cons_ne_nil _ _

theorem lit_of_spans (h : c.Spans d s.toList) : Derives grammar q (.lit s) c (some ([], d)) :=
  .lit (Cursor.text?_eq_some.2 h)

theorem gap_of_spans (hg : Blanks g) (h : c.Spans d g)
    (hd : ∀ z ∈ d.rest.head?, opensToken z = true) : Derives grammar q gap c (some ([], d)) := by
  have hgap := gap_append hg hd q c.position
  rwa [← h.rest, ← h.position] at hgap

theorem identifier_of_spans (hw : IsIdentifier w) (h : c.Spans d w.toList)
    (hd : EndsWord d.rest) :
    Derives grammar false (.call identifier) c
      (some ([.node identifier c.position d.position w []], d)) := by
  have hname := identifier_append c.position hw hd
  rwa [← h.rest, ← h.position] at hname

theorem qualifiedName_of_spans (hw : IsDotted w) (h : c.Spans d w.toList)
    (hd : ∀ z ∈ d.rest.head?, isWordChar z = false ∧ z ≠ '.') :
    Derives grammar false (.call qualifiedName) c
      (some ([.node qualifiedName c.position d.position w []], d)) := by
  have hname := qualifiedName_append c.position hw hd
  rwa [← h.rest, ← h.position] at hname

theorem opens_of_word (hw : BeginsWord w) (h : c.Spans d w.toList) :
    ∀ z ∈ c.rest.head?, opensToken z = true := by
  obtain ⟨z, zs, hz, hword⟩ := hw
  rw [h.rest, hz]
  intro y hy
  cases hy
  exact opensToken_of_isWordChar hword

theorem opens_of_cons (hz : opensToken z = true) (h : c.Spans d (z :: g)) :
    ∀ y ∈ c.rest.head?, opensToken y = true := by
  rw [h.rest]
  intro y hy
  cases hy
  exact hz

/-- Neither blank text nor the character behind it goes on with a word. -/
theorem undotted_of_spans {b : List Char} (hg : Blanks g) (h : c.Spans d g)
    (h' : d.Spans e (z :: b)) (hz : isWordChar z = false ∧ z ≠ '.') :
    ∀ y ∈ c.rest.head?, isWordChar y = false ∧ y ≠ '.' := by
  rw [h.rest, h'.rest]
  intro y hy
  cases g with
  | nil =>
    cases hy
    exact hz
  | cons a g =>
    have hn := hg.head a rfl
    cases hy
    constructor
    · cases hw : isWordChar y with
      | false => rfl
      | true =>
        rw [opensToken_of_isWordChar hw] at hn
        cases hn
    · rintro rfl
      cases hn

end Between

theorem import_travels (h : Derives grammar false (.call importDecl) c (some (ts, d))) :
    ∃ cs, c.Spans d cs ∧ Travels importDecl cs c.position.line ts := by
  obtain ⟨us, hb, rfl⟩ := h.inv_call (by decide)
  obtain ⟨_, c₁, c₂, us, hkey, hg₁, hb', rfl⟩ := inv_phrase hb
  obtain ⟨_, c₃, c₄, _, hname, hg₂, hend, rfl⟩ := inv_phrase hb'
  obtain ⟨rfl, hs₁⟩ := hkey.inv_lit
  obtain ⟨rfl, hs₅⟩ := Derives.inv_lit hend
  obtain ⟨w, hw, rfl⟩ := inv_qualifiedName hname
  have hs₃ := spans_of_text (by decide) hname
  obtain ⟨g₁, hs₂, -, hb₁⟩ := inv_gap hg₁
  obtain ⟨g₂, hs₄, -, hb₂⟩ := inv_gap hg₂
  have hne := rest_ne_nil_of_cons hs₅
  have hb₁ := hb₁ (hs₃.rest_ne_nil (hs₄.rest_ne_nil hne))
  have hb₂ := hb₂ hne
  have hspans := hs₁.trans (hs₂.trans (hs₃.trans (hs₄.trans hs₅)))
  refine ⟨_, hspans, ?_⟩
  intro c' d' hspans' j k hline
  obtain ⟨c₁', hs₁', hr⟩ := hspans'.split
  obtain ⟨c₂', hs₂', hr⟩ := hr.split
  obtain ⟨c₃', hs₃', hr⟩ := hr.split
  obtain ⟨c₄', hs₄', hs₅'⟩ := hr.split
  have hphrase := Derives.seq (lit_of_spans hs₁')
    (.seq (gap_of_spans hb₁ hs₂' (opens_of_word hw.beginsWord hs₃'))
      (.seq (qualifiedName_of_spans hw hs₃' (undotted_of_spans hb₂ hs₄' hs₅' ⟨rfl, by decide⟩))
        (.seq (gap_of_spans hb₂ hs₄' (opens_of_cons rfl hs₅')) (lit_of_spans hs₅'))))
  have hcall := Derives.call (g := grammar) (r := importDecl) (by decide) hphrase
  have hline₂ := line_of_spans (line_of_spans hline hs₁ hs₁') hs₂ hs₂'
  have hline₃ := line_of_spans hline₂ hs₃ hs₃'
  exact ⟨_, hcall, .call hline hspans hspans' (.node hline₂ hline₃ rfl)⟩

/-- What stands between the braces of a class is matched wherever it stands. -/
theorem body_travels (h : Derives grammar q x c (some (ts, d))) (hx : effect x = some .keeps)
    (hend : d.Spans e "\x7d".toList) :
    ∃ cs, c.Spans d cs ∧ ∀ c' d' e' : Cursor, c'.Spans d' cs → d'.Spans e' "\x7d".toList →
      ∀ j k : Nat, c.position.line + j = c'.position.line + k →
        ∃ ts', Derives grammar q x c' (some (ts', d')) ∧ Apart j k ts ts' := by
  obtain ⟨cs, hs, hcs⟩ :=
    enclosed_of_derives h hx (n := 0) rfl (rest_ne_nil_of_cons hend) Enclosed.nil
  rw [List.append_nil] at hcs
  refine ⟨cs, hs, ?_⟩
  intro c' d' e' hs' hend' j k hline
  have hbeside : Beside j k 0 cs c c' := by
    refine ⟨hcs, ⟨e.rest, ?_⟩, ⟨e'.rest, ?_⟩, hline⟩
    · rw [hs.rest, hend.rest]
      rfl
    · rw [hs'.rest, hend'.rest]
      rfl
  obtain ⟨o', ho', hagree⟩ := agree h hx rfl hbeside
  cases hagree with
  | takes hapart _ _ ht ht' =>
    cases ht.text_inj hs
    cases ht'.det hs'
    exact ⟨_, ho', hapart⟩

theorem class_travels (h : Derives grammar false (.call classDecl) c (some (ts, d))) :
    ∃ cs, c.Spans d cs ∧ Travels classDecl cs c.position.line ts := by
  obtain ⟨us, hb, rfl⟩ := h.inv_call (by decide)
  obtain ⟨_, c₁, c₂, us, hkey, hg₁, hb₁, rfl⟩ := inv_phrase hb
  obtain ⟨_, c₃, c₄, us, hname, hg₂, hb₂, rfl⟩ := inv_phrase hb₁
  obtain ⟨_, c₅, c₆, us, hopen, hg₃, hb₃, rfl⟩ := inv_phrase hb₂
  obtain ⟨_, c₇, c₈, _, hmembers, hg₄, hend, rfl⟩ := inv_phrase hb₃
  obtain ⟨rfl, hs₁⟩ := hkey.inv_lit
  obtain ⟨rfl, hs₅⟩ := hopen.inv_lit
  obtain ⟨rfl, hs₇⟩ := Derives.inv_lit hend
  obtain ⟨w, hw, rfl⟩ := inv_identifier hname
  have hs₃ := spans_of_text (by decide) hname
  obtain ⟨g₁, hs₂, -, hblanks₁⟩ := inv_gap hg₁
  obtain ⟨g₂, hs₄, -, hblanks₂⟩ := inv_gap hg₂
  have hne := rest_ne_nil_of_cons hs₅
  have hblanks₁ := hblanks₁ (hs₃.rest_ne_nil (hs₄.rest_ne_nil hne))
  have hblanks₂ := hblanks₂ hne
  obtain ⟨cs, hs₆, hbody⟩ := body_travels (.seq hg₃ (.seq hmembers hg₄)) rfl hs₇
  have hspans := hs₁.trans (hs₂.trans (hs₃.trans (hs₄.trans (hs₅.trans (hs₆.trans hs₇)))))
  refine ⟨_, hspans, ?_⟩
  intro c' d' hspans' j k hline
  obtain ⟨c₁', hs₁', hr⟩ := hspans'.split
  obtain ⟨c₂', hs₂', hr⟩ := hr.split
  obtain ⟨c₃', hs₃', hr⟩ := hr.split
  obtain ⟨c₄', hs₄', hr⟩ := hr.split
  obtain ⟨c₅', hs₅', hr⟩ := hr.split
  obtain ⟨c₆', hs₆', hs₇'⟩ := hr.split
  have hline₂ := line_of_spans (line_of_spans hline hs₁ hs₁') hs₂ hs₂'
  have hline₃ := line_of_spans hline₂ hs₃ hs₃'
  have hline₅ := line_of_spans (line_of_spans hline₃ hs₄ hs₄') hs₅ hs₅'
  obtain ⟨_, hbody', hapart⟩ := hbody _ _ _ hs₆' hs₇' j k hline₅
  obtain ⟨_, _, _, hg₃', hrest, rfl⟩ := hbody'.inv_seq
  obtain ⟨_, _, _, hmembers', hg₄', rfl⟩ := hrest.inv_seq
  cases trees_of_gap hg₃'
  cases trees_of_gap hg₄'
  have hword := undotted_of_spans hblanks₂ hs₄' hs₅' ⟨rfl, by decide⟩
  have hphrase := Derives.seq (lit_of_spans hs₁')
    (.seq (gap_of_spans hblanks₁ hs₂' (opens_of_word hw.beginsWord hs₃'))
      (.seq (identifier_of_spans hw hs₃' fun z hz => (hword z hz).1)
        (.seq (gap_of_spans hblanks₂ hs₄' (opens_of_cons rfl hs₅'))
          (.seq (lit_of_spans hs₅')
            (.seq hg₃' (.seq hmembers' (.seq hg₄' (lit_of_spans hs₇'))))))))
  have hcall := Derives.call (g := grammar) (r := classDecl) (by decide) hphrase
  have hname' : Apart j k [.node identifier c₂.position c₃.position w []]
      [.node identifier c₂'.position c₃'.position w []] := .node hline₂ hline₃ rfl
  exact ⟨_, hcall, .call hline hspans hspans' (hname'.append hapart)⟩

def declRule : Bool → Rule
  | true => importDecl
  | false => classDecl

def declWord : Bool → String
  | true => "import"
  | false => "class"

def declKind : Bool → Kind
  | true => .importDeclaration
  | false => .classDeclaration

/-- The text is a declaration wherever it stands and whatever follows. The builder makes the tree
`a` of it, as many lines further down as the line on which the text stands says. -/
structure Stands (i : Bool) (cs : List Char) (a : Tree Node) : Prop where
  begins : (declWord i).toList <+: cs
  kind : a.label.kind = declKind i
  reads : ∀ c d : Cursor, c.Spans d cs →
    ∃ t, Derives grammar false (.call (declRule i)) c (some ([t], d)) ∧
      Build.declarations [t] = .ok [moved c.position.line a]

theorem decl_none {i : Bool} (h : ¬(declWord i).toList <+: c.rest) :
    Derives grammar false (.call (declRule i)) c none := by
  cases i
  all_goals exact .call_none (by decide) (.seq_none_left (.lit_none (Cursor.text?_eq_none h)))

theorem decl_travels {i : Bool} (h : Derives grammar false (.call (declRule i)) c (some (ts, d))) :
    ∃ cs, c.Spans d cs ∧ Travels (declRule i) cs c.position.line ts := by
  cases i with
  | true => exact import_travels h
  | false => exact class_travels h

theorem decl_builds {i : Bool} (h : Derives grammar false (.call (declRule i)) c (some (ts, d))) :
    ∃ t a, ts = [t] ∧ Build.declarations [t] = .ok [a] ∧ a.label.kind = declKind i := by
  cases i with
  | true =>
    obtain ⟨t, rfl, ht⟩ := Makes.call (by decide) ⟨_, _, h⟩
    obtain ⟨a, ha, hia⟩ := importDecl_builds ht
    refine ⟨t, a, rfl, ?_, ?_⟩
    · simp only [Build.declarations, ht.1, ha]
      rfl
    · cases hia
      rfl
  | false =>
    obtain ⟨t, rfl, ht⟩ := Makes.call (by decide) ⟨_, _, h⟩
    obtain ⟨a, ha, hia⟩ := classDecl_builds ht
    refine ⟨t, a, rfl, ?_, ?_⟩
    · simp only [Build.declarations, ht.1, ha]
      rfl
    · cases hia
      rfl

theorem stands_of_derives {i : Bool}
    (h : Derives grammar false (.call (declRule i)) c (some (ts, d))) :
    ∃ cs a, c.Spans d cs ∧ Stands i cs a := by
  obtain ⟨cs, hs, htravels⟩ := decl_travels h
  -- The text alone, on a line with number zero, is built into the tree of the declaration.
  have hs₀ : Cursor.Spans ⟨⟨0, 0, 0, 0⟩, cs⟩ ⟨Position.after ⟨0, 0, 0, 0⟩ cs, []⟩ cs :=
    ⟨(List.append_nil cs).symm, rfl⟩
  obtain ⟨ts₀, h₀, -⟩ := htravels _ _ hs₀ 0 c.position.line (Nat.zero_add _).symm
  obtain ⟨t₀, a, rfl, ha, hkind⟩ := decl_builds h₀
  obtain ⟨cs', hs', htravels₀⟩ := decl_travels h₀
  cases hs'.text_inj hs₀
  refine ⟨cs, a, hs, ?_, hkind, ?_⟩
  · by_contra hn
    cases h₀.det (decl_none hn)
  · intro c' d' hspans
    obtain ⟨ts', h', hapart⟩ := htravels₀ c' d' hspans c'.position.line 0 (Nat.zero_add _)
    obtain ⟨t', a', rfl, ha', -⟩ := decl_builds h'
    have hmoved := hapart.declarations
    rw [ha, ha'] at hmoved
    injection hmoved with hmoved
    injection hmoved with hmoved
    rw [moved_zero] at hmoved
    exact ⟨t', h', by rw [hmoved, ha']⟩

end Twig

end TreeMetrics
