import TreeMetrics.Proofs.Twig.Declaration

namespace TreeMetrics.Twig

open TreeMetrics.Expr TreeMetrics.Twig.Rule

variable {c d e : Cursor} {x : Expr Rule} {ts us : List (ParseTree Rule)} {i : Bool} {a : Tree Node}
variable {cs ds g u : List Char} {as bs : List (Tree Node)} {s : String}

/-- The text of the declarations of a file and their trees, on lines that are counted from zero.
Imports may stand in it only if `i` holds, and only before the classes. -/
inductive Declared : Bool → List Char → List (Tree Node) → Prop where
  | tail {i : Bool} {g : List Char} : Trailing g → Declared i g []
  | cons {i j : Bool} {g u cs : List Char} {a : Tree Node} {as : List (Tree Node)} : (j → i) →
    Blanks g → Stands j u a → Declared j cs as →
    Declared i (g ++ (u ++ cs)) (moved (g.count '\n') a :: as.map (moved ((g ++ u).count '\n')))

theorem Stands.opens (h : Stands i u a) (rest : List Char) :
    ∀ z ∈ (u ++ rest).head?, opensToken z = true := by
  obtain ⟨v, rfl⟩ := h.begins
  intro z hz
  cases i
  all_goals
    cases hz
    rfl

theorem Stands.ne_nil (h : Stands i u a) : u ≠ [] := by
  obtain ⟨v, rfl⟩ := h.begins
  cases i
  all_goals exact List.cons_ne_nil _ _

theorem Stands.not_import (h : Stands false u a) (rest : List Char) :
    ¬"import".toList <+: u ++ rest := by
  obtain ⟨v, rfl⟩ := h.begins
  intro hp
  exact absurd (List.cons_prefix_cons.1 hp).1 (by decide)

theorem eq_ok_of_cons {x : Build.Result}
    (h : (do
      let b ← x
      let bs ← Except.ok []
      Except.ok (b :: bs)) = .ok [a]) : x = .ok a := by
  cases x with
  | error _ => cases h
  | ok b =>
    cases h
    rfl

theorem declarations_cons {t : ParseTree Rule} (ht : Build.declarations [t] = .ok [a])
    (hts : Build.declarations ts = .ok as) : Build.declarations (t :: ts) = .ok (a :: as) := by
  unfold Build.declarations at ht ⊢
  split at ht
  · rw [eq_ok_of_cons ht, hts]
    rfl
  · rw [eq_ok_of_cons ht, hts]
    rfl
  · cases ht
  · cases ht

namespace Declared

theorem mono {j : Bool} (h : Declared i cs as) (hij : i → j) : Declared j cs as := by
  cases h with
  | tail ht => exact .tail ht
  | cons hji hg hu hcs => exact .cons (fun h => hij (hji h)) hg hu hcs

theorem blanks_append (hg : Blanks g) (h : Declared i cs as) :
    Declared i (g ++ cs) (as.map (moved (g.count '\n'))) := by
  cases h with
  | tail ht => exact .tail (.append hg ht)
  | cons hji hb hu hcs =>
    have hcons := Declared.cons hji (hg.append hb) hu hcs
    simp only [List.map_cons, moved_moved, map_moved_moved, List.append_assoc,
      List.count_append] at hcons ⊢
    exact hcons

/-- Behind a line break there may follow other classes. -/
theorem append (h : Declared i cs as) (h' : Declared false ds bs) :
    Declared i (cs ++ '\n' :: ds) (as ++ bs.map (moved ((cs ++ ['\n']).count '\n'))) := by
  induction h with
  | @tail i g ht =>
    have hg : Blanks (g ++ ['\n']) := ht.blanks_append (by decide)
    have hds := (h'.mono (j := i) nofun).blanks_append hg
    rwa [List.append_assoc] at hds
  | cons hji hg hu _ ih =>
    have hcons := Declared.cons hji hg hu ih
    simp only [List.map_append, map_moved_moved, List.append_assoc, List.count_append,
      List.cons_append, Nat.add_assoc] at hcons ⊢
    exact hcons

theorem of_no_imports (h : Declared i cs as)
    (has : ∀ a ∈ as, a.label.kind ≠ .importDeclaration) : Declared false cs as := by
  cases h with
  | tail ht => exact .tail ht
  | @cons _ j g u cs a as hji hg hu hcs =>
    cases j with
    | true =>
      have hkind : (moved (g.count '\n') a).label.kind = .importDeclaration := by
        rw [label_moved]
        exact hu.kind
      exact absurd hkind (has _ List.mem_cons_self)
    | false => exact .cons id hg hu hcs

/-- The rule for imports takes the text as far as it goes and the rule for classes takes the rest.
The builder makes the declarations of what they have taken, as the line on which the text begins
says. -/
theorem declares (h : Declared i cs as) (p : Position) :
    ∃ ts m us d e,
      Derives grammar false (.star (.seq gap (.call importDecl))) ⟨p, cs⟩ (some (ts, m)) ∧
      Derives grammar false (.star (.seq gap (.call classDecl))) m (some (us, d)) ∧
      Derives grammar false gap d (some ([], e)) ∧ e.rest = [] ∧
      (∀ t : ParseTree Rule, t.rule = endOfInput →
        Build.declarations (ts ++ (us ++ [t])) = .ok (as.map (moved p.line))) ∧
      (i = false → ts = [] ∧ m = ⟨p, cs⟩) := by
  induction h generalizing p with
  | @tail i g ht =>
    have hgap := gap_trailing ht false p
    have hnone : ∀ i, Derives grammar false (.seq gap (.call (declRule i))) ⟨p, g⟩ none := by
      intro i
      apply Derives.seq_none_right hgap
      apply decl_none
      intro hp
      cases i
      all_goals cases List.prefix_nil.1 hp
    refine ⟨[], _, [], _, _, .star_nil (hnone true), .star_nil (hnone false), hgap, rfl, ?_,
      fun _ => ⟨rfl, rfl⟩⟩
    intro t ht
    simp only [List.nil_append, Build.declarations, ht, List.map_nil]
  | @cons i j g u cs a as hji hg hu _ ih =>
    have hgap := gap_append hg (hu.opens cs) false p
    obtain ⟨t, ht, hbuild⟩ := hu.reads ⟨p.after g, u ++ cs⟩ ⟨(p.after g).after u, cs⟩ ⟨rfl, rfl⟩
    obtain ⟨ts, m, us, d, e, himports, hclasses, hend, he, has, hsame⟩ := ih ((p.after g).after u)
    have hone := Derives.seq hgap ht
    have htrees : ∀ t' : ParseTree Rule, t'.rule = endOfInput →
        Build.declarations (t :: (ts ++ (us ++ [t']))) = .ok (List.map (moved p.line)
          (moved (g.count '\n') a :: as.map (moved ((g ++ u).count '\n')))) := by
      intro t' ht'
      rw [declarations_cons hbuild (has t' ht')]
      simp only [Position.after_line, List.map_cons, moved_moved, map_moved_moved,
        List.count_append, Nat.add_assoc]
    cases j with
    | true =>
      refine ⟨_, m, us, d, e, .star_cons hone himports, hclasses, hend, he, htrees, ?_⟩
      rintro rfl
      cases hji rfl
    | false =>
      -- No import stands behind a class, so the rule for imports has taken nothing there.
      obtain ⟨rfl, rfl⟩ := hsame rfl
      have hnone :
          Derives grammar false (.seq gap (.call importDecl)) ⟨p, g ++ (u ++ cs)⟩ none := by
        apply Derives.seq_none_right hgap
        exact decl_none (i := true) (hu.not_import cs)
      exact ⟨[], _, _, d, e, .star_nil hnone, .star_cons hone hclasses, hend, he, htrees,
        fun _ => ⟨rfl, rfl⟩⟩

end Declared

/-- Rounds that begin with a gap are the parts of a phrase with a gap before the first one. -/
theorem many_of_star (h : Derives grammar false (.star (.seq gap x)) c (some (ts, d)))
    (hg : Derives grammar false gap d (some ([], e))) :
    ∃ c' d', Derives grammar false gap c (some ([], c')) ∧
      Derives grammar false (many x) c' (some (ts, d')) ∧
      Derives grammar false gap d' (some ([], e)) := by
  cases h with
  | star_nil hn =>
    cases hn with
    | seq_none_left hn => cases hn.det hg
    | seq_none_right hg' hx =>
      cases hg'.det hg
      exact ⟨e, e, hg, .alt_right (.seq_none_left hx) .empty, (settled_of_gap hg).gap⟩
  | star_cons hone hrest =>
    obtain ⟨_, c', _, hg', hx, rfl⟩ := hone.inv_seq
    cases trees_of_gap hg'
    exact ⟨c', d, hg', .alt_left (.seq hx hrest), hg⟩

theorem file_of_declarations {p q : Position} (h : Build.declarations ts = .ok as) :
    ∃ a, Build.file (.node file p q s ts) = .ok a ∧ a.children = as := by
  refine ⟨.node (.plain .compilationUnit p.line q.line) as, ?_, rfl⟩
  simp only [Build.file, ParseTree.children, h]
  rfl

theorem parse_of_declared (h : Declared true s.toList as) :
    ∃ a, parse s = .ok a ∧ a.children = as.map (moved 1) := by
  obtain ⟨ts, m, us, d, e, himports, hclasses, hend, he, has, -⟩ := h.declares .start
  obtain ⟨m', d', hgap₂, hclasses, hgap₃⟩ := many_of_star hclasses hend
  obtain ⟨c', m'', hgap₀, himports, hgap₁⟩ := many_of_star himports hgap₂
  have hbody : Derives grammar false (pattern endOfInput) e (some ([], e)) := .atEnd he
  have hlast := Derives.call (g := grammar) (r := endOfInput) (by decide) hbody
  have hfile := Derives.call (g := grammar) (r := file) (by decide)
    (.seq hgap₀ (.seq himports (.seq hgap₁ (.seq hclasses (.seq hgap₃ hlast)))))
  obtain ⟨a, ha, hchildren⟩ := file_of_declarations (has (.node endOfInput _ _ _ _) rfl)
  exact ⟨a, parse_ok_iff.2 ⟨_, e, hfile, ha⟩, hchildren⟩

theorem declared_of_gap (h : Derives grammar false gap c (some (ts, d)))
    (hd : Declared i d.rest as) : ∃ bs, Declared i c.rest bs := by
  obtain ⟨g, hs, ht, hb⟩ := inv_gap h
  rw [hs.rest]
  by_cases hn : d.rest = []
  · rw [hn, List.append_nil]
    exact ⟨[], .tail ht⟩
  · exact ⟨_, hd.blanks_append (hb hn)⟩

theorem declared_of_decl (hg : Derives grammar false gap c (some (ts, d)))
    (h : Derives grammar false (.call (declRule i)) d (some (us, e)))
    (he : Declared i e.rest as) : ∃ bs, Declared i c.rest bs := by
  obtain ⟨u, a, hs, hu⟩ := stands_of_derives h
  obtain ⟨g, hsg, -, hb⟩ := inv_gap hg
  have hne : d.rest ≠ [] := by
    rw [hs.rest]
    exact List.append_ne_nil_of_left_ne_nil hu.ne_nil _
  rw [hsg.rest, hs.rest]
  exact ⟨_, .cons id (hb hne) hu he⟩

theorem declared_of_many (hg : Derives grammar false gap c (some (ts, d)))
    (h : Derives grammar false (many (.call (declRule i))) d (some (us, e)))
    (he : Declared i e.rest as) : ∃ bs, Declared i c.rest bs := by
  rcases h.inv_opt with h | ⟨-, -, rfl⟩
  · obtain ⟨_, m, _, hx, hs, -⟩ := h.inv_seq
    have hm : ∃ bs, Declared i m.rest bs := by
      refine hs.star_induction (P := fun c _ d => Declared i d.rest as → ∃ bs, Declared i c.rest bs)
        ?_ ?_ he
      · intro c _ hc
        exact ⟨as, hc⟩
      · intro c ts d us e hone _ ih he
        obtain ⟨_, m, _, hg, hx, -⟩ := hone.inv_seq
        obtain ⟨bs, hbs⟩ := ih he
        exact declared_of_decl hg hx hbs
    obtain ⟨bs, hbs⟩ := hm
    exact declared_of_decl hg hx hbs
  · exact declared_of_gap hg he

theorem declared_of_parse (h : parse s = .ok a) : ∃ as, Declared true s.toList as := by
  obtain ⟨t, d, hfile, -⟩ := parse_ok_iff.1 h
  obtain ⟨_, hb, -⟩ := hfile.inv_call (by decide)
  obtain ⟨_, c₁, _, hg₀, hb, -⟩ := hb.inv_seq
  obtain ⟨_, c₂, c₃, _, himports, hg₁, hb, -⟩ := inv_phrase hb
  obtain ⟨_, c₄, c₅, _, hclasses, hg₂, hlast, -⟩ := inv_phrase hb
  obtain ⟨_, hlast, -⟩ := Derives.inv_call (by decide) hlast
  have h₅ : Declared false c₅.rest [] := by
    cases hlast with
    | atEnd he =>
      rw [he]
      exact .tail (.blanks blanks_nil)
  obtain ⟨as, h₄⟩ := declared_of_gap hg₂ h₅
  obtain ⟨as, h₂⟩ := declared_of_many (i := false) hg₁ hclasses h₄
  exact declared_of_many (i := true) hg₀ himports (h₂.mono nofun)

/-- The declarations of two files with a line break between them, the second without imports, are
those of the first one, unchanged, and behind them those of the second one, as many lines further
down as lines stand before it. -/
theorem parse_append {s₁ s₂ : String} {a₁ a₂ : Tree Node} (h₁ : parse s₁ = .ok a₁)
    (h₂ : parse s₂ = .ok a₂) (hi : ∀ t ∈ a₂.children, t.label.kind ≠ .importDeclaration) :
    ∃ a k, parse (s₁ ++ "\n" ++ s₂) = .ok a ∧
      (Position.start.after (s₁ ++ "\n").toList).line = k + 1 ∧
      a.children = a₁.children ++ a₂.children.map (moved k) := by
  obtain ⟨as, has⟩ := declared_of_parse h₁
  obtain ⟨bs, hbs⟩ := declared_of_parse h₂
  obtain ⟨_, hp₁, hc₁⟩ := parse_of_declared has
  obtain ⟨_, hp₂, hc₂⟩ := parse_of_declared hbs
  cases h₁.symm.trans hp₁
  cases h₂.symm.trans hp₂
  have hno : ∀ b ∈ bs, b.label.kind ≠ .importDeclaration := by
    intro b hb
    have hm := hi (moved 1 b) (by rw [hc₂]; exact List.mem_map_of_mem hb)
    rwa [label_moved] at hm
  have hboth : Declared true (s₁ ++ "\n" ++ s₂).toList
      (as ++ bs.map (moved ((s₁ ++ "\n").toList.count '\n'))) := by
    simpa using has.append (hbs.of_no_imports hno)
  obtain ⟨a, ha, hc⟩ := parse_of_declared hboth
  refine ⟨a, (s₁ ++ "\n").toList.count '\n', ha, ?_, ?_⟩
  · rw [Position.after_line, Nat.add_comm]
    rfl
  · rw [hc, hc₁, hc₂, List.map_append, map_moved_moved, map_moved_moved, Nat.add_comm]

/-- Ends in a comment that only the line break behind it closes. -/
def openComment : String := "import a.b;\nclass C \x7b field x; \x7d // end"

def twoLines : String := "class D \x7b\n method m(p) \x7b return p; \x7d \x7d /* end */"

theorem parse_append_openComment :
    ∃ a₁ a₂ a k, parse openComment = .ok a₁ ∧ parse twoLines = .ok a₂ ∧
      (∀ t ∈ a₂.children, t.label.kind ≠ .importDeclaration) ∧
      parse (openComment ++ "\n" ++ twoLines) = .ok a ∧
      (Position.start.after (openComment ++ "\n").toList).line = k + 1 ∧
      a.children = a₁.children ++ a₂.children.map (moved k) := by
  have hparse₁ : (parse openComment).toOption.isSome = true := by decide +kernel
  have hparse₂ : (parse twoLines).toOption.any
      (fun a => a.children.all (·.label.kind != .importDeclaration)) = true := by decide +kernel
  obtain ⟨a₁, h₁⟩ := exists_ok_of_isSome hparse₁
  obtain ⟨a₂, h₂⟩ := exists_ok_of_isSome (Option.isSome_of_any hparse₂)
  rw [h₂] at hparse₂
  have hi : ∀ t ∈ a₂.children, t.label.kind ≠ .importDeclaration := fun t ht =>
    bne_iff_ne.1 (List.all_eq_true.1 hparse₂ t ht)
  obtain ⟨a, k, ha, hk, hc⟩ := parse_append h₁ h₂ hi
  exact ⟨a₁, a₂, a, k, h₁, h₂, hi, ha, hk, hc⟩

end TreeMetrics.Twig
