import TreeMetrics.Proofs.Twig.InStep
import TreeMetrics.Proofs.Twig.Spacing

namespace TreeMetrics.Twig

open TreeMetrics.Expr TreeMetrics.Twig.Rule

variable {q : Bool} {c c' d d' : Cursor} {o : Outcome Rule} {x y : Expr Rule} {r : Rule}
variable {g g' u t t' : List Char} {ws : List String} {p p' : Position}

/-- The same rest of a word stands at both cursors, and the same words follow behind it. -/
inductive Abreast : Cursor → Cursor → Prop where
  | mk {p p' : Position} {u t t' : List Char} {ws : List String} :
    (∀ z ∈ u, opensToken z = true) → Trails ws t → Trails ws t' →
    Abreast ⟨p, u ++ t⟩ ⟨p', u ++ t'⟩

/-- The rules that take blank text only as a gap. -/
def isGapwise : Rule → Bool
  | whitespace | comment | file | endOfInput => false
  | _ => true

/-- Decides whether an expression takes blank text only as a gap. -/
def gapwise : Expr Rule → Bool
  | .empty => true
  | .lit s => s.toList.all opensToken
  | .char k => k != .any
  | .atEnd => false
  | .call r => isGapwise r
  | .seq x y => .seq x y == gap || gapwise x && gapwise y
  | .alt x y => gapwise x && gapwise y
  | .star x | .not x => gapwise x

theorem gapwise_pattern (h : isGapwise r = true) : gapwise (pattern r) = true := by
  cases r with
  | whitespace | comment | file | endOfInput => cases h
  | _ => rfl

namespace Abreast

/-- Both cursors pass the gap that stands at them. -/
theorem pass (q : Bool) (p p' : Position) (hg : Blanks g) (hg' : Blanks g')
    (hu : ∀ z ∈ u, opensToken z = true)
    (ht : Trails ws t) (ht' : Trails ws t') (hn : u = [] → t = [] ∧ t' = []) :
    ∃ d d', Derives grammar q Twig.gap ⟨p, g ++ (u ++ t)⟩ (some ([], d)) ∧
      Derives grammar q Twig.gap ⟨p', g' ++ (u ++ t')⟩ (some ([], d')) ∧ Abreast d d' ∧
      (d.rest = [] ↔ d'.rest = []) := by
  cases u with
  | nil =>
    obtain ⟨rfl, rfl⟩ := hn rfl
    have hopens : ∀ z ∈ ([] : List Char).head?, opensToken z = true := by
      intro z hz
      cases hz
    exact ⟨_, _, gap_append hg hopens q p, gap_append hg' hopens q p', .mk hu ht ht', Iff.rfl⟩
  | cons y u =>
    have hopens : ∀ t, ∀ z ∈ (y :: u ++ t).head?, opensToken z = true := by
      intro t z hz
      cases hz
      exact hu _ List.mem_cons_self
    refine ⟨_, _, gap_append hg (hopens t) q p, gap_append hg' (hopens t') q p', .mk hu ht ht', ?_⟩
    exact iff_of_false (List.cons_ne_nil _ _) (List.cons_ne_nil _ _)

theorem laidOut (q : Bool) (p p' : Position) (h : LaidOut ws t) (h' : LaidOut ws t') :
    ∃ d d', Derives grammar q Twig.gap ⟨p, t⟩ (some ([], d)) ∧
      Derives grammar q Twig.gap ⟨p', t'⟩ (some ([], d')) ∧ Abreast d d' ∧
      (d.rest = [] ↔ d'.rest = []) := by
  cases h with
  | nil hg =>
    cases h' with
    | nil hg' =>
      have hend : Trails [] [] := .nil blanks_nil
      have hp := pass q p p' hg hg' (List.forall_mem_nil _) hend hend
        fun _ => ⟨rfl, rfl⟩
      simp only [List.append_nil] at hp
      exact hp
  | cons hg hw ht =>
    cases h' with
    | cons hg' _ ht' => exact pass q p p' hg hg' hw.2 ht ht' fun h => absurd h hw.1

theorem gap (h : Abreast c c') :
    ∃ d d', Derives grammar q Twig.gap c (some ([], d)) ∧
      Derives grammar q Twig.gap c' (some ([], d')) ∧ Abreast d d' ∧
      (d.rest = [] ↔ d'.rest = []) := by
  cases h with
  | @mk p p' u t t' ws hu ht ht' =>
    cases u with
    | nil => exact laidOut q p p' ht.laidOut ht'.laidOut
    | cons z u =>
      apply pass q p p' blanks_nil blanks_nil hu ht ht'
      intro h
      cases h

theorem passes (h : Abreast c c') : Passes Abreast c c' := by
  intro q
  obtain ⟨d, d', hd, hd', ha, -⟩ := h.gap (q := q)
  exact ⟨d, d', hd, hd', ha⟩

/-- The next character of a word is the same, or no word goes on. -/
theorem next (h : Abreast c c') :
    (∀ e ∈ [c, c'], ∀ z ∈ e.rest.head?, opensToken z = false) ∨
      ∃ z cs cs', c = ⟨c.position, z :: cs⟩ ∧ c' = ⟨c'.position, z :: cs'⟩ ∧
        Abreast ⟨c.position.advance z, cs⟩ ⟨c'.position.advance z, cs'⟩ := by
  cases h with
  | @mk p p' u t t' ws hu ht ht' =>
    cases u with
    | nil =>
      apply Or.inl
      intro e he
      rcases List.mem_pair.1 he with rfl | rfl
      · exact ht.head
      · exact ht'.head
    | cons z u =>
      obtain ⟨-, hu⟩ := List.forall_mem_cons.1 hu
      exact .inr ⟨z, u ++ t, u ++ t', rfl, rfl, .mk hu ht ht'⟩

/-- A text without blanks stands at both cursors or at neither. -/
theorem text? (h : Abreast c c') {xs : List Char} (hx : ∀ z ∈ xs, opensToken z = true) :
    c.text? xs = none ∧ c'.text? xs = none ∨
      ∃ d d', c.text? xs = some d ∧ c'.text? xs = some d' ∧ Abreast d d' := by
  induction xs generalizing c c' with
  | nil => exact .inr ⟨c, c', rfl, rfl, h⟩
  | cons x xs ih =>
    obtain ⟨hx, hxs⟩ := List.forall_mem_cons.1 hx
    rcases h.next with hn | ⟨z, cs, cs', hc, hc', hd⟩
    · have hnone : ∀ e ∈ [c, c'], e.text? (x :: xs) = none := by
        intro e he
        apply Cursor.text?_eq_none
        rintro ⟨rest, hr⟩
        have hz := hn e he x (by rw [← hr]; rfl)
        cases hx.symm.trans hz
      exact .inl ⟨hnone c (by simp), hnone c' (by simp)⟩
    · rw [hc, hc', Cursor.text?, Cursor.text?]
      by_cases hz : z = x
      · simp only [if_pos hz]
        exact ih hd hxs
      · simp only [if_neg hz]
        exact .inl ⟨trivial, trivial⟩

theorem isWordChar_of_holds {k : CharClass} (hk : k ≠ .any) {z : Char} (h : k.holds z = true) :
    isWordChar z = true := by
  cases k with
  | digit => exact isWordChar_of_isDigit h
  | letter => exact isWordChar_of_isWordStart (Bool.or_eq_true_iff.2 (.inl h))
  | alphanumeric => exact Bool.or_eq_true_iff.2 (.inl h)
  | any => exact absurd rfl hk

theorem opensToken_of_holds {k : CharClass} (hk : k ≠ .any) {z : Char} (h : k.holds z = true) :
    opensToken z = true :=
  opensToken_of_isWordChar (isWordChar_of_holds hk h)

theorem char? (h : Abreast c c') {k : CharClass} (hk : k ≠ .any) :
    c.char? k = none ∧ c'.char? k = none ∨
      ∃ d d' z, c.char? k = some d ∧ c'.char? k = some d' ∧ Abreast d d' ∧ c.Spans d [z] ∧
        c'.Spans d' [z] := by
  rcases h.next with hn | ⟨z, cs, cs', hc, hc', hd⟩
  · have hnone : ∀ e ∈ [c, c'], e.char? k = none := by
      intro e he
      cases hr : e.char? k with
      | none => rfl
      | some d =>
        obtain ⟨z, hz, hs⟩ := Cursor.char?_eq_some.1 hr
        have ho := hn e he z (by rw [hs.rest]; rfl)
        cases (opensToken_of_holds hk hz).symm.trans ho
    exact .inl ⟨hnone c (by simp), hnone c' (by simp)⟩
  · rw [hc, hc', Cursor.char?, Cursor.char?]
    by_cases hz : k.holds z = true
    · simp only [if_pos hz]
      exact .inr ⟨_, _, z, rfl, rfl, hd, ⟨rfl, rfl⟩, ⟨rfl, rfl⟩⟩
    · simp only [if_neg hz]
      exact .inl ⟨trivial, trivial⟩

end Abreast

theorem gapwise_seq (h : gapwise (.seq x y) = true) :
    .seq x y = gap ∨ gapwise x = true ∧ gapwise y = true := by
  rwa [gapwise, Bool.or_eq_true, Bool.and_eq_true, beq_iff_eq] at h

theorem abreast_paces : Paces (fun x c c' => gapwise x = true ∧ Abreast c c') Abreast where
  near h := h.2
  lit h := by
    rcases h.2.text? (List.all_eq_true.1 h.1) with ⟨hn, hn'⟩ | ⟨d, d', hd, hd', ha⟩
    · rw [hn, hn']
      exact .fails
    · rw [hd, hd']
      exact .takes ha (Cursor.text?_eq_some.1 hd) (Cursor.text?_eq_some.1 hd')
  char h := by
    rcases h.2.char? (bne_iff_ne.1 h.1) with ⟨hn, hn'⟩ | ⟨d, d', z, hd, hd', ha, hs, hs'⟩
    · rw [hn, hn']
      exact .fails
    · rw [hd, hd']
      exact .takes ha hs hs'
  atEnd h := by cases h.1
  seq h := by
    rcases gapwise_seq h.1 with hg | ⟨hx, hy⟩
    · exact .inl ⟨hg, h.2.passes⟩
    · exact .inr (.inr ⟨⟨hx, h.2⟩, fun d d' hd => ⟨hy, hd⟩⟩)
  alt h := by
    obtain ⟨hx, hy⟩ := Bool.and_eq_true_iff.1 h.1
    exact ⟨⟨hx, h.2⟩, hy, h.2⟩
  star h := ⟨h, fun d d' hd => ⟨h.1, hd⟩⟩
  not h := h
  call h := ⟨gapwise_pattern h.1, h.2⟩

/-- An expression that takes blank text only as a gap has the same success at cursors that stand
abreast. -/
theorem inStep (h : Derives grammar q x c o) (hx : gapwise x = true) (hc : Abreast c c') :
    ∃ o', Derives grammar q x c' o' ∧ InStep Abreast x c c' o o' :=
  abreast_paces.inStep h ⟨hx, hc⟩

end TreeMetrics.Twig
