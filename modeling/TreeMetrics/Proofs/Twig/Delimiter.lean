import TreeMetrics.Proofs.Twig.LayoutIndependence

namespace TreeMetrics.Twig

open TreeMetrics.Expr TreeMetrics.Twig.Rule

variable {q : Bool} {c c' : Cursor} {x y : Expr Rule} {r : Rule} {z : Char}
variable {s u v w : List Char} {p p' : Position}

/-- The characters that are tokens of their own and part of no other token. -/
def delimiters : List Char := ['(', ')', '\x7b', '\x7d', ',', ';', '?', ':']

/-- The rules that may be tried directly behind a token. -/
def isPatient : Rule → Bool
  | file | identChar | identRaw | keyword => true
  | _ => false

/-- Decides whether an expression takes neither a blank nor the delimiter unless it passes a gap
first. -/
def patient (z : Char) : Expr Rule → Bool
  | .empty | .atEnd | .char _ => true
  | .lit s => s.toList != [z]
  | .call r => isPatient r
  | .seq x y => x == gap || patient z x && patient z y
  | .alt x y => patient z x && patient z y
  | .star x | .not x => patient z x

/-- Decides whether an expression takes blank text only as a gap and the delimiter only as a token
of its own, and passes a gap before it looks for that token behind another one. -/
def tidy (z : Char) : Expr Rule → Bool
  | .empty | .atEnd => true
  | .lit s => s.toList.all opensToken && (s.toList == [z] || !s.toList.contains z)
  | .char k => k != .any
  | .call r => !isBlank r
  | .seq x y => tidy z y && (x == gap || tidy z x && patient z y)
  | .alt x y => tidy z x && tidy z y
  | .star x => tidy z x && patient z x
  | .not x => tidy z x

theorem tidy_pattern (hz : z ∈ delimiters) (h : isBlank r = false) : tidy z (pattern r) = true := by
  have hall : (delimiters.all fun z => Rule.all.all fun r => isBlank r || tidy z (pattern r)) =
      true := by
    decide +kernel
  have hr := List.all_eq_true.1 (List.all_eq_true.1 hall z hz) r (mem_all r)
  rwa [h, Bool.false_or] at hr

theorem patient_pattern (hz : z ∈ delimiters) (h : isPatient r = true) :
    patient z (pattern r) = true := by
  have hall : (delimiters.all fun z => Rule.all.all fun r => !isPatient r ||
      patient z (pattern r)) = true := by
    decide +kernel
  have hr := List.all_eq_true.1 (List.all_eq_true.1 hall z hz) r (mem_all r)
  rwa [h, Bool.not_true, Bool.false_or] at hr

/-- The first text goes on like the second, but for a blank in front of the delimiter; or both go on
alike. -/
inductive Nearing (z : Char) (v : List Char) : Cursor → Cursor → Prop where
  | before {p p' : Position} {u : List Char} : '/' ∉ u →
    Nearing z v ⟨p, u ++ ' ' :: z :: v⟩ ⟨p', u ++ z :: v⟩
  | after {p p' : Position} {w : List Char} : Nearing z v ⟨p, w⟩ ⟨p', w⟩

/-- Where an expression may be tried in both texts. At the blank itself, it passes a gap first. -/
inductive Tried (z : Char) (v : List Char) (x : Expr Rule) : Cursor → Cursor → Prop where
  | before {p p' : Position} {u : List Char} : tidy z x = true → (u = [] → patient z x = true) →
    '/' ∉ u → Tried z v x ⟨p, u ++ ' ' :: z :: v⟩ ⟨p', u ++ z :: v⟩
  | after {p p' : Position} {w : List Char} : tidy z x = true → Tried z v x ⟨p, w⟩ ⟨p', w⟩

theorem Nearing.tried (h : Nearing z v c c') (hx : tidy z x = true) (hp : patient z x = true) :
    Tried z v x c c' := by
  cases h with
  | before hu => exact .before hx (fun _ => hp) hu
  | after => exact .after hx

theorem Tried.mono (h : Tried z v x c c') (ht : tidy z x = true → tidy z y = true)
    (hp : patient z x = true → patient z y = true) : Tried z v y c c' := by
  cases h with
  | before hx hpx hu => exact .before (ht hx) (fun hn => hp (hpx hn)) hu
  | after hx => exact .after (ht hx)

theorem Tried.tidy (h : Tried z v x c c') : tidy z x = true := by
  cases h with
  | before hx _ _ => exact hx
  | after hx => exact hx

section Before

/-- A text that neither the blank nor the delimiter can end stands in front of them as a whole. -/
theorem isPrefix_before (hs : ' ' ∉ s) (hz : z ∉ s ∨ s = [z] ∧ u ≠ []) :
    (s <+: u ++ ' ' :: z :: v ↔ s <+: u) ∧ (s <+: u ++ z :: v ↔ s <+: u) := by
  refine ⟨⟨isPrefix_of_not_mem hs, fun h => h.trans (List.prefix_append u _)⟩, ?_⟩
  rcases hz with hz | ⟨rfl, hu⟩
  · exact ⟨isPrefix_of_not_mem hz, fun h => h.trans (List.prefix_append u _)⟩
  · obtain ⟨y, u, rfl⟩ := List.exists_cons_of_ne_nil hu
    simp [List.cons_prefix_cons]

theorem nearing_of_spans {d d' : Cursor} (hu : '/' ∉ u) (hp : s <+: u)
    (h : Cursor.Spans ⟨p, u ++ ' ' :: z :: v⟩ d s) (h' : Cursor.Spans ⟨p', u ++ z :: v⟩ d' s) :
    Nearing z v d d' := by
  obtain ⟨t, rfl⟩ := hp
  obtain ⟨p₁, rest⟩ := d
  obtain ⟨p₂, rest'⟩ := d'
  have hr := h.rest
  have hr' := h'.rest
  rw [List.append_assoc] at hr hr'
  cases List.append_cancel_left hr
  cases List.append_cancel_left hr'
  exact .before fun hm => hu (List.mem_append_right s hm)

/-- Blanks up to a token. -/
theorem exists_blanks (hu : '/' ∉ u) :
    ∃ g w, u = g ++ w ∧ Blanks g ∧ ∀ y ∈ w.head?, opensToken y = true := by
  induction u with
  | nil => exact ⟨[], [], rfl, blanks_nil, fun y hy => by cases hy⟩
  | cons y u ih =>
    rw [List.mem_cons, not_or] at hu
    cases ho : opensToken y with
    | true => exact ⟨[], y :: u, rfl, blanks_nil, fun x hx => by cases hx; exact ho⟩
    | false =>
      obtain ⟨g, w, rfl, ⟨bs, hbs, rfl⟩, hw⟩ := ih hu.2
      have hb : Blank [y] := by
        simp only [opensToken, Bool.not_eq_false', List.contains_iff_mem, List.mem_cons,
          List.not_mem_nil, or_false] at ho
        rcases ho with rfl | rfl | rfl | rfl | rfl
        · exact absurd rfl hu.1
        · exact .space
        · exact .tab
        · exact .lineBreak (by decide)
        · exact .lineBreak (by decide)
      exact ⟨y :: bs.flatten, w, rfl, ⟨[y] :: bs, List.forall_mem_cons.2 ⟨hb, hbs⟩, rfl⟩, hw⟩

theorem opensToken_delimiter (hz : z ∈ delimiters) : opensToken z = true := by
  have hall : delimiters.all opensToken = true := by decide
  exact List.all_eq_true.1 hall z hz

/-- The gap in front of the delimiter is passed in both texts, with the blank or without. -/
theorem passes_before (hz : z ∈ delimiters) (hu : '/' ∉ u) (hx : tidy z x = true) :
    Passes (Tried z v x) ⟨p, u ++ ' ' :: z :: v⟩ ⟨p', u ++ z :: v⟩ := by
  intro q
  obtain ⟨g, w, rfl, hg, hw⟩ := exists_blanks hu
  -- If blanks alone stand before the delimiter, the gap in the first text goes on with one more,
  -- and behind the gaps the texts are the same. Otherwise the gaps end before a token in both.
  cases w with
  | nil =>
    have ho : ∀ y ∈ (z :: v).head?, opensToken y = true := by
      intro y hy
      cases hy
      exact opensToken_delimiter hz
    have hb : Blanks (g ++ [' ']) := by
      obtain ⟨bs, hbs, rfl⟩ := hg
      exact ⟨bs ++ [[' ']], List.forall_mem_append.2 ⟨hbs, List.forall_mem_singleton.2 .space⟩,
        by simp⟩
    have hd := gap_append hb ho q p
    rw [List.append_assoc] at hd
    rw [List.append_nil]
    exact ⟨_, _, hd, gap_append hg ho q p', .after hx⟩
  | cons y w =>
    have ho : ∀ t, ∀ x ∈ (y :: w ++ t).head?, opensToken x = true := fun t x hx => hw x hx
    have hne : y :: w = [] → patient z x = true := fun h => by cases h
    rw [List.append_assoc, List.append_assoc]
    refine ⟨_, _, gap_append hg (ho _) q p, gap_append hg (ho _) q p', .before hx hne ?_⟩
    exact fun hm => hu (List.mem_append_right g hm)

end Before

theorem nearing_of_rest {d d' : Cursor} (h : d.rest = d'.rest) : Nearing z v d d' := by
  obtain ⟨p, w⟩ := d
  obtain ⟨p', w'⟩ := d'
  cases h
  exact .after

theorem tidy_lit {k : String} (h : tidy z (.lit k) = true) :
    ' ' ∉ k.toList ∧ (k.toList = [z] ∨ z ∉ k.toList) := by
  rw [tidy, Bool.and_eq_true, List.all_eq_true, Bool.or_eq_true, beq_iff_eq, Bool.not_eq_true',
    ← Bool.not_eq_true, List.contains_iff_mem] at h
  obtain ⟨ho, hz⟩ := h
  refine ⟨?_, hz⟩
  intro hm
  cases ho ' ' hm

theorem not_mem_of_holds (hz : z ∈ delimiters) {k : CharClass} (hk : k ≠ .any) {y : Char}
    (h : k.holds y = true) : ' ' ∉ [y] ∧ z ∉ [y] := by
  have hy := Abreast.isWordChar_of_holds hk h
  have hall : (delimiters.all fun z => !isWordChar z) = true := by decide
  constructor
  · intro hm
    cases List.mem_singleton.1 hm
    cases hy
  · intro hm
    cases List.mem_singleton.1 hm
    have hn := List.all_eq_true.1 hall z hz
    rw [hy] at hn
    cases hn

theorem tidy_seq (h : tidy z (.seq x y) = true) :
    tidy z y = true ∧ (x = gap ∨ tidy z x = true ∧ patient z y = true) := by
  rwa [tidy, Bool.and_eq_true, Bool.or_eq_true, Bool.and_eq_true, beq_iff_eq] at h

theorem patient_seq (h : patient z (.seq x y) = true) :
    x = gap ∨ patient z x = true ∧ patient z y = true := by
  rwa [patient, Bool.or_eq_true, Bool.and_eq_true, beq_iff_eq] at h

theorem Tried.passes (hz : z ∈ delimiters) (h : Tried z v x c c') (hy : Twig.tidy z y = true) :
    Passes (Tried z v y) c c' := by
  cases h with
  | before _ _ hu => exact passes_before hz hu hy
  | @after p p' w _ =>
    intro q
    have hg : Passes _ ⟨p, w⟩ ⟨p', w⟩ := exists_gaps rfl
    obtain ⟨⟨_, w⟩, ⟨_, w'⟩, hd, hd', hr⟩ := hg q
    cases hr
    exact ⟨_, _, hd, hd', .after hy⟩

theorem tried_paces (hz : z ∈ delimiters) : Paces (Tried z v) (Nearing z v) where
  near h := by
    cases h with
    | before _ _ hu => exact .before hu
    | after _ => exact .after
  lit {k _ _} h := by
    obtain ⟨hs, hk⟩ := tidy_lit h.tidy
    cases h with
    | @before p p' u _ hp hu =>
      have hd : z ∉ k.toList ∨ k.toList = [z] ∧ u ≠ [] := by
        refine hk.symm.imp_right fun hk => ⟨hk, fun hn => ?_⟩
        exact bne_iff_ne.1 (hp hn) hk
      obtain ⟨hi, hi'⟩ := isPrefix_before (v := v) hs hd
      exact .text (hi.trans hi'.symm) fun d d' hd hd' =>
        nearing_of_spans hu (hi.1 ⟨d.rest, hd.rest.symm⟩) hd hd'
    | after _ =>
      exact .text Iff.rfl fun d d' hd hd' =>
        nearing_of_rest (List.append_cancel_left (hd.rest.symm.trans hd'.rest))
  char {k _ _} h := by
    have hk := bne_iff_ne.1 h.tidy
    cases h with
    | @before p p' u _ _ hu =>
      have hi : ∀ y, k.holds y = true →
          ([y] <+: u ++ ' ' :: z :: v ↔ [y] <+: u) ∧ ([y] <+: u ++ z :: v ↔ [y] <+: u) := by
        intro y hy
        obtain ⟨hspace, hdelimiter⟩ := not_mem_of_holds hz hk hy
        exact isPrefix_before hspace (.inl hdelimiter)
      exact .char (fun y hy => (hi y hy).1.trans (hi y hy).2.symm) fun y d d' hy hd hd' =>
        nearing_of_spans hu ((hi y hy).1.1 ⟨d.rest, hd.rest.symm⟩) hd hd'
    | after _ =>
      exact .char (fun _ _ => Iff.rfl) fun y d d' _ hd hd' =>
        nearing_of_rest (List.append_cancel_left (hd.rest.symm.trans hd'.rest))
  atEnd h := by
    cases h with
    | before _ _ _ => simp
    | after _ => exact Iff.rfl
  seq {x y c c'} h := by
    obtain ⟨hy, hx⟩ := tidy_seq h.tidy
    -- Behind a gap neither cursor is at the blank, so what follows the gap need not be patient.
    by_cases hg : x = gap
    · exact .inr (.inl ⟨hg, h.passes hz hy⟩)
    · obtain ⟨hx, hpy⟩ := hx.resolve_left hg
      refine .inr (.inr ⟨h.mono (fun _ => hx) ?_, fun d d' hd => hd.tried hy hpy⟩)
      intro hp
      exact ((patient_seq hp).resolve_left hg).1
  alt h := by
    have ht := Bool.and_eq_true_iff.1 h.tidy
    exact ⟨h.mono (fun _ => ht.1) fun hp => (Bool.and_eq_true_iff.1 hp).1,
      h.mono (fun _ => ht.2) fun hp => (Bool.and_eq_true_iff.1 hp).2⟩
  star h := by
    obtain ⟨hx, hp⟩ := Bool.and_eq_true_iff.1 h.tidy
    exact ⟨h.mono (fun _ => hx) id, fun d d' hd => hd.tried h.tidy hp⟩
  not h := h.mono id id
  call h := by
    exact h.mono (fun hr => tidy_pattern hz (Bool.not_eq_true' _ ▸ hr)) (patient_pattern hz)

/-- A source is read as the same tree without a blank in front of a delimiter, if no comment can
stand before it. -/
theorem parse_without_blank {source source' : String} {a : Tree Node} (hz : z ∈ delimiters)
    (hu : '/' ∉ u) (hs : source.toList = u ++ ' ' :: z :: v) (hs' : source'.toList = u ++ z :: v)
    (ha : parse source = .ok a) : ∃ b, parse source' = .ok b ∧ unplaced a = unplaced b := by
  apply parse_of_alike ha
  rw [hs, hs']
  intro ts d hd
  have ht : Tried z v (.call file) (.ofText (u ++ ' ' :: z :: v)) (.ofText (u ++ z :: v)) :=
    .before rfl (fun _ => rfl) hu
  obtain ⟨_, hd', hm⟩ := (tried_paces hz).inStep hd ht
  cases hm with
  | takes hts _ _ => exact ⟨_, _, hd', hts⟩

end TreeMetrics.Twig
