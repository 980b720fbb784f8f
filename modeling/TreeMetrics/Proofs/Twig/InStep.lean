import Mathlib.Data.List.Forall2
import TreeMetrics.Proofs.Twig.Gap

namespace TreeMetrics.Twig

open TreeMetrics.Expr TreeMetrics.Twig.Rule

variable {q : Bool} {c c' d d' : Cursor} {o o' : Outcome Rule} {x y : Expr Rule} {r : Rule}
variable {S : Expr Rule → Cursor → Cursor → Prop} {R : Cursor → Cursor → Prop}

/-- The rules whose matches stand for their text. No gap is inside them. -/
def isSpelled : Rule → Bool
  | qualifiedName | modifier | assignOp | orOp | andOp | eqOp | relOp | addOp | notOp | number
  | keyword | identChar | identRaw | identifier => true
  | _ => false

theorem mute_pattern (h : isSpelled r = true) : (pattern r).mute isSpelled = true := by
  cases r <;> first | rfl | cases h

theorem mute_and (h : (x.mute isSpelled && y.mute isSpelled) = true) :
    x.mute isSpelled = true ∧ y.mute isSpelled = true := by
  rwa [Bool.and_eq_true] at h

/-- The same rules matched, though perhaps at other places, and the same words. -/
inductive Alike : ParseTree Rule → ParseTree Rule → Prop where
  | node {r : Rule} {p q p' q' : Position} {s s' : String} {ts ts' : List (ParseTree Rule)} :
    (isSpelled r = true → s = s') → List.Forall₂ Alike ts ts' →
    Alike (.node r p q s ts) (.node r p' q' s' ts')

/-- The expression had the same success in both texts and left related cursors. -/
inductive InStep (R : Cursor → Cursor → Prop) (x : Expr Rule) (c c' : Cursor) :
    Outcome Rule → Outcome Rule → Prop where
  | fails : InStep R x c c' none none
  | takes {ts ts' : List (ParseTree Rule)} {d d' : Cursor} : List.Forall₂ Alike ts ts' →
    R d d' → (x.mute isSpelled = true → ∃ cs, c.Spans d cs ∧ c'.Spans d' cs) →
    InStep R x c c' (some (ts, d)) (some (ts', d'))

namespace InStep

theorem stay (h : R c c') : InStep R x c c' (some ([], c)) (some ([], c')) :=
  .takes .nil h fun _ => ⟨[], .refl c, .refl c'⟩

theorem mono (h : InStep R x c c' o o') (hy : y.mute isSpelled = true → x.mute isSpelled = true) :
    InStep R y c c' o o' := by
  cases h with
  | fails => exact .fails
  | takes ht hd hs => exact .takes ht hd fun hm => hs (hy hm)

theorem append {ts ts' us us' : List (ParseTree Rule)} {e e' : Cursor} {z : Expr Rule}
    (hx : InStep R x c c' (some (ts, d)) (some (ts', d')))
    (hy : InStep R y d d' (some (us, e)) (some (us', e')))
    (hz : z.mute isSpelled = true → x.mute isSpelled = true ∧ y.mute isSpelled = true) :
    InStep R z c c' (some (ts ++ us, e)) (some (ts' ++ us', e')) := by
  cases hx with
  | takes ht _ hs =>
    cases hy with
    | takes hu he hs' =>
      apply takes (List.rel_append ht hu) he
      intro hm
      obtain ⟨cs, hc, hc'⟩ := hs (hz hm).1
      obtain ⟨ds, hd, hd'⟩ := hs' (hz hm).2
      exact ⟨cs ++ ds, hc.trans hd, hc'.trans hd'⟩

/-- The matches of a rule are alike: if the rule stands for its text, the bodies took the same
characters. -/
theorem call {ts ts' : List (ParseTree Rule)}
    (h : InStep R (pattern r) c c' (some (ts, d)) (some (ts', d'))) :
    InStep R (.call r) c c' (some ([.node r c.position d.position (c.upTo d) ts], d))
      (some ([.node r c'.position d'.position (c'.upTo d') ts'], d')) := by
  cases h with
  | takes ht hd hs =>
    have hspans : isSpelled r = true → ∃ cs, c.Spans d cs ∧ c'.Spans d' cs := by
      intro hr
      exact hs (mute_pattern hr)
    refine takes (.cons (.node ?_ ht) .nil) hd hspans
    intro hr
    obtain ⟨cs, hc, hc'⟩ := hspans hr
    rw [hc.upTo_eq, hc'.upTo_eq]

end InStep

/-- The same characters were taken at both cursors, or none at either. -/
inductive TookSame (R : Cursor → Cursor → Prop) (c c' : Cursor) :
    Option Cursor → Option Cursor → Prop where
  | fails : TookSame R c c' none none
  | takes {d d' : Cursor} {cs : List Char} : R d d' → c.Spans d cs → c'.Spans d' cs →
    TookSame R c c' (some d) (some d')

namespace TookSame

theorem text {cs : List Char} (hp : cs <+: c.rest ↔ cs <+: c'.rest)
    (h : ∀ d d', c.Spans d cs → c'.Spans d' cs → R d d') :
    TookSame R c c' (c.text? cs) (c'.text? cs) := by
  by_cases hc : cs <+: c.rest
  · obtain ⟨rest, hr⟩ := hc
    obtain ⟨rest', hr'⟩ := hp.1 ⟨rest, hr⟩
    have hs : c.Spans ⟨c.position.after cs, rest⟩ cs := ⟨hr.symm, rfl⟩
    have hs' : c'.Spans ⟨c'.position.after cs, rest'⟩ cs := ⟨hr'.symm, rfl⟩
    rw [Cursor.text?_eq_some.2 hs, Cursor.text?_eq_some.2 hs']
    exact .takes (h _ _ hs hs') hs hs'
  · rw [Cursor.text?_eq_none hc, Cursor.text?_eq_none (mt hp.2 hc)]
    exact .fails

theorem char {k : CharClass} (hp : ∀ z, k.holds z = true → ([z] <+: c.rest ↔ [z] <+: c'.rest))
    (h : ∀ z d d', k.holds z = true → c.Spans d [z] → c'.Spans d' [z] → R d d') :
    TookSame R c c' (c.char? k) (c'.char? k) := by
  cases hc : c.char? k with
  | some d =>
    obtain ⟨z, hz, hs⟩ := Cursor.char?_eq_some.1 hc
    obtain ⟨rest', hr'⟩ := (hp z hz).1 ⟨d.rest, hs.rest.symm⟩
    have hs' : c'.Spans ⟨c'.position.after [z], rest'⟩ [z] := ⟨hr'.symm, rfl⟩
    rw [Cursor.char?_eq_some.2 ⟨z, hz, hs'⟩]
    exact .takes (h z _ _ hz hs hs') hs hs'
  | none =>
    cases hc' : c'.char? k with
    | none => exact .fails
    | some d' =>
      obtain ⟨z, hz, hs'⟩ := Cursor.char?_eq_some.1 hc'
      obtain ⟨rest, hr⟩ := (hp z hz).2 ⟨d'.rest, hs'.rest.symm⟩
      have hs : c.Spans ⟨c.position.after [z], rest⟩ [z] := ⟨hr.symm, rfl⟩
      cases hc.symm.trans (Cursor.char?_eq_some.2 ⟨z, hz, hs⟩)

end TookSame

/-- Both cursors pass the gaps that stand at them. -/
def Passes (P : Cursor → Cursor → Prop) (c c' : Cursor) : Prop :=
  ∀ q, ∃ d d', Derives grammar q gap c (some ([], d)) ∧ Derives grammar q gap c' (some ([], d')) ∧
    P d d'

/-- Where expressions may be tried side by side: each takes the same at both cursors, its parts may
be tried at the cursors to which they come, and all that is left is related. -/
structure Paces (S : Expr Rule → Cursor → Cursor → Prop) (R : Cursor → Cursor → Prop) : Prop where
  near {x : Expr Rule} {c c' : Cursor} : S x c c' → R c c'
  lit {s : String} {c c' : Cursor} : S (.lit s) c c' →
    TookSame R c c' (c.text? s.toList) (c'.text? s.toList)
  char {k : CharClass} {c c' : Cursor} : S (.char k) c c' →
    TookSame R c c' (c.char? k) (c'.char? k)
  atEnd {c c' : Cursor} : S .atEnd c c' → (c.rest = [] ↔ c'.rest = [])
  seq {x y : Expr Rule} {c c' : Cursor} : S (.seq x y) c c' →
    .seq x y = gap ∧ Passes R c c' ∨ x = gap ∧ Passes (S y) c c' ∨
      S x c c' ∧ ∀ d d', R d d' → S y d d'
  alt {x y : Expr Rule} {c c' : Cursor} : S (.alt x y) c c' → S x c c' ∧ S y c c'
  star {x : Expr Rule} {c c' : Cursor} : S (.star x) c c' →
    S x c c' ∧ ∀ d d', R d d' → S (.star x) d d'
  not {x : Expr Rule} {c c' : Cursor} : S (.not x) c c' → S x c c'
  call {r : Rule} {c c' : Cursor} : S (.call r) c c' → S (pattern r) c c'

theorem Passes.inStep (hx : x = gap) (h : Passes R c c') (hd : Derives grammar q x c o) :
    ∃ o', Derives grammar q x c' o' ∧ InStep R x c c' o o' := by
  subst hx
  obtain ⟨d, d', he, he', hR⟩ := h q
  cases hd.det he
  refine ⟨_, he', .takes .nil hR ?_⟩
  intro hm
  cases hm

/-- Expressions that may be tried side by side have the same success. -/
theorem Paces.inStep (hp : Paces S R) (h : Derives grammar q x c o) (hS : S x c c') :
    ∃ o', Derives grammar q x c' o' ∧ InStep R x c c' o o' := by
  induction h generalizing c' with
  | empty => exact ⟨_, .empty, .stay (hp.near hS)⟩
  | lit hd =>
    have ht := hp.lit hS
    rw [hd] at ht
    generalize ho : c'.text? _ = o at ht
    cases ht with
    | takes hR hs hs' => exact ⟨_, .lit ho, .takes .nil hR fun _ => ⟨_, hs, hs'⟩⟩
  | lit_none hd =>
    have ht := hp.lit hS
    rw [hd] at ht
    generalize ho : c'.text? _ = o at ht
    cases ht with
    | fails => exact ⟨_, .lit_none ho, .fails⟩
  | char hd =>
    have ht := hp.char hS
    rw [hd] at ht
    generalize ho : c'.char? _ = o at ht
    cases ht with
    | takes hR hs hs' => exact ⟨_, .char ho, .takes .nil hR fun _ => ⟨_, hs, hs'⟩⟩
  | char_none hd =>
    have ht := hp.char hS
    rw [hd] at ht
    generalize ho : c'.char? _ = o at ht
    cases ht with
    | fails => exact ⟨_, .char_none ho, .fails⟩
  | atEnd hd => exact ⟨_, .atEnd ((hp.atEnd hS).1 hd), .stay (hp.near hS)⟩
  | atEnd_none hd => exact ⟨_, .atEnd_none (mt (hp.atEnd hS).2 hd), .fails⟩
  | seq hl hr ihl ihr =>
    rcases hp.seq hS with ⟨hg, hpass⟩ | ⟨rfl, hpass⟩ | ⟨hx, hy⟩
    · exact hpass.inStep hg (.seq hl hr)
    · obtain ⟨_, _, he, he', hS'⟩ := hpass _
      cases hl.det he
      obtain ⟨_, hr', hm⟩ := ihr hS'
      cases hm with
      | takes ht hR _ =>
        refine ⟨_, .seq he' hr', .takes ht hR ?_⟩
        intro hm
        cases (mute_and hm).1
    · obtain ⟨_, hl', hm⟩ := ihl hx
      cases hm with
      | takes ht hR hs =>
        obtain ⟨_, hr', hm⟩ := ihr (hy _ _ hR)
        cases hm with
        | takes hu hR' hs' =>
          exact ⟨_, .seq hl' hr', (InStep.takes ht hR hs).append (.takes hu hR' hs') mute_and⟩
  | seq_none_left hl ihl =>
    rcases hp.seq hS with ⟨hg, hpass⟩ | ⟨rfl, hpass⟩ | ⟨hx, -⟩
    · exact hpass.inStep hg (.seq_none_left hl)
    · obtain ⟨_, _, he, -, -⟩ := hpass _
      cases hl.det he
    · obtain ⟨_, hl', hm⟩ := ihl hx
      cases hm with
      | fails => exact ⟨_, .seq_none_left hl', .fails⟩
  | seq_none_right hl hr ihl ihr =>
    rcases hp.seq hS with ⟨hg, hpass⟩ | ⟨rfl, hpass⟩ | ⟨hx, hy⟩
    · exact hpass.inStep hg (.seq_none_right hl hr)
    · obtain ⟨_, _, he, he', hS'⟩ := hpass _
      cases hl.det he
      obtain ⟨_, hr', hm⟩ := ihr hS'
      cases hm with
      | fails => exact ⟨_, .seq_none_right he' hr', .fails⟩
    · obtain ⟨_, hl', hm⟩ := ihl hx
      cases hm with
      | takes _ hR _ =>
        obtain ⟨_, hr', hm⟩ := ihr (hy _ _ hR)
        cases hm with
        | fails => exact ⟨_, .seq_none_right hl' hr', .fails⟩
  | alt_left _ ihl =>
    obtain ⟨hx, -⟩ := hp.alt hS
    obtain ⟨_, hl', hm⟩ := ihl hx
    cases hm with
    | takes ht hR hs =>
      exact ⟨_, .alt_left hl', InStep.mono (.takes ht hR hs) fun h => (mute_and h).1⟩
  | alt_right _ _ ihl ihr =>
    obtain ⟨hx, hy⟩ := hp.alt hS
    obtain ⟨_, hl', hm⟩ := ihl hx
    obtain ⟨_, hr', hm'⟩ := ihr hy
    cases hm with
    | fails => exact ⟨_, .alt_right hl' hr', hm'.mono fun h => (mute_and h).2⟩
  | star_nil _ ihx =>
    obtain ⟨hx, -⟩ := hp.star hS
    obtain ⟨_, hx', hm⟩ := ihx hx
    cases hm with
    | fails => exact ⟨_, .star_nil hx', .stay (hp.near hS)⟩
  | star_cons _ _ ihx ihs =>
    obtain ⟨hx, hstar⟩ := hp.star hS
    obtain ⟨_, hx', hm⟩ := ihx hx
    cases hm with
    | takes ht hR hs =>
      obtain ⟨_, hs', hm⟩ := ihs (hstar _ _ hR)
      cases hm with
      | takes hu hR' hs'' =>
        exact ⟨_, .star_cons hx' hs',
          (InStep.takes ht hR hs).append (.takes hu hR' hs'') fun h => ⟨h, h⟩⟩
  | not _ ihx =>
    obtain ⟨_, hx', hm⟩ := ihx (hp.not hS)
    cases hm with
    | fails => exact ⟨_, .not hx', .stay (hp.near hS)⟩
  | not_none _ ihx =>
    obtain ⟨_, hx', hm⟩ := ihx (hp.not hS)
    cases hm with
    | takes => exact ⟨_, .not_none hx', .fails⟩
  | call_quiet _ ihb =>
    obtain ⟨_, hb', hm⟩ := ihb (hp.call hS)
    exact ⟨_, .call_quiet hb', hm.mono mute_pattern⟩
  | call_silent hv _ ihb =>
    obtain ⟨_, hb', hm⟩ := ihb (hp.call hS)
    exact ⟨_, .call_silent hv hb', hm.mono mute_pattern⟩
  | call hv _ ihb =>
    obtain ⟨_, hb', hm⟩ := ihb (hp.call hS)
    cases hm with
    | takes ht hR hs => exact ⟨_, .call hv hb', (InStep.takes ht hR hs).call⟩
  | call_none hv _ ihb =>
    obtain ⟨_, hb', hm⟩ := ihb (hp.call hS)
    cases hm with
    | fails => exact ⟨_, .call_none hv hb', .fails⟩

/-- A match depends on what follows, not on where it begins. -/
theorem rest_paces : Paces (fun _ c c' => c.rest = c'.rest) fun c c' => c.rest = c'.rest where
  near h := h
  lit h := .text (by rw [h]) fun d d' hs hs' =>
    List.append_cancel_left (hs.rest.symm.trans (h.trans hs'.rest))
  char h := .char (fun z _ => by rw [h]) fun z d d' _ hs hs' =>
    List.append_cancel_left (hs.rest.symm.trans (h.trans hs'.rest))
  atEnd h := by rw [h]
  seq h := .inr (.inr ⟨h, fun d d' hd => hd⟩)
  alt h := ⟨h, h⟩
  star h := ⟨h, fun d d' hd => hd⟩
  not h := h
  call h := h

theorem exists_gaps (h : c.rest = c'.rest) : Passes (fun d d' => d.rest = d'.rest) c c' := by
  intro q
  obtain ⟨d, hd⟩ := exists_gap q c
  obtain ⟨_, hd', hm⟩ := rest_paces.inStep hd h
  cases hm with
  | takes ht hr _ =>
    cases ht
    exact ⟨d, _, hd, hd', hr⟩

end TreeMetrics.Twig
