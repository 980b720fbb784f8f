import Mathlib.Data.List.Find
import TreeMetrics.Proofs.Twig.Gap
import TreeMetrics.Proofs.Twig.Printer

namespace TreeMetrics.Twig

open TreeMetrics.Expr TreeMetrics.Twig.Rule

/-- Tokens, each with a space in front of it. -/
def trail (ws : List String) : List Char := ws.flatMap fun w => ' ' :: w.toList

/-- Tokens with single spaces between them. -/
def layout : List String → List Char
  | [] => []
  | w :: ws => w.toList ++ trail ws

/-- The character is neither a blank nor the first one of a comment. -/
def opensToken (z : Char) : Bool := !(['/', ' ', '\t', '\n', '\r'].contains z)

/-- The tokens do not begin with a gap. -/
def Starts : List String → Prop
  | [] => True
  | w :: _ => w.toList.head?.any opensToken = true

instance : DecidablePred Starts
  | [] => inferInstanceAs (Decidable True)
  | w :: _ => inferInstanceAs (Decidable (w.toList.head?.any opensToken = true))

/-- None of the texts stands in front of the tokens. -/
def Avoids (ks ws : List String) : Prop := ∀ k ∈ ks, ¬k.toList <+: layout ws

/-- The cursor stands in front of the tokens or of the space before them. -/
def Near (c : Cursor) (ws : List String) : Prop := c.rest = layout ws ∨ c.rest = trail ws

/-- In front of `rest`, the expression matches exactly the tokens `ws`, with trees that have the
property. Where no gap stands in front of `rest`, none stands in front of `ws` either. -/
def Reads (x : Expr Rule) (ws rest : List String) (P : List (ParseTree Rule) → Prop) : Prop :=
  Starts rest → Starts (ws ++ rest) ∧
    ∀ c : Cursor, c.rest = layout (ws ++ rest) →
      ∃ ts d, Derives grammar false x c (some (ts, d)) ∧ Near d rest ∧ P ts

/-- The expression does not match in front of the tokens. -/
def Refuses (x : Expr Rule) (ws : List String) : Prop :=
  ∀ c : Cursor, c.rest = layout ws → Derives grammar false x c none

/-- The trees are those of the items, one after the other. -/
inductive Rows {α : Type} (P : α → List (ParseTree Rule) → Prop) :
    List α → List (ParseTree Rule) → Prop where
  | nil : Rows P [] []
  | cons {a as us vs} : P a us → Rows P as vs → Rows P (a :: as) (us ++ vs)

theorem Rows.one {α : Type} {P : α → List (ParseTree Rule) → Prop} {a : α}
    {ts : List (ParseTree Rule)} (h : P a ts) : Rows P [a] ts := by
  have hr := Rows.cons h (.nil (P := P))
  rwa [List.append_nil] at hr

variable {r : Rule} {w : String} {ws us rest ks : List String} {p : Position} {c d : Cursor}
variable {x y : Expr Rule} {zs : List (Expr Rule)} {P Q : List (ParseTree Rule) → Prop}

theorem toList_intercalate (ws : List String) : (" ".intercalate ws).toList = layout ws := by
  rw [String.toList_intercalate]
  induction ws with
  | nil => rfl
  | cons w ws ih =>
    cases ws with
    | nil => simp [layout, trail]
    | cons v ws =>
      rw [List.map_cons, List.map_cons, List.intercalate_cons_cons, ← List.map_cons, ih]
      simp [layout, trail]

theorem trail_cons : trail (w :: ws) = ' ' :: layout (w :: ws) := rfl

theorem layout_append (h : ws ≠ []) : layout (ws ++ us) = layout ws ++ trail us := by
  obtain ⟨w, ws, rfl⟩ := List.exists_cons_of_ne_nil h
  simp [layout, trail]

theorem endsWord_trail : EndsWord (trail ws) := by
  cases ws with
  | nil => exact fun z hz => by cases hz
  | cons w ws => exact fun z hz => by cases hz; rfl

theorem isPrefix_of_not_mem {z : Char} {k cs ds : List Char} (hz : z ∉ k)
    (h : k <+: cs ++ z :: ds) : k <+: cs := by
  rcases List.prefix_or_prefix_of_prefix h (List.prefix_append cs (z :: ds)) with hk | ⟨t, rfl⟩
  · exact hk
  · cases t with
    | nil => exact ⟨[], by simp⟩
    | cons y t =>
      have hp := (List.prefix_append_right_inj cs).1 h
      obtain ⟨rfl, -⟩ := List.cons_prefix_cons.1 hp
      exact absurd (List.mem_append_right cs List.mem_cons_self) hz

theorem isPrefix_trail {k cs : List Char} (hk : ' ' ∉ k) (h : k <+: cs ++ trail ws) : k <+: cs := by
  cases ws with
  | nil =>
    rw [trail, List.flatMap_nil, List.append_nil] at h
    exact h
  | cons w ws => exact isPrefix_of_not_mem hk h

theorem find?_trail {cs : List Char} (h : ∀ k ∈ ks, ' ' ∉ k.toList) :
    ks.find? (fun k => k.toList.isPrefixOf (cs ++ trail ws)) =
      ks.find? fun k => k.toList.isPrefixOf cs := by
  refine List.find?_congr fun k hk => ?_
  rw [Bool.eq_iff_iff, List.isPrefixOf_iff_prefix, List.isPrefixOf_iff_prefix]
  exact ⟨isPrefix_trail (h k hk), fun hp => hp.trans (List.prefix_append cs _)⟩

theorem avoids_cons (h : ∀ k ∈ ks, ' ' ∉ k.toList ∧ ¬k.toList <+: w.toList) :
    Avoids ks (w :: ws) := by
  intro k hk hp
  obtain ⟨hs, hn⟩ := h k hk
  exact hn (isPrefix_trail hs hp)

theorem Avoids.mono {ls : List String} (h : Avoids ls ws) (hk : ks ⊆ ls) : Avoids ks ws :=
  fun k hm => h k (hk hm)

theorem avoids_nil (h : ∀ k ∈ ks, k.toList ≠ []) : Avoids ks [] := by
  intro k hk hp
  exact h k hk (List.prefix_nil.1 hp)

theorem layout_ofList (cs : List Char) : layout [String.ofList cs] = cs := by
  rw [layout, String.toList_ofList, trail, List.flatMap_nil, List.append_nil]

theorem avoids_of_head {z : Char} {cs : List Char}
    (h : ∀ k ∈ ks, k.toList.head?.any (· != z) = true) : Avoids ks [String.ofList (z :: cs)] := by
  intro k hk hp
  rw [layout_ofList] at hp
  obtain ⟨y, hy, hne⟩ := Option.any_eq_true _ _ |>.1 (h k hk)
  obtain ⟨ys, hk⟩ := List.head?_eq_some_iff.1 hy
  rw [hk] at hp
  exact bne_iff_ne.1 hne (List.cons_prefix_cons.1 hp).1

theorem Starts.cons (h : Starts [w]) : Starts (w :: ws) := h

theorem Starts.head (h : Starts ws) : ∀ z ∈ (layout ws).head?, opensToken z = true := by
  cases ws with
  | nil => exact fun z hz => by cases hz
  | cons w ws =>
    intro z hz
    have ht : w.toList.head?.any opensToken = true := h
    cases hw : w.toList with
    | nil =>
      rw [hw] at ht
      cases ht
    | cons y ys =>
      rw [layout, hw] at hz
      rw [hw] at ht
      cases hz
      exact ht

theorem not_isPrefix_of_opensToken {cs : List Char} (h : ∀ z ∈ cs.head?, opensToken z = true) :
    ∀ s ∈ ["/", " ", "\t", "\n", "\r"], ∀ k : String, s.toList <+: k.toList → ¬k.toList <+: cs := by
  intro s hs k hk hp
  obtain ⟨t, rfl⟩ := hk.trans hp
  simp only [List.mem_cons, List.not_mem_nil, or_false] at hs
  rcases hs with rfl | rfl | rfl | rfl | rfl
  all_goals cases h _ rfl

theorem settled_of_starts (h : Starts ws) (hc : c.rest = layout ws) : Settled c := by
  obtain ⟨p, cs⟩ := c
  cases hc
  have hn := not_isPrefix_of_opensToken h.head
  constructor
  · refine .silent rfl (.alt_right (.lit_fails (hn " " (by decide) _ (by decide))) ?_)
    refine .alt_right (.lit_fails (hn "\t" (by decide) _ (by decide))) ?_
    refine .alt_right (.lit_fails (hn "\n" (by decide) _ (by decide))) ?_
    refine .alt_right (.lit_fails (hn "\r" (by decide) _ (by decide))) ?_
    exact .lit_fails (hn "\r" (by decide) _ (by decide))
  · refine .silent rfl (.alt_right ?_ ?_)
    · exact .seq_none_left (.lit_fails (hn "/" (by decide) _ (by decide)))
    · exact .seq_none_left (.lit_fails (hn "/" (by decide) _ (by decide)))

theorem Near.gap (hs : Starts ws) (h : Near c ws) :
    ∃ d, Derives grammar false gap c (some ([], d)) ∧ d.rest = layout ws := by
  rcases h with h | h
  · exact ⟨c, (settled_of_starts hs h).gap, h⟩
  · cases ws with
    | nil => exact ⟨c, (settled_of_starts hs h).gap, h⟩
    | cons w ws =>
      obtain ⟨p, cs⟩ := c
      rw [trail_cons] at h
      cases h
      have hd : Settled ⟨p.advance ' ', layout (w :: ws)⟩ := settled_of_starts hs rfl
      have hw : Derives grammar false (.call whitespace) ⟨p, ' ' :: layout (w :: ws)⟩
          (some ([], ⟨p.advance ' ', layout (w :: ws)⟩)) :=
        .silent rfl (.alt_left (.lit_append " " p _))
      exact ⟨_, .seq (.star_cons hw (.star_nil hd.whitespace))
        (.star_nil (.seq_none_left hd.comment)), rfl⟩

namespace Refuses

theorem of_rest {cs : List Char} (h : Refuses x [String.ofList cs]) (hc : c.rest = cs) :
    Derives grammar false x c none :=
  h c (hc.trans (layout_ofList cs).symm)

theorem lit (h : Avoids [w] ws) : Refuses (.lit w) ws := by
  rintro ⟨p, cs⟩ hc
  cases hc
  exact .lit_fails (h w (List.mem_singleton_self w))

theorem oneOf_lit (h : Avoids ks ws) : Refuses (oneOf (ks.map Expr.lit)) ws := by
  rintro ⟨p, cs⟩ hc
  cases hc
  exact .oneOf_lit_fails h

theorem seq (h : Refuses x ws) : Refuses (.seq x y) ws :=
  fun c hc => .seq_none_left (h c hc)

theorem alt (hx : Refuses x ws) (hy : Refuses y ws) : Refuses (.alt x y) ws :=
  fun c hc => .alt_right (hx c hc) (hy c hc)

theorem call (hv : visibility r = .normal) (h : Refuses (pattern r) ws) : Refuses (.call r) ws := by
  intro c hc
  have hn : (grammar.production r).visibility = .normal := hv
  refine .call_none (by rw [hn]; decide) ?_
  rw [hn]
  exact h c hc

theorem silent (hv : visibility r = .silent) (h : Refuses (pattern r) ws) : Refuses (.call r) ws :=
  fun c hc => .silent hv (h c hc)

/-- A rule that begins with one of several fixed texts, whatever it makes of its match. -/
theorem spelling (hv : visibility r ≠ .silent)
    (hp : pattern r = .seq (oneOf (ks.map Expr.lit)) y) (h : Avoids ks ws) :
    Refuses (.call r) ws := by
  rintro ⟨p, cs⟩ hc
  cases hc
  refine .call_none hv ?_
  rw [show (grammar.production r).body = _ from hp]
  exact .seq_none_left (.oneOf_lit_fails h)

end Refuses

namespace Reads

theorem mono (h : Reads x ws rest P) (hPQ : ∀ ts, P ts → Q ts) : Reads x ws rest Q := by
  intro hs
  obtain ⟨hs, h⟩ := h hs
  refine ⟨hs, fun c hc => ?_⟩
  obtain ⟨ts, d, hd, hn, hts⟩ := h c hc
  exact ⟨ts, d, hd, hn, hPQ ts hts⟩

theorem gap_seq (h : Reads x ws rest P) : Reads (.seq gap x) ws rest P := by
  intro hs
  obtain ⟨hs, h⟩ := h hs
  refine ⟨hs, fun c hc => ?_⟩
  obtain ⟨ts, d, hd, hn, hP⟩ := h c hc
  exact ⟨ts, d, .seq (settled_of_starts hs hc).gap hd, hn, hP⟩

theorem lit (hw : Starts [w]) : Reads (.lit w) [w] rest (· = []) := by
  refine fun _ => ⟨hw, ?_⟩
  rintro ⟨p, cs⟩ hc
  cases hc
  exact ⟨[], _, .lit_append w p _, .inr rfl, rfl⟩

theorem phrase (hx : Reads x ws (us ++ rest) P) (hy : Reads (phrase (y :: zs)) us rest Q) :
    Reads (Twig.phrase (x :: y :: zs)) (ws ++ us) rest
      fun ts => ∃ ts₁ ts₂, ts = ts₁ ++ ts₂ ∧ P ts₁ ∧ Q ts₂ := by
  intro hs
  obtain ⟨hsu, hy⟩ := hy hs
  obtain ⟨hsw, hx⟩ := hx hsu
  rw [List.append_assoc]
  refine ⟨hsw, fun c hc => ?_⟩
  obtain ⟨ts₁, d, hd, hn, hP⟩ := hx c hc
  obtain ⟨d', hg, hd'⟩ := hn.gap hsu
  obtain ⟨ts₂, e, he, hn', hQ⟩ := hy d' hd'
  exact ⟨ts₁ ++ ts₂, e, .seq hd (.seq hg he), hn', ts₁, ts₂, rfl, hP, hQ⟩

theorem lit_phrase (hw : Starts [w]) (h : Reads (Twig.phrase (y :: zs)) us rest P) :
    Reads (Twig.phrase (.lit w :: y :: zs)) (w :: us) rest P := by
  refine (Reads.phrase (Reads.lit hw) h).mono ?_
  rintro ts ⟨ts₁, ts₂, rfl, rfl, hP⟩
  exact hP

theorem pair (hx : Reads x ws (us ++ rest) P) (hy : Reads y us rest Q) :
    Reads (Twig.phrase [x, y]) (ws ++ us) rest
      fun ts => ∃ ts₁ ts₂, ts = ts₁ ++ ts₂ ∧ P ts₁ ∧ Q ts₂ := by
  have hp : Reads (Twig.phrase [y]) us rest Q := hy
  exact phrase hx hp

theorem lit_pair (hw : Starts [w]) (h : Reads y us rest P) :
    Reads (Twig.phrase [.lit w, y]) (w :: us) rest P := by
  have hp : Reads (Twig.phrase [y]) us rest P := h
  exact lit_phrase hw hp

theorem pair_none (hx : Reads x ws rest P) (hy : Reads y [] rest (· = [])) :
    Reads (Twig.phrase [x, y]) ws rest P := by
  have hx' : Reads x ws ([] ++ rest) P := hx
  have hp := pair hx' hy
  rw [List.append_nil] at hp
  refine hp.mono ?_
  rintro ts ⟨ts₁, ts₂, rfl, hP, rfl⟩
  rwa [List.append_nil]

theorem phrase_lit (hw : Starts [w]) (h : Reads x ws (w :: rest) P) :
    Reads (Twig.phrase [x, .lit w]) (ws ++ [w]) rest P := by
  refine (Reads.pair h (Reads.lit hw)).mono ?_
  rintro ts ⟨ts₁, ts₂, rfl, hP, rfl⟩
  rwa [List.append_nil]

/-- A phrase is refused where its second part is refused behind the first. -/
theorem refuses (hx : Reads x ws us P) (hs : Starts us) (hy : Refuses (Twig.phrase (y :: zs)) us) :
    Refuses (Twig.phrase (x :: y :: zs)) (ws ++ us) := by
  obtain ⟨-, hx⟩ := hx hs
  intro c hc
  obtain ⟨ts, d, hd, hn, -⟩ := hx c hc
  obtain ⟨e, hg, he⟩ := hn.gap hs
  exact .seq_none_right hd (.seq_none_right hg (hy e he))

theorem alt_left (h : Reads x ws rest P) : Reads (.alt x y) ws rest P := by
  intro hs
  obtain ⟨hs, h⟩ := h hs
  refine ⟨hs, fun c hc => ?_⟩
  obtain ⟨ts, d, hd, hn, hts⟩ := h c hc
  exact ⟨ts, d, .alt_left hd, hn, hts⟩

theorem alt_right (hx : Refuses x (ws ++ rest)) (h : Reads y ws rest P) :
    Reads (.alt x y) ws rest P := by
  intro hs
  obtain ⟨hs, h⟩ := h hs
  refine ⟨hs, fun c hc => ?_⟩
  obtain ⟨ts, d, hd, hn, hts⟩ := h c hc
  exact ⟨ts, d, .alt_right (hx c hc) hd, hn, hts⟩

theorem opt (h : Reads x ws rest P) : Reads x.opt ws rest P :=
  h.alt_left

theorem opt_none (h : Refuses x rest) : Reads x.opt [] rest (· = []) :=
  fun hs => ⟨hs, fun c hc => ⟨[], c, .alt_right (h c hc) .empty, .inl hc, rfl⟩⟩

theorem call (hv : visibility r = .normal) (h : Reads (pattern r) ws rest P) :
    Reads (.call r) ws rest fun ts => ∃ p q s us, ts = [.node r p q s us] ∧ P us := by
  intro hs
  obtain ⟨hs, h⟩ := h hs
  refine ⟨hs, fun c hc => ?_⟩
  obtain ⟨us, d, hd, hn, hP⟩ := h c hc
  have hr : (grammar.production r).visibility = .normal := hv
  refine ⟨_, d, .call (by rw [hr]; decide) (by rw [hr]; exact hd), hn, ?_⟩
  exact ⟨c.position, d.position, c.upTo d, us, rfl, hP⟩

theorem silent (hv : visibility r = .silent) (h : Reads (pattern r) ws rest P) :
    Reads (.call r) ws rest P := by
  intro hs
  obtain ⟨hs, h⟩ := h hs
  refine ⟨hs, fun c hc => ?_⟩
  obtain ⟨ts, d, hd, hn, hP⟩ := h c hc
  exact ⟨ts, d, .silent hv hd, hn, hP⟩

section Many

variable {α : Type} {f : α → List String} {R : α → List (ParseTree Rule) → Prop} {as : List α}

theorem star (h : ∀ a bs, a :: bs <:+ as → Reads x (f a) (bs.flatMap f ++ rest) (R a))
    (hn : Refuses x rest) (hs : Starts rest) :
    Starts (as.flatMap f ++ rest) ∧
      ∀ c, Near c (as.flatMap f ++ rest) →
        ∃ ts d, Derives grammar false (.star (.seq gap x)) c (some (ts, d)) ∧ Near d rest ∧
          Rows R as ts := by
  induction as with
  | nil =>
    refine ⟨hs, fun c hc => ?_⟩
    obtain ⟨d, hg, hd⟩ := hc.gap hs
    exact ⟨[], c, .star_nil (.seq_none_right hg (hn d hd)), hc, .nil⟩
  | cons a as ih =>
    obtain ⟨hsa, ih⟩ := ih fun b bs hb => h b bs (hb.trans (List.suffix_cons a as))
    obtain ⟨hsb, ha⟩ := h a as List.suffix_rfl hsa
    rw [List.flatMap_cons, List.append_assoc]
    refine ⟨hsb, fun c hc => ?_⟩
    obtain ⟨d, hg, hd⟩ := hc.gap hsb
    obtain ⟨us, e, hx, hne, hR⟩ := ha d hd
    obtain ⟨vs, e', hstar, hne', hRs⟩ := ih e hne
    exact ⟨us ++ vs, e', .star_cons (.seq hg hx) hstar, hne', .cons hR hRs⟩

/-- A repetition reads all of its items if each of them can be read in front of the others. -/
theorem many (h : ∀ a bs, a :: bs <:+ as → Reads x (f a) (bs.flatMap f ++ rest) (R a))
    (hn : Refuses x rest) : Reads (Twig.many x) (as.flatMap f) rest (Rows R as) := by
  cases as with
  | nil =>
    refine (Reads.opt_none hn.seq).mono ?_
    rintro ts rfl
    exact .nil
  | cons a as =>
    intro hs
    obtain ⟨hsa, hstar⟩ := star (fun b bs hb => h b bs (hb.trans (List.suffix_cons a as))) hn hs
    obtain ⟨hsb, ha⟩ := h a as List.suffix_rfl hsa
    rw [List.flatMap_cons, List.append_assoc]
    refine ⟨hsb, fun c hc => ?_⟩
    obtain ⟨us, d, hx, hne, hR⟩ := ha c hc
    obtain ⟨vs, e, hvs, hne', hRs⟩ := hstar d hne
    exact ⟨us ++ vs, e, .alt_left (.seq hx hvs), hne', .cons hR hRs⟩

theorem many_none (hn : Refuses x rest) : Reads (Twig.many x) [] rest (· = []) :=
  opt_none hn.seq

theorem many_one (h : Reads x ws rest P) (hn : Refuses x rest) :
    Reads (Twig.many x) ws rest P := by
  intro hs
  obtain ⟨hsw, h⟩ := h hs
  refine ⟨hsw, fun c hc => ?_⟩
  obtain ⟨us, d, hx, hne, hP⟩ := h c hc
  obtain ⟨e, hg, he⟩ := hne.gap hs
  refine ⟨us ++ [], d, .alt_left (.seq hx (.star_nil (.seq_none_right hg (hn e he)))), hne, ?_⟩
  rwa [List.append_nil]

end Many

end Reads

section Words

/-- The trees are a single one of the rule, with the given text. -/
def Spells (r : Rule) (w : String) (ts : List (ParseTree Rule)) : Prop :=
  ∃ p q us, ts = [.node r p q w us]

/-- The text begins with a letter, a digit or an underscore. -/
def BeginsWord (w : String) : Prop := ∃ z zs, w.toList = z :: zs ∧ isWordChar z = true

theorem opensToken_of_isWordChar {z : Char} (h : isWordChar z = true) : opensToken z = true := by
  cases ho : opensToken z with
  | true => rfl
  | false =>
    simp only [opensToken, Bool.not_eq_false', List.contains_iff_mem, List.mem_cons,
      List.not_mem_nil, or_false] at ho
    rcases ho with rfl | rfl | rfl | rfl | rfl
    all_goals cases h

theorem IsWord.exists_cons {cs : List Char} (h : IsWord cs) :
    ∃ z zs, cs = z :: zs ∧ Twig.isWordChar z = true := by
  cases cs with
  | nil => cases h
  | cons z zs => exact ⟨z, zs, rfl, isWordChar_of_isWordStart h.1⟩

theorem IsIdentifier.beginsWord (h : IsIdentifier w) : BeginsWord w :=
  IsWord.exists_cons h.1

theorem IsDotted.beginsWord (h : IsDotted w) : BeginsWord w := by
  obtain ⟨v, vs, hw, hv, -⟩ := h
  obtain ⟨z, zs, rfl, hz⟩ := IsWord.exists_cons hv
  exact ⟨z, _, hw, hz⟩

theorem IsNumber.beginsWord (h : IsNumber w) : BeginsWord w := by
  obtain ⟨hn, hd⟩ := h
  obtain ⟨z, zs, hw⟩ := List.exists_cons_of_ne_nil hn
  have hz : z.isDigit = true := hd z (hw ▸ List.mem_cons_self)
  exact ⟨z, zs, hw, isWordChar_of_isDigit hz⟩

theorem BeginsWord.starts (h : BeginsWord w) : Starts (w :: ws) := by
  obtain ⟨z, zs, hw, hz⟩ := h
  rw [Starts, hw]
  exact opensToken_of_isWordChar hz

theorem BeginsWord.avoids (h : BeginsWord w)
    (hk : ∀ k ∈ ks, k.toList.head?.any (!isWordChar ·) = true) : Avoids ks (w :: ws) := by
  intro k hm hp
  obtain ⟨y, hy, hn⟩ := Option.any_eq_true _ _ |>.1 (hk k hm)
  obtain ⟨z, zs, hw, hz⟩ := h
  obtain ⟨ys, hc⟩ := List.head?_eq_some_iff.1 hy
  rw [layout, hw, hc] at hp
  obtain ⟨rfl, -⟩ := List.cons_prefix_cons.1 hp
  rw [hz] at hn
  cases hn

theorem isDigit_trail : ∀ z ∈ (trail ws).head?, z.isDigit = false := by
  cases ws with
  | nil => exact fun z hz => by cases hz
  | cons w ws => exact fun z hz => by cases hz; rfl

theorem undotted_trail : ∀ z ∈ (trail ws).head?, isWordChar z = false ∧ z ≠ '.' := by
  cases ws with
  | nil => exact fun z hz => by cases hz
  | cons w ws => exact fun z hz => by cases hz; decide

namespace Reads

theorem identifier (hw : IsIdentifier w) :
    Reads (.call identifier) [w] rest (Spells identifier w) := by
  refine fun _ => ⟨hw.beginsWord.starts, ?_⟩
  rintro ⟨p, cs⟩ hc
  cases hc
  exact ⟨_, _, identifier_append p hw endsWord_trail, .inr rfl, _, _, _, rfl⟩

theorem number (hw : IsNumber w) : Reads (.call number) [w] rest (Spells number w) := by
  refine fun _ => ⟨hw.beginsWord.starts, ?_⟩
  rintro ⟨p, cs⟩ hc
  cases hc
  exact ⟨_, _, number_append p hw isDigit_trail, .inr rfl, _, _, _, rfl⟩

theorem qualifiedName (hw : IsDotted w) :
    Reads (.call qualifiedName) [w] rest (Spells qualifiedName w) := by
  refine fun _ => ⟨hw.beginsWord.starts, ?_⟩
  rintro ⟨p, cs⟩ hc
  cases hc
  exact ⟨_, _, qualifiedName_append p hw undotted_trail, .inr rfl, _, _, _, rfl⟩

/-- A rule whose match makes no trees of its own reads its text as a single tree. -/
theorem spelling (hv : visibility r ≠ .silent) (hs : Starts [w])
    (h : ∀ q p, Derives grammar q (pattern r) ⟨p, w.toList ++ trail rest⟩
      (some ([], ⟨p.after w.toList, trail rest⟩))) :
    Reads (.call r) [w] rest (Spells r w) := by
  refine fun _ => ⟨hs, ?_⟩
  rintro ⟨p, cs⟩ hc
  cases hc
  have hd := Derives.call (g := grammar) (r := r) hv (h _ p)
  have hsp : Cursor.Spans ⟨p, w.toList ++ trail rest⟩ ⟨p.after w.toList, trail rest⟩ w.toList :=
    ⟨rfl, rfl⟩
  rw [hsp.upTo_eq, String.ofList_toList] at hd
  exact ⟨_, _, hd, .inr rfl, _, _, _, rfl⟩

theorem oneOf_spelling (hv : visibility r ≠ .silent) (hp : pattern r = oneOf (ks.map Expr.lit))
    (hs : Starts [w]) (hks : ∀ k ∈ ks, ' ' ∉ k.toList)
    (hw : ks.find? (fun k => k.toList.isPrefixOf w.toList) = some w) :
    Reads (.call r) [w] rest (Spells r w) := by
  refine spelling hv hs fun q p => ?_
  rw [hp]
  exact .oneOf_lit_append ((find?_trail hks).trans hw)

/-- An operator behind which no `=` may stand. -/
theorem lookahead (hv : visibility r ≠ .silent) (hp : pattern r = tight [.lit w, .not (.lit "=")])
    (hs : Starts [w]) : Reads (.call r) [w] rest (Spells r w) := by
  refine spelling hv hs fun q p => ?_
  rw [hp]
  refine .seq (.lit_append w p _) (.not (.lit_fails ?_))
  intro hn
  have he : "=".toList <+: [] := isPrefix_trail (by decide) hn
  exact absurd he (by decide)

theorem modifier (hw : w ∈ ["public", "abstract"]) :
    Reads (.call modifier) [w] rest (Spells modifier w) := by
  have hs : ∀ w ∈ ["public", "abstract"], Starts [w] := by decide
  have hf : ∀ w ∈ ["public", "abstract"],
      ["public", "abstract"].find? (fun k => k.toList.isPrefixOf w.toList) = some w := by decide
  refine spelling (by decide) (hs w hw) fun q p => ?_
  have hl : Derives grammar q (oneOf (["public", "abstract"].map Expr.lit))
      ⟨p, w.toList ++ trail rest⟩ (some ([], ⟨p.after w.toList, trail rest⟩)) :=
    .oneOf_lit_append ((find?_trail (by decide)).trans (hf w hw))
  exact .seq hl (.not (identChar_fails _ endsWord_trail))

end Reads

end Words

section Commas

variable {α : Type} {f : α → List String} {R : α → List (ParseTree Rule) → Prop} {as : List α}

/-- The closing parenthesis or a comma follows each item of a list. -/
theorem flatMap_comma (as : List α) (rest : List String) :
    ∃ w ∈ [",", ")"], ∃ us, (as.flatMap fun a => "," :: f a) ++ ")" :: rest = w :: us := by
  cases as with
  | nil => exact ⟨")", by decide, rest, rfl⟩
  | cons a as => exact ⟨",", by decide, _, rfl⟩

theorem Reads.commaSeparated {a : α}
    (h : ∀ b ∈ a :: as, ∀ w ∈ [",", ")"], ∀ us, Reads (.call r) (f b) (w :: us) (R b)) :
    Reads (commaSeparated r) (Print.commas ((a :: as).map f)) (")" :: rest) (Rows R (a :: as)) := by
  obtain ⟨ha, has⟩ := List.forall_mem_cons.1 h
  have hm : Reads (Twig.many (Twig.phrase [.lit ",", .call r])) (as.flatMap fun b => "," :: f b)
      (")" :: rest) (Rows R as) := by
    refine Reads.many (fun b bs hb => ?_) (Refuses.seq (.lit (avoids_cons (by decide))))
    obtain ⟨w, hw, us, hus⟩ := flatMap_comma (f := f) bs rest
    rw [hus]
    exact Reads.lit_pair (by decide) (has b (hb.subset List.mem_cons_self) w hw us)
  obtain ⟨w, hw, us, hus⟩ := flatMap_comma (f := f) as rest
  have hf : Reads (.call r) (f a) ((as.flatMap fun b => "," :: f b) ++ ")" :: rest) (R a) := by
    rw [hus]
    exact ha w hw us
  rw [List.map_cons, Print.commas, List.flatMap_map]
  refine (Reads.pair hf hm).mono ?_
  rintro ts ⟨ts₁, ts₂, rfl, h₁, h₂⟩
  exact .cons h₁ h₂

/-- A list in parentheses is read up to the closing one. -/
theorem Reads.opt_commaSeparated (hn : ∀ us, Refuses (.call r) (")" :: us))
    (h : ∀ a ∈ as, ∀ w ∈ [",", ")"], ∀ us, Reads (.call r) (f a) (w :: us) (R a)) :
    Reads (Expr.opt (Twig.commaSeparated r)) (Print.commas (as.map f)) (")" :: rest)
      (Rows R as) := by
  cases as with
  | nil =>
    refine (Reads.opt_none (hn rest).seq).mono ?_
    rintro ts rfl
    exact .nil
  | cons a as => exact (Reads.commaSeparated h).opt

end Commas

end TreeMetrics.Twig
