import TreeMetrics.Proofs.Twig.Abreast
import TreeMetrics.Proofs.Twig.GapText
import TreeMetrics.Proofs.Twig.Lines

namespace TreeMetrics

theorem Cursor.Spans.rest_ne_nil {c d : Cursor} {cs : List Char} (h : c.Spans d cs)
    (hd : d.rest ≠ []) : c.rest ≠ [] := by
  rw [h.rest]
  exact List.append_ne_nil_of_right_ne_nil cs hd

namespace Twig

open TreeMetrics.Expr TreeMetrics.Twig.Rule

variable {q : Bool} {c c' d d' : Cursor} {o o' : Outcome Rule} {x y : Expr Rule} {r : Rule}
variable {ts ts' : List (ParseTree Rule)} {j k n m : Nat} {z : Char} {u v w g cs : List Char}

/-- A character that is neither a brace nor the beginning of a gap. -/
def isPlain (z : Char) : Bool := opensToken z && z != '\x7b' && z != '\x7d'

/-- Text that closes `n` braces more than it opens, and never closes one that is not open. Braces in
comments do not count. -/
inductive Enclosed : Nat → List Char → Prop where
  | nil : Enclosed 0 []
  | plain {n : Nat} {z : Char} {u : List Char} : isPlain z = true → Enclosed n u →
    Enclosed n (z :: u)
  | opening {n : Nat} {u : List Char} : Enclosed (n + 1) u → Enclosed n ('\x7b' :: u)
  | closing {n : Nat} {u : List Char} : Enclosed n u → Enclosed (n + 1) ('\x7d' :: u)
  | blank {n : Nat} {b u : List Char} : Blank b → Enclosed n u → Enclosed n (b ++ u)

namespace Enclosed

theorem plains (hv : ∀ z ∈ v, isPlain z = true) (h : Enclosed n u) : Enclosed n (v ++ u) := by
  induction v with
  | nil => exact h
  | cons z v ih =>
    obtain ⟨hz, hv⟩ := List.forall_mem_cons.1 hv
    exact .plain hz (ih hv)

theorem blanks (hg : Blanks g) (h : Enclosed n u) : Enclosed n (g ++ u) := by
  obtain ⟨bs, hbs, rfl⟩ := hg
  induction bs with
  | nil => exact h
  | cons b bs ih =>
    obtain ⟨hb, hbs⟩ := List.forall_mem_cons.1 hbs
    rw [List.flatten_cons, List.append_assoc]
    exact .blank hb (ih hbs)

theorem inv_nil (h : Enclosed n []) : n = 0 := by
  generalize he : ([] : List Char) = u at h
  cases h with
  | nil => rfl
  | blank hb _ =>
    obtain ⟨z, b, rfl, -⟩ := hb.exists_cons
    cases he
  | _ => cases he

theorem inv_cons (h : Enclosed n (z :: u)) :
    (isPlain z = true ∧ Enclosed n u) ∨ (z = '\x7b' ∧ Enclosed (n + 1) u) ∨
      (z = '\x7d' ∧ ∃ m, n = m + 1 ∧ Enclosed m u) ∨ opensToken z = false := by
  generalize he : z :: u = v at h
  cases h with
  | nil => cases he
  | plain hz h =>
    cases he
    exact .inl ⟨hz, h⟩
  | opening h =>
    cases he
    exact .inr (.inl ⟨rfl, h⟩)
  | closing h =>
    cases he
    exact .inr (.inr (.inl ⟨rfl, _, rfl, h⟩))
  | blank hb _ =>
    obtain ⟨y, b, rfl, hy⟩ := hb.exists_cons
    cases he
    exact .inr (.inr (.inr hy))

theorem of_plain_cons (hz : isPlain z = true) (h : Enclosed n (z :: u)) : Enclosed n u := by
  rcases h.inv_cons with ⟨-, h⟩ | ⟨rfl, -⟩ | ⟨rfl, -⟩ | hn
  · exact h
  · cases hz
  · cases hz
  · rw [isPlain, hn] at hz
    cases hz

theorem of_plains_append (hv : ∀ z ∈ v, isPlain z = true) (h : Enclosed n (v ++ u)) :
    Enclosed n u := by
  induction v with
  | nil => exact h
  | cons z v ih =>
    obtain ⟨hz, hv⟩ := List.forall_mem_cons.1 hv
    exact ih hv (h.of_plain_cons hz)

theorem of_opening (h : Enclosed n ('\x7b' :: u)) : Enclosed (n + 1) u := by
  rcases h.inv_cons with ⟨hz, -⟩ | ⟨-, h⟩ | ⟨hz, -⟩ | hz
  · cases hz
  · exact h
  · cases hz
  · cases hz

theorem of_closing (h : Enclosed n ('\x7d' :: u)) : ∃ m, n = m + 1 ∧ Enclosed m u := by
  rcases h.inv_cons with ⟨hz, -⟩ | ⟨hz, -⟩ | ⟨-, h⟩ | hz
  · cases hz
  · cases hz
  · exact h
  · cases hz

/-- The blank text at the beginning comes to an end. -/
theorem exists_gap (h : Enclosed n u) :
    ∃ g v, u = g ++ v ∧ Blanks g ∧ Enclosed n v ∧ ∀ z ∈ v.head?, opensToken z = true := by
  induction h with
  | nil => exact ⟨[], [], rfl, blanks_nil, .nil, fun z hz => by cases hz⟩
  | @plain n z u hz h _ =>
    refine ⟨[], z :: u, rfl, blanks_nil, .plain hz h, fun y hy => ?_⟩
    cases hy
    rw [isPlain, Bool.and_assoc, Bool.and_eq_true] at hz
    exact hz.1
  | opening h _ =>
    refine ⟨[], _, rfl, blanks_nil, .opening h, fun y hy => ?_⟩
    cases hy
    rfl
  | closing h _ =>
    refine ⟨[], _, rfl, blanks_nil, .closing h, fun y hy => ?_⟩
    cases hy
    rfl
  | blank hb _ ih =>
    obtain ⟨g, v, rfl, hg, hv, hz⟩ := ih
    exact ⟨_, v, (List.append_assoc _ g v).symm, (Blanks.one hb).append hg, hv, hz⟩

end Enclosed

/-- What a match does to the number of open braces. -/
inductive Effect where
  | keeps
  | opens
  | closes
deriving DecidableEq

namespace Effect

/-- The numbers of braces that are still to be closed before and after a match. -/
def Leads : Effect → Nat → Nat → Prop
  | keeps, n, m => n = m
  | opens, n, m => m = n + 1
  | closes, n, m => n = m + 1

/-- The effect of two matches, the second of which may close what the first has opened. -/
def andThen : Effect → Effect → Option Effect
  | keeps, e => some e
  | opens, closes => some keeps
  | _, _ => none

theorem Leads.between {a b e : Effect} (h : a.andThen b = some e) (hl : e.Leads n m) :
    ∃ l, a.Leads n l ∧ b.Leads l m := by
  cases a with
  | keeps =>
    cases h
    exact ⟨n, rfl, hl⟩
  | opens =>
    cases b with
    | closes =>
      cases h
      cases hl
      exact ⟨n + 1, rfl, rfl⟩
    | _ => cases h
  | closes => cases h

end Effect

/-- The effect of an expression on the number of open braces, if every match has the same one. -/
def effect : Expr Rule → Option Effect
  | .empty => some .keeps
  | .lit s =>
    if s = "\x7b" then some .opens
    else if s = "\x7d" then some .closes
    else if s.toList.all isPlain then some .keeps
    else none
  | .char k => if k = .any then none else some .keeps
  | .atEnd => none
  | .call r => if isGapwise r then some .keeps else none
  | .seq x y =>
    if Expr.seq x y = gap then some .keeps
    else (effect x).bind fun a => (effect y).bind fun b => a.andThen b
  | .alt x y => if effect x = some .keeps ∧ effect y = some .keeps then some .keeps else none
  | .star x | .not x => if effect x = some .keeps then some .keeps else none

theorem effect_pattern (h : isGapwise r = true) : effect (pattern r) = some .keeps := by
  cases r with
  | whitespace | comment | file | endOfInput => cases h
  | _ => rfl

section Effects

variable {e : Effect} {s : String} {k : CharClass}

theorem effect_lit (h : effect (.lit s) = some e) :
    s = "\x7b" ∧ e = .opens ∨ s = "\x7d" ∧ e = .closes ∨
      (∀ z ∈ s.toList, isPlain z = true) ∧ e = .keeps := by
  rw [effect] at h
  split at h
  · rename_i hs
    cases h
    exact .inl ⟨hs, rfl⟩
  · split at h
    · rename_i hs
      cases h
      exact .inr (.inl ⟨hs, rfl⟩)
    · split at h
      · rename_i hs
        cases h
        exact .inr (.inr ⟨List.all_eq_true.1 hs, rfl⟩)
      · cases h

theorem effect_char (h : effect (.char k) = some e) : k ≠ .any ∧ e = .keeps := by
  rw [effect] at h
  split at h
  · cases h
  · rename_i hk
    cases h
    exact ⟨hk, rfl⟩

theorem effect_call (h : effect (.call r) = some e) : isGapwise r = true ∧ e = .keeps := by
  rw [effect] at h
  split at h
  · rename_i hr
    cases h
    exact ⟨hr, rfl⟩
  · cases h

theorem effect_seq (h : effect (.seq x y) = some e) :
    Expr.seq x y = gap ∧ e = .keeps ∨
      ∃ a b, effect x = some a ∧ effect y = some b ∧ a.andThen b = some e := by
  rw [effect] at h
  split at h
  · rename_i hg
    cases h
    exact .inl ⟨hg, rfl⟩
  · obtain ⟨a, ha, h⟩ := Option.bind_eq_some_iff.1 h
    obtain ⟨b, hb, h⟩ := Option.bind_eq_some_iff.1 h
    exact .inr ⟨a, b, ha, hb, h⟩

theorem effect_alt (h : effect (.alt x y) = some e) :
    effect x = some .keeps ∧ effect y = some .keeps ∧ e = .keeps := by
  rw [effect] at h
  split at h
  · rename_i hxy
    cases h
    exact ⟨hxy.1, hxy.2, rfl⟩
  · cases h

theorem effect_star (h : effect (.star x) = some e) : effect x = some .keeps ∧ e = .keeps := by
  rw [effect] at h
  split at h
  · rename_i hx
    cases h
    exact ⟨hx, rfl⟩
  · cases h

theorem effect_not (h : effect (.not x) = some e) : effect x = some .keeps ∧ e = .keeps :=
  effect_star h

end Effects

theorem isPlain_of_holds {k : CharClass} (hk : k ≠ .any) (h : k.holds z = true) :
    isPlain z = true := by
  rw [isPlain, Bool.and_eq_true, Bool.and_eq_true, bne_iff_ne, bne_iff_ne]
  refine ⟨⟨Abreast.opensToken_of_holds hk h, ?_⟩, ?_⟩
  all_goals
    rintro rfl
    cases k with
    | any => exact hk rfl
    | _ => cases h

/-- A match in front of enclosed text takes text that is enclosed together with it. -/
theorem enclosed_of_derives {e : Effect} (h : Derives grammar q x c (some (ts, d)))
    (hx : effect x = some e) (hl : e.Leads n m) (hd : d.rest ≠ []) (hv : Enclosed m v) :
    ∃ u, c.Spans d u ∧ Enclosed n (u ++ v) := by
  generalize ho : some (ts, d) = o at h
  induction h generalizing e n m v ts d with
  | empty =>
    cases ho
    cases hx
    cases hl
    exact ⟨[], .refl _, hv⟩
  | lit hc =>
    cases ho
    refine ⟨_, Cursor.text?_eq_some.1 hc, ?_⟩
    rcases effect_lit hx with ⟨rfl, rfl⟩ | ⟨rfl, rfl⟩ | ⟨hs, rfl⟩
    · cases hl
      exact .opening hv
    · cases hl
      exact .closing hv
    · cases hl
      exact .plains hs hv
  | char hc =>
    cases ho
    obtain ⟨hk, rfl⟩ := effect_char hx
    cases hl
    obtain ⟨z, hz, hs⟩ := Cursor.char?_eq_some.1 hc
    exact ⟨[z], hs, .plain (isPlain_of_holds hk hz) hv⟩
  | atEnd => cases hx
  | seq hl' hr ihl ihr =>
    cases ho
    rcases effect_seq hx with ⟨hg, rfl⟩ | ⟨a, b, ha, hb, hab⟩
    · cases hl
      have hgap := Derives.seq hl' hr
      rw [hg] at hgap
      obtain ⟨g, hs, -, hb⟩ := inv_gap hgap
      exact ⟨g, hs, .blanks (hb hd) hv⟩
    · obtain ⟨l, hla, hlb⟩ := hl.between hab
      obtain ⟨w, hs', hw⟩ := ihr hb hlb hd hv rfl
      obtain ⟨u, hs, hu⟩ := ihl ha hla (hs'.rest_ne_nil hd) hw rfl
      exact ⟨u ++ w, hs.trans hs', by rwa [List.append_assoc]⟩
  | alt_left _ ih =>
    obtain ⟨hleft, -, rfl⟩ := effect_alt hx
    exact ih hleft hl hd hv ho
  | alt_right _ _ _ ih =>
    obtain ⟨-, hright, rfl⟩ := effect_alt hx
    exact ih hright hl hd hv ho
  | star_nil =>
    cases ho
    obtain ⟨-, rfl⟩ := effect_star hx
    cases hl
    exact ⟨[], .refl _, hv⟩
  | star_cons _ _ ihx ihs =>
    cases ho
    obtain ⟨hb, rfl⟩ := effect_star hx
    cases hl
    obtain ⟨w, hs', hw⟩ := ihs hx rfl hd hv rfl
    obtain ⟨u, hs, hu⟩ := ihx hb rfl (hs'.rest_ne_nil hd) hw rfl
    exact ⟨u ++ w, hs.trans hs', by rwa [List.append_assoc]⟩
  | not =>
    cases ho
    obtain ⟨-, rfl⟩ := effect_not hx
    cases hl
    exact ⟨[], .refl _, hv⟩
  | call_quiet _ ih | call_silent _ _ ih =>
    obtain ⟨hr, rfl⟩ := effect_call hx
    exact ih (effect_pattern hr) hl hd hv ho
  | call _ _ ih =>
    cases ho
    obtain ⟨hr, rfl⟩ := effect_call hx
    exact ih (effect_pattern hr) hl hd hv rfl
  | _ => cases ho

/-- A position of which only the line is left, `k` lines further down. -/
def onLine (k : Nat) (p : Position) : Position := ⟨0, 0, p.line + k, 0⟩

/-- The same trees but for their positions: the first ones `j` lines and the second ones `k` lines
further down stand on the same lines. -/
def Apart (j k : Nat) (ts ts' : List (ParseTree Rule)) : Prop :=
  ts.map (ParseTree.relocate (onLine j)) = ts'.map (ParseTree.relocate (onLine k))

theorem Apart.append {us us' : List (ParseTree Rule)} (h : Apart j k ts ts')
    (h' : Apart j k us us') : Apart j k (ts ++ us) (ts' ++ us') := by
  rw [Apart, List.map_append, List.map_append, h, h']

theorem line_of_spans (h : c.position.line + j = c'.position.line + k) (hs : c.Spans d cs)
    (hs' : c'.Spans d' cs) : d.position.line + j = d'.position.line + k := by
  rw [hs.position, hs'.position, Position.after_line, Position.after_line]
  omega

theorem Apart.node {start stop start' stop' : Position} {s : String}
    (hs : start.line + j = start'.line + k) (he : stop.line + j = stop'.line + k)
    (h : Apart j k ts ts') :
    Apart j k [.node r start stop s ts] [.node r start' stop' s ts'] := by
  rw [Apart, List.map_singleton, List.map_singleton, ParseTree.relocate_node,
    ParseTree.relocate_node, h]
  simp only [onLine, hs, he]

/-- The matches of a rule are the same but for their lines if they took the same characters. -/
theorem Apart.call (hline : c.position.line + j = c'.position.line + k) (hs : c.Spans d cs)
    (hs' : c'.Spans d' cs) (h : Apart j k ts ts') :
    Apart j k [.node r c.position d.position (c.upTo d) ts]
      [.node r c'.position d'.position (c'.upTo d') ts'] := by
  rw [hs.upTo_eq, hs'.upTo_eq]
  exact .node hline (line_of_spans hline hs hs') h

/-- The same enclosed text stands at both cursors and a closing brace behind it. The first cursor
`j` lines and the second one `k` lines further down stand on the same line. -/
structure Beside (j k n : Nat) (u : List Char) (c c' : Cursor) : Prop where
  enclosed : Enclosed n u
  closes : ∃ rest, c.rest = u ++ '\x7d' :: rest
  closes' : ∃ rest, c'.rest = u ++ '\x7d' :: rest
  line : c.position.line + j = c'.position.line + k

/-- The expression had the same success at both cursors. -/
inductive Agree (j k m : Nat) (u : List Char) (c c' : Cursor) :
    Outcome Rule → Outcome Rule → Prop where
  | fails : Agree j k m u c c' none none
  | takes {ts ts' : List (ParseTree Rule)} {d d' : Cursor} {cs v : List Char} : Apart j k ts ts' →
    u = cs ++ v → Enclosed m v → c.Spans d cs → c'.Spans d' cs →
    Agree j k m u c c' (some (ts, d)) (some (ts', d'))

namespace Beside

/-- Both cursors are moved over the same text. -/
theorem step (h : Beside j k n (cs ++ v) c c') (hs : c.Spans d cs) (hs' : c'.Spans d' cs)
    (hv : Enclosed m v) : Beside j k m v d d' := by
  obtain ⟨rest, hrest⟩ := h.closes
  obtain ⟨rest', hrest'⟩ := h.closes'
  rw [hs.rest, List.append_assoc] at hrest
  rw [hs'.rest, List.append_assoc] at hrest'
  exact ⟨hv, ⟨rest, List.append_cancel_left hrest⟩, ⟨rest', List.append_cancel_left hrest'⟩,
    line_of_spans h.line hs hs'⟩

theorem spans (h : Beside j k n (cs ++ v) c c') :
    ∃ d d', c.Spans d cs ∧ c'.Spans d' cs := by
  obtain ⟨rest, hrest⟩ := h.closes
  obtain ⟨rest', hrest'⟩ := h.closes'
  rw [List.append_assoc] at hrest hrest'
  exact ⟨⟨c.position.after cs, v ++ '\x7d' :: rest⟩, ⟨c'.position.after cs, v ++ '\x7d' :: rest'⟩,
    ⟨hrest, rfl⟩, ⟨hrest', rfl⟩⟩

theorem not_isPrefix_cons {y : Char} (h : y ≠ z) : ¬[y] <+: z :: w :=
  fun hp => h (List.cons_prefix_cons.1 hp).1

/-- A text with an effect on the braces stands at both cursors or at neither. -/
theorem lit {e : Effect} {s : String} (h : Beside j k n u c c') (hs : effect (.lit s) = some e)
    (hl : e.Leads n m) :
    (∃ v, u = s.toList ++ v ∧ Enclosed m v) ∨ ¬s.toList <+: c.rest ∧ ¬s.toList <+: c'.rest := by
  obtain ⟨rest, hrest⟩ := h.closes
  obtain ⟨rest', hrest'⟩ := h.closes'
  have henclosed := h.enclosed
  rw [hrest, hrest']
  rcases effect_lit hs with ⟨rfl, rfl⟩ | ⟨rfl, rfl⟩ | ⟨hplain, rfl⟩
  · cases hl
    cases u with
    | nil => exact .inr ⟨not_isPrefix_cons (by decide), not_isPrefix_cons (by decide)⟩
    | cons z w =>
      by_cases hz : '\x7b' = z
      · subst hz
        exact .inl ⟨w, rfl, henclosed.of_opening⟩
      · exact .inr ⟨not_isPrefix_cons hz, not_isPrefix_cons hz⟩
  · cases hl
    cases u with
    | nil => cases henclosed.inv_nil
    | cons z w =>
      by_cases hz : '\x7d' = z
      · subst hz
        obtain ⟨l, hlm, hw⟩ := henclosed.of_closing
        cases hlm
        exact .inl ⟨w, rfl, hw⟩
      · exact .inr ⟨not_isPrefix_cons hz, not_isPrefix_cons hz⟩
  · cases hl
    by_cases hp : s.toList <+: u
    · obtain ⟨v, rfl⟩ := hp
      exact .inl ⟨v, rfl, henclosed.of_plains_append hplain⟩
    · have hz : '\x7d' ∉ s.toList := fun hm => by cases hplain _ hm
      exact .inr ⟨fun hn => hp (isPrefix_of_not_mem hz hn),
        fun hn => hp (isPrefix_of_not_mem hz hn)⟩

theorem char {k' : CharClass} (h : Beside j k n u c c') (hk : k' ≠ .any) :
    (∃ z v, u = [z] ++ v ∧ k'.holds z = true ∧ Enclosed n v) ∨
      (∀ z ∈ c.rest.head?, k'.holds z = false) ∧ ∀ z ∈ c'.rest.head?, k'.holds z = false := by
  obtain ⟨rest, hrest⟩ := h.closes
  obtain ⟨rest', hrest'⟩ := h.closes'
  have henclosed := h.enclosed
  rw [hrest, hrest']
  cases u with
  | nil =>
    have hn : k'.holds '\x7d' = false := by
      cases k' with
      | any => exact absurd rfl hk
      | _ => rfl
    refine .inr ⟨fun z hz => ?_, fun z hz => ?_⟩
    all_goals
      cases hz
      exact hn
  | cons z v =>
    cases hz : k'.holds z with
    | true => exact .inl ⟨z, v, rfl, hz, henclosed.of_plain_cons (isPlain_of_holds hk hz)⟩
    | false =>
      refine .inr ⟨fun y hy => ?_, fun y hy => ?_⟩
      all_goals
        cases hy
        exact hz

/-- The same gap stands at both cursors. -/
theorem gap (h : Beside j k n u c c') (q : Bool) :
    ∃ g v d d', u = g ++ v ∧ Enclosed n v ∧ c.Spans d g ∧ c'.Spans d' g ∧
      Derives grammar q Twig.gap c (some ([], d)) ∧
      Derives grammar q Twig.gap c' (some ([], d')) := by
  obtain ⟨rest, hrest⟩ := h.closes
  obtain ⟨rest', hrest'⟩ := h.closes'
  obtain ⟨g, v, rfl, hg, hv, hopens⟩ := h.enclosed.exists_gap
  have hhead : ∀ rest, ∀ z ∈ (v ++ '\x7d' :: rest).head?, opensToken z = true := by
    intro rest z hz
    cases v with
    | nil =>
      cases hz
      rfl
    | cons y v => exact hopens z hz
  have hgap := gap_append hg (hhead rest) q c.position
  have hgap' := gap_append hg (hhead rest') q c'.position
  rw [← List.append_assoc, ← hrest] at hgap
  rw [← List.append_assoc, ← hrest'] at hgap'
  rw [List.append_assoc] at hrest hrest'
  exact ⟨g, v, _, _, rfl, hv, ⟨hrest, rfl⟩, ⟨hrest', rfl⟩, hgap, hgap'⟩

end Beside

namespace Agree

theorem stay (h : Beside j k n u c c') : Agree j k n u c c' (some ([], c)) (some ([], c')) :=
  .takes rfl rfl h.enclosed (.refl c) (.refl c')

theorem lit {e : Effect} {s : String} (h : Derives grammar q (.lit s) c o)
    (hs : effect (.lit s) = some e) (hl : e.Leads n m) (hc : Beside j k n u c c') :
    ∃ o', Derives grammar q (.lit s) c' o' ∧ Agree j k m u c c' o o' := by
  rcases hc.lit hs hl with ⟨v, rfl, hv⟩ | ⟨hn, hn'⟩
  · obtain ⟨d, d', hd, hd'⟩ := hc.spans
    cases h.det (.lit (Cursor.text?_eq_some.2 hd))
    exact ⟨_, .lit (Cursor.text?_eq_some.2 hd'), .takes rfl rfl hv hd hd'⟩
  · cases h.det (.lit_none (Cursor.text?_eq_none hn))
    exact ⟨_, .lit_none (Cursor.text?_eq_none hn'), .fails⟩

theorem char {k' : CharClass} (h : Derives grammar q (.char k') c o) (hk : k' ≠ .any)
    (hc : Beside j k n u c c') :
    ∃ o', Derives grammar q (.char k') c' o' ∧ Agree j k n u c c' o o' := by
  rcases hc.char hk with ⟨z, v, rfl, hz, hv⟩ | ⟨hn, hn'⟩
  · obtain ⟨d, d', hd, hd'⟩ := hc.spans
    cases h.det (.char (Cursor.char?_eq_some.2 ⟨z, hz, hd⟩))
    exact ⟨_, .char (Cursor.char?_eq_some.2 ⟨z, hz, hd'⟩), .takes rfl rfl hv hd hd'⟩
  · cases h.det (.char_fails hn)
    exact ⟨_, .char_fails hn', .fails⟩

theorem gap (hx : x = Twig.gap) (h : Derives grammar q x c o) (hc : Beside j k n u c c') :
    ∃ o', Derives grammar q x c' o' ∧ Agree j k n u c c' o o' := by
  subst hx
  obtain ⟨g, v, d, d', rfl, hv, hs, hs', hd, hd'⟩ := hc.gap q
  cases h.det hd
  exact ⟨_, hd', .takes rfl rfl hv hs hs'⟩

end Agree

/-- An expression with an effect on the braces has the same success wherever the enclosed text
stands and whatever follows the brace that closes it. -/
theorem agree {e : Effect} (h : Derives grammar q x c o) (hx : effect x = some e)
    (hl : e.Leads n m) (hc : Beside j k n u c c') :
    ∃ o', Derives grammar q x c' o' ∧ Agree j k m u c c' o o' := by
  induction h generalizing e n m u c' with
  | empty =>
    cases hx
    cases hl
    exact ⟨_, .empty, .stay hc⟩
  | lit hd => exact Agree.lit (.lit hd) hx hl hc
  | lit_none hd => exact Agree.lit (.lit_none hd) hx hl hc
  | char hd =>
    obtain ⟨hk, rfl⟩ := effect_char hx
    cases hl
    exact Agree.char (.char hd) hk hc
  | char_none hd =>
    obtain ⟨hk, rfl⟩ := effect_char hx
    cases hl
    exact Agree.char (.char_none hd) hk hc
  | atEnd | atEnd_none => cases hx
  | seq hl' hr ihl ihr =>
    rcases effect_seq hx with ⟨hg, rfl⟩ | ⟨a, b, ha, hb, hab⟩
    · cases hl
      exact Agree.gap hg (.seq hl' hr) hc
    · obtain ⟨l, hla, hlb⟩ := hl.between hab
      obtain ⟨_, hx', hm⟩ := ihl ha hla hc
      cases hm with
      | takes ht hu hv hs hs' =>
        subst hu
        obtain ⟨_, hy', hm⟩ := ihr hb hlb (hc.step hs hs' hv)
        cases hm with
        | takes hut hw hv' hss hss' =>
          subst hw
          exact ⟨_, .seq hx' hy', .takes (ht.append hut) (List.append_assoc _ _ _).symm hv'
            (hs.trans hss) (hs'.trans hss')⟩
  | seq_none_left hl' ihl =>
    rcases effect_seq hx with ⟨hg, rfl⟩ | ⟨a, b, ha, hb, hab⟩
    · cases hl
      exact Agree.gap hg (.seq_none_left hl') hc
    · obtain ⟨l, hla, -⟩ := hl.between hab
      obtain ⟨_, hx', hm⟩ := ihl ha hla hc
      cases hm with
      | fails => exact ⟨_, .seq_none_left hx', .fails⟩
  | seq_none_right hl' hr ihl ihr =>
    rcases effect_seq hx with ⟨hg, rfl⟩ | ⟨a, b, ha, hb, hab⟩
    · cases hl
      exact Agree.gap hg (.seq_none_right hl' hr) hc
    · obtain ⟨l, hla, hlb⟩ := hl.between hab
      obtain ⟨_, hx', hm⟩ := ihl ha hla hc
      cases hm with
      | takes ht hu hv hs hs' =>
        subst hu
        obtain ⟨_, hy', hm⟩ := ihr hb hlb (hc.step hs hs' hv)
        cases hm with
        | fails => exact ⟨_, .seq_none_right hx' hy', .fails⟩
  | alt_left _ ihl =>
    obtain ⟨hleft, -, rfl⟩ := effect_alt hx
    obtain ⟨_, hx', hm⟩ := ihl hleft hl hc
    cases hm with
    | takes ht hu hv hs hs' => exact ⟨_, .alt_left hx', .takes ht hu hv hs hs'⟩
  | alt_right _ _ ihl ihr =>
    obtain ⟨hleft, hright, rfl⟩ := effect_alt hx
    obtain ⟨_, hx', hm⟩ := ihl hleft hl hc
    obtain ⟨_, hy', hm'⟩ := ihr hright hl hc
    cases hm with
    | fails => exact ⟨_, .alt_right hx' hy', hm'⟩
  | star_nil _ ihx =>
    obtain ⟨hb, rfl⟩ := effect_star hx
    cases hl
    obtain ⟨_, hx', hm⟩ := ihx hb rfl hc
    cases hm with
    | fails => exact ⟨_, .star_nil hx', .stay hc⟩
  | star_cons _ _ ihx ihs =>
    obtain ⟨hb, rfl⟩ := effect_star hx
    cases hl
    obtain ⟨_, hx', hm⟩ := ihx hb rfl hc
    cases hm with
    | takes ht hu hv hs hs' =>
      subst hu
      obtain ⟨_, hxs', hm⟩ := ihs hx rfl (hc.step hs hs' hv)
      cases hm with
      | takes hut hw hv' hss hss' =>
        subst hw
        exact ⟨_, .star_cons hx' hxs', .takes (ht.append hut) (List.append_assoc _ _ _).symm hv'
          (hs.trans hss) (hs'.trans hss')⟩
  | not _ ihx =>
    obtain ⟨hb, rfl⟩ := effect_not hx
    cases hl
    obtain ⟨_, hx', hm⟩ := ihx hb rfl hc
    cases hm with
    | fails => exact ⟨_, .not hx', .stay hc⟩
  | not_none _ ihx =>
    obtain ⟨hb, rfl⟩ := effect_not hx
    cases hl
    obtain ⟨_, hx', hm⟩ := ihx hb rfl hc
    cases hm with
    | takes => exact ⟨_, .not_none hx', .fails⟩
  | call_quiet _ ihb =>
    obtain ⟨hr, rfl⟩ := effect_call hx
    obtain ⟨_, hb', hm⟩ := ihb (effect_pattern hr) hl hc
    exact ⟨_, .call_quiet hb', hm⟩
  | call_silent hv _ ihb =>
    obtain ⟨hr, rfl⟩ := effect_call hx
    obtain ⟨_, hb', hm⟩ := ihb (effect_pattern hr) hl hc
    exact ⟨_, .call_silent hv hb', hm⟩
  | call hv _ ihb =>
    obtain ⟨hr, rfl⟩ := effect_call hx
    cases hl
    obtain ⟨_, hb', hm⟩ := ihb (effect_pattern hr) rfl hc
    cases hm with
    | takes ht hu hv' hs hs' =>
      exact ⟨_, .call hv hb', .takes (.call hc.line hs hs' ht) hu hv' hs hs'⟩
  | call_none hv _ ihb =>
    obtain ⟨hr, rfl⟩ := effect_call hx
    obtain ⟨_, hb', hm⟩ := ihb (effect_pattern hr) hl hc
    cases hm with
    | fails => exact ⟨_, .call_none hv hb', .fails⟩

end Twig

end TreeMetrics
