import TreeMetrics.Grammar.Run

namespace TreeMetrics

variable {ρ : Type}

/-- The trees of a match and where it ends; nothing if there is no match. -/
abbrev Outcome (ρ : Type) := Option (List (ParseTree ρ) × Cursor)

/-- The outcome of an expression at a cursor. -/
inductive Derives (g : Grammar ρ) : Bool → Expr ρ → Cursor → Outcome ρ → Prop where
  | empty {q c} : Derives g q .empty c (some ([], c))
  | lit {q s c d} : c.text? s.toList = some d → Derives g q (.lit s) c (some ([], d))
  | lit_none {q s c} : c.text? s.toList = none → Derives g q (.lit s) c none
  | char {q k c d} : c.char? k = some d → Derives g q (.char k) c (some ([], d))
  | char_none {q k c} : c.char? k = none → Derives g q (.char k) c none
  | atEnd {q c} : c.rest = [] → Derives g q .atEnd c (some ([], c))
  | atEnd_none {q c} : c.rest ≠ [] → Derives g q .atEnd c none
  | seq {q x y c ts d us e} : Derives g q x c (some (ts, d)) → Derives g q y d (some (us, e)) →
    Derives g q (.seq x y) c (some (ts ++ us, e))
  | seq_none_left {q x y c} : Derives g q x c none → Derives g q (.seq x y) c none
  | seq_none_right {q x y c ts d} : Derives g q x c (some (ts, d)) → Derives g q y d none →
    Derives g q (.seq x y) c none
  | alt_left {q x y c r} : Derives g q x c (some r) → Derives g q (.alt x y) c (some r)
  | alt_right {q x y c o} : Derives g q x c none → Derives g q y c o → Derives g q (.alt x y) c o
  | star_nil {q x c} : Derives g q x c none → Derives g q (.star x) c (some ([], c))
  | star_cons {q x c ts d us e} : Derives g q x c (some (ts, d)) →
    Derives g q (.star x) d (some (us, e)) → Derives g q (.star x) c (some (ts ++ us, e))
  | not {q x c} : Derives g true x c none → Derives g q (.not x) c (some ([], c))
  | not_none {q x c r} : Derives g true x c (some r) → Derives g q (.not x) c none
  | call_quiet {r c o} : Derives g true (g.production r).body c o → Derives g true (.call r) c o
  | call_silent {r c o} : (g.production r).visibility = .silent →
    Derives g false (g.production r).body c o → Derives g false (.call r) c o
  | call {r c ts d} : (g.production r).visibility ≠ .silent →
    Derives g ((g.production r).visibility = .atomic) (g.production r).body c (some (ts, d)) →
    Derives g false (.call r) c (some ([.node r c.position d.position (c.upTo d) ts], d))
  | call_none {r c} : (g.production r).visibility ≠ .silent →
    Derives g ((g.production r).visibility = .atomic) (g.production r).body c none →
    Derives g false (.call r) c none

namespace Cursor

/-- The characters `cs` stand between two cursors. -/
structure Spans (c d : Cursor) (cs : List Char) : Prop where
  rest : c.rest = cs ++ d.rest
  position : d.position = c.position.after cs

namespace Spans

variable {c d e : Cursor} {cs ds : List Char}

theorem refl (c : Cursor) : c.Spans c [] := ⟨rfl, rfl⟩

theorem trans (h : c.Spans d cs) (h' : d.Spans e ds) : c.Spans e (cs ++ ds) where
  rest := by rw [h.rest, h'.rest, List.append_assoc]
  position := by rw [h'.position, h.position, Position.after_append]

theorem upTo_eq (h : c.Spans d cs) : c.upTo d = String.ofList cs := by
  rw [upTo, h.position, Position.after_index, h.rest, Nat.add_sub_cancel_left, List.take_left]

theorem index_lt (h : c.Spans d cs) (hd : d.rest.length < c.rest.length) :
    c.position.index < d.position.index := by
  have hl := congrArg List.length h.rest
  rw [List.length_append] at hl
  rw [h.position, Position.after_index]
  omega

end Spans

variable {c d : Cursor}

theorem char?_eq_some {k : CharClass} :
    c.char? k = some d ↔ ∃ x, k.holds x = true ∧ c.Spans d [x] := by
  obtain ⟨p, rest⟩ := c
  cases rest with
  | nil =>
    constructor
    · intro h
      cases h
    · rintro ⟨x, _, h⟩
      cases h.rest
  | cons y rest =>
    simp only [char?]
    constructor
    · intro h
      split at h
      · rename_i hy
        cases h
        exact ⟨y, hy, rfl, rfl⟩
      · cases h
    · rintro ⟨x, hx, h⟩
      obtain ⟨rfl, hr⟩ := List.cons.inj h.rest
      rw [if_pos hx]
      obtain ⟨q, rest'⟩ := d
      have hq : q = p.advance y := h.position
      have hr : rest = rest' := hr
      rw [hq, hr]

theorem text?_eq_some {xs : List Char} : c.text? xs = some d ↔ c.Spans d xs := by
  induction xs generalizing c with
  | nil =>
    constructor
    · intro h
      cases h
      exact .refl _
    · intro h
      obtain ⟨p, rest⟩ := c
      obtain ⟨q, rest'⟩ := d
      have hp : q = p := h.position
      have hr : rest = rest' := h.rest
      rw [hp, hr]
      rfl
  | cons x xs ih =>
    obtain ⟨p, rest⟩ := c
    cases rest with
    | nil =>
      constructor
      · intro h
        cases h
      · intro h
        cases h.rest
    | cons y rest =>
      simp only [text?]
      constructor
      · intro h
        split at h
        · rename_i hy
          subst hy
          obtain ⟨hr, hp⟩ := ih.1 h
          exact ⟨congrArg (List.cons y) hr, hp⟩
        · cases h
      · intro h
        obtain ⟨hy, hr⟩ := List.cons.inj h.rest
        rw [if_pos hy]
        exact ih.2 ⟨hr, hy ▸ h.position⟩

theorem text?_eq_none {xs : List Char} (h : ¬xs <+: c.rest) : c.text? xs = none := by
  cases hd : c.text? xs with
  | none => rfl
  | some d => exact absurd ⟨d.rest, (text?_eq_some.1 hd).rest.symm⟩ h

end Cursor

namespace Result

/-- The outcome of a run that was deep enough. -/
def outcome? : Result ρ → Option (Outcome ρ)
  | ok ts c _ => some (some (ts, c))
  | fail _ => some none
  | tooDeep => none

theorem outcome?_ofCursor (a : Attempts ρ) (d : Option Cursor) :
    (ofCursor a d).outcome? = some (d.map ([], ·)) := by
  cases d <;> rfl

variable {r : Result ρ} {o : Outcome ρ}

theorem outcome?_andThen {next : Cursor → Attempts ρ → Result ρ}
    (h : (r.andThen next).outcome? = some o) :
    r.outcome? = some none ∧ o = none ∨
      ∃ ts d a, r.outcome? = some (some (ts, d)) ∧
        ((next d a).outcome? = some none ∧ o = none ∨
          ∃ us e, (next d a).outcome? = some (some (us, e)) ∧ o = some (ts ++ us, e)) := by
  cases r with
  | ok ts d a =>
    refine .inr ⟨ts, d, a, rfl, ?_⟩
    cases hn : next d a with
    | ok us e b =>
      rw [andThen, hn] at h
      exact .inr ⟨us, e, rfl, (Option.some.inj h).symm⟩
    | fail b =>
      rw [andThen, hn] at h
      exact .inl ⟨rfl, (Option.some.inj h).symm⟩
    | tooDeep =>
      rw [andThen, hn] at h
      cases h
  | fail a => exact .inl ⟨rfl, (Option.some.inj h).symm⟩
  | tooDeep => cases h

theorem outcome?_orElse {other : Attempts ρ → Result ρ} (h : (r.orElse other).outcome? = some o) :
    (∃ m, r.outcome? = some (some m) ∧ o = some m) ∨
      ∃ a, r.outcome? = some none ∧ (other a).outcome? = some o := by
  cases r with
  | ok ts d a => exact .inl ⟨(ts, d), rfl, (Option.some.inj h).symm⟩
  | fail a => exact .inr ⟨a, rfl, h⟩
  | tooDeep => cases h

theorem outcome?_negate {c : Cursor} (h : (r.negate c).outcome? = some o) :
    (∃ m, r.outcome? = some (some m) ∧ o = none) ∨
      r.outcome? = some none ∧ o = some ([], c) := by
  cases r with
  | ok ts d a => exact .inl ⟨(ts, d), rfl, (Option.some.inj h).symm⟩
  | fail a => exact .inr ⟨rfl, (Option.some.inj h).symm⟩
  | tooDeep => cases h

theorem outcome?_close {rule : ρ} {c : Cursor} {n : Nat}
    (h : (r.close rule c n).outcome? = some o) :
    (∃ ts d, r.outcome? = some (some (ts, d)) ∧
      o = some ([.node rule c.position d.position (c.upTo d) ts], d)) ∨
      r.outcome? = some none ∧ o = none := by
  cases r with
  | ok ts d a => exact .inl ⟨ts, d, rfl, (Option.some.inj h).symm⟩
  | fail a => exact .inr ⟨rfl, (Option.some.inj h).symm⟩
  | tooDeep => cases h

end Result

/-- Decides whether an expression calls no rules but those marked. -/
def Expr.mute (m : ρ → Bool) : Expr ρ → Bool
  | .empty | .lit _ | .char _ | .atEnd | .not _ => true
  | .call r => m r
  | .seq x y | .alt x y => x.mute m && y.mute m
  | .star x => x.mute m

namespace Derives

variable {g : Grammar ρ} {q : Bool} {x y : Expr ρ} {c d : Cursor} {o o' : Outcome ρ}

theorem det (h : Derives g q x c o) (h' : Derives g q x c o') : o = o' := by
  -- The second derivation is of the same expression, so inverting it leaves only the rules that
  -- compete with the first one's; a premise they disagree on is refuted by its own hypothesis.
  induction h generalizing o' with
  | empty => cases h'; rfl
  | lit hc => cases h' with
    | lit hc' => rw [Option.some.inj (hc.symm.trans hc')]
    | lit_none hc' => cases hc.symm.trans hc'
  | lit_none hc => cases h' with
    | lit hc' => cases hc.symm.trans hc'
    | lit_none hc' => rfl
  | char hc => cases h' with
    | char hc' => rw [Option.some.inj (hc.symm.trans hc')]
    | char_none hc' => cases hc.symm.trans hc'
  | char_none hc => cases h' with
    | char hc' => cases hc.symm.trans hc'
    | char_none hc' => rfl
  | atEnd hc => cases h' with
    | atEnd hc' => rfl
    | atEnd_none hc' => exact absurd hc hc'
  | atEnd_none hc => cases h' with
    | atEnd hc' => exact absurd hc' hc
    | atEnd_none hc' => rfl
  | seq _ _ ihx ihy => cases h' with
    | seq hx hy =>
      cases ihx hx
      cases ihy hy
      rfl
    | seq_none_left hx => cases ihx hx
    | seq_none_right hx hy =>
      cases ihx hx
      cases ihy hy
  | seq_none_left _ ihx => cases h' with
    | seq hx hy => cases ihx hx
    | seq_none_left hx => rfl
    | seq_none_right hx hy => rfl
  | seq_none_right _ _ ihx ihy => cases h' with
    | seq hx hy =>
      cases ihx hx
      cases ihy hy
    | seq_none_left hx => rfl
    | seq_none_right hx hy => rfl
  | alt_left _ ihx => cases h' with
    | alt_left hx => exact ihx hx
    | alt_right hx hy => cases ihx hx
  | alt_right _ _ ihx ihy => cases h' with
    | alt_left hx => cases ihx hx
    | alt_right hx hy => exact ihy hy
  | star_nil _ ihx => cases h' with
    | star_nil hx => rfl
    | star_cons hx hs => cases ihx hx
  | star_cons _ _ ihx ihs => cases h' with
    | star_nil hx => cases ihx hx
    | star_cons hx hs =>
      cases ihx hx
      cases ihs hs
      rfl
  | not _ ihx => cases h' with
    | not hx => rfl
    | not_none hx => cases ihx hx
  | not_none _ ihx => cases h' with
    | not hx => cases ihx hx
    | not_none hx => rfl
  | call_quiet _ ihb => cases h' with
    | call_quiet hb => exact ihb hb
  | call_silent hv _ ihb => cases h' with
    | call_silent _ hb => exact ihb hb
    | call hv' _ => exact absurd hv hv'
    | call_none hv' _ => exact absurd hv hv'
  | call hv _ ihb => cases h' with
    | call_silent hv' _ => exact absurd hv' hv
    | call _ hb =>
      cases ihb hb
      rfl
    | call_none _ hb => cases ihb hb
  | call_none hv _ ihb => cases h' with
    | call_silent hv' _ => exact absurd hv' hv
    | call _ hb => cases ihb hb
    | call_none _ hb => rfl

theorem star_ne_none : ¬Derives g q (.star x) c none := by
  intro h
  cases h

theorem trees_of_quiet {ts : List (ParseTree ρ)} (h : Derives g true x c (some (ts, d))) :
    ts = [] := by
  generalize hq : true = q, ho : some (ts, d) = o at h
  induction h generalizing ts d with
  | seq _ _ ihx ihy | star_cons _ _ ihx ihy =>
    cases ho
    rw [ihx hq rfl, ihy hq rfl]
    rfl
  | alt_left _ ih => exact ih hq ho
  | alt_right _ _ _ ih => exact ih hq ho
  | call_quiet _ ih => exact ih hq ho
  | call_silent | call => cases hq
  | empty | lit | char | atEnd | star_nil | not =>
    cases ho
    rfl
  | _ => cases ho

/-- An expression that calls only silent rules, and these in turn, makes no trees. -/
theorem trees_of_mute {m : ρ → Bool}
    (hm : ∀ r, m r = true → (g.production r).visibility = .silent ∧
      (g.production r).body.mute m = true) {ts : List (ParseTree ρ)}
    (h : Derives g q x c (some (ts, d))) (hx : x.mute m = true) : ts = [] := by
  generalize ho : some (ts, d) = o at h
  induction h generalizing ts d with
  | seq _ _ ihx ihy =>
    cases ho
    rw [Expr.mute, Bool.and_eq_true] at hx
    rw [ihx hx.1 rfl, ihy hx.2 rfl]
    rfl
  | star_cons _ _ ihx ihy =>
    cases ho
    rw [ihx hx rfl, ihy hx rfl]
    rfl
  | alt_left _ ih =>
    rw [Expr.mute, Bool.and_eq_true] at hx
    exact ih hx.1 ho
  | alt_right _ _ _ ih =>
    rw [Expr.mute, Bool.and_eq_true] at hx
    exact ih hx.2 ho
  | call_quiet _ ih | call_silent _ _ ih => exact ih (hm _ hx).2 ho
  | call hv _ _ => exact absurd (hm _ hx).1 hv
  | empty | lit | char | atEnd | star_nil | not =>
    cases ho
    rfl
  | _ => cases ho

/-- A match takes up the characters from one cursor to another. -/
theorem spans {ts : List (ParseTree ρ)} (h : Derives g q x c (some (ts, d))) :
    ∃ cs, c.Spans d cs := by
  generalize ho : some (ts, d) = o at h
  induction h generalizing ts d with
  | lit hd =>
    cases ho
    exact ⟨_, Cursor.text?_eq_some.1 hd⟩
  | char hd =>
    cases ho
    obtain ⟨x, _, hx⟩ := Cursor.char?_eq_some.1 hd
    exact ⟨_, hx⟩
  | seq _ _ ihx ihy | star_cons _ _ ihx ihy =>
    cases ho
    obtain ⟨cs, hc⟩ := ihx rfl
    obtain ⟨ds, hd⟩ := ihy rfl
    exact ⟨_, hc.trans hd⟩
  | alt_left _ ih | alt_right _ _ _ ih | call_quiet _ ih | call_silent _ _ ih => exact ih ho
  | call _ _ ih =>
    cases ho
    exact ih rfl
  | empty | atEnd | star_nil | not =>
    cases ho
    exact ⟨_, .refl _⟩
  | _ => cases ho

section Inversion

variable {r : ρ} {k : CharClass} {s : String} {e : Cursor} {ts : List (ParseTree ρ)}

theorem inv_lit (h : Derives g q (.lit s) c (some (ts, d))) : ts = [] ∧ c.Spans d s.toList := by
  cases h with
  | lit hd => exact ⟨rfl, Cursor.text?_eq_some.1 hd⟩

theorem inv_char (h : Derives g q (.char k) c (some (ts, d))) :
    ts = [] ∧ ∃ z, k.holds z = true ∧ c.Spans d [z] := by
  cases h with
  | char hd => exact ⟨rfl, Cursor.char?_eq_some.1 hd⟩

theorem inv_seq (h : Derives g q (.seq x y) c (some (ts, e))) :
    ∃ us d vs, Derives g q x c (some (us, d)) ∧ Derives g q y d (some (vs, e)) ∧
      ts = us ++ vs := by
  cases h with
  | seq hx hy => exact ⟨_, _, _, hx, hy, rfl⟩

theorem inv_alt (h : Derives g q (.alt x y) c (some (ts, d))) :
    Derives g q x c (some (ts, d)) ∨ Derives g q x c none ∧ Derives g q y c (some (ts, d)) := by
  cases h with
  | alt_left hx => exact .inl hx
  | alt_right hx hy => exact .inr ⟨hx, hy⟩

theorem inv_opt (h : Derives g q x.opt c (some (ts, d))) :
    Derives g q x c (some (ts, d)) ∨ Derives g q x c none ∧ ts = [] ∧ d = c := by
  obtain hx | ⟨hx, he⟩ := inv_alt h
  · exact .inl hx
  · cases he
    exact .inr ⟨hx, rfl, rfl⟩

theorem inv_not (h : Derives g q (.not x) c (some (ts, d))) :
    Derives g true x c none ∧ ts = [] ∧ d = c := by
  cases h with
  | not hx => exact ⟨hx, rfl, rfl⟩

theorem inv_oneOf {xs : List (Expr ρ)} (h : Derives g q (.oneOf xs) c (some (ts, d))) :
    ∃ x ∈ xs, Derives g q x c (some (ts, d)) := by
  induction xs with
  | nil => cases h.inv_not.1
  | cons x xs ih =>
    cases xs with
    | nil => exact ⟨x, List.mem_cons_self, h⟩
    | cons y xs =>
      rcases h.inv_alt with h | ⟨-, h⟩
      · exact ⟨x, List.mem_cons_self, h⟩
      · obtain ⟨z, hz, h⟩ := ih h
        exact ⟨z, List.mem_cons_of_mem x hz, h⟩

theorem inv_silent (hv : (g.production r).visibility = .silent)
    (h : Derives g false (.call r) c o) :
    Derives g false (g.production r).body c o := by
  cases h with
  | call_silent _ hb => exact hb
  | call hv' _ => exact absurd hv hv'
  | call_none hv' _ => exact absurd hv hv'

theorem inv_call (hv : (g.production r).visibility ≠ .silent)
    (h : Derives g false (.call r) c (some (ts, d))) :
    ∃ us, Derives g ((g.production r).visibility = .atomic) (g.production r).body c (some (us, d)) ∧
      ts = [.node r c.position d.position (c.upTo d) us] := by
  cases h with
  | call_silent hv' _ => exact absurd hv' hv
  | call _ hb => exact ⟨_, hb, rfl⟩

/-- What holds of a repetition without rounds, and of one more round whenever it holds of the rest,
holds of every repetition. -/
theorem star_induction {P : Cursor → List (ParseTree ρ) → Cursor → Prop}
    (h : Derives g q (.star x) c (some (ts, d)))
    (nil : ∀ {c}, Derives g q x c none → P c [] c)
    (cons : ∀ {c ts d us e}, Derives g q x c (some (ts, d)) →
      Derives g q (.star x) d (some (us, e)) → P d us e → P c (ts ++ us) e) : P c ts d := by
  generalize hy : Expr.star x = y, ho : some (ts, d) = o at h
  induction h generalizing ts d with
  | star_nil hx =>
    cases hy
    cases ho
    exact nil hx
  | star_cons hx hs _ ih =>
    cases hy
    cases ho
    exact cons hx hs (ih nil cons rfl rfl)
  | _ => cases hy

/-- A repetition ends where its body fails, and its trees are those of its rounds. -/
theorem inv_star (h : Derives g q (.star x) c (some (ts, d))) :
    Derives g q x d none ∧ ∃ tss : List (List (ParseTree ρ)), ts = tss.flatten ∧
      ∀ us ∈ tss, ∃ c' d', Derives g q x c' (some (us, d')) := by
  apply h.star_induction (P := fun _ ts d => Derives g q x d none ∧
    ∃ tss : List (List (ParseTree ρ)), ts = tss.flatten ∧
      ∀ us ∈ tss, ∃ c' d', Derives g q x c' (some (us, d')))
  · intro c hx
    exact ⟨hx, [], rfl, List.forall_mem_nil _⟩
  · rintro c ts d us e hx - ⟨hn, tss, rfl, ht⟩
    exact ⟨hn, ts :: tss, rfl, List.forall_mem_cons.2 ⟨⟨c, d, hx⟩, ht⟩⟩

/-- A repetition ends where it begins or where one of its rounds ends. -/
theorem inv_star_last (h : Derives g q (.star x) c (some (ts, d))) :
    d = c ∨ ∃ c' us, Derives g q x c' (some (us, d)) := by
  apply h.star_induction (P := fun c _ d => d = c ∨ ∃ c' us, Derives g q x c' (some (us, d)))
  · intro c _
    exact .inl rfl
  · rintro c ts d us e hx - (rfl | hl)
    · exact .inr ⟨c, ts, hx⟩
    · exact .inr hl

/-- The text of a repetition is made of the texts of its rounds. -/
theorem inv_star_spans {Q : List Char → Prop}
    (hx : ∀ {c d us}, Derives g q x c (some (us, d)) → ∃ cs, c.Spans d cs ∧ Q cs)
    (h : Derives g q (.star x) c (some (ts, d))) :
    ∃ css : List (List Char), c.Spans d css.flatten ∧ ∀ cs ∈ css, Q cs := by
  apply h.star_induction (P := fun c _ d =>
    ∃ css : List (List Char), c.Spans d css.flatten ∧ ∀ cs ∈ css, Q cs)
  · intro c _
    exact ⟨[], .refl c, List.forall_mem_nil _⟩
  · rintro c ts d us e hm - ⟨css, hss, hqs⟩
    obtain ⟨cs, hs, hq⟩ := hx hm
    exact ⟨cs :: css, hs.trans hss, List.forall_mem_cons.2 ⟨hq, hqs⟩⟩

end Inversion

section Construction

variable {p : Position} {r : ρ} {k : CharClass} {s : String} {z : Char} {cs rest : List Char}

theorem lit_append (s : String) (p : Position) (rest : List Char) :
    Derives g q (.lit s) ⟨p, s.toList ++ rest⟩ (some ([], ⟨p.after s.toList, rest⟩)) :=
  .lit (Cursor.text?_eq_some.2 ⟨rfl, rfl⟩)

theorem lit_fails (h : ¬s.toList <+: cs) : Derives g q (.lit s) ⟨p, cs⟩ none :=
  .lit_none (Cursor.text?_eq_none h)

theorem char_cons (h : k.holds z = true) :
    Derives g q (.char k) ⟨p, z :: rest⟩ (some ([], ⟨p.advance z, rest⟩)) :=
  .char (Cursor.char?_eq_some.2 ⟨z, h, rfl, rfl⟩)

theorem char_fails (h : ∀ z ∈ cs.head?, k.holds z = false) :
    Derives g q (.char k) ⟨p, cs⟩ none := by
  refine .char_none ?_
  cases cs with
  | nil => rfl
  | cons z cs => simp [Cursor.char?, h z rfl]

theorem silent (hv : (g.production r).visibility = .silent)
    (h : Derives g q (g.production r).body c o) : Derives g q (.call r) c o := by
  cases q with
  | true => exact .call_quiet h
  | false => exact .call_silent hv h

/-- A repetition of single characters takes all of a kind. -/
theorem star_chars {P : Char → Bool} (hx : ∀ p z rest, P z = true →
      Derives g q x ⟨p, z :: rest⟩ (some ([], ⟨p.advance z, rest⟩)))
    (hn : ∀ p cs, (∀ z ∈ cs.head?, P z = false) → Derives g q x ⟨p, cs⟩ none)
    (hcs : ∀ z ∈ cs, P z = true) (hrest : ∀ z ∈ rest.head?, P z = false) (p : Position) :
    Derives g q (.star x) ⟨p, cs ++ rest⟩ (some ([], ⟨p.after cs, rest⟩)) := by
  induction cs generalizing p with
  | nil => exact .star_nil (hn p rest hrest)
  | cons z cs ih =>
    obtain ⟨hz, hcs⟩ := List.forall_mem_cons.1 hcs
    exact .star_cons (hx p z _ hz) (ih hcs (p.advance z))

theorem oneOf_lit_fails {ks : List String} (h : ∀ k ∈ ks, ¬k.toList <+: cs) :
    Derives g q (.oneOf (ks.map .lit)) ⟨p, cs⟩ none := by
  induction ks with
  | nil => exact .not_none .empty
  | cons k ks ih =>
    obtain ⟨hk, hks⟩ := List.forall_mem_cons.1 h
    cases ks with
    | nil => exact lit_fails hk
    | cons k' ks => exact .alt_right (lit_fails hk) (ih hks)

/-- The first text that stands at the cursor is taken. -/
theorem oneOf_lit_append {ks : List String} {k : String}
    (h : ks.find? (fun k' => k'.toList.isPrefixOf (k.toList ++ rest)) = some k) :
    Derives g q (.oneOf (ks.map .lit)) ⟨p, k.toList ++ rest⟩
      (some ([], ⟨p.after k.toList, rest⟩)) := by
  induction ks with
  | nil => cases h
  | cons k₁ ks ih =>
    rw [List.find?_cons] at h
    cases hk : k₁.toList.isPrefixOf (k.toList ++ rest) with
    | true =>
      rw [hk] at h
      cases h
      cases ks with
      | nil => exact lit_append k p rest
      | cons k₂ ks => exact .alt_left (lit_append k p rest)
    | false =>
      rw [hk] at h
      have hn : ¬k₁.toList <+: k.toList ++ rest := by
        rw [← List.isPrefixOf_iff_prefix, hk]
        exact Bool.false_ne_true
      cases ks with
      | nil => cases h
      | cons k₂ ks => exact .alt_right (lit_fails hn) (ih h)

end Construction

theorem of_text? {s : String} (h : (c.text? s.toList).map ([], ·) = o) :
    Derives g q (.lit s) c o := by
  subst h
  cases hd : c.text? s.toList with
  | some d => exact .lit hd
  | none => exact .lit_none hd

theorem of_char? {k : CharClass} (h : (c.char? k).map ([], ·) = o) :
    Derives g q (.char k) c o := by
  subst h
  cases hd : c.char? k with
  | some d => exact .char hd
  | none => exact .char_none hd

/-- A run that comes to an end follows the rules. -/
theorem of_run {depth : Nat} {a : Attempts ρ} (h : (g.run depth q x c a).outcome? = some o) :
    Derives g q x c o := by
  induction depth generalizing q x c a o with
  | zero =>
    rw [Grammar.run] at h
    cases h
  | succ depth ih =>
    cases x with
    | empty =>
      rw [Grammar.run] at h
      cases h
      exact .empty
    | lit s =>
      rw [Grammar.run, Result.outcome?_ofCursor] at h
      exact of_text? (Option.some.inj h)
    | char k =>
      rw [Grammar.run, Result.outcome?_ofCursor] at h
      exact of_char? (Option.some.inj h)
    | atEnd =>
      rw [Grammar.run] at h
      split at h
      · rename_i hc
        cases h
        exact .atEnd (List.isEmpty_iff.1 hc)
      · rename_i hc
        cases h
        exact .atEnd_none fun hn => hc (List.isEmpty_iff.2 hn)
    | seq x y =>
      rw [Grammar.run] at h
      obtain ⟨hx, rfl⟩ | ⟨ts, d, a, hx, ⟨hy, rfl⟩ | ⟨us, e, hy, rfl⟩⟩ := Result.outcome?_andThen h
      · exact .seq_none_left (ih hx)
      · exact .seq_none_right (ih hx) (ih hy)
      · exact .seq (ih hx) (ih hy)
    | alt x y =>
      rw [Grammar.run] at h
      obtain ⟨m, hx, rfl⟩ | ⟨a, hx, hy⟩ := Result.outcome?_orElse h
      · exact .alt_left (ih hx)
      · exact .alt_right (ih hx) (ih hy)
    | star x =>
      rw [Grammar.run] at h
      obtain ⟨m, hm, rfl⟩ | ⟨a, hn, ha⟩ := Result.outcome?_orElse h
      · obtain ⟨_, hn⟩ | ⟨ts, d, a, hx, ⟨_, hn⟩ | ⟨us, e, hs, hm⟩⟩ := Result.outcome?_andThen hm
        · cases hn
        · cases hn
        · rw [hm]
          exact .star_cons (ih hx) (ih hs)
      · cases ha
        obtain ⟨hx, _⟩ | ⟨ts, d, a, _, ⟨hs, _⟩ | ⟨us, e, _, hm⟩⟩ := Result.outcome?_andThen hn
        · exact .star_nil (ih hx)
        -- The rest of a repetition cannot be what failed.
        · exact absurd (ih hs) star_ne_none
        · cases hm
    | not x =>
      rw [Grammar.run] at h
      obtain ⟨m, hx, rfl⟩ | ⟨hx, rfl⟩ := Result.outcome?_negate h
      · exact .not_none (ih hx)
      · exact .not (ih hx)
    | call r =>
      rw [Grammar.run] at h
      cases q with
      | true => exact .call_quiet (ih h)
      | false =>
        simp only [Bool.false_eq_true, if_false] at h
        split at h
        · rename_i hv
          exact .call_silent hv (ih h)
        · rename_i hv
          obtain ⟨ts, d, hb, rfl⟩ | ⟨hb, rfl⟩ := Result.outcome?_close h
          · exact .call hv (ih hb)
          · exact .call_none hv (ih hb)

end Derives

end TreeMetrics
