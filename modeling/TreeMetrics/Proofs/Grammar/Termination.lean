import Mathlib.Logic.Relation
import TreeMetrics.Proofs.Grammar.Derivation

namespace TreeMetrics

/-- An expression that is tried at a cursor, quietly or not. -/
structure Trial (ρ : Type) where
  quiet : Bool
  expr : Expr ρ
  cursor : Cursor

/-- To find out whether the first expression matches, the second one is tried. -/
inductive Enters {ρ : Type} (g : Grammar ρ) : Trial ρ → Trial ρ → Prop where
  | seq_first {q x y c} : Enters g ⟨q, .seq x y, c⟩ ⟨q, x, c⟩
  | seq_second {q x y c ts d} : Derives g q x c (some (ts, d)) →
    Enters g ⟨q, .seq x y, c⟩ ⟨q, y, d⟩
  | alt_first {q x y c} : Enters g ⟨q, .alt x y, c⟩ ⟨q, x, c⟩
  | alt_second {q x y c} : Derives g q x c none → Enters g ⟨q, .alt x y, c⟩ ⟨q, y, c⟩
  | star_body {q x c} : Enters g ⟨q, .star x, c⟩ ⟨q, x, c⟩
  | star_again {q x c ts d} : Derives g q x c (some (ts, d)) →
    Enters g ⟨q, .star x, c⟩ ⟨q, .star x, d⟩
  | not {q x c} : Enters g ⟨q, .not x, c⟩ ⟨true, x, c⟩
  | call {q r c} : Enters g ⟨q, .call r, c⟩
    ⟨q || (g.production r).visibility = .atomic, (g.production r).body, c⟩

/-- The expressions that an expression is made of, itself among them. Rules are not opened. -/
def Expr.parts {ρ : Type} : Expr ρ → List (Expr ρ)
  | .seq x y => .seq x y :: (x.parts ++ y.parts)
  | .alt x y => .alt x y :: (x.parts ++ y.parts)
  | .star x => .star x :: x.parts
  | .not x => .not x :: x.parts
  | x => [x]

/-- Whatever the expression matches has a character at least. -/
def Expr.Advances {ρ : Type} (g : Grammar ρ) (x : Expr ρ) : Prop :=
  ∀ q c ts d, Derives g q x c (some (ts, d)) → c.position.index < d.position.index

/-- Which rules may match the empty text, and how many expressions a rule enters inside each other
before a character is consumed. -/
structure Survey (ρ : Type) where
  nullable : ρ → Bool
  rank : ρ → Nat

namespace Survey

variable {ρ : Type}

/-- Decides whether an expression may match the empty text. -/
def mayBeEmpty (v : Survey ρ) : Expr ρ → Bool
  | .empty | .atEnd | .star _ | .not _ => true
  | .lit s => s.toList.isEmpty
  | .char _ => false
  | .call r => v.nullable r
  | .seq x y => v.mayBeEmpty x && v.mayBeEmpty y
  | .alt x y => v.mayBeEmpty x || v.mayBeEmpty y

/-- How many expressions are entered inside each other before a character is consumed. -/
def height (v : Survey ρ) : Expr ρ → Nat
  | .empty | .lit _ | .char _ | .atEnd => 1
  | .call r => v.rank r + 1
  | .seq x y => max (v.height x) (if v.mayBeEmpty x then v.height y else 0) + 1
  | .alt x y => max (v.height x) (v.height y) + 1
  | .star x | .not x => v.height x + 1

/-- Decides whether no part is higher than `reach` and each repetition consumes something. -/
def guards (v : Survey ρ) (reach : Nat) (x : Expr ρ) : Bool :=
  decide (v.height x ≤ reach) &&
    match x with
    | .empty | .lit _ | .char _ | .atEnd | .call _ => true
    | .seq x y | .alt x y => v.guards reach x && v.guards reach y
    | .star x => !v.mayBeEmpty x && v.guards reach x
    | .not x => v.guards reach x

structure Holds (v : Survey ρ) (g : Grammar ρ) (r : ρ) : Prop where
  nullable : v.mayBeEmpty (g.production r).body = true → v.nullable r = true
  rank : v.height (g.production r).body ≤ v.rank r
  guards : v.guards g.reach (g.production r).body = true

instance (v : Survey ρ) (g : Grammar ρ) (r : ρ) : Decidable (v.Holds g r) :=
  decidable_of_iff
    ((v.mayBeEmpty (g.production r).body = true → v.nullable r = true) ∧
      v.height (g.production r).body ≤ v.rank r ∧ v.guards g.reach (g.production r).body = true)
    ⟨fun h => ⟨h.1, h.2.1, h.2.2⟩, fun h => ⟨h.1, h.2, h.3⟩⟩

variable {v : Survey ρ} {g : Grammar ρ} {q : Bool} {x y : Expr ρ} {c d : Cursor}

theorem height_pos : 0 < v.height x := by
  cases x <;> exact Nat.succ_pos _

theorem height_le (h : v.guards g.reach x = true) : v.height x ≤ g.reach := by
  unfold guards at h
  rw [Bool.and_eq_true] at h
  exact of_decide_eq_true h.1

theorem guards_seq (h : v.guards g.reach (.seq x y) = true) :
    v.guards g.reach x = true ∧ v.guards g.reach y = true := by
  rw [guards, Bool.and_eq_true, Bool.and_eq_true] at h
  exact h.2

theorem guards_alt (h : v.guards g.reach (.alt x y) = true) :
    v.guards g.reach x = true ∧ v.guards g.reach y = true := by
  rw [guards, Bool.and_eq_true, Bool.and_eq_true] at h
  exact h.2

theorem guards_star (h : v.guards g.reach (.star x) = true) :
    v.mayBeEmpty x = false ∧ v.guards g.reach x = true := by
  rw [guards, Bool.and_eq_true, Bool.and_eq_true, Bool.not_eq_true'] at h
  exact h.2

theorem guards_not (h : v.guards g.reach (.not x) = true) : v.guards g.reach x = true := by
  rw [guards, Bool.and_eq_true] at h
  exact h.2

/-- Only an expression that may be empty matches without consuming a character. -/
theorem mayBeEmpty_of_derives (hv : ∀ r, v.Holds g r) {ts : List (ParseTree ρ)}
    (h : Derives g q x c (some (ts, d))) :
    c.rest.length ≤ d.rest.length → v.mayBeEmpty x = true := by
  generalize ho : some (ts, d) = o at h
  induction h generalizing ts d with
  | lit hd =>
    cases ho
    intro hn
    have hr := congrArg List.length (Cursor.text?_eq_some.1 hd).rest
    rw [List.length_append] at hr
    exact List.isEmpty_iff.2 (List.eq_nil_of_length_eq_zero (by omega))
  | char hd =>
    cases ho
    intro hn
    obtain ⟨z, _, hz⟩ := Cursor.char?_eq_some.1 hd
    have hr := congrArg List.length hz.rest
    simp only [List.length_append, List.length_cons, List.length_nil] at hr
    omega
  | seq hx hy ihx ihy =>
    cases ho
    intro hn
    obtain ⟨cs, hcs⟩ := hx.spans
    obtain ⟨ds, hds⟩ := hy.spans
    have hc := congrArg List.length hcs.rest
    have hd := congrArg List.length hds.rest
    rw [List.length_append] at hc hd
    rw [mayBeEmpty, ihx rfl (by omega), ihy rfl (by omega)]
    rfl
  | alt_left _ ih =>
    intro hn
    rw [mayBeEmpty, ih ho hn, Bool.true_or]
  | alt_right _ _ _ ih =>
    intro hn
    rw [mayBeEmpty, ih ho hn, Bool.or_true]
  | call_quiet _ ih | call_silent _ _ ih => exact fun hn => (hv _).nullable (ih ho hn)
  | call _ _ ih =>
    cases ho
    exact fun hn => (hv _).nullable (ih rfl hn)
  | empty | atEnd | star_nil | star_cons | not => exact fun _ => rfl
  | _ => cases ho

/-- What does not match the empty text consumes a character. -/
theorem length_lt_of_derives (hv : ∀ r, v.Holds g r) (hx : v.mayBeEmpty x = false)
    {ts : List (ParseTree ρ)} (h : Derives g q x c (some (ts, d))) :
    d.rest.length < c.rest.length := by
  apply Nat.lt_of_not_le
  intro hn
  have he := mayBeEmpty_of_derives hv h hn
  rw [hx] at he
  cases he

theorem advances (hv : ∀ r, v.Holds g r) (hx : v.mayBeEmpty x = false) : x.Advances g := by
  intro q c ts d h
  obtain ⟨cs, hs⟩ := h.spans
  exact hs.index_lt (length_lt_of_derives hv hx h)

theorem guards_of_mem_parts (h : v.guards g.reach y = true) (hx : x ∈ y.parts) :
    v.guards g.reach x = true := by
  have hself : ∀ z : Expr ρ, v.guards g.reach z = true → x ∈ [z] → v.guards g.reach x = true := by
    intro z hz hm
    rwa [List.mem_singleton.1 hm]
  induction y with
  | empty | lit | char | atEnd | call => exact hself _ h hx
  | seq y z ihy ihz =>
    rw [Expr.parts, List.mem_cons, List.mem_append] at hx
    rcases hx with rfl | hx | hx
    · exact h
    · exact ihy (guards_seq h).1 hx
    · exact ihz (guards_seq h).2 hx
  | alt y z ihy ihz =>
    rw [Expr.parts, List.mem_cons, List.mem_append] at hx
    rcases hx with rfl | hx | hx
    · exact h
    · exact ihy (guards_alt h).1 hx
    · exact ihz (guards_alt h).2 hx
  | star y ih =>
    rw [Expr.parts, List.mem_cons] at hx
    rcases hx with rfl | hx
    · exact h
    · exact ih (guards_star h).2 hx
  | not y ih =>
    rw [Expr.parts, List.mem_cons] at hx
    rcases hx with rfl | hx
    · exact h
    · exact ih (guards_not h) hx

/-- A bound on how deep a trial can go: every character ahead counts for the whole reach. -/
def load (v : Survey ρ) (g : Grammar ρ) (t : Trial ρ) : Nat :=
  v.height t.expr + g.reach * t.cursor.rest.length

theorem load_mk : v.load g ⟨q, x, c⟩ = v.height x + g.reach * c.rest.length := rfl

theorem load_le (hx : v.guards g.reach x = true) : v.load g ⟨q, x, c⟩ ≤ g.depth c.rest.length := by
  have hh := height_le hx
  rw [load_mk, Grammar.depth, Nat.mul_succ]
  omega

/-- Behind a match that has consumed something, or else has gone less deep, there is less to do. -/
theorem load_behind {n : Nat} (hs : ∃ cs, c.Spans d cs) (hy : v.guards g.reach y = true)
    (hc : c.rest.length ≤ d.rest.length → v.height y < n) (hn : 0 < n) :
    v.load g ⟨q, y, d⟩ < n + g.reach * c.rest.length := by
  obtain ⟨cs, hs⟩ := hs
  have hl := congrArg List.length hs.rest
  rw [List.length_append] at hl
  rw [load_mk]
  by_cases hle : c.rest.length ≤ d.rest.length
  · have he : d.rest.length = c.rest.length := by omega
    have hlt := hc hle
    rw [he]
    omega
  · have hm : g.reach * (d.rest.length + 1) ≤ g.reach * c.rest.length :=
      Nat.mul_le_mul_left _ (by omega)
    have hh := height_le hy
    rw [Nat.mul_succ] at hm
    omega

end Survey

namespace Enters

variable {ρ : Type} {v : Survey ρ} {g : Grammar ρ} {t u : Trial ρ}

theorem guards (hv : ∀ r, v.Holds g r) (h : Enters g t u) (ht : v.guards g.reach t.expr = true) :
    v.guards g.reach u.expr = true := by
  cases h with
  | seq_first => exact (Survey.guards_seq ht).1
  | seq_second _ => exact (Survey.guards_seq ht).2
  | alt_first => exact (Survey.guards_alt ht).1
  | alt_second _ => exact (Survey.guards_alt ht).2
  | star_body => exact (Survey.guards_star ht).2
  | star_again _ => exact ht
  | not => exact Survey.guards_not ht
  | call => exact (hv _).guards

/-- What is tried weighs less than that for which it is tried. -/
theorem load_lt (hv : ∀ r, v.Holds g r) (h : Enters g t u)
    (ht : v.guards g.reach t.expr = true) : v.load g u < v.load g t := by
  cases h with
  | seq_first =>
    rw [Survey.load_mk, Survey.load_mk, Survey.height]
    omega
  | @seq_second q x y c ts d hx =>
    refine Survey.load_behind hx.spans (Survey.guards_seq ht).2 ?_ Survey.height_pos
    intro hn
    rw [Survey.height, if_pos (Survey.mayBeEmpty_of_derives hv hx hn)]
    omega
  | alt_first | alt_second _ =>
    rw [Survey.load_mk, Survey.load_mk, Survey.height]
    omega
  | star_body | not =>
    rw [Survey.load_mk, Survey.load_mk, Survey.height]
    omega
  | @star_again q x c ts d hx =>
    refine Survey.load_behind hx.spans ht ?_ Survey.height_pos
    intro hn
    have hlt := Survey.length_lt_of_derives hv (Survey.guards_star ht).1 hx
    exact absurd hlt (Nat.not_lt_of_le hn)
  | @call q r c =>
    have hh := (hv r).rank
    rw [Survey.load_mk, Survey.load_mk, Survey.height]
    omega

theorem spans (h : Enters g t u) : ∃ cs, t.cursor.Spans u.cursor cs := by
  cases h with
  | seq_second hx | star_again hx => exact hx.spans
  | seq_first | alt_first | alt_second _ | star_body | not | call => exact ⟨[], .refl _⟩

theorem accessible (hv : ∀ r, v.Holds g r) (ht : v.guards g.reach t.expr = true) :
    Acc (fun u t => Enters g t u) t := by
  generalize hn : v.load g t = n
  induction n using Nat.strongRecOn generalizing t with
  | ind n ih =>
    apply Acc.intro
    intro u hu
    exact ih _ (hn ▸ hu.load_lt hv ht) (hu.guards hv ht) rfl

/-- Along trials the load goes down and the cursor onwards. -/
theorem descends (hv : ∀ r, v.Holds g r) (h : Relation.TransGen (Enters g) t u)
    (ht : v.guards g.reach t.expr = true) :
    v.guards g.reach u.expr = true ∧ v.load g u < v.load g t ∧
      ∃ cs, t.cursor.Spans u.cursor cs := by
  induction h with
  | single h => exact ⟨h.guards hv ht, h.load_lt hv ht, h.spans⟩
  | tail _ h ih =>
    obtain ⟨hg, hl, cs, hs⟩ := ih
    obtain ⟨ds, hs'⟩ := h.spans
    exact ⟨h.guards hv hg, Nat.lt_trans (h.load_lt hv hg) hl, cs ++ ds, hs.trans hs'⟩

/-- An expression is tried again only behind a character that has been consumed in between. -/
theorem index_lt (hv : ∀ r, v.Holds g r) {q q' : Bool} {x : Expr ρ} {c d : Cursor}
    (h : Relation.TransGen (Enters g) ⟨q, x, c⟩ ⟨q', x, d⟩) (hx : v.guards g.reach x = true) :
    c.position.index < d.position.index := by
  obtain ⟨-, hl, cs, hs⟩ := descends hv h hx
  rw [Survey.load_mk, Survey.load_mk] at hl
  have hlt : d.rest.length < c.rest.length :=
    Nat.lt_of_mul_lt_mul_left (Nat.lt_of_add_lt_add_left hl)
  exact hs.index_lt hlt

end Enters

namespace Result

variable {ρ : Type} {r : Result ρ}

theorem ofCursor_ne_tooDeep {a : Attempts ρ} {d : Option Cursor} : ofCursor a d ≠ tooDeep := by
  intro ht
  cases d <;> cases ht

theorem andThen_ne_tooDeep {next : Cursor → Attempts ρ → Result ρ} (hr : r ≠ tooDeep)
    (hn : ∀ ts d a, r = ok ts d a → next d a ≠ tooDeep) : r.andThen next ≠ tooDeep := by
  cases r with
  | ok ts d a =>
    have h := hn ts d a rfl
    rw [andThen]
    cases hd : next d a with
    | ok us e b =>
      intro ht
      cases ht
    | fail b =>
      intro ht
      cases ht
    | tooDeep => exact absurd hd h
  | fail a =>
    intro ht
    cases ht
  | tooDeep => exact absurd rfl hr

theorem orElse_ne_tooDeep {other : Attempts ρ → Result ρ} (hr : r ≠ tooDeep)
    (ho : ∀ a, r = fail a → other a ≠ tooDeep) : r.orElse other ≠ tooDeep := by
  cases r with
  | ok ts d a =>
    intro ht
    cases ht
  | fail a => exact ho a rfl
  | tooDeep => exact absurd rfl hr

theorem negate_ne_tooDeep {c : Cursor} (hr : r ≠ tooDeep) : r.negate c ≠ tooDeep := by
  cases r with
  | tooDeep => exact absurd rfl hr
  | _ =>
    intro ht
    cases ht

theorem close_ne_tooDeep {rule : ρ} {c : Cursor} {n : Nat} (hr : r ≠ tooDeep) :
    r.close rule c n ≠ tooDeep := by
  cases r with
  | tooDeep => exact absurd rfl hr
  | _ =>
    intro ht
    cases ht

end Result

namespace Grammar

variable {ρ : Type} {v : Survey ρ} {g : Grammar ρ}

/-- A run comes to an end if those do that it makes of what it tries. -/
theorem run_succ_ne_tooDeep {depth : Nat} {q : Bool} {x : Expr ρ} {c : Cursor} {a : Attempts ρ}
    (h : ∀ t : Trial ρ, Enters g ⟨q, x, c⟩ t →
      ∀ b, g.run depth t.quiet t.expr t.cursor b ≠ .tooDeep) :
    g.run (depth + 1) q x c a ≠ .tooDeep := by
  have derives {y : Expr ρ} {r : Result ρ} {o : Outcome ρ} (hr : g.run depth q y c a = r)
      (ho : r.outcome? = some o) : Derives g q y c o := by
    apply Derives.of_run
    rw [hr, ho]
  cases x with
  | empty =>
    rw [run]
    intro ht
    cases ht
  | lit s | char k =>
    rw [run]
    exact Result.ofCursor_ne_tooDeep
  | atEnd =>
    rw [run]
    split
    all_goals
      intro ht
      cases ht
  | seq x y =>
    rw [run]
    apply Result.andThen_ne_tooDeep (h _ .seq_first a)
    intro ts d b hr
    exact h _ (.seq_second (derives hr rfl)) b
  | alt x y =>
    rw [run]
    apply Result.orElse_ne_tooDeep (h _ .alt_first a)
    intro b hr
    exact h _ (.alt_second (derives hr rfl)) b
  | star x =>
    rw [run]
    refine Result.orElse_ne_tooDeep ?_ fun b _ ht => by cases ht
    apply Result.andThen_ne_tooDeep (h _ .star_body a)
    intro ts d b hr
    exact h _ (.star_again (derives hr rfl)) b
  | not x =>
    rw [run]
    exact Result.negate_ne_tooDeep (h _ .not a)
  | call r =>
    have hbody := h _ .call
    rw [run]
    split
    · rename_i hq
      rw [hq, Bool.true_or] at hbody
      exact hbody a
    · rename_i hq
      rw [(Bool.not_eq_true q).mp hq, Bool.false_or] at hbody
      split
      · rename_i hv
        rw [hv] at hbody
        exact hbody a
      · exact Result.close_ne_tooDeep (hbody a)

/-- A run that may go as deep as the survey says comes to an end. -/
theorem run_ne_tooDeep (hv : ∀ r, v.Holds g r) {depth : Nat} {q : Bool} {x : Expr ρ} {c : Cursor}
    {a : Attempts ρ} (hx : v.guards g.reach x = true) (hd : v.load g ⟨q, x, c⟩ ≤ depth) :
    g.run depth q x c a ≠ .tooDeep := by
  induction depth generalizing q x c a with
  | zero =>
    have hp : 0 < v.height x := Survey.height_pos
    rw [Survey.load_mk] at hd
    omega
  | succ depth ih =>
    apply run_succ_ne_tooDeep
    intro t ht b
    have hlt := ht.load_lt hv hx
    exact ih (ht.guards hv hx) (Nat.le_of_lt_succ (Nat.lt_of_lt_of_le hlt hd))

theorem exists_outcome_of_le (hv : ∀ r, v.Holds g r) {depth : Nat} {q : Bool} {x : Expr ρ}
    {c : Cursor} (hx : v.guards g.reach x = true) (hd : g.depth c.rest.length ≤ depth)
    (a : Attempts ρ) : ∃ o, (g.run depth q x c a).outcome? = some o ∧ Derives g q x c o := by
  have hn : g.run depth q x c a ≠ .tooDeep :=
    run_ne_tooDeep hv hx (Nat.le_trans (Survey.load_le hx) hd)
  cases ho : (g.run depth q x c a).outcome? with
  | some o => exact ⟨o, rfl, .of_run ho⟩
  | none =>
    cases hr : g.run depth q x c a with
    | tooDeep => exact absurd hr hn
    | _ =>
      rw [hr] at ho
      cases ho

/-- The depth that grows with the text is deep enough. -/
theorem exists_outcome (hv : ∀ r, v.Holds g r) (q : Bool) {x : Expr ρ}
    (hx : v.guards g.reach x = true)
    (c : Cursor) (a : Attempts ρ) :
    ∃ o, (g.run (g.depth c.rest.length) q x c a).outcome? = some o ∧ Derives g q x c o :=
  exists_outcome_of_le hv hx (Nat.le_refl _) a

theorem parse_eq_ok_iff (hv : ∀ r, v.Holds g r) {r : ρ} (hr : v.guards g.reach (.call r) = true)
    {source : List Char} {ts : List (ParseTree ρ)} {d : Cursor} :
    g.parse r source = .ok (ts, d) ↔
      Derives g false (.call r) (.ofText source) (some (ts, d)) := by
  obtain ⟨o, ho, h⟩ := exists_outcome hv false hr (.ofText source) .none
  have hd : g.depth (Cursor.ofText source).rest.length = g.depth source.length := rfl
  rw [hd] at ho
  unfold parse
  constructor
  · intro hp
    cases hr : g.run (g.depth source.length) false (.call r) (.ofText source) .none with
    | ok us e a =>
      rw [hr] at ho hp
      cases ho
      cases hp
      exact h
    | fail a =>
      rw [hr] at hp
      cases hp
    | tooDeep =>
      rw [hr] at hp
      cases hp
  · intro hm
    rw [h.det hm] at ho
    cases hr : g.run (g.depth source.length) false (.call r) (.ofText source) .none with
    | ok us e a =>
      rw [hr] at ho
      cases ho
      rfl
    | fail a =>
      rw [hr] at ho
      cases ho
    | tooDeep =>
      rw [hr] at ho
      cases ho

end Grammar

end TreeMetrics
