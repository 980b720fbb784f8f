import TreeMetrics.Proofs.Grammar.Sequence

namespace TreeMetrics

namespace Cursor

variable {source cs : List Char} {c d : Cursor}

/-- The cursor stands somewhere in the text. -/
def On (source : List Char) (c : Cursor) : Prop := ∃ cs, (ofText source).Spans c cs

theorem on_ofText (source : List Char) : (ofText source).On source := ⟨[], .refl _⟩

theorem On.step (h : c.On source) (hs : c.Spans d cs) : d.On source := by
  obtain ⟨ds, hd⟩ := h
  exact ⟨_, hd.trans hs⟩

/-- Of two cursors in a text, one is reached from the other. -/
theorem On.spans_of_index_le (hc : c.On source) (hd : d.On source)
    (hi : c.position.index ≤ d.position.index) : ∃ cs, c.Spans d cs := by
  obtain ⟨cs, hcs⟩ := hc
  obtain ⟨ds, hds⟩ := hd
  have hlength : cs.length ≤ ds.length := by
    rw [hcs.position, hds.position, Position.after_index, Position.after_index] at hi
    omega
  have htext : cs ++ c.rest = ds ++ d.rest := hcs.rest.symm.trans hds.rest
  obtain ⟨es, rfl⟩ : cs <+: ds :=
    List.prefix_of_prefix_length_le ⟨c.rest, htext⟩ (List.prefix_append ds d.rest) hlength
  refine ⟨es, ?_, ?_⟩
  · rw [List.append_assoc] at htext
    exact List.append_cancel_left htext
  · rw [hds.position, hcs.position, Position.after_append]

/-- A text has one cursor for every number of characters. -/
theorem On.eq_of_index (hc : c.On source) (hd : d.On source)
    (hi : c.position.index = d.position.index) : c = d := by
  obtain ⟨cs, hcs⟩ := hc.spans_of_index_le hd (Nat.le_of_eq hi)
  have hnil : cs = [] := by
    rw [hcs.position, Position.after_index] at hi
    exact List.eq_nil_of_length_eq_zero (by omega)
  rw [hnil] at hcs
  obtain ⟨p, rest⟩ := c
  obtain ⟨q, rest'⟩ := d
  cases hcs.rest
  cases hcs.position
  rfl

end Cursor

variable {ρ : Type} {g : Grammar ρ} {source : List Char} {q : Bool} {x y : Expr ρ} {r : ρ}
variable {xs : List (Expr ρ)}
variable {c d : Cursor} {ts : List (ParseTree ρ)} {depth n : Nat} {a b : Attempts ρ}

namespace Attempts

/-- The rules of the record are refused where its position is in the text, and there are some unless
nothing has failed yet. -/
structure Sound (g : Grammar ρ) (source : List Char) (a : Attempts ρ) : Prop where
  refused : ∃ c : Cursor, c.On source ∧ c.position = a.position ∧
    ∀ r ∈ a.rules, Derives g false (.call r) c .none
  unless_none : a.rules = [] → a.position = Position.start

/-- The second record is sound and not further to the left. -/
structure LeadsTo (g : Grammar ρ) (source : List Char) (a b : Attempts ρ) : Prop where
  sound : b.Sound g source
  le : a.position.index ≤ b.position.index

theorem sound_none : (none : Attempts ρ).Sound g source where
  refused := ⟨.ofText source, Cursor.on_ofText source, rfl, fun _ hr => absurd hr List.not_mem_nil⟩
  unless_none _ := rfl

theorem Sound.refl (h : a.Sound g source) : a.LeadsTo g source a := ⟨h, Nat.le_refl _⟩

theorem LeadsTo.trans {a' : Attempts ρ} (h : a.LeadsTo g source b) (h' : b.LeadsTo g source a') :
    a.LeadsTo g source a' :=
  ⟨h'.sound, Nat.le_trans h.le h'.le⟩

/-- What can become of a record when a rule fails: it stays, being further to the right or holding
one failure more at the place of the rule, or the rule is entered there. -/
theorem record_cases (a : Attempts ρ) (r : ρ) (p : Position) (n : Nat) :
    (a.record r p n = a ∧ a.position = p ∧ a.rules ≠ []) ∨
      (a.position = p ∧ a.record r p n = ⟨p, a.rules.take n ++ [r]⟩) ∨
      (a.position.index < p.index ∧ a.record r p n = ⟨p, [r]⟩) ∨
      (a.position ≠ p ∧ p.index ≤ a.position.index ∧ a.record r p n = a) := by
  unfold record
  split
  · rename_i hcount
    unfold countAt at hcount
    split at hcount
    · rename_i hp
      refine .inl ⟨rfl, hp, ?_⟩
      intro hnil
      rw [hnil] at hcount
      cases hcount
    · cases hcount
  · split
    · rename_i hp
      exact .inr (.inl ⟨hp, rfl⟩)
    · rename_i hp
      split
      · rename_i hlt
        exact .inr (.inr (.inl ⟨hlt, rfl⟩))
      · rename_i hle
        exact .inr (.inr (.inr ⟨hp, Nat.le_of_not_lt hle, rfl⟩))

/-- The failure of a rule keeps the record sound. -/
theorem Sound.record (ha : a.Sound g source) (hc : c.On source)
    (hr : Derives g false (.call r) c .none) (n : Nat) :
    a.LeadsTo g source (a.record r c.position n) := by
  rcases a.record_cases r c.position n with ⟨he, -, -⟩ | ⟨hp, he⟩ | ⟨hlt, he⟩ | ⟨-, -, he⟩
  · rw [he]
    exact ha.refl
  · rw [he]
    obtain ⟨c', hc', hp', hrules⟩ := ha.refused
    cases hc'.eq_of_index hc (by rw [hp', hp])
    refine ⟨⟨⟨c, hc, rfl, ?_⟩, ?_⟩, ?_⟩
    · intro r' hr'
      rcases List.mem_append.1 hr' with hr' | hr'
      · exact hrules r' (List.mem_of_mem_take hr')
      · cases List.mem_singleton.1 hr'
        exact hr
    · intro hnil
      cases (List.append_eq_nil_iff.1 hnil).2
    · exact Nat.le_of_eq (congrArg Position.index hp)
  · rw [he]
    refine ⟨⟨⟨c, hc, rfl, List.forall_mem_singleton.2 hr⟩, nofun⟩, Nat.le_of_lt hlt⟩
  · rw [he]
    exact ha.refl

/-- Behind the failure of a rule there is something in the record, no further to the left. -/
theorem Sound.reached (ha : a.Sound g source) (hc : c.On source) (r : ρ) (n : Nat) :
    c.position.index ≤ (a.record r c.position n).position.index ∧
      (a.record r c.position n).rules ≠ [] := by
  rcases a.record_cases r c.position n with ⟨he, hp, hne⟩ | ⟨-, he⟩ | ⟨-, he⟩ | ⟨hp, hle, he⟩
  · rw [he, hp]
    exact ⟨Nat.le_refl _, hne⟩
  · rw [he]
    exact ⟨Nat.le_refl _, List.append_ne_nil_of_right_ne_nil _ (List.cons_ne_nil r [])⟩
  · rw [he]
    exact ⟨Nat.le_refl _, List.cons_ne_nil r []⟩
  · rw [he]
    refine ⟨hle, ?_⟩
    intro hnil
    -- An empty record stands at the start, where no cursor but the first one can be.
    have hstart := ha.unless_none hnil
    have hindex : c.position.index = 0 := by
      rw [hstart] at hle
      exact Nat.le_zero.1 hle
    cases hc.eq_of_index (Cursor.on_ofText source) hindex
    exact hp hstart

end Attempts

namespace Result

variable {s : Result ρ} {P Q : Attempts ρ → Prop}

/-- The record that the run leaves, with or without a match, has the property. -/
def Leaves (P : Attempts ρ → Prop) : Result ρ → Prop
  | ok _ _ a => P a
  | fail a => P a
  | tooDeep => True

theorem leaves_ofCursor (h : P a) (d : Option Cursor) : (ofCursor a d).Leaves P := by
  cases d with
  | none => exact h
  | some d => exact h

theorem Leaves.mono (hs : s.Leaves P) (h : ∀ b, P b → Q b) : s.Leaves Q := by
  cases s with
  | ok ts d b => exact h b hs
  | fail b => exact h b hs
  | tooDeep => trivial

theorem Leaves.andThen {next : Cursor → Attempts ρ → Result ρ} (hs : s.Leaves P)
    (hn : ∀ ts d b, s = ok ts d b → (next d b).Leaves P) : (s.andThen next).Leaves P := by
  cases s with
  | ok ts d b =>
    have h := hn ts d b rfl
    rw [Result.andThen]
    cases hd : next d b with
    | ok us e b' =>
      rw [hd] at h
      exact h
    | fail b' =>
      rw [hd] at h
      exact h
    | tooDeep => trivial
  | fail b => exact hs
  | tooDeep => trivial

theorem Leaves.orElse {other : Attempts ρ → Result ρ} (hs : s.Leaves P)
    (ho : ∀ b, s = fail b → (other b).Leaves P) : (s.orElse other).Leaves P := by
  cases s with
  | ok ts d b => exact hs
  | fail b => exact ho b rfl
  | tooDeep => trivial

theorem Leaves.negate (hs : s.Leaves P) : (s.negate c).Leaves P := by
  cases s with
  | ok ts d b => exact hs
  | fail b => exact hs
  | tooDeep => trivial

theorem Leaves.close (hs : s.Leaves P) (hf : ∀ b, s = fail b → P (b.record r c.position n)) :
    (s.close r c n).Leaves P := by
  cases s with
  | ok ts d b => exact hs
  | fail b => exact hf b rfl
  | tooDeep => trivial

end Result

namespace Grammar

/-- A run leaves a sound record that is not further to the left. -/
theorem run_leadsTo (hc : c.On source) (ha : a.Sound g source) :
    (g.run depth q x c a).Leaves (a.LeadsTo g source) := by
  induction depth generalizing q x c a with
  | zero =>
    rw [run]
    trivial
  | succ depth ih =>
    have derives {q' : Bool} {z : Expr ρ} {s : Result ρ} {o : Outcome ρ}
        (hs : g.run depth q' z c a = s) (ho : s.outcome? = some o) : Derives g q' z c o := by
      apply Derives.of_run
      rw [hs, ho]
    -- What comes behind a part of the run starts from the record that the part has left.
    have behind {q' q'' : Bool} {z z' : Expr ρ} {d : Cursor} {b : Attempts ρ} {s : Result ρ}
        (hs : g.run depth q' z c a = s) (hb : s.Leaves (a.LeadsTo g source) → a.LeadsTo g source b)
        (hd : d.On source) : (g.run depth q'' z' d b).Leaves (a.LeadsTo g source) := by
      have hb := hb (hs ▸ ih hc ha)
      exact (ih hd hb.sound).mono fun b' hb' => hb.trans hb'
    cases x with
    | empty =>
      rw [run]
      exact ha.refl
    | lit s | char k =>
      rw [run]
      exact Result.leaves_ofCursor ha.refl _
    | atEnd =>
      rw [run]
      split
      · exact ha.refl
      · exact ha.refl
    | seq x y =>
      rw [run]
      apply (ih hc ha).andThen
      intro ts d b hs
      obtain ⟨cs, hspans⟩ := (derives hs rfl).spans
      exact behind hs id (hc.step hspans)
    | alt x y =>
      rw [run]
      apply (ih hc ha).orElse
      intro b hs
      exact behind hs id hc
    | star x =>
      rw [run]
      have hrounds : ((g.run depth q x c a).andThen fun d b => g.run depth q (.star x) d b).Leaves
          (a.LeadsTo g source) := by
        apply (ih hc ha).andThen
        intro ts d b hs
        obtain ⟨cs, hspans⟩ := (derives hs rfl).spans
        exact behind hs id (hc.step hspans)
      apply hrounds.orElse
      intro b hs
      rw [hs] at hrounds
      exact hrounds
    | not x =>
      rw [run]
      exact (ih hc ha).negate
    | call r =>
      rw [run]
      cases q with
      | true => exact ih hc ha
      | false =>
        simp only [Bool.false_eq_true, if_false]
        split
        · exact ih hc ha
        · rename_i hv
          have hbody := ih (q := decide ((g.production r).visibility = .atomic))
            (x := (g.production r).body) hc ha
          apply hbody.close
          intro b hs
          rw [hs] at hbody
          have hfails := Derives.call_none hv (derives hs rfl)
          exact hbody.trans (hbody.sound.record hc hfails _)

/-- Where the first part matches, a sequence fails because its second part does. -/
theorem run_seq_fail (hc : c.On source) (ha : a.Sound g source)
    (hx : Derives g q x c (some (ts, d))) (h : g.run depth q (.seq x y) c a = .fail b) :
    ∃ depth' a', a'.Sound g source ∧ g.run depth' q y d a' = .fail b := by
  cases depth with
  | zero =>
    rw [run] at h
    cases h
  | succ depth =>
    rw [run] at h
    have hsound : (g.run depth q x c a).Leaves (a.LeadsTo g source) := run_leadsTo hc ha
    cases hs : g.run depth q x c a with
    | ok us e a' =>
      have hm : Derives g q x c (some (us, e)) := by
        apply Derives.of_run
        rw [hs]
        rfl
      cases hm.det hx
      rw [hs] at h hsound
      refine ⟨depth, a', hsound.sound, ?_⟩
      rw [Result.andThen] at h
      cases hy : g.run depth q y d a' with
      | ok vs e b' =>
        rw [hy] at h
        cases h
      | fail b' =>
        rw [hy] at h
        exact h
      | tooDeep =>
        rw [hy] at h
        cases h
    | fail b' =>
      have hm : Derives g q x c none := by
        apply Derives.of_run
        rw [hs]
        rfl
      cases hm.det hx
    | tooDeep =>
      rw [hs] at h
      cases h

theorem run_endingIn_fail (hc : c.On source) (ha : a.Sound g source)
    (h : Derives g q (.endingIn xs .empty) c (some (ts, d)))
    (hrun : g.run depth q (.endingIn xs y) c a = .fail b) :
    ∃ depth' a', a'.Sound g source ∧ g.run depth' q y d a' = .fail b := by
  induction xs generalizing c ts depth a with
  | nil =>
    cases h
    exact ⟨depth, a, ha, hrun⟩
  | cons x xs ih =>
    obtain ⟨_, m, _, hx, hxs, -⟩ := h.inv_seq
    obtain ⟨cs, hspans⟩ := hx.spans
    obtain ⟨depth', a', ha', hrun'⟩ := run_seq_fail hc ha hx hrun
    exact ih (hc.step hspans) ha' hxs hrun'

/-- A rule fails because its body does, and the record tells of it. -/
theorem run_call_fail (hc : c.On source) (ha : a.Sound g source)
    (hv : (g.production r).visibility ≠ .silent) (h : g.run depth false (.call r) c a = .fail b) :
    ∃ depth' a' n, a'.Sound g source ∧ b = a'.record r c.position n ∧
      g.run depth' ((g.production r).visibility = .atomic) (g.production r).body c a =
        .fail a' := by
  cases depth with
  | zero =>
    rw [run] at h
    cases h
  | succ depth =>
    rw [run] at h
    simp only [Bool.false_eq_true, if_false, if_neg hv] at h
    have hsound : (g.run depth ((g.production r).visibility = .atomic) (g.production r).body c
        a).Leaves (a.LeadsTo g source) := run_leadsTo hc ha
    cases hs : g.run depth ((g.production r).visibility = .atomic) (g.production r).body c a with
    | ok us e a' =>
      rw [hs] at h
      cases h
    | fail a' =>
      rw [hs] at h hsound
      cases h
      exact ⟨depth, a', _, hsound.sound, rfl, hs⟩
    | tooDeep =>
      rw [hs] at h
      cases h

/-- What is reported of a text is the record of a run that has failed. -/
theorem run_of_parse_error {v : Survey ρ} (hv : ∀ r, v.Holds g r)
    (hr : v.guards g.reach (.call r) = true) (h : g.parse r source = .error a) :
    g.run (g.depth source.length) false (.call r) (.ofText source) .none = .fail a := by
  have hdeep : g.run (g.depth source.length) false (.call r) (.ofText source) .none ≠ .tooDeep :=
    run_ne_tooDeep hv hr (Survey.load_le hr)
  unfold parse at h
  cases hs : g.run (g.depth source.length) false (.call r) (.ofText source) .none with
  | ok ts d b =>
    rw [hs] at h
    cases h
  | fail b =>
    rw [hs] at h
    cases h
    rfl
  | tooDeep => exact absurd hs hdeep

end Grammar

end TreeMetrics
