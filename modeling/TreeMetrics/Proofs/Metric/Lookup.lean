import TreeMetrics.Metric.Provider
import TreeMetrics.Proofs.Metric.Isolation

namespace TreeMetrics

section Places

variable {β : Type} {l : List β} {q : β → Bool} {b : β}

/-- There is an element with a property at place `i`. -/
def HoldsAt (l : List β) (q : β → Bool) (i : Nat) : Prop := ∃ b, l[i]? = some b ∧ q b = true

theorem HoldsAt.exists_mem_filter {i : Nat} (h : HoldsAt l q i) : ∃ b, b ∈ l.filter q := by
  obtain ⟨b, hb, hq⟩ := h
  exact ⟨b, List.mem_filter.2 ⟨List.mem_of_getElem? hb, hq⟩⟩

theorem filter_eq_nil_iff_holdsAt : l.filter q = [] ↔ ∀ i, ¬HoldsAt l q i := by
  constructor
  · intro h i hi
    obtain ⟨b, hb⟩ := hi.exists_mem_filter
    rw [h] at hb
    cases hb
  · intro h
    rw [List.filter_eq_nil_iff]
    intro b hb hq
    obtain ⟨i, hi⟩ := List.mem_iff_getElem?.1 hb
    exact h i ⟨b, hi, hq⟩

theorem holdsAt_append (l₁ l₂ : List β) (i : Nat) :
    HoldsAt (l₁ ++ l₂) q i ↔ HoldsAt l₁ q i ∨ l₁.length ≤ i ∧ HoldsAt l₂ q (i - l₁.length) := by
  unfold HoldsAt
  rcases Nat.lt_or_ge i l₁.length with hi | hi
  · rw [List.getElem?_append_left hi]
    simp only [Nat.not_le.2 hi, false_and, or_false]
  · rw [List.getElem?_append_right hi, List.getElem?_eq_none hi]
    simp only [hi, true_and, reduceCtorEq, false_and, exists_false, false_or]

theorem holdsAt_cons (b : β) (l : List β) (i : Nat) :
    HoldsAt (b :: l) q i ↔ i = 0 ∧ q b = true ∨ 0 < i ∧ HoldsAt l q (i - 1) := by
  unfold HoldsAt
  cases i with
  | zero => simp
  | succ i => simp

/-- One element passes a filter if there is one place for it. -/
theorem filter_eq_singleton_iff :
    l.filter q = [b] ↔ ∃ i, l[i]? = some b ∧ ∀ j, HoldsAt l q j ↔ j = i := by
  constructor
  · intro h
    obtain ⟨l₁, l₂, rfl, hl₁, hb, hl₂⟩ := List.filter_eq_cons_iff.1 h
    have hnone₁ := filter_eq_nil_iff_holdsAt.1 (List.filter_eq_nil_iff.2 hl₁)
    have hnone₂ := filter_eq_nil_iff_holdsAt.1 hl₂
    refine ⟨l₁.length, by simp, fun j => ?_⟩
    rw [holdsAt_append, holdsAt_cons]
    simp only [hnone₁ j, hnone₂, hb, and_true, and_false, or_false, false_or]
    omega
  · rintro ⟨i, hi, hplace⟩
    obtain ⟨hlt, hget⟩ := List.getElem?_eq_some_iff.1 hi
    have hsplit : l = l.take i ++ b :: l.drop (i + 1) := by
      rw [← hget, ← List.drop_eq_getElem_cons hlt, List.take_append_drop]
    have hlength : (l.take i).length = i := List.length_take_of_le (Nat.le_of_lt hlt)
    rw [hsplit] at hplace
    simp only [holdsAt_append, holdsAt_cons, hlength] at hplace
    have hb : q b = true := by
      rcases (hplace i).2 rfl with h | ⟨-, ⟨-, hb⟩ | ⟨hpos, -⟩⟩
      · obtain ⟨c, hc, -⟩ := h
        rw [List.getElem?_eq_none (Nat.le_of_eq hlength)] at hc
        cases hc
      · exact hb
      · omega
    have hbefore : (l.take i).filter q = [] := by
      rw [filter_eq_nil_iff_holdsAt]
      rintro j ⟨c, hc, hq⟩
      have hlt := (List.getElem?_eq_some_iff.1 hc).1
      have hji := (hplace j).1 (.inl ⟨c, hc, hq⟩)
      omega
    have hbehind : (l.drop (i + 1)).filter q = [] := by
      rw [filter_eq_nil_iff_holdsAt]
      intro j hj
      have hplaceBehind : i + 1 + j - i - 1 = j := by omega
      have hji := (hplace (i + 1 + j)).1
        (.inr ⟨by omega, .inr ⟨by omega, by rwa [hplaceBehind]⟩⟩)
      omega
    rw [hsplit, List.filter_append, List.filter_cons_of_pos hb, hbefore, hbehind]
    rfl

/-- Several elements pass a filter if there are two places for them. -/
theorem two_le_length_filter_iff :
    2 ≤ (l.filter q).length ↔ ∃ i j, i ≠ j ∧ HoldsAt l q i ∧ HoldsAt l q j := by
  constructor
  · intro h
    match hf : l.filter q with
    | [] =>
      rw [hf] at h
      cases h
    | [_] =>
      rw [hf] at h
      cases Nat.le_of_succ_le_succ h
    | b :: c :: bs =>
      obtain ⟨l₁, l₂, rfl, -, hb, hl₂⟩ := List.filter_eq_cons_iff.1 hf
      obtain ⟨l₃, l₄, rfl, -, hc, -⟩ := List.filter_eq_cons_iff.1 hl₂
      refine ⟨l₁.length, l₁.length + (l₃.length + 1), by omega, ⟨b, by simp, hb⟩, c, ?_, hc⟩
      rw [List.getElem?_append_right (Nat.le_add_right ..), Nat.add_sub_cancel_left]
      simp
  · rintro ⟨i, j, hij, hi, hj⟩
    match hf : l.filter q with
    | [] => exact absurd hi (filter_eq_nil_iff_holdsAt.1 hf i)
    | [b] =>
      obtain ⟨k, -, hk⟩ := filter_eq_singleton_iff.1 hf
      exact absurd (((hk i).1 hi).trans ((hk j).1 hj).symm) hij
    | b :: c :: bs => exact Nat.le_add_left 2 bs.length

end Places

namespace Engine

variable {α σ : Type} {e : Engine α σ} {c : Computer α} {plan : Nat → Task → Plan}

/-- The stores that come about while values are kept: computers on which the calculators are pure
get requests, instances are handed out and pools are cleared, in any order. -/
inductive Reached (e : Engine α σ) (plan : Nat → Task → Plan) : Store σ → Prop where
  | init (pools nodes : Nat) (state : σ) : Reached e plan (.init pools nodes state)
  | request {s : Store σ} {c : Computer α} (q : Request) :
    Reached e plan s → e.Pure c (plan c.pool) → Reached e plan (e.answer c q s).2
  | intern {s : Store σ} (p : Nat) (k : MetricKey) (o : OptionSet) :
    Reached e plan s → Reached e plan (s.intern p k o).2
  | clear {s : Store σ} (p : Nat) : Reached e plan s → Reached e plan (s.clear p)

theorem Pure.explains {plan : Task → Plan} (h : e.Pure c plan) :
    e.Explains c (Plan.valueWithin plan) where
  zero _ := rfl
  succ hp hy := ⟨_, h _ hp, hy⟩

/-- What is kept in such a store are the values of the plans. -/
theorem Reached.agrees {s : Store σ} (h : e.Reached plan s) :
    s.Agrees fun p => Plan.valueWithin (plan p) := by
  induction h with
  | init pools nodes state => exact .init pools nodes state
  | request q _ hpure ih =>
    exact (answerWithin_ensures (v := fun p => Plan.valueWithin (plan p)) hpure.explains e.depth q _
      ih).1
  | intern p k o _ ih => exact ih.intern k o
  | clear p _ ih => exact ih.clear p

/-- A request for a kept value is answered with the value of the plan. -/
theorem answer_kept_ensures (hpure : e.Pure c (plan c.pool)) {k : MetricKey} {n : NodeId}
    {o : OptionSet} {d : Nat} {y : Float} (hk : e.supports k n = true) (hd : d < e.depth)
    (hy : Plan.valueWithin (plan c.pool) d ⟨k, n, o⟩ = some y) :
    Ensures (Store.Agrees fun p => Plan.valueWithin (plan p)) (e.answer c (.kept k n o))
      (· = .ok y) := by
  apply (answerWithin_ensures (v := fun p => Plan.valueWithin (plan p)) hpure.explains e.depth
    (.kept k n o)).mono
  intro r hr
  apply hr.eq_ok hd
  rw [value_of_one, if_pos hk]
  exact hy

end Engine

theorem Ensures.mapM_ok {σ β γ : Type} {good : Store σ → Prop} {g : β → Run σ γ} {h : β → γ}
    {bs : List β} (hg : ∀ b ∈ bs, Ensures good (g b) (· = .ok (h b))) :
    Ensures good (bs.mapM g) (· = .ok (bs.map h)) := by
  induction bs with
  | nil =>
    rw [List.mapM_nil]
    exact Ensures.pure rfl
  | cons b bs ih =>
    obtain ⟨hb, hbs⟩ := List.forall_mem_cons.1 hg
    rw [List.mapM_cons]
    apply hb.bind
    · rintro _ ⟨rfl⟩
      apply (ih hbs).bind
      · rintro _ ⟨rfl⟩
        exact Ensures.pure rfl
      · exact nofun
    · exact nofun

namespace Provider

variable {α σ : Type} (p : Provider α) (e : Engine α σ) (n : NodeId) (name : String)

/-- At place `i` of the catalog there is a metric of the given name. -/
def NamedAt (i : Nat) : Prop := ∃ k, p.keys[i]? = some k ∧ k.name = name

/-- At place `i` of the catalog there is a metric of the given name that supports the node. -/
def EligibleAt (i : Nat) : Prop := ∃ k, p.keys[i]? = some k ∧ k.name = name ∧ e.supports k n = true

/-- The metrics of a name that support a node, in the order of the catalog. -/
def eligible : List MetricKey := p.keys.filter fun k => k.name == name && e.supports k n

variable {p e n name}

theorem holdsAt_named (i : Nat) :
    HoldsAt p.keys (fun k => k.name == name) i ↔ p.NamedAt name i := by
  simp only [HoldsAt, NamedAt, beq_iff_eq]

theorem holdsAt_eligible (i : Nat) :
    HoldsAt p.keys (fun k => k.name == name && e.supports k n) i ↔ p.EligibleAt e n name i := by
  simp only [HoldsAt, EligibleAt, Bool.and_eq_true, beq_iff_eq]

theorem eligible_eq_filter_named :
    p.eligible e n name = (p.keys.filter fun k => k.name == name).filter (e.supports · n) := by
  rw [eligible, List.filter_filter]
  exact congrArg p.keys.filter (funext fun k => Bool.and_comm ..)

theorem eligible_eq_filter_supported :
    p.eligible e n name = (p.keys.filter (e.supports · n)).filter fun k => k.name == name := by
  rw [eligible, List.filter_filter]

/-- The entries that a run over the catalog makes of the values of metrics. -/
def entries (p : Provider α) (e : Engine α σ) (n : NodeId) (value : MetricKey → Float) :
    List (MetricKey × Float) :=
  ((p.keys.filter (e.supports · n)).map fun k => (k, value k)).filter fun x => !x.2.isNaN

/-- Under a name that leads to one metric there is an entry of this metric, or none if its value is
undefined. -/
theorem filter_entries {k : MetricKey} (h : p.eligible e n name = [k])
    (value : MetricKey → Float) :
    (p.entries e n value).filter (fun x => x.1.name == name) =
      if (value k).isNaN then [] else [(k, value k)] := by
  have hswap : (p.entries e n value).filter (fun x => x.1.name == name) =
      (((p.keys.filter (e.supports · n)).map fun k => (k, value k)).filter
        fun x => x.1.name == name).filter fun x => !x.2.isNaN := by
    rw [entries, List.filter_filter, List.filter_filter]
    exact congrArg (List.filter · _) (funext fun x => Bool.and_comm ..)
  have hname : ((fun x : MetricKey × Float => x.1.name == name) ∘ fun k => (k, value k)) =
      fun k => k.name == name := rfl
  rw [hswap, List.filter_map, hname, ← eligible_eq_filter_supported, h]
  rw [List.map_singleton, List.filter_cons, List.filter_nil]
  dsimp only
  cases (value k).isNaN <;> rfl

/-- The metrics of the catalog have values on the node, which come about before more calculators
wait for each other than the engine lets. -/
def Settles (p : Provider α) (e : Engine α σ) (n : NodeId) (plan : Task → Plan)
    (value : MetricKey → Float) : Prop :=
  ∀ k ∈ p.keys, e.supports k n = true →
    ∃ d < e.depth, Plan.valueWithin plan d ⟨k, n, .empty⟩ = some (value k)

theorem exists_settles {plan : Task → Plan}
    (h : ∀ k ∈ p.keys, e.supports k n = true →
      ∃ d < e.depth, ∃ x, Plan.valueWithin plan d ⟨k, n, .empty⟩ = some x) :
    ∃ value, p.Settles e n plan value := by
  have hchoice (k : MetricKey) : ∃ x, k ∈ p.keys → e.supports k n = true →
      ∃ d < e.depth, Plan.valueWithin plan d ⟨k, n, .empty⟩ = some x := by
    by_cases hk : k ∈ p.keys ∧ e.supports k n = true
    · obtain ⟨d, hd, x, hx⟩ := h k hk.1 hk.2
      exact ⟨x, fun _ _ => ⟨d, hd, hx⟩⟩
    · exact ⟨Number.undefined, fun hkeys hsupports => absurd ⟨hkeys, hsupports⟩ hk⟩
  exact ⟨fun k => (hchoice k).choose, fun k => (hchoice k).choose_spec⟩

/-- A run over the catalog has the values of the plans, without those that are undefined. -/
theorem evaluateAll_ensures {plan : Nat → Task → Plan} {value : MetricKey → Float}
    (hpure : e.Pure p.computer (plan p.computer.pool))
    (hvalue : p.Settles e n (plan p.computer.pool) value) :
    Ensures (Store.Agrees fun p => Plan.valueWithin (plan p)) (p.evaluateAll e .default n)
      (· = .ok (p.entries e n value)) := by
  unfold evaluateAll
  refine (Ensures.mapM_ok (h := fun k => (k, value k)) fun k hk => ?_).bind ?_ nofun
  · obtain ⟨hkeys, hsupports⟩ := List.mem_filter.1 hk
    obtain ⟨d, hd, hy⟩ := hvalue k hkeys hsupports
    apply (Engine.answer_kept_ensures hpure hsupports hd hy).bind
    · rintro _ ⟨rfl⟩
      exact Ensures.pure rfl
    · exact nofun
  · rintro _ ⟨rfl⟩
    exact Ensures.pure rfl

variable [HasKind α]

/-- What becomes of a name, by the metrics of that name and those of them that support the node. -/
theorem find_cases (p : Provider α) (e : Engine α σ) (n : NodeId) (name : String) :
    ((p.keys.filter fun k => k.name == name) = [] ∧ p.eligible e n name = [] ∧
      p.find e n name = .error (.unknownMetric name)) ∨
    ((p.keys.filter fun k => k.name == name) ≠ [] ∧ p.eligible e n name = [] ∧
      p.find e n name = .error (.unsupportedNode name ((e.doc.kind? n).getD ""))) ∨
    ((p.keys.filter fun k => k.name == name) ≠ [] ∧ ∃ k, p.eligible e n name = [k] ∧
      p.find e n name = .ok k) ∨
    ((p.keys.filter fun k => k.name == name) ≠ [] ∧ 2 ≤ (p.eligible e n name).length ∧
      p.find e n name = .error (.ambiguous name ((e.doc.kind? n).getD ""))) := by
  by_cases hnamed : (p.keys.filter fun k => k.name == name) = []
  · refine .inl ⟨hnamed, ?_, ?_⟩
    · rw [eligible_eq_filter_named, hnamed, List.filter_nil]
    · simp only [find, hnamed, List.isEmpty_nil, if_true]
  · have hempty : (p.keys.filter fun k => k.name == name).isEmpty = false :=
      List.isEmpty_eq_false_iff.2 hnamed
    have hrest : p.eligible e n name =
        (p.keys.filter fun k => k.name == name).filter (e.supports · n) := eligible_eq_filter_named
    match he : p.eligible e n name with
    | [] =>
      rw [he] at hrest
      refine .inr (.inl ⟨hnamed, rfl, ?_⟩)
      simp only [find, hempty, ← hrest, Bool.false_eq_true, if_false]
    | [k] =>
      rw [he] at hrest
      refine .inr (.inr (.inl ⟨hnamed, k, rfl, ?_⟩))
      simp only [find, hempty, ← hrest, Bool.false_eq_true, if_false]
    | k :: l :: ks =>
      rw [he] at hrest
      refine .inr (.inr (.inr ⟨hnamed, Nat.le_add_left 2 ks.length, ?_⟩))
      simp only [find, hempty, ← hrest, Bool.false_eq_true, if_false]

theorem find_eq_ok_iff {k : MetricKey} :
    p.find e n name = .ok k ↔ p.eligible e n name = [k] := by
  obtain ⟨-, he, hf⟩ | ⟨-, he, hf⟩ | ⟨-, l, he, hf⟩ | ⟨-, he, hf⟩ := find_cases p e n name
  · simp only [hf, he, reduceCtorEq]
  · simp only [hf, he, reduceCtorEq]
  · simp only [hf, he, Except.ok.injEq, List.cons.injEq, and_true]
  · simp only [hf, reduceCtorEq, false_iff]
    intro hk
    rw [hk] at he
    cases Nat.le_of_succ_le_succ he

theorem find_eq_unknown_iff :
    p.find e n name = .error (.unknownMetric name) ↔
      (p.keys.filter fun k => k.name == name) = [] := by
  obtain ⟨hk, -, hf⟩ | ⟨hk, -, hf⟩ | ⟨hk, l, -, hf⟩ | ⟨hk, -, hf⟩ := find_cases p e n name
  all_goals simp only [hf, hk, reduceCtorEq, Except.error.injEq]

theorem find_eq_unsupported_iff :
    p.find e n name = .error (.unsupportedNode name ((e.doc.kind? n).getD "")) ↔
      (p.keys.filter fun k => k.name == name) ≠ [] ∧ p.eligible e n name = [] := by
  obtain ⟨hk, he, hf⟩ | ⟨hk, he, hf⟩ | ⟨hk, l, he, hf⟩ | ⟨hk, he, hf⟩ := find_cases p e n name
  · simp [hf, hk]
  · simp [hf, hk, he]
  · simp [hf, he]
  · have hne : p.eligible e n name ≠ [] := fun h => by rw [h] at he; cases he
    simp [hf, hne]

theorem find_eq_ambiguous_iff :
    p.find e n name = .error (.ambiguous name ((e.doc.kind? n).getD "")) ↔
      2 ≤ (p.eligible e n name).length := by
  obtain ⟨-, he, hf⟩ | ⟨-, he, hf⟩ | ⟨-, l, he, hf⟩ | ⟨-, he, hf⟩ := find_cases p e n name
  all_goals simp [hf, he]

/-- The value by name, in whatever store, and the entries of a run over the catalog. -/
theorem evaluateNamed_agrees {plan : Nat → Task → Plan} {value : MetricKey → Float} {k : MetricKey}
    (hpure : e.Pure p.computer (plan p.computer.pool))
    (hvalue : p.Settles e n (plan p.computer.pool) value) (hk : p.find e n name = .ok k) :
    ∃ run, p.evaluateNamed e n name = .ok run ∧ ∀ s, e.Reached plan s →
      (run s).1 = .ok (value k) ∧
        (p.evaluateAll e .default n s).1 = .ok (p.entries e n value) := by
  have hmem : k ∈ p.eligible e n name := by
    rw [find_eq_ok_iff.1 hk]
    exact List.mem_singleton_self k
  obtain ⟨hkeys, hboth⟩ := List.mem_filter.1 hmem
  have hsupports : e.supports k n = true := (Bool.and_eq_true_iff.1 hboth).2
  obtain ⟨d, hd, hy⟩ := hvalue k hkeys hsupports
  refine ⟨e.answer p.computer (.kept k n .empty), ?_, fun s hs => ⟨?_, ?_⟩⟩
  · rw [evaluateNamed, hk]
    rfl
  · exact (Engine.answer_kept_ensures hpure hsupports hd hy s hs.agrees).2
  · exact (evaluateAll_ensures hpure hvalue s hs.agrees).2

/-- A name is resolved by the places of the catalog at which a metric has it: there is a metric if
one of these places supports the node, and else an error that says whether there is none of the
name, none that supports the node, or more than one. Where there is a metric and the calculators are
pure, the value by name is a number just if the run over the catalog has one entry of the name,
namely this metric with this value, and undefined just if it has none. The value and the entries are
the same in all stores. The values have to come about before more calculators wait for each other
than the engine lets. -/
theorem lookup_exact (p : Provider α) (e : Engine α σ) (n : NodeId) (name : String) :
    (∀ k, p.find e n name = .ok k ↔
      ∃ i, p.keys[i]? = some k ∧ ∀ j, p.EligibleAt e n name j ↔ j = i) ∧
    (p.find e n name = .error (.unknownMetric name) ↔ ∀ i, ¬p.NamedAt name i) ∧
    (p.find e n name = .error (.unsupportedNode name ((e.doc.kind? n).getD "")) ↔
      (∃ i, p.NamedAt name i) ∧ ∀ i, ¬p.EligibleAt e n name i) ∧
    (p.find e n name = .error (.ambiguous name ((e.doc.kind? n).getD "")) ↔
      ∃ i j, i ≠ j ∧ p.EligibleAt e n name i ∧ p.EligibleAt e n name j) ∧
    ∀ plan : Nat → Task → Plan, e.Pure p.computer (plan p.computer.pool) →
      (∀ k ∈ p.keys, e.supports k n = true → ∃ d < e.depth, ∃ x,
        Plan.valueWithin (plan p.computer.pool) d ⟨k, n, .empty⟩ = some x) →
      ∀ k, p.find e n name = .ok k → ∃ run v entries,
        p.evaluateNamed e n name = .ok run ∧
        (∀ s, e.Reached plan s →
          (run s).1 = .ok v ∧ (p.evaluateAll e .default n s).1 = .ok entries) ∧
        (∀ w, v = w ∧ w.isNaN = false ↔
          entries.filter (fun x => x.1.name == name) = [(k, w)]) ∧
        (v.isNaN = true ↔ entries.filter (fun x => x.1.name == name) = []) := by
  refine ⟨fun k => ?_, ?_, ?_, ?_, ?_⟩
  · rw [find_eq_ok_iff, eligible, filter_eq_singleton_iff]
    simp only [holdsAt_eligible]
  · rw [find_eq_unknown_iff, filter_eq_nil_iff_holdsAt]
    simp only [holdsAt_named]
  · rw [find_eq_unsupported_iff, ne_eq, eligible, filter_eq_nil_iff_holdsAt,
      filter_eq_nil_iff_holdsAt]
    simp only [holdsAt_named, holdsAt_eligible, not_forall, not_not]
  · rw [find_eq_ambiguous_iff, eligible, two_le_length_filter_iff]
    simp only [holdsAt_eligible]
  · intro plan hpure hsettles k hk
    obtain ⟨value, hvalue⟩ := exists_settles hsettles
    obtain ⟨run, hrun, hstores⟩ := evaluateNamed_agrees hpure hvalue hk
    refine ⟨run, value k, p.entries e n value, hrun, hstores, ?_⟩
    rw [filter_entries (find_eq_ok_iff.1 hk)]
    cases hnan : (value k).isNaN with
    | true =>
      simp only [if_true, reduceCtorEq, iff_false, and_true]
      rintro w ⟨rfl, hw⟩
      rw [hnan] at hw
      cases hw
    | false =>
      simp only [Bool.false_eq_true, if_false, List.cons.injEq, Prod.mk.injEq, true_and, and_true,
        reduceCtorEq]
      exact fun w => ⟨And.left, fun h => ⟨h, h ▸ hnan⟩⟩

end Provider

namespace Sample

/-- A catalog in which two places have the name of the metric that adds up, one of them without a
calculator, and two have that of the metric that counts. -/
def provider : Provider String where
  classKeys := [⟨"TOTAL", 1⟩, ⟨"ONE", 0⟩]
  operationKeys := [⟨"ONE", 0⟩, ⟨"TOTAL", 7⟩]
  computer := computer 0

theorem lookup_exact_of_total :
    provider.find engine 0 "TOTAL" = .ok ⟨"TOTAL", 1⟩ ∧
    provider.find engine 1 "TOTAL" = .error (.unsupportedNode "TOTAL" "method") ∧
    provider.find engine 0 "ONE" = .error (.ambiguous "ONE" "class") ∧
    provider.find engine 0 "TWO" = .error (.unknownMetric "TWO") ∧
    ∃ run v entries, provider.evaluateNamed engine 0 "TOTAL" = .ok run ∧
      (∀ s, engine.Reached (fun _ => plan) s →
        (run s).1 = .ok v ∧ (provider.evaluateAll engine .default 0 s).1 = .ok entries) ∧
      (∀ w, v = w ∧ w.isNaN = false ↔
        entries.filter (fun x => x.1.name == "TOTAL") = [(⟨"TOTAL", 1⟩, w)]) ∧
      (v.isNaN = true ↔ entries.filter (fun x => x.1.name == "TOTAL") = []) := by
  have hfind : provider.find engine 0 "TOTAL" = .ok ⟨"TOTAL", 1⟩ := by rfl
  refine ⟨hfind, by rfl, by rfl, by rfl, ?_⟩
  obtain ⟨-, -, -, -, hvalue⟩ := Provider.lookup_exact provider engine 0 "TOTAL"
  refine hvalue (fun _ => plan) (engine_pure 0) ?_ _ hfind
  intro k hk _
  have htwo : 2 < engine.depth := by decide
  simp only [provider, Provider.keys, List.cons_append, List.nil_append, List.mem_cons,
    List.not_mem_nil, or_false] at hk
  rcases hk with rfl | rfl | rfl | rfl
  all_goals exact ⟨2, htwo, _, rfl⟩

end Sample

end TreeMetrics
