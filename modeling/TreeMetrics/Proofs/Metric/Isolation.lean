import TreeMetrics.Proofs.Metric.Transparency

namespace TreeMetrics

/-- If some depth suffices for a value then the result is this value. Only depths below the limit
are enforced: where more is needed the run may stop. -/
def Meets {β : Type} (limit : Nat) (value : Nat → Option β) (r : Except Stop β) : Prop :=
  ∀ d b, value d = some b → r = .ok b ∨ limit ≤ d ∧ ∃ stop, r = .error stop

namespace Meets

variable {β : Type} {limit d : Nat} {value : Nat → Option β} {b y : β} {stop : Stop}

theorem ok (h : ∀ d y, value d = some y → b = y) : Meets limit value (.ok b) :=
  fun d y hy => .inl (congrArg Except.ok (h d y hy))

theorem error (h : ∀ d y, value d = some y → limit ≤ d) : Meets limit value (.error stop) :=
  fun d y hy => .inr ⟨h d y hy, stop, rfl⟩

theorem eq_of_ok (h : Meets limit value (.ok b)) (hy : value d = some y) : b = y := by
  rcases h d y hy with h | ⟨_, _, h⟩
  · exact Except.ok.inj h
  · cases h

theorem le_of_error (h : Meets limit value (.error stop)) (hy : value d = some y) : limit ≤ d := by
  rcases h d y hy with h | ⟨hd, _⟩
  · cases h
  · exact hd

theorem eq_ok {r : Except Stop β} (h : Meets limit value r) (hd : d < limit)
    (hy : value d = some y) : r = .ok y := by
  rcases h d y hy with h | ⟨hle, _⟩
  · exact h
  · exact absurd hle (Nat.not_le.2 hd)

end Meets

theorem Engine.value_of_one {α σ : Type} {e : Engine α σ} {c : Computer α} (k : MetricKey)
    (n : NodeId) (o : OptionSet) (w : Task → Option Float) :
    ((e.tasks c (.kept k n o)).mapM w).map (Request.kept k n o).combine =
      if e.supports k n then w ⟨k, n, o⟩ else some Number.undefined := by
  simp only [tasks]
  split
  · rw [List.mapM_cons, List.mapM_nil]
    cases w ⟨k, n, o⟩ with
    | none => rfl
    | some x => rfl
  · rfl

/-- From every good store the run leads to a good one, and its result is allowed. -/
def Ensures {σ β : Type} (good : Store σ → Prop) (x : Run σ β) (allowed : Except Stop β → Prop) :
    Prop :=
  ∀ s, good s → good (x s).2 ∧ allowed (x s).1

namespace Ensures

variable {α σ β γ : Type} {good : Store σ → Prop} {x : Run σ β} {f : β → Run σ γ} {limit : Nat}
variable {allowed : Except Stop β → Prop}

theorem pure {b : β} (h : allowed (.ok b)) : Ensures good (Pure.pure b) allowed :=
  fun _ hs => ⟨hs, h⟩

theorem throw {stop : Stop} (h : allowed (.error stop)) :
    Ensures good (MonadExcept.throw stop) allowed :=
  fun _ hs => ⟨hs, h⟩

theorem mono {allowed' : Except Stop β → Prop} (h : Ensures good x allowed)
    (hr : ∀ r, allowed r → allowed' r) : Ensures good x allowed' :=
  fun s hs => ⟨(h s hs).1, hr _ (h s hs).2⟩

theorem bind {allowed' : Except Stop γ → Prop} (hx : Ensures good x allowed)
    (hf : ∀ b, allowed (.ok b) → Ensures good (f b) allowed')
    (he : ∀ stop, allowed (.error stop) → allowed' (.error stop)) :
    Ensures good (x >>= f) allowed' := by
  intro s hs
  obtain ⟨hu, hr⟩ := hx s hs
  cases h : x s with
  | mk r u =>
    rw [h] at hu hr
    cases r with
    | ok b =>
      rw [Action.bind_of_ok h]
      exact hf b hr u hu
    | error stop =>
      rw [Action.bind_of_error h]
      exact ⟨hu, he stop hr⟩

theorem bind_meets {v : Nat → Option β} {w : β → Nat → Option γ}
    (hx : Ensures good x (Meets limit v)) (hf : ∀ b, Ensures good (f b) (Meets limit (w b))) :
    Ensures good (x >>= f) (Meets limit fun d => (v d).bind fun b => w b d) := by
  apply hx.bind
  · intro b hb
    apply (hf b).mono
    intro r hr d y hy
    obtain ⟨b', hb', hy⟩ := Option.bind_eq_some_iff.1 hy
    cases hb.eq_of_ok hb'
    exact hr d y hy
  · intro stop hstop
    apply Meets.error
    intro d y hy
    obtain ⟨b, hb, _⟩ := Option.bind_eq_some_iff.1 hy
    exact hstop.le_of_error hb

variable {e : Engine α σ} {c : Computer α} {answer : Request → Run σ Float}
variable {v : Nat → Task → Option Float}

theorem mapM {g : Task → Run σ Float} {ts : List Task}
    (hg : ∀ t ∈ ts, Ensures good (g t) (Meets limit fun d => v d t)) :
    Ensures good (ts.mapM g) (Meets limit fun d => ts.mapM (v d)) := by
  induction ts with
  | nil =>
    rw [List.mapM_nil]
    apply Ensures.pure
    apply Meets.ok
    intro d xs hxs
    exact Option.some.inj hxs
  | cons t ts ih =>
    simp only [List.mapM_cons]
    obtain ⟨ht, hts⟩ := List.forall_mem_cons.1 hg
    apply ht.bind_meets
    intro x
    apply (ih hts).bind_meets
    intro xs
    apply Ensures.pure
    apply Meets.ok
    intro d ys hys
    exact Option.some.inj hys

/-- A behaviour that acts as a plan does ends in the value of the plan. Of one that acts as no plan
does it is only said that it keeps stores good. -/
theorem behaviour (hw : ∀ s (state : σ), good s → good { s with state := state })
    (ha : ∀ q, Ensures good (answer q)
      (Meets limit fun d => ((e.tasks c q).mapM (v d)).map q.combine)) (b : Behaviour σ) :
    Ensures good (b.run answer) fun r =>
      ∀ p, b.Follows e c p → Meets limit (fun d => p.run (v d)) r := by
  induction b with
  | value x =>
    apply Ensures.pure
    intro p hp
    cases hp
    apply Meets.ok
    intro d y hy
    exact Option.some.inj hy
  | stop message =>
    apply Ensures.throw
    intro p hp
    cases hp
  | read next ih =>
    intro s hs
    obtain ⟨hu, hr⟩ := ih s.state s hs
    refine ⟨hu, ?_⟩
    intro p hp
    cases hp with
    | read h => exact hr p (h s.state)
  | write state next ih =>
    intro s hs
    obtain ⟨hu, hr⟩ := ih _ (hw s state hs)
    refine ⟨hu, ?_⟩
    intro p hp
    cases hp with
    | write h => exact hr p h
  | ask q next ih =>
    have hanswer {d : Nat} {y : Float} {p : List Float → Plan}
        (hy : (Plan.askAll (e.tasks c q) p).run (v d) = some y) :
        ∃ xs, ((e.tasks c q).mapM (v d)).map q.combine = some (q.combine xs) ∧
          (p xs).run (v d) = some y := by
      rw [Plan.run_askAll] at hy
      obtain ⟨xs, hxs, hy⟩ := Option.bind_eq_some_iff.1 hy
      exact ⟨xs, congrArg (Option.map q.combine) hxs, hy⟩
    apply (ha q).bind
    · intro x hx
      apply (ih x).mono
      intro r hr p hp
      cases hp with
      | @ask _ _ p h =>
        intro d y hy
        obtain ⟨xs, hxs, hy⟩ := hanswer hy
        cases hx.eq_of_ok hxs
        exact hr (p xs) (h xs) d y hy
    · intro stop hstop p hp
      cases hp with
      | ask h =>
        apply Meets.error
        intro d y hy
        obtain ⟨xs, hxs, _⟩ := hanswer hy
        exact hstop.le_of_error hxs

theorem respondBy {value : Task → Run σ Float}
    (hv : ∀ t, e.performs t = true → Ensures good (value t) (Meets limit fun d => v d t) ∧
      Ensures good (e.freshTask answer t) (Meets limit fun d => v d t))
    (hn : ∀ t, e.performs t = false → Ensures good (value t) (· = .ok Number.undefined))
    (q : Request) : Ensures good (e.respondBy c answer value q)
      (Meets limit fun d => ((e.tasks c q).mapM (v d)).map q.combine) := by
  cases q with
  | kept k n o =>
    simp only [Engine.value_of_one]
    cases h : e.supports k n with
    | true => exact (hv ⟨k, n, o⟩ h).1
    | false =>
      apply (hn ⟨k, n, o⟩ h).mono
      intro r hr
      rw [hr]
      exact .ok fun d y => Option.some.inj
  | fresh k n o =>
    change Ensures good _ (Meets limit fun d =>
      ((e.tasks c (.kept k n o)).mapM (v d)).map (Request.kept k n o).combine)
    simp only [Engine.value_of_one]
    cases h : e.supports k n with
    | true => exact (hv ⟨k, n, o⟩ h).2
    | false =>
      have hp : e.performs ⟨k, n, o⟩ = false := h
      simp only [Engine.respondBy, Engine.freshTask, hp]
      exact Ensures.pure (.ok fun d y => Option.some.inj)
  | «over» k ns o r | overOperations k n o r =>
    apply (mapM fun t ht => (hv t (Engine.performs_of_mem_tasks ht)).1).bind
    · intro xs hxs
      apply Ensures.pure
      apply Meets.ok
      intro d y hy
      obtain ⟨ys, hys, rfl⟩ := Option.map_eq_some_iff.1 hy
      rw [hxs.eq_of_ok hys]
      rfl
    · intro stop hstop
      apply Meets.error
      intro d y hy
      obtain ⟨ys, hys, _⟩ := Option.map_eq_some_iff.1 hy
      exact hstop.le_of_error hys

end Ensures

/-- What is kept for a task that has a value in the pool is this value. -/
structure Store.Agrees {σ : Type} (v : Nat → Nat → Task → Option Float) (s : Store σ) : Prop where
  valid : s.Valid
  eq_of_memo : ∀ {p t x d y}, s.memo p t = some x → v p d t = some y → x = y

namespace Store.Agrees

variable {σ : Type} {v : Nat → Nat → Task → Option Float} {s u : Store σ} {p : Nat} {t : Task}

theorem init (pools nodes : Nat) (state : σ) : (Store.init pools nodes state).Agrees v := by
  refine ⟨.init pools nodes state, ?_⟩
  intro p t x d y hx
  rw [memo_init] at hx
  cases hx

theorem write (h : s.Agrees v) (state : σ) : ({ s with state := state } : Store σ).Agrees v :=
  ⟨⟨h.valid.slot_lt, h.valid.used_lt, h.valid.slot_inj⟩, h.eq_of_memo⟩

theorem clear (h : s.Agrees v) (p : Nat) : (s.clear p).Agrees v := by
  refine ⟨h.valid.clear p, ?_⟩
  intro q t x d y hx
  rw [memo_clear] at hx
  split at hx
  · cases hx
  · exact h.eq_of_memo hx

theorem intern (h : s.Agrees v) (k : MetricKey) (o : OptionSet) : (s.intern p k o).2.Agrees v := by
  refine ⟨h.valid.intern p k o, ?_⟩
  intro q t x d y hx
  rw [memo_intern h.valid] at hx
  exact h.eq_of_memo hx

theorem begin (h : s.Agrees v) (t : Task) : (s.begin p t).Agrees v := by
  refine ⟨h.valid.begin p t, ?_⟩
  intro q b x d y hx
  rw [memo_begin p t h.valid] at hx
  exact h.eq_of_memo hx

theorem settle (hs : s.Valid) (he : Evolves (s.begin p t) u) (h : u.Agrees v) {version : Nat}
    {z : Float} (hz : ∀ d y, v p d t = some y → z = y) :
    (u.settle t.node (s.slotOf p t) version z).Agrees v := by
  refine ⟨h.valid.settle, ?_⟩
  intro q b x d y hx hy
  rcases eq_of_memo_settle hs he hx with hx | ⟨⟨rfl, rfl⟩, rfl⟩
  · exact h.eq_of_memo hx hy
  · exact hz d y hy

end Store.Agrees

namespace Engine

variable {α σ : Type} {e : Engine α σ} {c : Computer α} {answer : Request → Run σ Float}
variable {limit : Nat}

/-- The values come about through the computer: a calculator acts, on each task that has a value
at some depth, as a plan that makes this value of values at a lesser depth. -/
structure Explains (e : Engine α σ) (c : Computer α) (v : Nat → Task → Option Float) : Prop where
  zero : ∀ t, v 0 t = none
  succ : ∀ {t d y}, e.performs t = true → v (d + 1) t = some y →
    ∃ p, (e.program t).Follows e c p ∧ p.run (v d) = some y

variable {v : Nat → Nat → Task → Option Float}

theorem program_ensures (h : e.Explains c (v c.pool))
    (ha : ∀ q, Ensures (Store.Agrees v) (answer q)
      (Meets limit fun d => ((e.tasks c q).mapM (v c.pool d)).map q.combine))
    {t : Task} (hp : e.performs t = true) :
    Ensures (Store.Agrees v) ((e.program t).run answer)
      (Meets (limit + 1) fun d => v c.pool d t) := by
  apply (Ensures.behaviour (fun s state hs => hs.write state) ha (e.program t)).mono
  intro r hr d y hy
  cases d with
  | zero => cases (h.zero t).symm.trans hy
  | succ d =>
    obtain ⟨p, hfollows, hrun⟩ := h.succ hp hy
    exact (hr p hfollows d y hrun).imp id fun ⟨hd, hstop⟩ => ⟨Nat.succ_le_succ hd, hstop⟩

theorem keepTask_ensures (h : e.Explains c (v c.pool)) (hsteady : ∀ q, Steady (answer q))
    (ha : ∀ q, Ensures (Store.Agrees v) (answer q)
      (Meets limit fun d => ((e.tasks c q).mapM (v c.pool d)).map q.combine))
    {t : Task} (hp : e.performs t = true) :
    Ensures (Store.Agrees v) (e.keepTask c answer t)
      (Meets (limit + 1) fun d => v c.pool d t) := by
  intro s hs
  cases hm : s.memo c.pool t with
  | some x =>
    rw [keepTask_of_memo hs.valid hp hm]
    exact ⟨hs.intern t.key t.options, .ok fun d y => hs.eq_of_memo hm⟩
  | none =>
    obtain ⟨hu, hr⟩ := program_ensures h ha hp _ (hs.begin (p := c.pool) t)
    have he := (Steady.behaviour hsteady (e.program t) _ (hs.valid.begin c.pool t)).2
    cases hrun : (e.program t).run answer (s.begin c.pool t) with
    | mk r u =>
      rw [hrun] at hu hr he
      cases r with
      | ok x =>
        rw [keepTask_of_ok hs.valid hp hm hrun]
        exact ⟨hu.settle hs.valid he fun d y => hr.eq_of_ok, hr⟩
      | error stop =>
        rw [keepTask_of_error hs.valid hp hm hrun]
        exact ⟨hu, hr⟩

/-- Whatever is requested, what is kept stays right. A request for tasks that have values is
answered with these values unless calculators that wait for each other exceed the depth. -/
theorem answerWithin_ensures (h : e.Explains c (v c.pool)) (depth : Nat) (q : Request) :
    Ensures (Store.Agrees v) (e.answerWithin c depth q)
      (Meets depth fun d => ((e.tasks c q).mapM (v c.pool d)).map q.combine) := by
  induction depth generalizing q with
  | zero => exact Ensures.throw (.error fun d y _ => Nat.zero_le d)
  | succ depth ih =>
    rw [answerWithin_succ]
    apply Ensures.respondBy
    · intro t hp
      have hfresh : e.freshTask (e.answerWithin c depth) t =
          (e.program t).run (e.answerWithin c depth) := if_pos hp
      rw [hfresh]
      exact ⟨keepTask_ensures h (Steady.answerWithin e c depth) ih hp, program_ensures h ih hp⟩
    · intro t hp s hs
      rw [keepTask_of_not_performs hp]
      exact ⟨hs, rfl⟩

/-- One task that has a value, or whose metric does not support its node, be the answer a kept value
or computed afresh. -/
theorem answerWithin_one (h : e.Explains c (v c.pool)) {s : Store σ} (hs : s.Agrees v)
    {depth d : Nat} (hd : d < depth) (again : Bool) {k : MetricKey} {n : NodeId} {o : OptionSet}
    {y : Float}
    (hy : (if e.supports k n then v c.pool d ⟨k, n, o⟩ else some Number.undefined) = some y) :
    (e.answerWithin c depth (if again then .fresh k n o else .kept k n o) s).1 = .ok y := by
  apply (answerWithin_ensures h depth _ s hs).2.eq_ok hd
  rw [← value_of_one (c := c)] at hy
  cases again with
  | false => exact hy
  | true => exact hy

/-- Calls through whatever computers leave what is kept right, as long as the values of each pool
come about through the computers that use it. -/
theorem performWithin_agrees {depth : Nat} {calls : List (Call α)}
    (hcalls : ∀ c q, Call.request c q ∈ calls → e.Explains c (v c.pool)) {s : Store σ}
    (hs : s.Agrees v) : (e.performWithin depth calls s).2.Agrees v := by
  induction calls generalizing s with
  | nil => exact hs
  | cons call calls ih =>
    have hrest := fun c q h => hcalls c q (List.mem_cons_of_mem call h)
    cases call with
    | request c q =>
      exact ih hrest (answerWithin_ensures (hcalls c q List.mem_cons_self) depth q s hs).1
    | clear p => exact ih hrest (hs.clear p)

end Engine

end TreeMetrics
