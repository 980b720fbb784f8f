import TreeMetrics.Proofs.Metric.Log
import TreeMetrics.Proofs.Metric.Refill

namespace TreeMetrics

namespace Store

variable {σ : Type} {s u : Store σ} {p q : Nat} {a b : Task} {r : Except Stop Float}

/-- The store in which the calculator of a task has ended, once its value is kept. -/
def finish (s : Store σ) (p : Nat) (a : Task) (r : Except Stop Float) (u : Store σ) : Store σ :=
  match r with
  | .ok x => u.settle a.node (s.slotOf p a) (s.versionOf p a) x
  | .error _ => u

theorem Valid.finish (hu : u.Valid) : (s.finish p a r u).Valid := by
  cases r with
  | ok x => exact hu.settle
  | error y => exact hu

theorem Evolves.finish (s u : Store σ) : Evolves u (s.finish p a r u) := by
  cases r with
  | ok x => exact .settle u
  | error y => exact .refl u

section Begun

variable (hs : s.Valid) (he : Evolves (s.begin p a) u)

include hs he

theorem cell_finish_of_ne (h : q = p → b ≠ a) : (s.finish p a r u).cell q b = u.cell q b := by
  cases r with
  | ok x => exact cell_settle_of_ne hs he h
  | error y => rfl

theorem memo_finish_of_ne (h : q = p → b ≠ a) : (s.finish p a r u).memo q b = u.memo q b := by
  rw [memo_eq, memo_eq, cell_finish_of_ne hs he h]

theorem finish_refill (h : a ≠ b) {w : Option Float} :
    (s.refill p b w).finish p a r (u.refill p b w) = (s.finish p a r u).refill p b w := by
  cases r with
  | ok x =>
    unfold finish
    rw [slotOf_refill hs, versionOf_refill hs h]
    exact settle_refill hs h he
  | error y => rfl

end Begun

end Store

theorem Engine.keepTask_of_none {α σ : Type} {e : Engine α σ} {c : Computer α}
    {answer : Request → Run σ Float} {s u : Store σ} {t : Task} {r : Except Stop Float}
    (hs : s.Valid) (h : e.performs t = true) (hm : s.memo c.pool t = none)
    (hr : (e.program t).run answer (s.begin c.pool t) = (r, u)) :
    e.keepTask c answer t s = (r, s.finish c.pool t r u) := by
  cases r with
  | ok x => exact keepTask_of_ok hs h hm hr
  | error y => exact keepTask_of_error hs h hm hr

namespace Visit

variable {α σ : Type}

def request (v : Visit α σ) : Request :=
  match v.occasion with
  | .fresh => .fresh v.task.key v.task.node v.task.options
  | .found | .computed => .kept v.task.key v.task.node v.task.options

/-- The visit is the answer to its request, and its occasion says whether a calculator has run. -/
structure Enacted (e : Engine α σ) (p : Nat) (v : Visit α σ) : Prop where
  pool : v.computer.pool = p
  answers : e.answerWithin v.computer (v.depth + 1) v.request v.before = (v.result, v.after)
  /-- No calculator runs for a value that is found: nothing changes but that there is an instance
  for the value in the pool. -/
  found : v.occasion = .found → v.after = (v.before.intern p v.task.key v.task.options).2
  /-- A value is computed by a single run of the calculator, from when there is a slot for the value
  on, and after the run nothing changes but that the value is kept. -/
  computed : v.occasion = .computed → ∃ u,
    (e.program v.task).run (e.answerWithin v.computer v.depth) (v.before.begin p v.task) =
      (v.result, u) ∧ v.after = v.before.finish p v.task v.result u
  /-- A value is computed afresh by a single run of the calculator, and by nothing else. -/
  fresh : v.occasion = .fresh →
    (e.program v.task).run (e.answerWithin v.computer v.depth) v.before = (v.result, v.after)

/-- The task is on one of the nodes, and no calculator waits for the value that is to be kept. -/
structure Proper (nodes : Nat) (v : Visit α σ) : Prop where
  node_lt : v.task.node < nodes
  not_waiting : v.occasion ≠ .fresh → v.task ∉ v.waiting

instance (nodes : Nat) (v : Visit α σ) : Decidable (v.Proper nodes) :=
  decidable_of_iff (v.task.node < nodes ∧ (v.occasion ≠ .fresh → v.task ∉ v.waiting))
    ⟨fun h => ⟨h.1, h.2⟩, fun h => ⟨h.1, h.2⟩⟩

/-- The visit neither writes the slot of its task nor reads it: with another value in the slot it
goes the same way. -/
structure Untouched (e : Engine α σ) (p : Nat) (v : Visit α σ) : Prop where
  cell : v.after.cell p v.task = v.before.cell p v.task
  blind : ∀ w, e.answerWithin v.computer (v.depth + 1) v.request (v.before.refill p v.task w) =
    (v.result, v.after.refill p v.task w)

end Visit

/-- What the notes of a run that begins in `s` have to do with the run, while the calculators for
the tasks in `waiting` are waiting. -/
structure Faithful {α σ β : Type} (e : Engine α σ) (p : Nat) (waiting : List Task) (s : Store σ)
    (x : Run σ β) (log : List (Visit α σ)) : Prop where
  valid : (x s).2.Valid
  evolves : s.Evolves (x s).2
  waits : ∀ v ∈ log, ∀ t ∈ waiting, t ∈ v.waiting
  enacted : ∀ v ∈ log, v.Enacted e p
  stops : ∀ v ∈ log, ∀ y, v.result = .error y → (x s).1 = .error y
  coherent : p < s.pools.size → (∀ v ∈ log, v.Proper s.kept.size) →
    Coherent p (s.memo p) log ∧ (x s).2.memo p = keptAfter (s.memo p) log
  cell : ∀ t, (∀ v ∈ log, v.occasion ≠ .fresh → v.task ≠ t) → (x s).2.cell p t = s.cell p t
  blind : ∀ t, (∀ v ∈ log, v.occasion ≠ .fresh → v.task ≠ t) →
    ∀ w, x (s.refill p t w) = ((x s).1, (x s).2.refill p t w)
  fresh : (∀ v ∈ log, v.Proper s.kept.size) → ∀ v ∈ log, v.occasion = .fresh → v.Untouched e p

namespace Faithful

variable {α σ β γ : Type} {e : Engine α σ} {p : Nat} {waiting : List Task} {s u : Store σ}
variable {x : Run σ β} {f : β → Run σ γ} {log log' : List (Visit α σ)}

theorem of_store (hs : s.Valid) (r : Except Stop β) (hx : ∀ u, x u = (r, u)) :
    Faithful e p waiting s x [] where
  valid := by rwa [hx]
  evolves := by
    rw [hx]
    exact .refl s
  waits := nofun
  enacted := nofun
  stops := nofun
  coherent _ _ := by
    rw [hx]
    exact ⟨trivial, rfl⟩
  cell _ _ := by rw [hx]
  blind _ _ _ := by rw [hx, hx]
  fresh _ := nofun

theorem bind_of_error {y : Stop} (h : Faithful e p waiting s x log) (hx : x s = (.error y, u)) :
    Faithful e p waiting s (x >>= f) log where
  valid := by
    rw [Action.bind_of_error hx]
    simpa only [hx] using h.valid
  evolves := by
    rw [Action.bind_of_error hx]
    simpa only [hx] using h.evolves
  waits := h.waits
  enacted := h.enacted
  stops v hv z hz := by
    rw [Action.bind_of_error hx]
    simpa only [hx, Except.error.injEq] using h.stops v hv z hz
  coherent hp hl := by
    rw [Action.bind_of_error hx]
    simpa only [hx] using h.coherent hp hl
  cell t ht := by
    rw [Action.bind_of_error hx]
    simpa only [hx] using h.cell t ht
  blind t ht w := by
    have hb := h.blind t ht w
    rw [hx] at hb
    rw [Action.bind_of_error hx, Action.bind_of_error hb]
  fresh := h.fresh

theorem bind_of_ok {b : β} (h : Faithful e p waiting s x log) (hx : x s = (.ok b, u))
    (h' : Faithful e p waiting u (f b) log') : Faithful e p waiting s (x >>= f) (log ++ log') := by
  have he : s.Evolves u := by simpa only [hx] using h.evolves
  have hb : (x >>= f) s = f b u := Action.bind_of_ok hx
  constructor
  case valid =>
    rw [hb]
    exact h'.valid
  case evolves =>
    rw [hb]
    exact he.trans h'.evolves
  case waits => exact List.forall_mem_append.2 ⟨h.waits, h'.waits⟩
  case enacted => exact List.forall_mem_append.2 ⟨h.enacted, h'.enacted⟩
  case stops =>
    intro v hv y hy
    rw [hb]
    rcases List.mem_append.1 hv with hv | hv
    -- A visit of the first log that stopped would have stopped `x`, which has a value.
    · have hn := h.stops v hv y hy
      rw [hx] at hn
      cases hn
    · exact h'.stops v hv y hy
  case coherent =>
    intro hp hl
    obtain ⟨hl, hl'⟩ := List.forall_mem_append.1 hl
    obtain ⟨hc, hm⟩ := h.coherent hp hl
    obtain ⟨hc', hm'⟩ := h'.coherent (by rwa [he.pools_size]) (by rwa [he.kept_size])
    rw [hx] at hm
    rw [hm] at hc' hm'
    rw [hb, hm', keptAfter_append]
    exact ⟨coherent_append.2 ⟨hc, hc'⟩, rfl⟩
  case cell =>
    intro t ht
    obtain ⟨ht, ht'⟩ := List.forall_mem_append.1 ht
    have hc := h.cell t ht
    rw [hx] at hc
    rw [hb]
    exact (h'.cell t ht').trans hc
  case blind =>
    intro t ht w
    obtain ⟨ht, ht'⟩ := List.forall_mem_append.1 ht
    have hr := h.blind t ht w
    rw [hx] at hr
    rw [hb, Action.bind_of_ok hr, h'.blind t ht' w]
  case fresh =>
    intro hl
    obtain ⟨hl, hl'⟩ := List.forall_mem_append.1 hl
    have hf' := h'.fresh (by rwa [he.kept_size])
    exact List.forall_mem_append.2 ⟨h.fresh hl, hf'⟩

theorem andThen {l : Log α σ} {k : β → Log α σ} (h : Faithful e p waiting s x (l s))
    (h' : ∀ b u, u.Valid → Faithful e p waiting u (f b) (k b u)) :
    Faithful e p waiting s (x >>= f) (Log.andThen x l k s) := by
  cases hx : x s with
  | mk r u =>
    have hu : u.Valid := by simpa only [hx] using h.valid
    simp only [Log.andThen, hx]
    cases r with
    | ok b => exact h.bind_of_ok hx (h' b u hu)
    | error y =>
      rw [List.append_nil]
      exact h.bind_of_error hx

theorem then_pure (h : Faithful e p waiting s x log) (g : β → γ) :
    Faithful e p waiting s (x >>= fun b => pure (g b)) log := by
  have hl : Log.andThen x (fun _ => log) (fun _ _ => []) s = log := by
    unfold Log.andThen
    split <;> exact List.append_nil log
  rw [← hl]
  exact h.andThen fun b u hu => of_store hu (.ok (g b)) fun _ => rfl

theorem each {g : Task → Run σ Float} {k : Task → Log α σ}
    (h : ∀ t u, u.Valid → Faithful e p waiting u (g t) (k t u)) (hs : s.Valid) (ts : List Task) :
    Faithful e p waiting s (ts.mapM g) (Log.each g k ts s) := by
  induction ts generalizing s with
  | nil => exact of_store hs (.ok []) fun _ => rfl
  | cons t ts ih =>
    rw [List.mapM_cons]
    exact andThen (h t s hs) fun b u hu => (ih hu).then_pure (b :: ·)

theorem behaviour {answer : Request → Run σ Float} {l : Request → Log α σ}
    (h : ∀ q u, u.Valid → Faithful e p waiting u (answer q) (l q u)) (b : Behaviour σ)
    (hs : s.Valid) : Faithful e p waiting s (b.run answer) (b.log answer l s) := by
  induction b generalizing s with
  | value y => exact of_store hs (.ok y) fun _ => rfl
  | stop m => exact of_store hs (.error (.calculator m)) fun _ => rfl
  | read next ih =>
    have hn := ih s.state hs
    refine ⟨hn.valid, hn.evolves, hn.waits, hn.enacted, hn.stops, hn.coherent, hn.cell,
      ?_, hn.fresh⟩
    intro t ht w
    rw [Behaviour.run_read, Store.state_refill]
    exact hn.blind t ht w
  | write state next ih =>
    have hw : ({ s with state := state } : Store σ).Valid := ⟨hs.slot_lt, hs.used_lt, hs.slot_inj⟩
    have hn := ih hw
    have he := hn.evolves
    refine ⟨hn.valid, ?_, hn.waits, hn.enacted, hn.stops, hn.coherent, hn.cell, ?_, hn.fresh⟩
    · exact ⟨he.nextSlot_le, he.pools_size, he.kept_size, he.stays, he.old, he.slot⟩
    · intro t ht w
      rw [Behaviour.run_write, ← Store.refill_state]
      exact hn.blind t ht w
  | ask q next ih => exact andThen (h q s hs) fun y u hu => ih y hu

section Tasks

variable {c : Computer α} {d : Nat} {t : Task}

/-- Nested requests do not ask for the kept value of a task that waits for them. -/
theorem task_ne (h : Faithful e p (t :: waiting) s x log) {nodes : Nat}
    (hl : ∀ v ∈ log, v.Proper nodes) : ∀ v ∈ log, v.occasion ≠ .fresh → v.task ≠ t := by
  rintro v hv ho rfl
  exact (hl v hv).not_waiting ho (h.waits v hv v.task List.mem_cons_self)

theorem waits_concat (h : Faithful e p (t :: waiting) u x log) {v : Visit α σ}
    (hv : v.waiting = waiting) : ∀ w ∈ log ++ [v], ∀ a ∈ waiting, a ∈ w.waiting := by
  refine List.forall_mem_append.2 ⟨fun w hw a ha => ?_, List.forall_mem_singleton.2 ?_⟩
  · exact h.waits w hw a (List.mem_cons_of_mem t ha)
  · rw [hv]
    exact fun a ha => ha

theorem fresh_visit (hp : e.performs t = true)
    (h : Faithful e c.pool (t :: waiting) s ((e.program t).run (e.answerWithin c d)) log) :
    Faithful e c.pool waiting s ((e.program t).run (e.answerWithin c d)) (log ++
      [⟨t, .fresh, c, d, waiting, s, ((e.program t).run (e.answerWithin c d) s).1,
        ((e.program t).run (e.answerWithin c d) s).2⟩]) where
  valid := h.valid
  evolves := h.evolves
  waits := h.waits_concat rfl
  enacted := by
    refine List.forall_mem_append.2 ⟨h.enacted, List.forall_mem_singleton.2 ?_⟩
    exact ⟨rfl, congrFun (Engine.answerWithin_fresh d hp) s, Occasion.noConfusion,
      Occasion.noConfusion, fun _ => rfl⟩
  stops := List.forall_mem_append.2 ⟨h.stops, List.forall_mem_singleton.2 fun _ hy => hy⟩
  coherent hp hl := by
    obtain ⟨hl, -⟩ := List.forall_mem_append.1 hl
    obtain ⟨hc, hm⟩ := h.coherent hp hl
    rw [coherent_append, keptAfter_append, ← hm]
    exact ⟨⟨hc, ⟨Occasion.noConfusion, Occasion.noConfusion, fun _ => rfl⟩, trivial⟩, rfl⟩
  cell a ha := h.cell a (List.forall_mem_append.1 ha).1
  blind a ha := h.blind a (List.forall_mem_append.1 ha).1
  fresh hl := by
    obtain ⟨hl, -⟩ := List.forall_mem_append.1 hl
    have ht := h.task_ne hl
    refine List.forall_mem_append.2 ⟨h.fresh hl, List.forall_mem_singleton.2 fun _ => ?_⟩
    refine ⟨h.cell t ht, fun w => ?_⟩
    rw [Visit.request, Engine.answerWithin_fresh d hp]
    exact h.blind t ht w

theorem freshLog {l : List Task → Request → Log α σ}
    (h : ∀ W q u, u.Valid → Faithful e c.pool W u (e.answerWithin c d q) (l W q u))
    (hs : s.Valid) : Faithful e c.pool waiting s (e.freshTask (e.answerWithin c d) t)
      (e.freshLog c d (e.answerWithin c d) l waiting t s) := by
  cases hp : e.performs t with
  | false =>
    have hf : e.freshTask (e.answerWithin c d) t = pure Number.undefined := by
      simp [Engine.freshTask, hp]
    simp only [Engine.freshLog, hp, hf, Bool.false_eq_true, if_false]
    exact of_store hs (.ok _) fun _ => rfl
  | true =>
    have hf : e.freshTask (e.answerWithin c d) t = (e.program t).run (e.answerWithin c d) := by
      simp [Engine.freshTask, hp]
    simp only [Engine.freshLog, hp, hf, if_true]
    exact fresh_visit hp (behaviour (h (t :: waiting)) (e.program t) hs)

/-- The value of the task is kept already. -/
theorem found_visit (hs : s.Valid) (hp : e.performs t = true) {y : Float}
    (hm : s.memo c.pool t = some y) :
    Faithful e c.pool waiting s (e.keepTask c (e.answerWithin c d) t)
      [⟨t, .found, c, d, waiting, s, (e.keepTask c (e.answerWithin c d) t s).1,
        (e.keepTask c (e.answerWithin c d) t s).2⟩] := by
  have hk : e.keepTask c (e.answerWithin c d) t s =
      (.ok y, (s.intern c.pool t.key t.options).2) := Engine.keepTask_of_memo hs hp hm
  constructor
  case valid =>
    rw [hk]
    exact hs.intern _ _ _
  case evolves =>
    rw [hk]
    exact .intern s _ _ _
  case waits => exact List.forall_mem_singleton.2 fun _ ha => ha
  case enacted =>
    refine List.forall_mem_singleton.2 ?_
    refine ⟨rfl, congrFun (Engine.answerWithin_kept d t) s, fun _ => ?_, Occasion.noConfusion,
      Occasion.noConfusion⟩
    rw [hk]
  case stops => exact List.forall_mem_singleton.2 fun _ hy => hy
  case coherent =>
    intro _ _
    have hi : (s.intern c.pool t.key t.options).2.memo c.pool = s.memo c.pool := by
      funext a
      rw [Store.memo_intern hs]
    rw [hk, hi]
    exact ⟨⟨⟨fun _ => ⟨y, hm, rfl⟩, Occasion.noConfusion, fun a => congrFun hi a⟩, trivial⟩, rfl⟩
  case cell =>
    intro a _
    rw [hk]
    exact Store.cell_intern hs _ _ _ _ _
  case blind =>
    intro a ha w
    -- The visit reads the slot of `t`, so the refilled slot must be another one.
    have hne : t ≠ a := ha _ (List.mem_singleton_self _) Occasion.found_ne_fresh
    have hm' : (s.refill c.pool a w).memo c.pool t = some y := by
      rw [Store.memo_refill_of_ne hs hne, hm]
    rw [hk, Engine.keepTask_of_memo hs.refill hp hm', Store.intern_refill hs]
  case fresh =>
    intro _ v hv ho
    rw [List.mem_singleton.1 hv] at ho
    cases ho

theorem computed_lawful (d : Nat) (waiting : List Task) (r : Except Stop Float) (hs : s.Valid)
    (hp : c.pool < s.pools.size) (ht : t.node < s.kept.size) (he : (s.begin c.pool t).Evolves u)
    (hm : u.memo c.pool t = none) :
    Visit.Lawful c.pool (u.memo c.pool)
      (⟨t, .computed, c, d, waiting, s, r, s.finish c.pool t r u⟩ : Visit α σ) := by
  refine ⟨Occasion.noConfusion, fun _ => hm, fun a => ?_⟩
  by_cases ha : a = t
  · subst ha
    cases r with
    | ok x =>
      rw [Visit.effect_of_completes (v := ⟨a, .computed, c, d, waiting, s, .ok x, _⟩) rfl rfl]
      exact Store.memo_settle_self hp ht he
    | error y => rfl
  · rw [Visit.effect_of_ne fun _ => Ne.symm ha]
    exact Store.memo_finish_of_ne hs he fun _ => ha

/-- The value of the task is computed, and kept unless the calculator stops. -/
theorem computed_visit (hs : s.Valid) (hp : e.performs t = true) (hm : s.memo c.pool t = none)
    (h : Faithful e c.pool (t :: waiting) (s.begin c.pool t)
      ((e.program t).run (e.answerWithin c d)) log) :
    Faithful e c.pool waiting s (e.keepTask c (e.answerWithin c d) t) (log ++
      [⟨t, .computed, c, d, waiting, s, (e.keepTask c (e.answerWithin c d) t s).1,
        (e.keepTask c (e.answerWithin c d) t s).2⟩]) := by
  obtain ⟨r, u, hr⟩ : ∃ r u, (e.program t).run (e.answerWithin c d) (s.begin c.pool t) = (r, u) :=
    ⟨_, _, rfl⟩
  have hk := Engine.keepTask_of_none hs hp hm hr
  have he : (s.begin c.pool t).Evolves u := by simpa only [hr] using h.evolves
  have hse := Store.Evolves.begin s c.pool t
  have hmb : (s.begin c.pool t).memo c.pool = s.memo c.pool := by
    funext a
    rw [Store.memo_begin _ _ hs]
  constructor
  case valid =>
    rw [hk]
    refine Store.Valid.finish ?_
    simpa only [hr] using h.valid
  case evolves =>
    rw [hk]
    exact (hse.trans he).trans (.finish s u)
  case waits => exact h.waits_concat rfl
  case enacted =>
    refine List.forall_mem_append.2 ⟨h.enacted, List.forall_mem_singleton.2 ?_⟩
    refine ⟨rfl, congrFun (Engine.answerWithin_kept d t) s, Occasion.noConfusion,
      fun _ => ⟨u, ?_, ?_⟩, Occasion.noConfusion⟩
    · rw [hk, hr]
    · rw [hk]
  case stops =>
    refine List.forall_mem_append.2 ⟨fun v hv y hy => ?_,
      List.forall_mem_singleton.2 fun _ hy => hy⟩
    have hn := h.stops v hv y hy
    rw [hr] at hn
    rw [hk, hn]
  case coherent =>
    intro hpool hl
    obtain ⟨hl, ht⟩ := List.forall_mem_append.1 hl
    have hlb : ∀ v ∈ log, v.Proper (s.begin c.pool t).kept.size := by rwa [hse.kept_size]
    obtain ⟨hc, hu⟩ := h.coherent (by rwa [hse.pools_size]) hlb
    -- The calculator may ask for other tasks meanwhile, but not for the kept value of its own.
    have hn : u.memo c.pool t = none := by
      have hne := h.task_ne hl
      rw [hr] at hu
      rw [hu, keptAfter_of_ne fun v hv hv' => hne v hv (hv' ▸ Occasion.computed_ne_fresh), hmb, hm]
    have hlaw := computed_lawful d waiting r hs hpool (List.forall_mem_singleton.1 ht).node_lt he hn
    rw [hr, hmb] at hu
    rw [hmb] at hc
    rw [coherent_append, keptAfter_append, ← hu, hk]
    exact ⟨⟨hc, hlaw, trivial⟩, funext hlaw.after⟩
  case cell =>
    intro a ha
    obtain ⟨ha, ht⟩ := List.forall_mem_append.1 ha
    have hne : t ≠ a := List.forall_mem_singleton.1 ht Occasion.computed_ne_fresh
    have hc := h.cell a ha
    rw [hr] at hc
    rw [hk, Store.cell_finish_of_ne hs he fun _ => Ne.symm hne, hc,
      Store.cell_begin_of_ne hs fun _ => Ne.symm hne]
  case blind =>
    intro a ha w
    obtain ⟨ha, ht⟩ := List.forall_mem_append.1 ha
    have hne : t ≠ a := List.forall_mem_singleton.1 ht Occasion.computed_ne_fresh
    have hb := h.blind a ha w
    rw [hr, ← Store.begin_refill hs hne] at hb
    have hm' : (s.refill c.pool a w).memo c.pool t = none := by
      rw [Store.memo_refill_of_ne hs hne, hm]
    rw [hk, Engine.keepTask_of_none hs.refill hp hm' hb, Store.finish_refill hs he hne]
  case fresh =>
    intro hl
    obtain ⟨hl, -⟩ := List.forall_mem_append.1 hl
    have hlb : ∀ v ∈ log, v.Proper (s.begin c.pool t).kept.size := by rwa [hse.kept_size]
    exact List.forall_mem_append.2 ⟨h.fresh hlb, List.forall_mem_singleton.2 Occasion.noConfusion⟩

theorem keepLog {l : List Task → Request → Log α σ}
    (h : ∀ W q u, u.Valid → Faithful e c.pool W u (e.answerWithin c d q) (l W q u))
    (hs : s.Valid) :
    Faithful e c.pool waiting s (e.keepTask c (e.answerWithin c d) t)
      (e.keepLog c d (e.answerWithin c d) l waiting t s) := by
  cases hp : e.performs t with
  | false =>
    have hk (u : Store σ) : e.keepTask c (e.answerWithin c d) t u = (.ok Number.undefined, u) :=
      Engine.keepTask_of_not_performs hp
    simp only [Engine.keepLog, hp, Bool.false_eq_true, if_false]
    exact of_store hs (.ok _) hk
  | true =>
    have hg : (s.data t.node).get? (s.slotOf c.pool t) = s.memo c.pool t :=
      Store.get?_slot_intern hs c.pool t.key t.options t.node
    simp only [Engine.keepLog, hp, hg, if_true]
    cases hm : s.memo c.pool t with
    | some y => exact found_visit hs hp hm
    | none =>
      exact computed_visit hs hp hm
        (behaviour (h (t :: waiting)) (e.program t) (hs.begin c.pool t))

end Tasks

/-- The notes of an answer are faithful to it. -/
theorem logWithin (e : Engine α σ) (c : Computer α) (d : Nat) (waiting : List Task) (q : Request)
    (hs : s.Valid) :
    Faithful e c.pool waiting s (e.answerWithin c d q) (e.logWithin c d waiting q s) := by
  induction d generalizing waiting q s with
  | zero => exact of_store hs (.error .tooDeep) fun _ => rfl
  | succ d ih =>
    have hn (W : List Task) (q : Request) (u : Store σ) (hu : u.Valid) := ih W q hu
    rw [Engine.answerWithin_succ]
    cases q with
    | kept k n o => exact keepLog hn hs
    | fresh k n o => exact freshLog hn hs
    | «over» k ns o r | overOperations k n o r =>
      exact (each (fun t u hu => keepLog hn hu) hs _).then_pure _

end Faithful

end TreeMetrics
