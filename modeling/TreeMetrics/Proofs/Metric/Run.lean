import TreeMetrics.Proofs.Metric.Store

namespace TreeMetrics

namespace Action

variable {S ε β γ : Type} {x : Action S ε β} {f : β → Action S ε γ} {s t : S}

theorem bind_of_ok {b : β} (h : x s = (.ok b, t)) : (x >>= f) s = f b t := by
  change (match x s with | (a, u) => (ExceptT.bindCont f a) u) = _
  rw [h]
  rfl

theorem bind_of_error {e : ε} (h : x s = (.error e, t)) : (x >>= f) s = (.error e, t) := by
  change (match x s with | (a, u) => (ExceptT.bindCont f a) u) = _
  rw [h]
  rfl

end Action

namespace Behaviour

variable {σ : Type} (answer : Request → Run σ Float) (s : Store σ)

theorem run_read (next : σ → Behaviour σ) :
    (read next).run answer s = (next s.state).run answer s := rfl

theorem run_write (state : σ) (next : Behaviour σ) :
    (write state next).run answer s = next.run answer { s with state := state } := rfl

end Behaviour

namespace Engine

variable {α σ : Type} {e : Engine α σ} {c : Computer α} {answer : Request → Run σ Float}
variable {s u : Store σ} {t : Task}

def performs (e : Engine α σ) (t : Task) : Bool := e.supports t.key t.node

def program (e : Engine α σ) (t : Task) : Behaviour σ := e.behaviour t.key t.node t.options

def keepTask (e : Engine α σ) (c : Computer α) (answer : Request → Run σ Float) (t : Task) :
    Run σ Float :=
  e.keep c answer t.key t.node t.options

def freshTask (e : Engine α σ) (answer : Request → Run σ Float) (t : Task) : Run σ Float :=
  if e.performs t then (e.program t).run answer else pure Number.undefined

theorem keepTask_of_not_performs (h : e.performs t = false) :
    e.keepTask c answer t s = (.ok Number.undefined, s) := by
  unfold performs at h
  simp only [keepTask, keep, h]
  rfl

theorem keepTask_eq (h : e.performs t = true) :
    e.keepTask c answer t s =
      DataMap.computeIfAbsent (fun s => s.data t.node) (Store.modifyData t.node)
        (s.slotOf c.pool t) ((e.program t).run answer) (s.intern c.pool t.key t.options).2 := by
  unfold performs at h
  simp only [keepTask, keep, h, if_true]
  rfl

theorem keepTask_of_memo (hs : s.Valid) (h : e.performs t = true) {x : Float}
    (hm : s.memo c.pool t = some x) :
    e.keepTask c answer t s = (.ok x, (s.intern c.pool t.key t.options).2) := by
  have hv : ((s.data t.node).reserve (s.slotOf c.pool t)).1.value = some x := by
    rw [DataMap.value_reserve, ← hm]
    exact Store.get?_slot_intern hs c.pool t.key t.options t.node
  rw [keepTask_eq h]
  simp only [DataMap.computeIfAbsent, Store.data_intern, hv]

theorem keepTask_of_ok (hs : s.Valid) (h : e.performs t = true) (hm : s.memo c.pool t = none)
    {x : Float} (hr : (e.program t).run answer (s.begin c.pool t) = (.ok x, u)) :
    e.keepTask c answer t s =
      (.ok x, u.settle t.node (s.slotOf c.pool t) (s.versionOf c.pool t) x) := by
  have hv : ((s.data t.node).reserve (s.slotOf c.pool t)).1.value = none := by
    rw [DataMap.value_reserve, ← hm]
    exact Store.get?_slot_intern hs c.pool t.key t.options t.node
  unfold Store.begin at hr
  rw [keepTask_eq h]
  simp only [DataMap.computeIfAbsent, Store.data_intern, hv, hr]
  rfl

theorem keepTask_of_error (hs : s.Valid) (h : e.performs t = true) (hm : s.memo c.pool t = none)
    {x : Stop} (hr : (e.program t).run answer (s.begin c.pool t) = (.error x, u)) :
    e.keepTask c answer t s = (.error x, u) := by
  have hv : ((s.data t.node).reserve (s.slotOf c.pool t)).1.value = none := by
    rw [DataMap.value_reserve, ← hm]
    exact Store.get?_slot_intern hs c.pool t.key t.options t.node
  unfold Store.begin at hr
  rw [keepTask_eq h]
  simp only [DataMap.computeIfAbsent, Store.data_intern, hv, hr]

/-- The tasks whose values a request asks for, in order. -/
def tasks (e : Engine α σ) (c : Computer α) : Request → List Task
  | .kept k n o | .fresh k n o => if e.supports k n then [⟨k, n, o⟩] else []
  | .over k ns o _ => (ns.filter (e.supports k)).map (⟨k, ·, o⟩)
  | .overOperations k n o _ => ((c.operations e.doc n).filter (e.supports k)).map (⟨k, ·, o⟩)

theorem performs_of_mem_tasks {q : Request} (h : t ∈ e.tasks c q) : e.performs t = true := by
  cases q with
  | kept k n o | fresh k n o =>
    simp only [tasks] at h
    split at h
    · rename_i hp
      rw [List.mem_singleton.1 h]
      exact hp
    · cases h
  | «over» k ns o r | overOperations k n o r =>
    simp only [tasks, List.mem_map, List.mem_filter] at h
    obtain ⟨n, ⟨_, hp⟩, rfl⟩ := h
    exact hp

/-- Answers a request with `value` in place of the kept values of tasks. -/
def respondBy (e : Engine α σ) (c : Computer α) (answer : Request → Run σ Float)
    (value : Task → Run σ Float) : Request → Run σ Float
  | .kept k n o => value ⟨k, n, o⟩
  | .fresh k n o => e.freshTask answer ⟨k, n, o⟩
  | .over k ns o r => do
    let xs ← (e.tasks c (.over k ns o r)).mapM value
    pure (r.reduce xs)
  | .overOperations k n o r => do
    let xs ← (e.tasks c (.overOperations k n o r)).mapM value
    pure (r.reduce xs)

theorem respond_eq (q : Request) :
    e.respond c answer q = e.respondBy c answer (e.keepTask c answer) q := by
  cases q with
  | kept k n o | fresh k n o => rfl
  | «over» k ns o r | overOperations k n o r =>
    simp only [respondBy, tasks, List.mapM_map]
    rfl

theorem answerWithin_succ (d : Nat) (q : Request) :
    e.answerWithin c (d + 1) q =
      e.respondBy c (e.answerWithin c d) (e.keepTask c (e.answerWithin c d)) q :=
  respond_eq q

theorem answerWithin_kept (d : Nat) (t : Task) :
    e.answerWithin c (d + 1) (.kept t.key t.node t.options) =
      e.keepTask c (e.answerWithin c d) t := by
  rw [answerWithin_succ, respondBy]

theorem answerWithin_fresh (d : Nat) (h : e.performs t = true) :
    e.answerWithin c (d + 1) (.fresh t.key t.node t.options) =
      (e.program t).run (e.answerWithin c d) := by
  rw [answerWithin_succ, respondBy, freshTask, if_pos h]

end Engine

/-- The run takes valid stores to valid ones that have evolved from them. -/
def Steady {σ β : Type} (x : Run σ β) : Prop :=
  ∀ s : Store σ, s.Valid → (x s).2.Valid ∧ s.Evolves (x s).2

namespace Steady

variable {α σ β γ : Type} {x : Run σ β} {f : β → Run σ γ}

theorem pure (b : β) : Steady (Pure.pure b : Run σ β) := fun s hs => ⟨hs, .refl s⟩

theorem throw (e : Stop) : Steady (MonadExcept.throw e : Run σ β) := fun s hs => ⟨hs, .refl s⟩

theorem bind (hx : Steady x) (hf : ∀ b, Steady (f b)) : Steady (x >>= f) := by
  intro s hs
  obtain ⟨hu, he⟩ := hx s hs
  cases h : x s with
  | mk r u =>
    rw [h] at hu he
    cases r with
    | ok b =>
      rw [Action.bind_of_ok h]
      obtain ⟨hv, he'⟩ := hf b u hu
      exact ⟨hv, he.trans he'⟩
    | error e =>
      rw [Action.bind_of_error h]
      exact ⟨hu, he⟩

theorem mapM {δ : Type} {g : δ → Run σ β} (hg : ∀ d, Steady (g d)) (ds : List δ) :
    Steady (ds.mapM g) := by
  induction ds with
  | nil =>
    rw [List.mapM_nil]
    exact .pure _
  | cons d ds ih =>
    rw [List.mapM_cons]
    exact (hg d).bind fun b => ih.bind fun bs => .pure _

theorem behaviour {answer : Request → Run σ Float} (ha : ∀ q, Steady (answer q))
    (b : Behaviour σ) : Steady (b.run answer) := by
  induction b with
  | value y => exact .pure y
  | stop m => exact .throw _
  | read next ih => exact fun s => ih s.state s
  | write state next ih =>
    intro s hs
    have hw : ({ s with state := state } : Store σ).Valid := ⟨hs.slot_lt, hs.used_lt, hs.slot_inj⟩
    obtain ⟨hu, he⟩ := ih _ hw
    exact ⟨hu, ⟨he.nextSlot_le, he.pools_size, he.kept_size, he.stays, he.old, he.slot⟩⟩
  | ask q next ih => exact (ha q).bind ih

variable {e : Engine α σ} {c : Computer α}

theorem freshTask {answer : Request → Run σ Float} (ha : ∀ q, Steady (answer q)) (t : Task) :
    Steady (e.freshTask answer t) := by
  unfold Engine.freshTask
  split
  · exact behaviour ha _
  · exact .pure _

theorem keepTask {answer : Request → Run σ Float} (ha : ∀ q, Steady (answer q)) (t : Task) :
    Steady (e.keepTask c answer t) := by
  intro s hs
  cases hp : e.performs t with
  | false =>
    rw [Engine.keepTask_of_not_performs hp]
    exact ⟨hs, .refl s⟩
  | true =>
    cases hm : s.memo c.pool t with
    | some y =>
      rw [Engine.keepTask_of_memo hs hp hm]
      exact ⟨hs.intern _ _ _, .intern s _ _ _⟩
    | none =>
      obtain ⟨hu, he⟩ := behaviour ha (e.program t) _ (hs.begin c.pool t)
      have he' := (Store.Evolves.begin s c.pool t).trans he
      cases hr : (e.program t).run answer (s.begin c.pool t) with
      | mk r u =>
        rw [hr] at hu he'
        cases r with
        | ok y =>
          rw [Engine.keepTask_of_ok hs hp hm hr]
          exact ⟨hu.settle, he'.trans (.settle u)⟩
        | error y =>
          rw [Engine.keepTask_of_error hs hp hm hr]
          exact ⟨hu, he'⟩

theorem respondBy {answer : Request → Run σ Float} {value : Task → Run σ Float}
    (ha : ∀ q, Steady (answer q)) (hv : ∀ t, Steady (value t)) (q : Request) :
    Steady (e.respondBy c answer value q) := by
  cases q with
  | kept k n o => exact hv ⟨k, n, o⟩
  | fresh k n o => exact freshTask ha ⟨k, n, o⟩
  | «over» k ns o r | overOperations k n o r => exact (mapM hv _).bind fun xs => .pure _

/-- No answer makes a store invalid, however the calculators behave. -/
theorem answerWithin (e : Engine α σ) (c : Computer α) (d : Nat) (q : Request) :
    Steady (e.answerWithin c d q) := by
  induction d generalizing q with
  | zero => exact .throw _
  | succ d ih =>
    rw [Engine.answerWithin_succ]
    exact respondBy ih (keepTask ih) q

end Steady

end TreeMetrics
