import Mathlib.Data.List.Forall2
import TreeMetrics.Proofs.Metric.Run

namespace TreeMetrics

/-- What a pure calculator does: it ends in a value, or goes on with the value of another task. -/
inductive Plan where
  | value (x : Float)
  | ask (t : Task) (next : Float → Plan)

namespace Plan

def askAll : List Task → (List Float → Plan) → Plan
  | [], next => next []
  | t :: ts, next => .ask t fun x => askAll ts fun xs => next (x :: xs)

def run (v : Task → Option Float) : Plan → Option Float
  | value x => some x
  | ask t next => (v t).bind fun x => run v (next x)

/-- The value of a task where each task has a plan, if no more than `d` plans wait for each
other. -/
def valueWithin (plan : Task → Plan) : Nat → Task → Option Float
  | 0, _ => none
  | d + 1, t => (plan t).run (valueWithin plan d)

/-- The plan comes to ask for the value of a task. -/
inductive Needs (plan : Task → Plan) : Plan → Task → Prop where
  | here (t : Task) (next : Float → Plan) : Needs plan (.ask t next) t
  | later {t u : Task} {next : Float → Plan} {x : Float} {d : Nat} :
    valueWithin plan d t = some x → Needs plan (next x) u → Needs plan (.ask t next) u

/-- The value of the first task is asked for to compute that of the second. -/
def DependsOn (plan : Task → Plan) (u t : Task) : Prop := Needs plan (plan t) u

variable {plan : Task → Plan} {v w : Task → Option Float} {p : Plan} {x y : Float}

theorem run_askAll {ts : List Task} {next : List Float → Plan} :
    (askAll ts next).run v = (ts.mapM v).bind fun xs => (next xs).run v := by
  induction ts generalizing next with
  | nil => rfl
  | cons t ts ih =>
    simp only [askAll, run, ih, List.mapM_cons]
    cases v t with
    | none => rfl
    | some x =>
      cases ts.mapM v with
      | none => rfl
      | some xs => rfl

theorem run_mono (h : ∀ t y, v t = some y → w t = some y) (hp : p.run v = some x) :
    p.run w = some x := by
  induction p with
  | value z => exact hp
  | ask t next ih =>
    obtain ⟨y, hy, hx⟩ := Option.bind_eq_some_iff.1 hp
    simp only [run, h t y hy]
    exact ih y hx

theorem valueWithin_succ {d : Nat} {t : Task} (h : valueWithin plan d t = some x) :
    valueWithin plan (d + 1) t = some x := by
  induction d generalizing t x with
  | zero => cases h
  | succ d ih => exact run_mono (fun _ _ => ih) h

theorem valueWithin_mono {d d' : Nat} {t : Task} (hd : d ≤ d')
    (h : valueWithin plan d t = some x) : valueWithin plan d' t = some x := by
  induction hd with
  | refl => exact h
  | step _ ih => exact valueWithin_succ ih

/-- A task has one value, however deep one has to go for it. -/
theorem valueWithin_unique {d d' : Nat} {t : Task} (h : valueWithin plan d t = some x)
    (h' : valueWithin plan d' t = some y) : x = y := by
  have hx := valueWithin_mono (Nat.le_max_left d d') h
  have hy := valueWithin_mono (Nat.le_max_right d d') h'
  rw [hx] at hy
  exact Option.some.inj hy

theorem exists_run (h : ∀ u, Needs plan p u → ∃ d y, valueWithin plan d u = some y) :
    ∃ d x, p.run (valueWithin plan d) = some x := by
  induction p with
  | value x => exact ⟨0, x, rfl⟩
  | ask t next ih =>
    obtain ⟨d, y, hy⟩ := h t (.here t next)
    obtain ⟨d', x, hx⟩ := ih y fun u hu => h u (.later hy hu)
    refine ⟨max d d', x, ?_⟩
    simp only [run, valueWithin_mono (Nat.le_max_left d d') hy]
    exact run_mono (fun _ _ => valueWithin_mono (Nat.le_max_right d d')) hx

/-- Where no task depends on itself every task has a value. -/
theorem exists_valueWithin (hwf : WellFounded (DependsOn plan)) (t : Task) :
    ∃ d x, valueWithin plan d t = some x := by
  induction t using hwf.induction with
  | _ t ih =>
    obtain ⟨d, x, hx⟩ := exists_run ih
    exact ⟨d + 1, x, hx⟩

theorem exists_mapM_valueWithin (hwf : WellFounded (DependsOn plan)) (ts : List Task) :
    ∃ d xs, ts.mapM (valueWithin plan d) = some xs := by
  obtain ⟨d, x, hx⟩ := exists_run (p := askAll ts fun _ => .value Number.undefined)
    fun u _ => exists_valueWithin hwf u
  rw [run_askAll] at hx
  obtain ⟨xs, hxs, _⟩ := Option.bind_eq_some_iff.1 hx
  exact ⟨d, xs, hxs⟩

theorem needs_askAll {ts : List Task} {next : List Float → Plan} {u : Task}
    (h : Needs plan (askAll ts next) u) : u ∈ ts ∨ ∃ xs, Needs plan (next xs) u := by
  induction ts generalizing next with
  | nil => exact .inr ⟨[], h⟩
  | cons t ts ih =>
    cases h with
    | here => exact .inl List.mem_cons_self
    | later _ h =>
      rcases ih h with h | ⟨xs, h⟩
      · exact .inl (List.mem_cons_of_mem t h)
      · exact .inr ⟨_, h⟩

theorem mapM_mono (h : ∀ t y, v t = some y → w t = some y) {ts : List Task} {xs : List Float}
    (hts : ts.mapM v = some xs) : ts.mapM w = some xs := by
  induction ts generalizing xs with
  | nil => exact hts
  | cons t ts ih =>
    rw [List.mapM_cons] at hts ⊢
    obtain ⟨y, hy, hts⟩ := Option.bind_eq_some_iff.1 hts
    obtain ⟨ys, hys, hxs⟩ := Option.bind_eq_some_iff.1 hts
    rw [h t y hy]
    simp only [Option.bind_eq_bind, Option.bind_some, ih hys]
    exact hxs

end Plan

/-- The answer to a request, given the values of its tasks. -/
def Request.combine : Request → List Float → Float
  | .kept .., xs | .fresh .., xs => xs.headD Number.undefined
  | .over _ _ _ r, xs | .overOperations _ _ _ r, xs => r.reduce xs

/-- Through a computer, the behaviour acts as the plan does, whatever the state that calculators
share. -/
inductive Behaviour.Follows {α σ : Type} (e : Engine α σ) (c : Computer α) :
    Behaviour σ → Plan → Prop where
  | value (x : Float) : Follows e c (.value x) (.value x)
  | read {next : σ → Behaviour σ} {p : Plan} :
    (∀ s, Follows e c (next s) p) → Follows e c (.read next) p
  | write {s : σ} {next : Behaviour σ} {p : Plan} :
    Follows e c next p → Follows e c (.write s next) p
  | ask {q : Request} {next : Float → Behaviour σ} {p : List Float → Plan} :
    (∀ xs, Follows e c (next (q.combine xs)) (p xs)) →
      Follows e c (.ask q next) (.askAll (e.tasks c q) p)

/-- On every run that starts in a good store, the value is `b` and the store stays good. -/
def Yields {σ β : Type} (good : Store σ → Prop) (x : Run σ β) (b : β) : Prop :=
  ∀ s, good s → ∃ u, x s = (.ok b, u) ∧ good u

namespace Yields

variable {α σ β γ : Type} {good : Store σ → Prop} {x : Run σ β} {f : β → Run σ γ}

theorem pure (b : β) : Yields good (Pure.pure b) b := fun s hs => ⟨s, rfl, hs⟩

theorem bind {b : β} {y : γ} (hx : Yields good x b) (hf : Yields good (f b) y) :
    Yields good (x >>= f) y := by
  intro s hs
  obtain ⟨u, hu, hg⟩ := hx s hs
  rw [Action.bind_of_ok hu]
  exact hf u hg

theorem mapM {g : Task → Run σ Float} {v : Task → Option Float} {ts : List Task}
    {xs : List Float} (hg : ∀ t ∈ ts, ∀ y, v t = some y → Yields good (g t) y)
    (hts : ts.mapM v = some xs) : Yields good (ts.mapM g) xs := by
  induction ts generalizing xs with
  | nil =>
    cases hts
    rw [List.mapM_nil]
    exact .pure []
  | cons t ts ih =>
    rw [List.mapM_cons] at hts ⊢
    obtain ⟨y, hy, hts⟩ := Option.bind_eq_some_iff.1 hts
    obtain ⟨ys, hys, hxs⟩ := Option.bind_eq_some_iff.1 hts
    cases hxs
    have ht := hg t List.mem_cons_self y hy
    exact ht.bind ((ih (fun u hu => hg u (List.mem_cons_of_mem t hu)) hys).bind (.pure _))

theorem forall₂ {bs : List β} {cs : List γ}
    (h : List.Forall₂ (fun b y => Yields good (f b) y) bs cs) : Yields good (bs.mapM f) cs := by
  induction h with
  | nil =>
    rw [List.mapM_nil]
    exact .pure []
  | cons hb _ ih =>
    rw [List.mapM_cons]
    exact hb.bind (ih.bind (.pure _))

variable {e : Engine α σ} {c : Computer α} {answer : Request → Run σ Float}
variable {v : Task → Option Float}

/-- A behaviour that acts as a plan ends in the value of the plan, if its requests get the answers
that the plan expects. -/
theorem behaviour (hw : ∀ s (state : σ), good s → good { s with state := state })
    (ha : ∀ q xs, (e.tasks c q).mapM v = some xs → Yields good (answer q) (q.combine xs))
    {b : Behaviour σ} {p : Plan} (hb : b.Follows e c p) {y : Float} (hy : p.run v = some y) :
    Yields good (b.run answer) y := by
  induction hb with
  | value z =>
    cases hy
    exact .pure _
  | read _ ih => exact fun s => ih s.state hy s
  | write _ ih => exact fun s hs => ih hy _ (hw s _ hs)
  | ask _ ih =>
    rw [Plan.run_askAll] at hy
    obtain ⟨xs, hxs, hy⟩ := Option.bind_eq_some_iff.1 hy
    exact (ha _ xs hxs).bind (ih xs hy)

theorem respondBy {value : Task → Run σ Float}
    (hv : ∀ t, e.performs t = true → ∀ y, v t = some y →
      Yields good (value t) y ∧ Yields good (e.freshTask answer t) y)
    (hn : ∀ t, e.performs t = false → Yields good (value t) Number.undefined)
    {q : Request} {xs : List Float} (hq : (e.tasks c q).mapM v = some xs) :
    Yields good (e.respondBy c answer value q) (q.combine xs) := by
  have hs (k n o) (h : e.supports k n = true) (hq : (e.tasks c (.kept k n o)).mapM v = some xs) :
      v ⟨k, n, o⟩ = some (xs.headD Number.undefined) := by
    simp only [Engine.tasks, h, if_true, List.mapM_cons, List.mapM_nil] at hq
    obtain ⟨y, hy, hq⟩ := Option.bind_eq_some_iff.1 hq
    cases hq
    exact hy
  have hu (k n o) (h : e.supports k n = false) (hq : (e.tasks c (.kept k n o)).mapM v = some xs) :
      xs = [] := by
    simp only [Engine.tasks, h, Bool.false_eq_true, if_false, List.mapM_nil] at hq
    exact (Option.some.inj hq).symm
  cases q with
  | kept k n o =>
    cases h : e.supports k n with
    | true => exact (hv ⟨k, n, o⟩ h _ (hs k n o h hq)).1
    | false =>
      rw [hu k n o h hq]
      exact hn ⟨k, n, o⟩ h
  | fresh k n o =>
    cases h : e.supports k n with
    | true => exact (hv ⟨k, n, o⟩ h _ (hs k n o h hq)).2
    | false =>
      rw [hu k n o h hq]
      have hp : e.performs ⟨k, n, o⟩ = false := h
      simp only [Engine.respondBy, Engine.freshTask, hp]
      exact .pure _
  | «over» k ns o r | overOperations k n o r =>
    exact (mapM (fun t ht y hy => (hv t (Engine.performs_of_mem_tasks ht) y hy).1) hq).bind
      (.pure _)

end Yields

/-- What is kept for each task is its value under the plans of the pool. -/
structure Store.Sound {σ : Type} (plan : Nat → Task → Plan) (s : Store σ) : Prop where
  valid : s.Valid
  value_of_memo : ∀ {p t x}, s.memo p t = some x → ∃ d, Plan.valueWithin (plan p) d t = some x

namespace Store.Sound

variable {σ : Type} {plan : Nat → Task → Plan} {s u : Store σ} {p : Nat} {t : Task}

theorem init (pools nodes : Nat) (state : σ) : (Store.init pools nodes state).Sound plan :=
  ⟨.init pools nodes state, fun h => by rw [memo_init] at h; cases h⟩

theorem write (h : s.Sound plan) (state : σ) : ({ s with state := state } : Store σ).Sound plan :=
  ⟨⟨h.valid.slot_lt, h.valid.used_lt, h.valid.slot_inj⟩, h.value_of_memo⟩

theorem clear (h : s.Sound plan) (p : Nat) : (s.clear p).Sound plan := by
  refine ⟨h.valid.clear p, fun {q t x} hx => ?_⟩
  rw [memo_clear] at hx
  split at hx
  · cases hx
  · exact h.value_of_memo hx

theorem intern (h : s.Sound plan) (k : MetricKey) (o : OptionSet) :
    (s.intern p k o).2.Sound plan :=
  ⟨h.valid.intern p k o, fun hx => h.value_of_memo (by rwa [memo_intern h.valid] at hx)⟩

theorem begin (h : s.Sound plan) (t : Task) : (s.begin p t).Sound plan :=
  ⟨h.valid.begin p t, fun hx => h.value_of_memo (by rwa [memo_begin p t h.valid] at hx)⟩

theorem settle (hs : s.Valid) (he : Evolves (s.begin p t) u) (h : u.Sound plan) {d version : Nat}
    {v : Float} (hv : Plan.valueWithin (plan p) d t = some v) :
    (u.settle t.node (s.slotOf p t) version v).Sound plan := by
  refine ⟨h.valid.settle, fun {q b x} hx => ?_⟩
  rcases eq_of_memo_settle hs he hx with hx | ⟨⟨rfl, rfl⟩, rfl⟩
  · exact h.value_of_memo hx
  · exact ⟨d, hv⟩

end Store.Sound

namespace Engine

variable {α σ : Type} {e : Engine α σ} {c : Computer α}

/-- Through a computer, the calculators act on every task as its plan says. -/
def Pure (e : Engine α σ) (c : Computer α) (plan : Task → Plan) : Prop :=
  ∀ t, e.performs t = true → (e.program t).Follows e c (plan t)

/-- Answers a request by running calculators anew for every value: neither pools nor kept values
are looked at. -/
def recomputeWithin (e : Engine α σ) (c : Computer α) : Nat → Request → Run σ Float
  | 0, _ => throw .tooDeep
  | d + 1, q => e.respondBy c (recomputeWithin e c d) (e.freshTask (recomputeWithin e c d)) q

theorem freshTask_yields {good : Store σ → Prop} {answer : Request → Run σ Float} {t : Task}
    {y : Float} (hp : e.performs t = true) (h : Yields good ((e.program t).run answer) y) :
    Yields good (e.freshTask answer t) y := by
  simp only [freshTask, hp, if_true]
  exact h

/-- The kept value of a task is that of its plan, be it found or computed now. -/
theorem keepTask_yields {plan : Nat → Task → Plan} {answer : Request → Run σ Float} {t : Task}
    {y : Float} {d : Nat} (ha : ∀ q, Steady (answer q)) (hp : e.performs t = true)
    (hd : Plan.valueWithin (plan c.pool) d t = some y)
    (h : Yields (Store.Sound plan) ((e.program t).run answer) y) :
    Yields (Store.Sound plan) (e.keepTask c answer t) y := by
  intro s hs
  cases hm : s.memo c.pool t with
  | some x =>
    obtain ⟨d', hd'⟩ := hs.value_of_memo hm
    rw [keepTask_of_memo hs.valid hp hm, Plan.valueWithin_unique hd' hd]
    exact ⟨_, rfl, hs.intern t.key t.options⟩
  | none =>
    -- What the calculator asks for is kept as well, so the slot is settled in a later store.
    obtain ⟨u, hu, hg⟩ := h _ (hs.begin (p := c.pool) t)
    have he := (Steady.behaviour ha (e.program t) _ (hs.valid.begin c.pool t)).2
    rw [hu] at he
    rw [keepTask_of_ok hs.valid hp hm hu]
    exact ⟨_, rfl, hg.settle hs.valid he hd⟩

theorem answerWithin_yields {plan : Nat → Task → Plan} (hpure : e.Pure c (plan c.pool)) {d : Nat}
    {q : Request} {xs : List Float}
    (hq : (e.tasks c q).mapM (Plan.valueWithin (plan c.pool) d) = some xs) :
    Yields (Store.Sound plan) (e.answerWithin c (d + 1) q) (q.combine xs) := by
  induction d generalizing q xs with
  | zero =>
    rw [answerWithin_succ]
    refine .respondBy (fun t _ y hy => by cases hy) (fun t hp s hs => ?_) hq
    rw [keepTask_of_not_performs hp]
    exact ⟨s, rfl, hs⟩
  | succ d ih =>
    rw [answerWithin_succ]
    refine .respondBy (fun t hp y hy => ?_) (fun t hp s hs => ?_) hq
    · have hr : Yields (Store.Sound plan) ((e.program t).run (e.answerWithin c (d + 1))) y :=
        .behaviour (fun s state hs => hs.write state) (fun _ _ => ih) (hpure t hp) hy
      exact ⟨keepTask_yields (Steady.answerWithin e c (d + 1)) hp hy hr, freshTask_yields hp hr⟩
    · rw [keepTask_of_not_performs hp]
      exact ⟨s, rfl, hs⟩

theorem recomputeWithin_yields {plan : Task → Plan} (hpure : e.Pure c plan) {d : Nat}
    {q : Request} {xs : List Float} (hq : (e.tasks c q).mapM (Plan.valueWithin plan d) = some xs) :
    Yields (fun _ => True) (e.recomputeWithin c (d + 1) q) (q.combine xs) := by
  have hn (answer : Request → Run σ Float) (t : Task) (hp : e.performs t = false) :
      Yields (fun _ => True) (e.freshTask answer t) Number.undefined := by
    simp only [freshTask, hp]
    exact .pure _
  induction d generalizing q xs with
  | zero => exact .respondBy (fun t _ y hy => by cases hy) (hn _) hq
  | succ d ih =>
    refine .respondBy (fun t hp y hy => ?_) (hn _) hq
    have hr : Yields (fun _ => True) ((e.program t).run (e.recomputeWithin c (d + 1))) y :=
      .behaviour (fun _ _ _ => trivial) (fun _ _ => ih) (hpure t hp) hy
    exact ⟨freshTask_yields hp hr, freshTask_yields hp hr⟩

end Engine

/-- What is done with an engine from outside: a computer gets a request, or a pool is cleared. -/
inductive Call (α : Type) where
  | request (c : Computer α) (q : Request)
  | clear (pool : Nat)

namespace Engine

variable {α σ : Type} {e : Engine α σ}

/-- Carries out calls one after the other, while no more than `depth` calculators wait for each
other. A request gets an answer and a stop does not stop the next calls. -/
def performWithin (e : Engine α σ) (depth : Nat) :
    List (Call α) → Store σ → List (Option (Except Stop Float)) × Store σ
  | [], s => ([], s)
  | .request c q :: calls, s =>
    let (answer, s) := e.answerWithin c depth q s
    let (answers, s) := performWithin e depth calls s
    (some answer :: answers, s)
  | .clear p :: calls, s =>
    let (answers, s) := performWithin e depth calls (s.clear p)
    (none :: answers, s)

/-- The answer to a request is the value that running calculators anew gives in every store. -/
def Transparent (e : Engine α σ) (depth : Nat) : Call α → Option (Except Stop Float) → Prop
  | .request c q, answer =>
    ∃ x, answer = some (.ok x) ∧ ∀ s, (e.recomputeWithin c depth q s).1 = .ok x
  | .clear _, answer => answer = none

theorem performWithin_transparent {plan : Nat → Task → Plan} {depth : Nat} {calls : List (Call α)}
    (hcalls : ∀ c q, Call.request c q ∈ calls → e.Pure c (plan c.pool) ∧
      ∃ xs, (e.tasks c q).mapM (Plan.valueWithin (plan c.pool) depth) = some xs)
    {s : Store σ} (hs : s.Sound plan) :
    List.Forall₂ (e.Transparent (depth + 1)) calls (e.performWithin (depth + 1) calls s).1 := by
  induction calls generalizing s with
  | nil => exact .nil
  | cons call calls ih =>
    have hrest := fun c q h => hcalls c q (List.mem_cons_of_mem call h)
    cases call with
    | request c q =>
      obtain ⟨hpure, xs, hxs⟩ := hcalls c q List.mem_cons_self
      obtain ⟨u, hu, hg⟩ := answerWithin_yields hpure hxs s hs
      simp only [performWithin, hu]
      refine .cons ⟨q.combine xs, rfl, fun s' => ?_⟩ (ih hrest hg)
      obtain ⟨u', hu', _⟩ := recomputeWithin_yields hpure hxs s' trivial
      rw [hu']
    | clear p => exact .cons rfl (ih hrest (hs.clear p))

/-- Finitely many calls get by with one depth. -/
theorem exists_depth_of_wellFounded {plan : Nat → Task → Plan} {calls : List (Call α)}
    (hwf : ∀ c q, Call.request c q ∈ calls → WellFounded (Plan.DependsOn (plan c.pool))) :
    ∃ d, ∀ c q, Call.request c q ∈ calls →
      ∃ xs, (e.tasks c q).mapM (Plan.valueWithin (plan c.pool) d) = some xs := by
  induction calls with
  | nil => exact ⟨0, fun _ _ h => nomatch h⟩
  | cons call calls ih =>
    obtain ⟨d, hd⟩ := ih fun c q h => hwf c q (List.mem_cons_of_mem call h)
    cases call with
    | clear p => exact ⟨d, fun c q h => hd c q (by simpa using h)⟩
    | request c' q' =>
      obtain ⟨d', xs, hxs⟩ :=
        Plan.exists_mapM_valueWithin (hwf c' q' List.mem_cons_self) (e.tasks c' q')
      refine ⟨max d d', fun c q h => ?_⟩
      rcases List.mem_cons.1 h with h | h
      · cases h
        exact ⟨xs, Plan.mapM_mono (fun _ _ => Plan.valueWithin_mono (Nat.le_max_right ..)) hxs⟩
      · obtain ⟨ys, hys⟩ := hd c q h
        exact ⟨ys, Plan.mapM_mono (fun _ _ => Plan.valueWithin_mono (Nat.le_max_left ..)) hys⟩

/-- To keep values is transparent: through any computers and pools, after whatever calls, every
answer is the one that running the calculators anew gives, provided that they are pure and no task
depends on itself. Only the depth to which calculators may wait for each other has to suffice. -/
theorem answers_eq_recomputed (e : Engine α σ) (plan : Nat → Task → Plan) (calls : List (Call α))
    (hpure : ∀ c q, Call.request c q ∈ calls → e.Pure c (plan c.pool))
    (hwf : ∀ c q, Call.request c q ∈ calls → WellFounded (Plan.DependsOn (plan c.pool)))
    (pools nodes : Nat) (state : σ) :
    ∃ bound, ∀ depth, bound ≤ depth →
      List.Forall₂ (e.Transparent depth) calls
        (e.performWithin depth calls (.init pools nodes state)).1 := by
  obtain ⟨d, hd⟩ := exists_depth_of_wellFounded (e := e) hwf
  refine ⟨d + 1, fun depth hle => ?_⟩
  obtain ⟨d', rfl⟩ : ∃ d', depth = d' + 1 := ⟨depth - 1, by omega⟩
  refine performWithin_transparent (fun c q h => ⟨hpure c q h, ?_⟩) (.init pools nodes state)
  obtain ⟨xs, hxs⟩ := hd c q h
  exact ⟨xs, Plan.mapM_mono (fun _ _ => Plan.valueWithin_mono (by omega)) hxs⟩

end Engine

namespace Sample

/-- Counts a node as one, and its own runs beside it. -/
def one : Calculator String Nat where
  supports _ _ := true
  behaviour _ _ _ := .read fun runs => .write (runs + 1) (.value (Number.ofCount 1))

/-- Adds up what is counted on the operations of an inner node. -/
def total : Calculator String Nat where
  supports doc n := !doc.isLeaf n
  behaviour _ n o := .ask (.overOperations ⟨"ONE", 0⟩ n o .sum) .value

def engine : Engine String Nat :=
  ⟨.ofTree (.node "class" [.leaf "method", .leaf "method"]), #[one, total]⟩

def computer (pool : Nat) : Computer String := ⟨pool, Document.children⟩

def plan (t : Task) : Plan :=
  if t.key.calculator = 0 then .value (Number.ofCount 1)
  else
    .askAll (engine.tasks (computer 0) (.overOperations ⟨"ONE", 0⟩ t.node t.options .sum))
      fun xs => .value (Reduction.sum.reduce xs)

/-- Requests through two pools, one of which is cleared meanwhile. -/
def calls : List (Call String) :=
  [.request (computer 0) (.kept ⟨"TOTAL", 1⟩ 0 .empty),
    .request (computer 1) (.kept ⟨"TOTAL", 1⟩ 0 .empty),
    .clear 0,
    .request (computer 0) (.kept ⟨"TOTAL", 1⟩ 0 (.ofList ["x"])),
    .request (computer 0) (.over ⟨"ONE", 0⟩ [2, 0, 1] .empty .average),
    .request (computer 1) (.fresh ⟨"TOTAL", 1⟩ 1 .empty)]

theorem engine_pure (pool : Nat) : engine.Pure (computer pool) plan := by
  intro t ht
  obtain ⟨⟨name, calculator⟩, n, o⟩ := t
  match calculator with
  | 0 => exact .read fun runs => .write (.value _)
  | 1 => exact .ask fun xs => .value _
  | i + 2 => cases ht

theorem dependsOn_lt {u t : Task} (h : Plan.DependsOn plan u t) :
    u.key.calculator < t.key.calculator := by
  unfold Plan.DependsOn at h
  rw [plan] at h
  split at h
  · cases h
  · rename_i ht
    rcases Plan.needs_askAll h with h | ⟨xs, h⟩
    · simp only [Engine.tasks, List.mem_map] at h
      obtain ⟨n, _, rfl⟩ := h
      exact Nat.pos_of_ne_zero ht
    · cases h

theorem dependsOn_wellFounded : WellFounded (Plan.DependsOn plan) :=
  Subrelation.wf dependsOn_lt (measure fun t : Task => t.key.calculator).wf

theorem answers_eq_recomputed_of_calls :
    ∃ bound, ∀ depth, bound ≤ depth →
      List.Forall₂ (engine.Transparent depth) calls
        (engine.performWithin depth calls (.init 2 3 0)).1 := by
  refine engine.answers_eq_recomputed (fun _ => plan) calls (fun c q h => ?_)
    (fun _ _ _ => dependsOn_wellFounded) 2 3 0
  simp only [calls, List.mem_cons, List.not_mem_nil, Call.request.injEq, or_false, reduceCtorEq,
    false_or] at h
  rcases h with h | h | h | h | h <;> exact h.1 ▸ engine_pure _

end Sample

end TreeMetrics
