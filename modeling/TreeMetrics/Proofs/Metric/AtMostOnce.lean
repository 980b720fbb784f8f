import TreeMetrics.Proofs.Data.Basic
import TreeMetrics.Proofs.Metric.Faithful

namespace TreeMetrics

/-- A request, with the notes on it and its answer. -/
structure Episode (α σ : Type) where
  request : Request
  visits : List (Visit α σ)
  answer : Except Stop Float

def visits {α σ : Type} (run : List (Episode α σ)) : List (Visit α σ) :=
  run.flatMap Episode.visits

namespace Engine

variable {α σ : Type} {e : Engine α σ} {c : Computer α} {d : Nat} {s : Store σ}

/-- Answers requests one after the other; one that stops leaves its store to the next. -/
def episodes (e : Engine α σ) (d : Nat) :
    List (Computer α × Request) → Store σ → List (Episode α σ)
  | [], _ => []
  | (c, q) :: calls, s =>
    let (answer, u) := e.answerWithin c d q s
    ⟨q, e.logWithin c d [] q s, answer⟩ :: episodes e d calls u

/-- The last note on a task is on the task itself. -/
theorem keepLog_concat {answer : Request → Run σ Float} {l : List Task → Request → Log α σ}
    {waiting : List Task} {t : Task} (h : e.performs t = true) :
    ∃ l' v, e.keepLog c d answer l waiting t s = l' ++ [v] ∧ v.task = t ∧ v.occasion ≠ .fresh ∧
      v.result = (e.keepTask c answer t s).1 := by
  cases hg : (s.data t.node).get? (s.slotOf c.pool t) with
  | some y =>
    simp only [keepLog, h, hg, if_true]
    exact ⟨[], _, rfl, rfl, Occasion.found_ne_fresh, rfl⟩
  | none =>
    simp only [keepLog, h, hg, if_true]
    exact ⟨_, _, rfl, rfl, Occasion.computed_ne_fresh, rfl⟩

end Engine

/-- What holds of a sequence of episodes if values are computed at most once. -/
structure AtMostOnce {α σ : Type} (e : Engine α σ) (p : Nat) (run : List (Episode α σ)) : Prop where
  /-- Each visit is the answer to a request, without a run of the calculator if the value is found
  and by a single run of it if not. -/
  enacted : ∀ v ∈ visits run, v.Enacted e p
  /-- A request for a kept value is answered by the last visit of its episode. -/
  asks : ∀ c ∈ run, ∀ k n o, c.request = .kept k n o → e.supports k n →
    ∃ l v, c.visits = l ++ [v] ∧ v.task = ⟨k, n, o⟩ ∧ v.occasion ≠ .fresh ∧ v.result = c.answer
  /-- No two runs of a calculator end in a value to be kept for the same task. -/
  once : (visits run).Pairwise fun v w => v.Completes → w.Completes → v.task ≠ w.task
  /-- All later requests return the value that was computed first. -/
  first : (visits run).Pairwise fun v w =>
    v.Completes → w.task = v.task → w.occasion ≠ .fresh → w.occasion = .found ∧ w.result = v.result
  /-- As long as no run of the calculator has ended in a value it is run again. -/
  again : ∀ l v l', visits run = l ++ v :: l' → v.occasion ≠ .fresh →
    (∀ w ∈ l, w.task = v.task → ¬w.Completes) → v.occasion = .computed
  /-- A calculator that stops, stops those that wait for it. -/
  stops : ∀ c ∈ run, ∀ v ∈ c.visits, ∀ y, v.result = .error y → c.answer = .error y
  /-- A calculator that stops leaves its slot empty. -/
  empty : ∀ v ∈ visits run, ∀ y, v.occasion = .computed → v.result = .error y →
    v.after.memo p v.task = none
  /-- Values that were returned are still kept after any visit, also after one that stops. -/
  keeps : (visits run).Pairwise fun v w =>
    v.occasion ≠ .fresh → ∀ x, v.result = .ok x → w.after.memo p v.task = some x
  /-- To compute a value afresh neither reads nor writes the slot of its task. -/
  fresh : ∀ v ∈ visits run, v.occasion = .fresh → v.Untouched e p

namespace Engine

section Episodes

variable {α σ : Type} {e : Engine α σ} {d p : Nat} {s : Store σ}
variable {calls : List (Computer α × Request)}

theorem visits_episodes_cons (c : Computer α) (q : Request) :
    visits (e.episodes d ((c, q) :: calls) s) =
      e.logWithin c d [] q s ++ visits (e.episodes d calls (e.answerWithin c d q s).2) := rfl

/-- The notes of all requests are coherent, and those on fresh values are on untouched slots. -/
theorem coherent_episodes (hs : s.Valid) (hp : p < s.pools.size) (hc : ∀ c ∈ calls, c.1.pool = p)
    (hv : ∀ v ∈ visits (e.episodes d calls s), v.Proper s.kept.size) :
    Coherent p (s.memo p) (visits (e.episodes d calls s)) ∧
      ∀ v ∈ visits (e.episodes d calls s), v.occasion = .fresh → v.Untouched e p := by
  induction calls generalizing s with
  | nil => exact ⟨trivial, nofun⟩
  | cons call calls ih =>
    obtain ⟨c, q⟩ := call
    obtain ⟨rfl, hc⟩ := List.forall_mem_cons.1 hc
    have hf := Faithful.logWithin e c d [] q hs
    rw [visits_episodes_cons] at hv ⊢
    obtain ⟨hv, hv'⟩ := List.forall_mem_append.1 hv
    obtain ⟨hl, hm⟩ := hf.coherent hp hv
    rw [← hf.evolves.kept_size] at hv'
    rw [← hf.evolves.pools_size] at hp
    obtain ⟨hl', hu⟩ := ih hf.valid hp hc hv'
    rw [hm] at hl'
    exact ⟨coherent_append.2 ⟨hl, hl'⟩, List.forall_mem_append.2 ⟨hf.fresh hv, hu⟩⟩

theorem enacted_episodes (hs : s.Valid) (hc : ∀ c ∈ calls, c.1.pool = p) :
    ∀ v ∈ visits (e.episodes d calls s), v.Enacted e p := by
  induction calls generalizing s with
  | nil => exact nofun
  | cons call calls ih =>
    obtain ⟨c, q⟩ := call
    obtain ⟨rfl, hc⟩ := List.forall_mem_cons.1 hc
    have hf := Faithful.logWithin e c d [] q hs
    rw [visits_episodes_cons]
    exact List.forall_mem_append.2 ⟨hf.enacted, ih hf.valid hc⟩

theorem stops_episodes (hs : s.Valid) : ∀ a ∈ e.episodes d calls s,
    ∀ v ∈ a.visits, ∀ y, v.result = .error y → a.answer = .error y := by
  induction calls generalizing s with
  | nil => exact nofun
  | cons call calls ih =>
    obtain ⟨c, q⟩ := call
    have hf := Faithful.logWithin e c d [] q hs
    exact List.forall_mem_cons.2 ⟨hf.stops, ih hf.valid⟩

theorem asks_episodes : ∀ a ∈ e.episodes (d + 1) calls s, ∀ k n o,
    a.request = .kept k n o → e.supports k n → ∃ l v, a.visits = l ++ [v] ∧
      v.task = ⟨k, n, o⟩ ∧ v.occasion ≠ .fresh ∧ v.result = a.answer := by
  induction calls generalizing s with
  | nil => exact nofun
  | cons call calls ih =>
    obtain ⟨c, q⟩ := call
    refine List.forall_mem_cons.2 ⟨fun k n o hq hk => ?_, ih⟩
    simp only at hq
    subst hq
    exact keepLog_concat (t := ⟨k, n, o⟩) hk

end Episodes

end Engine

/-- Through a pool in which nothing is kept at first, each task is computed at most once. -/
theorem Engine.computes_at_most_once {α σ : Type} (e : Engine α σ) (d p : Nat) (s : Store σ)
    (calls : List (Computer α × Request)) (hs : s.Valid) (hp : p < s.pools.size)
    (hm : s.pool p = .empty) (hc : ∀ c ∈ calls, c.1.pool = p)
    (hv : ∀ v ∈ visits (e.episodes (d + 1) calls s), v.Proper s.kept.size) :
    AtMostOnce e p (e.episodes (d + 1) calls s) := by
  have hn : s.memo p = fun _ => none := by
    funext t
    rw [Store.memo, hm]
    rfl
  obtain ⟨hl, hu⟩ := coherent_episodes hs hp hc hv
  rw [hn] at hl
  -- A value that was computed before is found from then on, with the same result.
  have hfirst : ∀ l₁ v l₂, visits (e.episodes (d + 1) calls s) = l₁ ++ v :: l₂ → ∀ w ∈ l₁,
      w.Completes → v.task = w.task → v.occasion ≠ .fresh →
        v.occasion = .found ∧ v.result = w.result := by
    intro l₁ v l₂ h w hw hc ht ho
    rw [h] at hl
    exact hl.result_eq hw hc ho ht.symm
  refine ⟨enacted_episodes hs hc, asks_episodes, ?_, ?_, ?_, stops_episodes hs, ?_, ?_, hu⟩
  · refine pairwise_of_forall_append fun l₁ v l₂ h w hw hcw hcv ht => ?_
    have ho := (hfirst l₁ v l₂ h w hw hcw ht.symm hcv.not_fresh).1
    rw [hcv.1] at ho
    cases ho
  · exact pairwise_of_forall_append hfirst
  · intro l₁ v l₂ h ho hw
    rw [h] at hl
    cases hv : v.occasion with
    | computed => rfl
    | found =>
      obtain ⟨w, hw', ht, hc⟩ := hl.exists_completes hv
      exact absurd hc (hw w hw' ht)
    | fresh => exact absurd hv ho
  · intro v hv y hc hy
    obtain ⟨l₁, l₂, h⟩ := List.append_of_mem hv
    rw [h] at hl
    exact hl.after_of_error hc hy
  · refine pairwise_of_forall_append fun l₁ v l₂ h w hw ho x hx => ?_
    rw [h] at hl
    exact hl.after_of_mem hw ho hx

namespace Faulty

/-- Counts its own runs. -/
def runs : Calculator String Nat where
  supports _ _ := true
  behaviour _ _ _ := .read fun n => .write (n + 1) (.value (Number.ofCount n))

/-- Stops unless there have been two runs of the other calculator. -/
def faulty : Calculator String Nat where
  supports _ _ := true
  behaviour _ n o := .ask (.kept ⟨"RUNS", 0⟩ n o) fun x => .read fun n =>
    if n < 2 then .stop "too early" else .value x

def engine : Engine String Nat := ⟨.ofTree (.leaf "method"), #[runs, faulty]⟩

def computer : Computer String := ⟨0, fun _ _ => []⟩

/-- The second value is computed after a failure, and kept from then on. -/
def calls : List (Computer String × Request) :=
  [(computer, .kept ⟨"FAULTY", 1⟩ 0 .empty), (computer, .fresh ⟨"RUNS", 0⟩ 0 .empty),
    (computer, .over ⟨"FAULTY", 1⟩ [0, 0] .empty .sum)]

theorem computes_at_most_once_of_calls :
    ((visits (engine.episodes 3 calls (.init 1 1 0))).map fun v =>
      (v.task.key.name, v.occasion, v.after.state)) =
        [("RUNS", .computed, 1), ("FAULTY", .computed, 1), ("RUNS", .fresh, 2), ("RUNS", .found, 2),
          ("FAULTY", .computed, 2), ("FAULTY", .found, 2)] ∧
    AtMostOnce engine 0 (engine.episodes 3 calls (.init 1 1 0)) :=
  ⟨rfl, engine.computes_at_most_once 2 0 (.init 1 1 0) calls (.init 1 1 0) (by decide)
    (Store.pool_init 1 1 0 0) (by decide) (by decide)⟩

end Faulty

end TreeMetrics
