import TreeMetrics.Proofs.Metric.Run

namespace TreeMetrics

/-- How the value of a task was come by: it was kept already, it was computed to be kept, or it was
computed afresh. -/
inductive Occasion where
  | found
  | computed
  | fresh
deriving DecidableEq

theorem Occasion.found_ne_fresh : found ≠ fresh := Occasion.noConfusion

theorem Occasion.computed_ne_fresh : computed ≠ fresh := Occasion.noConfusion

/-- A task that was asked for through a computer while calculators for other tasks were waiting; its
calculator may go down to a given depth. -/
structure Visit (α σ : Type) where
  task : Task
  occasion : Occasion
  computer : Computer α
  depth : Nat
  waiting : List Task
  before : Store σ
  result : Except Stop Float
  after : Store σ

/-- What a run notes down, given the store in which it begins. -/
abbrev Log (α σ : Type) := Store σ → List (Visit α σ)

namespace Log

variable {α σ β : Type}

/-- The notes of a run and, if it ends in a value, of what is run with the value. -/
def andThen (x : Run σ β) (l : Log α σ) (k : β → Log α σ) : Log α σ := fun s =>
  l s ++
    match x s with
    | (.ok b, u) => k b u
    | (.error _, _) => []

def each (g : Task → Run σ Float) (k : Task → Log α σ) : List Task → Log α σ
  | [] => fun _ => []
  | t :: ts => andThen (g t) (k t) fun _ => each g k ts

end Log

/-- The notes of a calculator are those of the requests that it makes. -/
def Behaviour.log {α σ : Type} (answer : Request → Run σ Float) (log : Request → Log α σ) :
    Behaviour σ → Log α σ
  | value _ => fun _ => []
  | stop _ => fun _ => []
  | read next => fun s => (next s.state).log answer log s
  | write state next => fun s => next.log answer log { s with state := state }
  | ask q next => Log.andThen (answer q) (log q) fun x => (next x).log answer log

namespace Engine

variable {α σ : Type}

section Tasks

variable (e : Engine α σ) (c : Computer α) (d : Nat) (answer : Request → Run σ Float)
  (log : List Task → Request → Log α σ) (waiting : List Task) (t : Task)

def keepLog : Log α σ := fun s =>
  if e.performs t then
    let (result, after) := e.keepTask c answer t s
    match (s.data t.node).get? (s.slotOf c.pool t) with
    | some _ => [⟨t, .found, c, d, waiting, s, result, after⟩]
    | none =>
      (e.program t).log answer (log (t :: waiting)) (s.begin c.pool t) ++
        [⟨t, .computed, c, d, waiting, s, result, after⟩]
  else []

def freshLog : Log α σ := fun s =>
  if e.performs t then
    let (result, after) := e.freshTask answer t s
    (e.program t).log answer (log (t :: waiting)) s ++
      [⟨t, .fresh, c, d, waiting, s, result, after⟩]
  else []

end Tasks

def logWithin (e : Engine α σ) (c : Computer α) : Nat → List Task → Request → Log α σ
  | 0, _, _ => fun _ => []
  | d + 1, waiting, .kept k n o =>
    e.keepLog c d (e.answerWithin c d) (logWithin e c d) waiting ⟨k, n, o⟩
  | d + 1, waiting, .fresh k n o =>
    e.freshLog c d (e.answerWithin c d) (logWithin e c d) waiting ⟨k, n, o⟩
  | d + 1, waiting, .over k ns o r =>
    Log.each (e.keepTask c (e.answerWithin c d))
      (e.keepLog c d (e.answerWithin c d) (logWithin e c d) waiting) (e.tasks c (.over k ns o r))
  | d + 1, waiting, .overOperations k n o r =>
    Log.each (e.keepTask c (e.answerWithin c d))
      (e.keepLog c d (e.answerWithin c d) (logWithin e c d) waiting)
      (e.tasks c (.overOperations k n o r))

end Engine

namespace Visit

variable {α σ : Type}

/-- A run of the calculator has ended in a value to be kept. -/
def Completes (v : Visit α σ) : Prop := v.occasion = .computed ∧ ∃ x, v.result = .ok x

/-- What is kept after a visit, given what is kept when it comes to its end. -/
def effect (v : Visit α σ) (m : Task → Option Float) (t : Task) : Option Float :=
  match v.occasion, v.result with
  | .computed, .ok x => if t = v.task then some x else m t
  | _, _ => m t

/-- The visit agrees with what is kept when it comes to its end. -/
structure Lawful (p : Nat) (m : Task → Option Float) (v : Visit α σ) : Prop where
  found : v.occasion = .found → ∃ x, m v.task = some x ∧ v.result = .ok x
  computed : v.occasion = .computed → m v.task = none
  after : ∀ t, v.after.memo p t = v.effect m t

variable {v : Visit α σ} {m : Task → Option Float} {t : Task}

theorem Completes.not_fresh (h : v.Completes) : v.occasion ≠ .fresh :=
  h.1 ▸ Occasion.computed_ne_fresh

theorem effect_of_ne (h : v.occasion = .computed → v.task ≠ t) : v.effect m t = m t := by
  unfold effect
  split
  · rename_i ho _
    rw [if_neg (Ne.symm (h ho))]
  · rfl

theorem effect_of_completes (hc : v.occasion = .computed) {x : Float} (hr : v.result = .ok x) :
    v.effect m v.task = some x := by
  simp [effect, hc, hr]

theorem effect_of_not_completes (h : ¬v.Completes) : v.effect m = m := by
  funext t
  unfold effect
  split
  · rename_i ho hr
    exact absurd ⟨ho, _, hr⟩ h
  · rfl

end Visit

/-- What is kept after visits, given what is kept before them. -/
def keptAfter {α σ : Type} : (Task → Option Float) → List (Visit α σ) → Task → Option Float
  | m, [] => m
  | m, v :: log => keptAfter (v.effect m) log

/-- All visits agree with what is kept meanwhile. -/
def Coherent {α σ : Type} (p : Nat) : (Task → Option Float) → List (Visit α σ) → Prop
  | _, [] => True
  | m, v :: log => v.Lawful p m ∧ Coherent p (v.effect m) log

section Coherent

variable {α σ : Type} {p : Nat} {m : Task → Option Float} {t : Task}
variable {log log' : List (Visit α σ)}

theorem keptAfter_append : keptAfter m (log ++ log') = keptAfter (keptAfter m log) log' := by
  induction log generalizing m with
  | nil => rfl
  | cons v log ih => exact ih

theorem coherent_append :
    Coherent p m (log ++ log') ↔ Coherent p m log ∧ Coherent p (keptAfter m log) log' := by
  induction log generalizing m with
  | nil => simp [Coherent, keptAfter]
  | cons v log ih =>
    simp only [List.cons_append, Coherent, keptAfter, ih, and_assoc]

theorem keptAfter_of_ne (h : ∀ v ∈ log, v.occasion = .computed → v.task ≠ t) :
    keptAfter m log t = m t := by
  induction log generalizing m with
  | nil => rfl
  | cons v log ih =>
    have hv := Visit.effect_of_ne (m := m) (h v List.mem_cons_self)
    exact (ih fun w hw => h w (List.mem_cons_of_mem v hw)).trans hv

theorem keptAfter_eq_some {x : Float} (h : keptAfter m log t = some x) :
    m t = some x ∨ ∃ v ∈ log, v.task = t ∧ v.Completes := by
  induction log generalizing m with
  | nil => exact .inl h
  | cons v log ih =>
    rcases ih h with h | ⟨w, hw, hc⟩
    · by_cases hv : v.task = t ∧ v.Completes
      · exact .inr ⟨v, List.mem_cons_self, hv⟩
      · by_cases hc : v.Completes
        · rw [Visit.effect_of_ne fun _ ht => hv ⟨ht, hc⟩] at h
          exact .inl h
        · rw [Visit.effect_of_not_completes hc] at h
          exact .inl h
    · exact .inr ⟨w, List.mem_cons_of_mem v hw, hc⟩

namespace Coherent

/-- What is kept stays. -/
theorem keptAfter_of_some (h : Coherent p m log) {x : Float} (hx : m t = some x) :
    keptAfter m log t = some x := by
  induction log generalizing m with
  | nil => exact hx
  | cons v log ih =>
    refine ih h.2 ?_
    rw [Visit.effect_of_ne, hx]
    intro hc ht
    have hn := h.1.computed hc
    rw [ht, hx] at hn
    cases hn

theorem lawful {l₁ l₂ : List (Visit α σ)} {v : Visit α σ} (h : Coherent p m (l₁ ++ v :: l₂)) :
    v.Lawful p (keptAfter m l₁) :=
  (coherent_append.1 h).2.1

/-- A value that a visit has returned is kept after every later one. -/
theorem kept_of_mem {l₁ l₂ : List (Visit α σ)} {v w : Visit α σ}
    (h : Coherent p m (l₁ ++ v :: l₂)) (hw : w ∈ l₁) (ho : w.occasion ≠ .fresh) {x : Float}
    (hx : w.result = .ok x) : keptAfter m l₁ w.task = some x := by
  obtain ⟨a, b, rfl⟩ := List.append_of_mem hw
  obtain ⟨hw', hb⟩ := (coherent_append.1 (coherent_append.1 h).1).2
  rw [keptAfter_append]
  refine hb.keptAfter_of_some ?_
  cases hc : w.occasion with
  | found =>
    obtain ⟨y, hy, hr⟩ := hw'.found hc
    rw [hr] at hx
    cases hx
    rw [Visit.effect_of_not_completes, hy]
    rintro ⟨hc', _⟩
    rw [hc] at hc'
    cases hc'
  | computed => exact Visit.effect_of_completes hc hx
  | fresh => exact absurd hc ho

theorem after_of_mem {l₁ l₂ : List (Visit α σ)} {v w : Visit α σ}
    (h : Coherent p m (l₁ ++ v :: l₂)) (hw : w ∈ l₁) (ho : w.occasion ≠ .fresh) {x : Float}
    (hx : w.result = .ok x) : v.after.memo p w.task = some x := by
  have hk := h.kept_of_mem hw ho hx
  rw [h.lawful.after, Visit.effect_of_ne, hk]
  intro hc ht
  have hn := h.lawful.computed hc
  rw [ht, hk] at hn
  cases hn

/-- A value that is found has been computed by an earlier visit. -/
theorem exists_completes {l₁ l₂ : List (Visit α σ)} {v : Visit α σ}
    (h : Coherent p (fun _ => none) (l₁ ++ v :: l₂)) (hf : v.occasion = .found) :
    ∃ w ∈ l₁, w.task = v.task ∧ w.Completes := by
  obtain ⟨x, hx, _⟩ := h.lawful.found hf
  rcases keptAfter_eq_some hx with hn | hw
  · cases hn
  · exact hw

/-- A later visit that returns a value returns the one that was computed first. -/
theorem result_eq {l₁ l₂ : List (Visit α σ)} {v w : Visit α σ}
    (h : Coherent p m (l₁ ++ v :: l₂)) (hw : w ∈ l₁) (hc : w.Completes) (ho : v.occasion ≠ .fresh)
    (ht : w.task = v.task) : v.occasion = .found ∧ v.result = w.result := by
  obtain ⟨hc, x, hx⟩ := hc
  have hk := h.kept_of_mem hw (hc ▸ Occasion.computed_ne_fresh) hx
  cases hv : v.occasion with
  | found =>
    obtain ⟨y, hy, hr⟩ := h.lawful.found hv
    rw [← ht, hk] at hy
    cases hy
    exact ⟨rfl, hr.trans hx.symm⟩
  | computed =>
    have hn := h.lawful.computed hv
    rw [← ht, hk] at hn
    cases hn
  | fresh => exact absurd hv ho

theorem after_of_error {l₁ l₂ : List (Visit α σ)} {v : Visit α σ}
    (h : Coherent p m (l₁ ++ v :: l₂)) (hc : v.occasion = .computed) {y : Stop}
    (hy : v.result = .error y) : v.after.memo p v.task = none := by
  rw [h.lawful.after, Visit.effect_of_not_completes]
  · exact h.lawful.computed hc
  · rintro ⟨_, x, hx⟩
    rw [hy] at hx
    cases hx

end Coherent

end Coherent

end TreeMetrics
