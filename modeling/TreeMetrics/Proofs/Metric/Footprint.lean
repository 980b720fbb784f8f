import Mathlib.Data.List.Forall2
import Mathlib.Data.Set.Lattice
import TreeMetrics.Proofs.Metric.Pairs
import TreeMetrics.Proofs.Metric.Run

namespace TreeMetrics

/-- The pair under which the value of a task is kept. -/
def Task.pair (t : Task) : MetricKey × OptionSet := (t.key, t.options)

namespace Store

variable {σ : Type} {s u : Store σ} {p : Nat} {foot : Task → Set (MetricKey × OptionSet)}

def held (s : Store σ) (p : Nat) : Set (MetricKey × OptionSet) := {x | x ∈ (s.pool p).pairs}

theorem held_init (pools nodes : Nat) (state : σ) : (init pools nodes state).held p = ∅ := by
  apply Set.eq_empty_of_forall_notMem
  intro x
  rw [held, pool_init]
  exact List.not_mem_nil

theorem held_intern (hp : p < s.pools.size) (k : MetricKey) (o : OptionSet) :
    (s.intern p k o).2.held p = insert (k, o) (s.held p) := by
  ext x
  rw [held, Set.mem_ofPred_eq, mem_pairs_intern hp, eq_self, true_and, Set.mem_insert_iff, or_comm]
  rfl

/-- No pair stands in the pool twice, and with each value that is kept through it there stand the
pairs that its calculator asks for. -/
structure Closed (foot : Task → Set (MetricKey × OptionSet)) (p : Nat) (s : Store σ) : Prop where
  valid : s.Valid
  pool_lt : p < s.pools.size
  nodup : (s.pool p).pairs.Nodup
  foot_subset : ∀ {t x}, s.memo p t = some x → foot t ⊆ s.held p

namespace Closed

theorem init {pools : Nat} (hp : p < pools) (nodes : Nat) (state : σ) :
    (Store.init pools nodes state).Closed foot p where
  valid := .init pools nodes state
  pool_lt := by
    rw [Store.init, Array.size_replicate]
    exact hp
  nodup := by
    rw [pool_init]
    exact List.nodup_nil
  foot_subset h := by
    rw [memo_init] at h
    cases h

theorem intern (h : s.Closed foot p) (k : MetricKey) (o : OptionSet) :
    (s.intern p k o).2.Closed foot p where
  valid := h.valid.intern p k o
  pool_lt := by
    rw [(Evolves.intern s p k o).pools_size]
    exact h.pool_lt
  nodup := nodup_pairs_intern h.pool_lt h.nodup
  foot_subset hx := by
    rw [memo_intern h.valid] at hx
    rw [held_intern h.pool_lt]
    exact (h.foot_subset hx).trans (Set.subset_insert _ _)

theorem begin (h : s.Closed foot p) (t : Task) : (s.begin p t).Closed foot p where
  valid := h.valid.begin p t
  pool_lt := (h.intern t.key t.options).pool_lt
  nodup := (h.intern t.key t.options).nodup
  foot_subset hx := by
    rw [memo_begin p t h.valid, ← memo_intern h.valid p t.key t.options] at hx
    exact (h.intern t.key t.options).foot_subset hx

theorem settle {t : Task} {version : Nat} {v : Float} (hs : s.Valid) (he : Evolves (s.begin p t) u)
    (h : u.Closed foot p) (ht : foot t ⊆ u.held p) :
    (u.settle t.node (s.slotOf p t) version v).Closed foot p where
  valid := h.valid.settle
  pool_lt := h.pool_lt
  nodup := h.nodup
  foot_subset hx := by
    rcases eq_of_memo_settle hs he hx with hx | ⟨⟨-, rfl⟩, -⟩
    · exact h.foot_subset hx
    · exact ht

end Closed

end Store

/-- A run that ends in a value adds just these pairs to a pool. -/
def Adds {σ β : Type} (foot : Task → Set (MetricKey × OptionSet)) (p : Nat) (x : Run σ β)
    (d : Set (MetricKey × OptionSet)) : Prop :=
  ∀ s b u, s.Closed foot p → x s = (.ok b, u) → u.Closed foot p ∧ u.held p = s.held p ∪ d

namespace Adds

variable {α σ β γ δ : Type} {foot : Task → Set (MetricKey × OptionSet)} {p : Nat}
variable {x : Run σ β} {f : β → Run σ γ} {d d' : Set (MetricKey × OptionSet)}

theorem pure (b : β) : Adds foot p (Pure.pure b : Run σ β) ∅ := by
  intro s b u hs hrun
  cases hrun
  exact ⟨hs, (Set.union_empty _).symm⟩

theorem throw (e : Stop) : Adds foot p (MonadExcept.throw e : Run σ β) d := by
  intro s b u hs hrun
  cases hrun

theorem bind (hx : Adds foot p x d) (hf : ∀ b, Adds foot p (f b) d') :
    Adds foot p (x >>= f) (d ∪ d') := by
  intro s c u hs hrun
  cases h : x s with
  | mk r t =>
    cases r with
    | ok b =>
      rw [Action.bind_of_ok h] at hrun
      obtain ⟨ht, hd⟩ := hx s b t hs h
      obtain ⟨hu, hd'⟩ := hf b t c u ht hrun
      refine ⟨hu, ?_⟩
      rw [hd', hd, Set.union_assoc]
    | error e =>
      rw [Action.bind_of_error h] at hrun
      cases hrun

/-- What is done with the value in the end adds nothing. -/
theorem map (hx : Adds foot p x d) (g : β → γ) :
    Adds foot p (x >>= fun b => Pure.pure (g b)) d := by
  have h := hx.bind (f := fun b => Pure.pure (g b)) fun b => .pure (g b)
  rwa [Set.union_empty] at h

theorem forall₂ {g : δ → Set (MetricKey × OptionSet)} {bs : List β} {ds : List δ}
    (h : List.Forall₂ (fun b d => Adds foot p (f b) (g d)) bs ds) :
    Adds foot p (bs.mapM f) (⋃ d ∈ ds, g d) := by
  induction h with
  | nil =>
    rw [List.mapM_nil]
    simp only [List.not_mem_nil, Set.iUnion_of_empty, Set.iUnion_empty]
    exact .pure []
  | @cons b d bs ds hb _ ih =>
    have hunion : ⋃ a ∈ d :: ds, g a = g d ∪ ⋃ a ∈ ds, g a := by
      simp only [List.mem_cons, Set.iUnion_iUnion_eq_or_left]
    rw [List.mapM_cons, hunion]
    exact hb.bind fun c => ih.map (c :: ·)

variable {e : Engine α σ} {c : Computer α} {answer : Request → Run σ Float} {t : Task}

theorem freshTask (h : e.performs t = true → Adds foot p ((e.program t).run answer) d) :
    Adds foot p (e.freshTask answer t) (if e.performs t then d else ∅) := by
  unfold Engine.freshTask
  split
  · rename_i hp
    exact h hp
  · exact .pure _

theorem keepTask (ha : ∀ q, Steady (answer q)) (hp : e.performs t = true)
    (h : Adds foot c.pool ((e.program t).run answer) (foot t)) :
    Adds foot c.pool (e.keepTask c answer t) (insert t.pair (foot t)) := by
  intro s b u hs hrun
  -- A value that is found was kept when its calculator had asked for all it asks for.
  cases hm : s.memo c.pool t with
  | some y =>
    rw [Engine.keepTask_of_memo hs.valid hp hm] at hrun
    cases hrun
    refine ⟨hs.intern t.key t.options, ?_⟩
    rw [Store.held_intern hs.pool_lt, Set.union_insert, Set.union_eq_self_of_subset_right]
    · rfl
    · exact hs.foot_subset hm
  | none =>
    have hbegin := hs.begin t
    have hheld : (s.begin c.pool t).held c.pool = insert t.pair (s.held c.pool) :=
      Store.held_intern hs.pool_lt t.key t.options
    obtain ⟨-, he⟩ := Steady.behaviour ha (e.program t) _ hbegin.valid
    cases hr : (e.program t).run answer (s.begin c.pool t) with
    | mk r v =>
      rw [hr] at he
      cases r with
      | ok y =>
        rw [Engine.keepTask_of_ok hs.valid hp hm hr] at hrun
        cases hrun
        obtain ⟨hv, hfoot⟩ := h _ _ v hbegin hr
        constructor
        · apply Store.Closed.settle hs.valid he hv
          rw [hfoot]
          exact Set.subset_union_right
        · rw [hheld, Set.insert_union, ← Set.union_insert] at hfoot
          exact hfoot
      | error y =>
        rw [Engine.keepTask_of_error hs.valid hp hm hr] at hrun
        cases hrun

end Adds

namespace Engine

variable {α σ : Type} {e : Engine α σ} {c : Computer α}
variable {foot : Task → Set (MetricKey × OptionSet)}

/-- The pairs that a request adds if the calculator of each task asks for those of its foot. -/
def asked (e : Engine α σ) (c : Computer α) (foot : Task → Set (MetricKey × OptionSet)) :
    Request → Set (MetricKey × OptionSet)
  | .kept k n o => ⋃ t ∈ e.tasks c (.kept k n o), insert t.pair (foot t)
  | .fresh k n o => ⋃ t ∈ e.tasks c (.fresh k n o), foot t
  | .over k ns o r => ⋃ t ∈ e.tasks c (.over k ns o r), insert t.pair (foot t)
  | .overOperations k n o r => ⋃ t ∈ e.tasks c (.overOperations k n o r), insert t.pair (foot t)

/-- The calculators ask for the pairs of the feet of their tasks. -/
def Draws (e : Engine α σ) (c : Computer α) (foot : Task → Set (MetricKey × OptionSet)) : Prop :=
  ∀ t, e.performs t = true → ∀ answer : Request → Run σ Float,
    (∀ q, Adds foot c.pool (answer q) (e.asked c foot q)) →
      Adds foot c.pool ((e.program t).run answer) (foot t)

theorem mapM_tasks_adds {value : Task → Run σ Float} {q : Request}
    (hv : ∀ t, e.performs t = true → Adds foot c.pool (value t) (insert t.pair (foot t)))
    (g : List Float → Float) :
    Adds foot c.pool (do let xs ← (e.tasks c q).mapM value; pure (g xs))
      (⋃ t ∈ e.tasks c q, insert t.pair (foot t)) := by
  apply Adds.map
  apply Adds.forall₂
  rw [List.forall₂_same]
  intro t ht
  exact hv t (performs_of_mem_tasks ht)

theorem iUnion_one (b : Bool) (t : Task) (g : Task → Set (MetricKey × OptionSet)) :
    ⋃ u ∈ (if b then [t] else []), g u = if b then g t else ∅ := by
  cases b with
  | true => simp only [if_true, List.mem_singleton, Set.iUnion_iUnion_eq_left]
  | false =>
    simp only [Bool.false_eq_true, if_false, List.not_mem_nil, Set.iUnion_of_empty,
      Set.iUnion_empty]

/-- An answer adds the pairs that its request asks for. -/
theorem answerWithin_adds (h : e.Draws c foot) (d : Nat) (q : Request) :
    Adds foot c.pool (e.answerWithin c d q) (e.asked c foot q) := by
  induction d generalizing q with
  | zero => exact .throw _
  | succ d ih =>
    have hkeep (t : Task) (hp : e.performs t = true) :
        Adds foot c.pool (e.keepTask c (e.answerWithin c d) t) (insert t.pair (foot t)) :=
      .keepTask (Steady.answerWithin e c d) hp (h t hp _ ih)
    rw [answerWithin_succ]
    cases q with
    | kept k n o =>
      rw [asked, tasks, iUnion_one]
      split
      · rename_i hp
        exact hkeep ⟨k, n, o⟩ hp
      · rename_i hs
        have hp : e.performs ⟨k, n, o⟩ = false := Bool.eq_false_iff.2 hs
        intro s b u hs hrun
        rw [respondBy, keepTask_of_not_performs hp] at hrun
        cases hrun
        exact ⟨hs, (Set.union_empty _).symm⟩
    | fresh k n o =>
      rw [asked, tasks, iUnion_one]
      exact .freshTask fun hp => h ⟨k, n, o⟩ hp _ ih
    | «over» k ns o r => exact mapM_tasks_adds hkeep r.reduce
    | overOperations k n o r => exact mapM_tasks_adds hkeep r.reduce

end Engine

end TreeMetrics
