import TreeMetrics.Proofs.Document.Preorder
import TreeMetrics.Proofs.Document.Search

namespace TreeMetrics

open Document

section Calls

variable {σ β : Type}

/-- Asked for the next value until there is none, the source supplies these values. -/
inductive Supplies (next : σ → Option β × σ) : σ → List β → Prop where
  | done {s s' : σ} : next s = (none, s') → Supplies next s []
  | more {s s' : σ} {b : β} {bs : List β} :
    next s = (some b, s') → Supplies next s' bs → Supplies next s (b :: bs)

/-- The source behind a number of calls, whether or not they were answered. -/
def afterCalls (next : σ → Option β × σ) : Nat → σ → σ
  | 0, s => s
  | k + 1, s => afterCalls next k (next s).2

theorem afterCalls_add (next : σ → Option β × σ) (k j : Nat) (s : σ) :
    afterCalls next (k + j) s = afterCalls next j (afterCalls next k s) := by
  induction k generalizing s with
  | zero => rw [Nat.zero_add, afterCalls]
  | succ k ih => rw [Nat.succ_add, afterCalls, afterCalls, ih]

end Calls

/-- The least number of values to come, and the greatest if it is known, hold of a number. -/
def Admits (hint : Nat × Option Nat) (count : Nat) : Prop :=
  hint.1 ≤ count ∧ ∀ most ∈ hint.2, count ≤ most

/-- A walk whose nodes pass through a filter that makes values of any kind of them. -/
structure Sieve {α : Type} (doc : Document α) (β : Type) where
  walk : Walk doc
  pick : NodeId → Option β

namespace Sieve

variable {α β : Type} {doc : Document α}

/-- The next value within `steps` nodes of the walk, if there is one, and the walk behind it. -/
def nextWithin (doc : Document α) (pick : NodeId → Option β) :
    Nat → Walk doc → Option β × Walk doc
  | 0, w => (none, w)
  | steps + 1, w =>
    match w.next doc with
    | none => (none, w)
    | some (n, w) =>
      match pick n with
      | some b => (some b, w)
      | none => nextWithin doc pick steps w

def next (doc : Document α) (s : Sieve doc β) : Option β × Sieve doc β :=
  let (b, w) := nextWithin doc s.pick (Stream.walkBound doc s.walk) s.walk
  (b, ⟨w, s.pick⟩)

def sizeHint (s : Sieve doc β) : Nat × Option Nat := (0, s.walk.sizeHint.2)

end Sieve

variable {α β : Type} {doc : Document α} {n : Nat} {w w' : Walk doc} {ns : List NodeId}

namespace Walk

theorem variant_next (h : w.next doc = some (n, w')) : w'.variant = w.variant := by
  cases w with
  | empty => cases h
  | single m | ancestors m =>
    cases m with
    | none => cases h
    | some m =>
      cases h
      rfl
  | siblings p i stop hstop =>
    by_cases hi : i < stop
    · obtain ⟨c, -, hnext⟩ := next_siblings (h := hstop) hi
      rw [hnext] at h
      cases h
      rfl
    · rw [next_siblings_of_le (Nat.le_of_not_lt hi)] at h
      cases h
  | descendants ms =>
    cases ms with
    | nil => cases h
    | cons m ms =>
      cases h
      rfl

end Walk

namespace Stream

theorem next_walk_of_none (h : w.next doc = none) : (walk w).next doc = (none, walk w) := by
  have hstep : (walk w).step? doc = none := by rw [step?, h]
  rw [next]
  cases bound doc (walk w) with
  | zero => rfl
  | succ k =>
    rw [nextWithin, hstep]
    rfl

theorem next_walk_of_some (h : w.next doc = some (n, w')) :
    (walk w).next doc = (some n, walk w') := by
  have hstep : (walk w).step? doc = some (some n, walk w') := by rw [step?, h]
  have hbound := bound_step? hstep
  rw [next]
  cases hk : bound doc (walk w) with
  | zero => omega
  | succ k => rw [nextWithin, hstep]

/-- Calls on a stream that is a plain walk lead along the walk. -/
theorem supplies_of_produces (h : w.Produces doc ns) : Supplies (next doc) (walk w) ns := by
  induction h with
  | done hw => exact .done (next_walk_of_none hw)
  | more hw _ ih => exact .more (next_walk_of_some hw) ih

/-- A walk keeps its representation. -/
theorem afterCalls_walk (doc : Document α) (k : Nat) (w : Walk doc) :
    ∃ w', afterCalls (next doc) k (walk w) = walk w' ∧ w'.variant = w.variant := by
  induction k generalizing w with
  | zero => exact ⟨w, rfl, rfl⟩
  | succ k ih =>
    rw [afterCalls]
    cases hw : w.next doc with
    | none =>
      rw [next_walk_of_none hw]
      exact ih w
    | some r =>
      obtain ⟨n, w₁⟩ := r
      obtain ⟨w', hw', hvariant⟩ := ih w₁
      rw [next_walk_of_some hw]
      exact ⟨w', hw', hvariant.trans (Walk.variant_next hw)⟩

/-- A walk at its end stays there. -/
theorem next_afterCalls_of_none (h : ((walk w).next doc).1 = none) (k : Nat) :
    ((afterCalls (next doc) k (walk w)).next doc).1 = none := by
  cases hw : w.next doc with
  | some r =>
    obtain ⟨n, w'⟩ := r
    rw [next_walk_of_some hw] at h
    cases h
  | none =>
    have hstay : afterCalls (next doc) k (walk w) = walk w := by
      induction k with
      | zero => rfl
      | succ k ih => rw [afterCalls, next_walk_of_none hw, ih]
    rw [hstay, h]

/-- Each subtree ahead has a node at least. -/
theorem length_le_walked_descendants (ns : List NodeId) :
    ns.length ≤ (walked doc (.descendants ns)).length := by
  rw [walked_descendants]
  induction ns with
  | nil => exact Nat.le_refl 0
  | cons n ns ih =>
    rw [List.flatMap_cons, List.length_append, interval_eq, List.length_cons, List.length_cons]
    omega

/-- A walk that does not go up or down knows how many nodes are to come. -/
theorem sizeHint_exact (h : w.variant ∈ ["Empty", "Single", "Children"]) :
    w.sizeHint = ((walked doc w).length, some (walked doc w).length) := by
  cases w with
  | empty =>
    rw [walked_of_none rfl]
    rfl
  | single m =>
    cases m with
    | none =>
      rw [walked_of_none rfl]
      rfl
    | some m =>
      rw [walked_single]
      rfl
  | siblings p i stop hstop =>
    rw [walked_siblings, List.length_drop, List.length_take, Nat.min_eq_left hstop]
    rfl
  | descendants _ | ancestors _ => exact absurd h (by simp [Walk.variant])

/-- The bounds of a walk hold of the number of nodes that it produces. -/
theorem walk_sizeHint_admits (doc : Document α) (w : Walk doc) :
    Admits w.sizeHint (walked doc w).length := by
  have hcounted (hw : w.variant ∈ ["Empty", "Single", "Children"]) :
      Admits w.sizeHint (walked doc w).length := by
    rw [sizeHint_exact hw]
    refine ⟨Nat.le_refl _, fun most hmost => ?_⟩
    cases hmost
    exact Nat.le_refl _
  cases w with
  | empty | single _ | siblings _ _ _ _ => exact hcounted (by simp [Walk.variant])
  | descendants ms =>
    refine ⟨length_le_walked_descendants ms, fun most hmost => ?_⟩
    cases hmost
  | ancestors m =>
    constructor
    case right =>
      intro most hmost
      cases hmost
    cases m with
    | none => exact Nat.zero_le _
    | some m =>
      rw [walked_of_some rfl]
      exact Nat.succ_le_succ (Nat.zero_le _)

end Stream

namespace Sieve

variable {pick : NodeId → Option β}

theorem nextWithin_of_none (h : w.next doc = none) (steps : Nat) :
    nextWithin doc pick steps w = (none, w) := by
  cases steps with
  | zero => rfl
  | succ steps => rw [nextWithin, h]

theorem nextWithin_of_picked {b : β} (h : w.next doc = some (n, w')) (hn : pick n = some b)
    (steps : Nat) : nextWithin doc pick (steps + 1) w = (some b, w') := by
  simp only [nextWithin, h, hn]

theorem nextWithin_of_dropped (h : w.next doc = some (n, w')) (hn : pick n = none)
    (steps : Nat) : nextWithin doc pick (steps + 1) w = nextWithin doc pick steps w' := by
  simp only [nextWithin, h, hn]

/-- Within enough steps a sieve comes to the first node that is picked, or to the end. -/
theorem nextWithin_eq (pick : NodeId → Option β) {steps : Nat}
    (h : Stream.walkBound doc w ≤ steps) :
    ∃ w', nextWithin doc pick steps w = (((Stream.walked doc w).filterMap pick).head?, w') ∧
      (Stream.walked doc w').filterMap pick = ((Stream.walked doc w).filterMap pick).tail := by
  induction steps generalizing w with
  | zero =>
    cases hw : w.next doc with
    | none =>
      refine ⟨w, ?_, ?_⟩
      all_goals
        rw [Stream.walked_of_none hw]
        rfl
    | some r => exact absurd (Stream.walkBound_next hw) (by omega)
  | succ steps ih =>
    cases hw : w.next doc with
    | none =>
      refine ⟨w, ?_, ?_⟩
      · rw [nextWithin_of_none hw, Stream.walked_of_none hw]
        rfl
      · rw [Stream.walked_of_none hw]
        rfl
    | some r =>
      obtain ⟨n, w₁⟩ := r
      have hbound := Stream.walkBound_next hw
      rw [Stream.walked_of_some hw]
      cases hn : pick n with
      | some b =>
        rw [nextWithin_of_picked hw hn, List.filterMap_cons_some hn]
        exact ⟨w₁, rfl, rfl⟩
      | none =>
        rw [nextWithin_of_dropped hw hn, List.filterMap_cons_none hn]
        exact ih (by omega)

theorem next_eq (doc : Document α) (s : Sieve doc β) :
    ∃ w', s.next doc = (((Stream.walked doc s.walk).filterMap s.pick).head?, ⟨w', s.pick⟩) ∧
      (Stream.walked doc w').filterMap s.pick =
        ((Stream.walked doc s.walk).filterMap s.pick).tail := by
  obtain ⟨w', hnext, hrest⟩ :=
    nextWithin_eq s.pick (Nat.le_refl (Stream.walkBound doc s.walk))
  refine ⟨w', ?_, hrest⟩
  rw [next, hnext]

/-- A sieve supplies what it picks of the nodes that its walk produces. -/
theorem supplies (doc : Document α) (s : Sieve doc β) :
    Supplies (next doc) s ((Stream.walked doc s.walk).filterMap s.pick) := by
  generalize hbs : (Stream.walked doc s.walk).filterMap s.pick = bs
  induction bs generalizing s with
  | nil =>
    obtain ⟨w', hnext, -⟩ := next_eq doc s
    rw [hbs] at hnext
    exact .done hnext
  | cons b bs ih =>
    obtain ⟨w', hnext, hrest⟩ := next_eq doc s
    rw [hbs] at hnext hrest
    exact .more hnext (ih _ hrest)

theorem sizeHint_admits (doc : Document α) (s : Sieve doc β) :
    Admits s.sizeHint ((Stream.walked doc s.walk).filterMap s.pick).length := by
  refine ⟨Nat.zero_le _, fun most hmost => ?_⟩
  have hwalk := (Stream.walk_sizeHint_admits doc s.walk).2 most hmost
  exact Nat.le_trans (List.length_filterMap_le _ _) hwalk

end Sieve

namespace Stream

theorem nextWithin_sifted (f : Filter) (steps : Nat) (w : Walk doc) :
    nextWithin doc steps (sifted w f) =
      ((Sieve.nextWithin doc f steps w).1, sifted (Sieve.nextWithin doc f steps w).2 f) := by
  induction steps generalizing w with
  | zero => rfl
  | succ steps ih =>
    cases hw : w.next doc with
    | none =>
      have hstep : (sifted w f).step? doc = none := by rw [step?, hw]
      rw [Sieve.nextWithin_of_none hw, nextWithin, hstep]
      rfl
    | some r =>
      obtain ⟨n, w'⟩ := r
      have hstep : (sifted w f).step? doc = some (f n, sifted w' f) := by rw [step?, hw]
      cases hn : f n with
      | some m =>
        rw [hn] at hstep
        rw [Sieve.nextWithin_of_picked hw hn, nextWithin, hstep]
      | none =>
        rw [hn] at hstep
        rw [Sieve.nextWithin_of_dropped hw hn, nextWithin, hstep, ← ih]

/-- Where the values are nodes, the sieve of a walk is the sifted walk. -/
theorem next_sifted (doc : Document α) (s : Sieve doc NodeId) :
    (sifted s.walk s.pick).next doc =
      ((s.next doc).1, sifted (s.next doc).2.walk (s.next doc).2.pick) :=
  nextWithin_sifted s.pick _ s.walk

theorem afterCalls_sifted (doc : Document α) (k : Nat) (s : Sieve doc NodeId) :
    afterCalls (next doc) k (sifted s.walk s.pick) =
      sifted (afterCalls (Sieve.next doc) k s).walk (afterCalls (Sieve.next doc) k s).pick := by
  induction k generalizing s with
  | zero => rfl
  | succ k ih => rw [afterCalls, afterCalls, next_sifted, ih]

theorem supplies_sifted {s : Sieve doc NodeId} (h : Supplies (Sieve.next doc) s ns) :
    Supplies (next doc) (sifted s.walk s.pick) ns := by
  induction h with
  | done hs => exact .done (by rw [next_sifted, hs])
  | more hs _ ih => exact .more (by rw [next_sifted, hs]) ih

end Stream

namespace Stream

/-- What comes behind a source adds nothing if no more than nothing is to come. -/
theorem append_admits {hint : Nat × Option Nat} {c d : Nat} {P : Prop} [Decidable P]
    (hc : Admits hint c) (hd : P → d = 0) :
    Admits (hint.1, if P then hint.2 else none) (c + d) := by
  refine ⟨Nat.le_add_right_of_le hc.1, fun most hmost => ?_⟩
  by_cases hP : P
  · rw [if_pos hP] at hmost
    rw [hd hP, Nat.add_zero]
    exact hc.2 most hmost
  · rw [if_neg hP] at hmost
    cases hmost

/-- The bounds of every stream hold of the number of its nodes. -/
theorem sizeHint_admits (s : Stream doc) : Admits s.sizeHint (s.toList doc).length := by
  induction s with
  | walk w => exact walk_sizeHint_admits doc w
  | sifted w f =>
    rw [toList_sifted]
    exact Sieve.sizeHint_admits doc ⟨w, f⟩
  | filtered s f => exact ⟨Nat.zero_le _, nofun⟩
  | pending s t => exact ⟨Nat.zero_le _, nofun⟩
  | append s t ihs iht =>
    rw [toList_append, List.length_append]
    refine append_admits ihs fun hzero => ?_
    rw [hzero] at iht
    exact Nat.le_zero.1 (iht.2 0 rfl)
  | along s w axis ihs =>
    rw [toList_along, List.length_append]
    refine append_admits (walk_sizeHint_admits doc w) fun hzero => ?_
    rw [hzero] at ihs
    have hnil := List.length_eq_zero_iff.1 (Nat.le_zero.1 (ihs.2 0 rfl))
    rw [hnil]
    rfl

end Stream

/-- Behind any number of calls the bounds of a walk hold of the number of nodes to come, and are
equal where the walk goes neither up nor down. So do the bounds of a sieve over the walk, which is
the sifted walk where the values are nodes, and the bounds of streams made of walks. Behind a call
in vain all others are in vain. -/
theorem sizeHint_sound (doc : Document α) (w : Walk doc) (k : Nat) :
    (∃ ns, Supplies (Stream.next doc) (afterCalls (Stream.next doc) k (.walk w)) ns ∧
      Admits (afterCalls (Stream.next doc) k (.walk w)).sizeHint ns.length ∧
      (w.variant ∈ ["Empty", "Single", "Children"] →
        (afterCalls (Stream.next doc) k (.walk w)).sizeHint = (ns.length, some ns.length))) ∧
    (∀ (β : Type) (pick : NodeId → Option β), ∃ bs,
      Supplies (Sieve.next doc) (afterCalls (Sieve.next doc) k ⟨w, pick⟩) bs ∧
      Admits (afterCalls (Sieve.next doc) k ⟨w, pick⟩).sizeHint bs.length) ∧
    (∀ f : Filter, ∃ ns,
      Supplies (Stream.next doc) (afterCalls (Stream.next doc) k (.sifted w f)) ns ∧
      Admits (afterCalls (Stream.next doc) k (.sifted w f)).sizeHint ns.length) ∧
    (∀ s : Stream doc, Admits s.sizeHint (s.toList doc).length) ∧
    (((afterCalls (Stream.next doc) k (.walk w)).next doc).1 = none → ∀ j,
      ((afterCalls (Stream.next doc) (k + j) (.walk w)).next doc).1 = none) := by
  obtain ⟨w', hw', hvariant⟩ := Stream.afterCalls_walk doc k w
  refine ⟨?_, ?_, ?_, Stream.sizeHint_admits, ?_⟩
  · rw [hw', ← hvariant]
    exact ⟨_, Stream.supplies_of_produces (Walk.produces_walked doc w'),
      Stream.walk_sizeHint_admits doc w', Stream.sizeHint_exact⟩
  · intro β pick
    exact ⟨_, Sieve.supplies doc _, Sieve.sizeHint_admits doc _⟩
  · intro f
    have hf := Stream.afterCalls_sifted doc k ⟨w, f⟩
    rw [hf]
    exact ⟨_, Stream.supplies_sifted (Sieve.supplies doc _), Sieve.sizeHint_admits doc _⟩
  · intro hnone j
    rw [hw'] at hnone
    rw [afterCalls_add, hw']
    exact Stream.next_afterCalls_of_none hnone j

end TreeMetrics
