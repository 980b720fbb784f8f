import Mathlib.Data.Finset.Image
import Mathlib.Data.List.Induction
import TreeMetrics.Proofs.Metric.Origin

namespace TreeMetrics

/-- A use of the pools: an instance is asked for, a pool is cleared, or a value is to be kept on a
node under the instance that an earlier use has got. -/
inductive PoolUse (pools nodes : Nat) where
  | request (p : Fin pools) (k : MetricKey) (flags : List String)
  | clear (p : Fin pools)
  | keep (a : Nat) (n : Fin nodes) (x : Float)

namespace PoolUse

variable {pools nodes : Nat}

def clears (p : Fin pools) : PoolUse pools nodes → Bool
  | clear q => p = q
  | _ => false

/-- Two uses ask one pool for the same key with the same set of flags, and the pool is not cleared
between them. -/
def Shared (uses : List (PoolUse pools nodes)) (a b : Nat) : Prop :=
  match uses[a]?, uses[b]? with
  | some (request p k fs), some (request q l gs) =>
    p = q ∧ (k.name = l.name ∧ k.calculator = l.calculator) ∧ fs.toFinset = gs.toFinset ∧
      ∀ u ∈ (uses.take b).drop a ++ (uses.take a).drop b, u.clears p = false
  | _, _ => False

instance (uses : List (PoolUse pools nodes)) (a b : Nat) : Decidable (Shared uses a b) := by
  unfold Shared
  split
  · infer_instance
  · infer_instance

/-- The pair that a use asks a pool for. -/
def pair? (p : Fin pools) : PoolUse pools nodes → Option (MetricKey × Finset String)
  | request q k fs => if q = p then some (k, fs.toFinset) else none
  | _ => none

/-- The pairs that a pool was asked for since it was last cleared, the latest first. -/
def requested (p : Fin pools) (uses : List (PoolUse pools nodes)) :
    List (MetricKey × Finset String) :=
  (uses.reverse.takeWhile fun u => !u.clears p).filterMap (pair? p)

/-- The origin of the instance that a use gets behind others. -/
def origin? (before : List (PoolUse pools nodes)) : PoolUse pools nodes → Option (Origin pools)
  | request p k fs => some ⟨p, before.countP (clears p), k, .ofList fs⟩
  | _ => none

/-- The origin of the instance that the use at a position gets. -/
def originAt? (uses : List (PoolUse pools nodes)) (a : Nat) : Option (Origin pools) :=
  uses[a]?.bind (origin? (uses.take a))

variable {uses : List (PoolUse pools nodes)} {u : PoolUse pools nodes} {a b : Nat}
variable {d : Origin pools}

theorem lt_of_originAt? (h : originAt? uses a = some d) : a < uses.length := by
  obtain ⟨u, hu, -⟩ := Option.bind_eq_some_iff.1 h
  exact (List.getElem?_eq_some_iff.1 hu).1

theorem originAt?_concat (h : a < uses.length) : originAt? (uses ++ [u]) a = originAt? uses a := by
  rw [originAt?, List.getElem?_append_left h, List.take_append_of_le_length (Nat.le_of_lt h)]
  rfl

theorem originAt?_length (uses : List (PoolUse pools nodes)) (u : PoolUse pools nodes) :
    originAt? (uses ++ [u]) uses.length = u.origin? uses := by
  rw [originAt?, List.getElem?_concat_length, List.take_left]
  rfl

theorem originAt?_eq_some_iff :
    originAt? uses a = some d ↔ ∃ fs, uses[a]? = some (request d.pool d.key fs) ∧
      d.options = .ofList fs ∧ d.clears = (uses.take a).countP (clears d.pool) := by
  rw [originAt?, Option.bind_eq_some_iff]
  constructor
  · rintro ⟨u, hu, hd⟩
    cases u with
    | request p k fs =>
      cases hd
      exact ⟨fs, hu, rfl, rfl⟩
    | clear p => cases hd
    | keep a n x => cases hd
  · rintro ⟨fs, hu, ho, hc⟩
    refine ⟨_, hu, ?_⟩
    rw [origin?, ← ho, ← hc]

theorem countP_take_eq_iff {α : Type} (f : α → Bool) (l : List α) (h : a ≤ b) :
    (l.take a).countP f = (l.take b).countP f ↔
      ∀ u ∈ (l.take b).drop a ++ (l.take a).drop b, f u = false := by
  have hnone : (l.take a).drop b = [] :=
    List.drop_eq_nil_of_le (Nat.le_trans (List.length_take_le ..) h)
  have hsplit := List.take_append_drop a (l.take b)
  rw [List.take_take, Nat.min_eq_left h] at hsplit
  rw [hnone, List.append_nil, ← hsplit, List.countP_append, Nat.left_eq_add, List.countP_eq_zero,
    hsplit]
  simp only [Bool.not_eq_true]

/-- A pool was cleared as often before one position as before another just if it is not cleared
between them. -/
theorem countP_clears_eq_iff (p : Fin pools) (uses : List (PoolUse pools nodes)) (a b : Nat) :
    (uses.take a).countP (clears p) = (uses.take b).countP (clears p) ↔
      ∀ u ∈ (uses.take b).drop a ++ (uses.take a).drop b, u.clears p = false := by
  rcases Nat.le_total a b with h | h
  · exact countP_take_eq_iff (clears p) uses h
  · rw [eq_comm, countP_take_eq_iff (clears p) uses h]
    simp only [List.mem_append, or_comm]

/-- The uses that share an instance are those with the same origin. -/
theorem shared_iff :
    Shared uses a b ↔ ∃ d, originAt? uses a = some d ∧ originAt? uses b = some d := by
  constructor
  · intro h
    unfold Shared at h
    split at h
    · rename_i p k fs q l gs ha hb
      obtain ⟨rfl, ⟨hname, hcalculator⟩, hflags, hclears⟩ := h
      have hkey : k = l := by
        cases k
        cases l
        cases hname
        cases hcalculator
        rfl
      refine ⟨⟨p, (uses.take a).countP (clears p), k, .ofList fs⟩,
        originAt?_eq_some_iff.2 ⟨fs, ha, rfl, rfl⟩,
        originAt?_eq_some_iff.2 ⟨gs, hkey ▸ hb, ?_, ?_⟩⟩
      · exact OptionSet.ofList_eq_iff.2 hflags
      · exact (countP_clears_eq_iff p uses a b).2 hclears
    · exact h.elim
  · rintro ⟨d, ha, hb⟩
    obtain ⟨fs, ha, hfs, hca⟩ := originAt?_eq_some_iff.1 ha
    obtain ⟨gs, hb, hgs, hcb⟩ := originAt?_eq_some_iff.1 hb
    rw [Shared, ha, hb]
    refine ⟨rfl, ⟨rfl, rfl⟩, ?_, ?_⟩
    · exact OptionSet.ofList_eq_iff.1 (hfs.symm.trans hgs)
    · exact (countP_clears_eq_iff d.pool uses a b).1 (hca.symm.trans hcb)

theorem requested_concat (p : Fin pools) (uses : List (PoolUse pools nodes))
    (u : PoolUse pools nodes) :
    requested p (uses ++ [u]) =
      if u.clears p then [] else (u.pair? p).toList ++ requested p uses := by
  rw [requested, List.reverse_concat, List.takeWhile_cons]
  cases hc : u.clears p with
  | true => rfl
  | false =>
    rw [Bool.not_false, if_pos rfl, List.filterMap_cons]
    cases u.pair? p with
    | none => rfl
    | some x => rfl

/-- A use has a value kept under the instance of an origin. -/
def Keeps (uses : List (PoolUse pools nodes)) (d : Origin pools) (n : Fin nodes) (x : Float)
    (c : Nat) : Prop :=
  ∃ a < c, uses[c]? = some (keep a n x) ∧ originAt? uses a = some d

/-- A use has a value kept under the instance that the use at a position has got. -/
def KeptFor (uses : List (PoolUse pools nodes)) (b : Nat) (n : Fin nodes) (x : Float) (c : Nat) :
    Prop :=
  ∃ a < c, uses[c]? = some (keep a n x) ∧ Shared uses a b

/-- The first value that is kept under the instance of an origin. -/
def Holds (uses : List (PoolUse pools nodes)) (d : Origin pools) (n : Fin nodes) (x : Float) :
    Prop :=
  ∃ c, Keeps uses d n x c ∧ ∀ c' < c, ∀ y, ¬ Keeps uses d n y c'

variable {n : Fin nodes} {x : Float} {c : Nat}

theorem keptFor_iff (hb : originAt? uses b = some d) :
    KeptFor uses b n x c ↔ Keeps uses d n x c := by
  apply exists_congr
  intro a
  rw [shared_iff, hb]
  simp only [Option.some.injEq, exists_eq_right']

theorem Keeps.lt (h : Keeps uses d n x c) : c < uses.length := by
  obtain ⟨a, -, hc, -⟩ := h
  exact (List.getElem?_eq_some_iff.1 hc).1

theorem Keeps.exists_holds (h : Keeps uses d n x c) : ∃ y, Holds uses d n y := by
  induction c using Nat.strongRecOn generalizing x with
  | ind c ih =>
    by_cases hfirst : ∃ c' < c, ∃ y, Keeps uses d n y c'
    · obtain ⟨c', hlt, y, hy⟩ := hfirst
      exact ih c' hlt hy
    · exact ⟨x, c, h, fun c' hlt y hy => hfirst ⟨c', hlt, y, hy⟩⟩

theorem keeps_concat :
    Keeps (uses ++ [u]) d n x c ↔ Keeps uses d n x c ∨
      c = uses.length ∧ ∃ a < c, u = keep a n x ∧ originAt? uses a = some d := by
  unfold Keeps
  rcases Nat.lt_trichotomy c uses.length with hc | rfl | hc
  · rw [or_iff_left fun h => Nat.ne_of_lt hc h.1]
    apply exists_congr
    intro a
    apply and_congr_right
    intro ha
    rw [List.getElem?_append_left hc, originAt?_concat (Nat.lt_trans ha hc)]
  · rw [or_iff_right, eq_self, true_and]
    · apply exists_congr
      intro a
      apply and_congr_right
      intro ha
      rw [List.getElem?_concat_length, originAt?_concat ha, Option.some.injEq]
    · rintro ⟨a, -, hk, -⟩
      rw [List.getElem?_length] at hk
      cases hk
  · have hnone (l : List (PoolUse pools nodes)) (hl : l.length ≤ c) (a : Nat) :
        l[c]? ≠ some (keep a n x) := by
      rw [List.getElem?_eq_none hl]
      exact fun h => nomatch h
    apply iff_of_false
    · rintro ⟨a, -, hk, -⟩
      apply hnone _ _ a hk
      rw [List.length_append]
      exact hc
    · rintro (⟨a, -, hk, -⟩ | ⟨rfl, -⟩)
      · exact hnone _ (Nat.le_of_lt hc) a hk
      · exact Nat.lt_irrefl _ hc

/-- The first value stays, and one more use decides only where nothing is kept so far. -/
theorem holds_concat :
    Holds (uses ++ [u]) d n x ↔ Holds uses d n x ∨
      (∃ a < uses.length, u = keep a n x ∧ originAt? uses a = some d) ∧
        ∀ y, ¬ Holds uses d n y := by
  constructor
  · rintro ⟨c, hc, hfirst⟩
    have hno : ∀ c' < c, ∀ y, ¬ Keeps uses d n y c' := by
      intro c' hlt y hy
      exact hfirst c' hlt y (keeps_concat.2 (.inl hy))
    rcases keeps_concat.1 hc with hc | ⟨rfl, hu⟩
    · exact .inl ⟨c, hc, hno⟩
    · refine .inr ⟨hu, ?_⟩
      rintro y ⟨c', hy, -⟩
      exact hno c' hy.lt y hy
  · rintro (⟨c, hc, hfirst⟩ | ⟨hu, hnone⟩)
    · refine ⟨c, keeps_concat.2 (.inl hc), ?_⟩
      intro c' hlt y hy
      rcases keeps_concat.1 hy with hy | ⟨rfl, -⟩
      · exact hfirst c' hlt y hy
      · exact Nat.lt_asymm hlt hc.lt
    · refine ⟨uses.length, keeps_concat.2 (.inr ⟨rfl, hu⟩), ?_⟩
      intro c' hlt y hy
      rcases keeps_concat.1 hy with hy | ⟨rfl, -⟩
      · obtain ⟨z, hz⟩ := hy.exists_holds
        exact hnone z hz
      · exact Nat.lt_irrefl _ hlt

end PoolUse

/-- The store behind some uses of the pools, and the instance that each use has got, if any. -/
structure Ledger (σ : Type) where
  store : Store σ
  handed : List (Option Instance)

namespace Ledger

open PoolUse

variable {σ : Type} {pools nodes : Nat}

def instance? (l : Ledger σ) (a : Nat) : Option Instance := l.handed[a]?.join

def step (l : Ledger σ) : PoolUse pools nodes → Ledger σ
  | request p k fs =>
    ⟨(l.store.intern p k (.ofList fs)).2, l.handed ++ [some (l.store.intern p k (.ofList fs)).1]⟩
  | clear p => ⟨l.store.clear p, l.handed ++ [none]⟩
  | keep a n x =>
    match l.instance? a with
    | some i => ⟨l.store.fill n i.slot x, l.handed ++ [none]⟩
    | none => ⟨l.store, l.handed ++ [none]⟩

def run (nodes : Nat) (state : σ) (uses : List (PoolUse pools nodes)) : Ledger σ :=
  uses.foldl step ⟨.init pools nodes state, []⟩

/-- An instance that some use has got, with its origin. -/
def Issued (uses : List (PoolUse pools nodes)) (l : Ledger σ) (d : Origin pools) (i : Instance) :
    Prop :=
  ∃ a, originAt? uses a = some d ∧ l.instance? a = some i

variable {uses : List (PoolUse pools nodes)} {u : PoolUse pools nodes} {l : Ledger σ}
variable {t : Store σ} {r : Option Instance} {a : Nat}

theorem instance?_concat (h : a < l.handed.length) :
    instance? ⟨t, l.handed ++ [r]⟩ a = l.instance? a := by
  rw [instance?, List.getElem?_append_left h]
  rfl

theorem instance?_length (l : Ledger σ) (t : Store σ) (r : Option Instance) :
    instance? ⟨t, l.handed ++ [r]⟩ l.handed.length = r := by
  rw [instance?, List.getElem?_concat_length]
  rfl

theorem issued_concat (hl : l.handed.length = uses.length) :
    Issued (uses ++ [u]) ⟨t, l.handed ++ [r]⟩ =
      fun d i => Issued uses l d i ∨ u.origin? uses = some d ∧ r = some i := by
  funext d i
  apply propext
  constructor
  · rintro ⟨a, hd, hi⟩
    have hlt := lt_of_originAt? hd
    rw [List.length_append, List.length_singleton] at hlt
    rcases Nat.lt_succ_iff_lt_or_eq.1 hlt with hlt | rfl
    · rw [originAt?_concat hlt] at hd
      rw [instance?_concat (hl ▸ hlt)] at hi
      exact .inl ⟨a, hd, hi⟩
    · rw [originAt?_length] at hd
      rw [← hl, instance?_length] at hi
      exact .inr ⟨hd, hi⟩
  · rintro (⟨a, hd, hi⟩ | ⟨hd, hi⟩)
    · have hlt := lt_of_originAt? hd
      refine ⟨a, ?_, ?_⟩
      · rw [originAt?_concat hlt, hd]
      · rw [instance?_concat (hl ▸ hlt), hi]
    · refine ⟨uses.length, ?_, ?_⟩
      · rw [originAt?_length, hd]
      · rw [← hl, instance?_length, hi]

/-- The slots and the kept values behind some uses are those of the origins. -/
structure Canonical (uses : List (PoolUse pools nodes)) (l : Ledger σ) : Prop where
  length_eq : l.handed.length = uses.length
  isSome_eq : ∀ a, (l.instance? a).isSome = (originAt? uses a).isSome
  assigns : l.store.Assigns (fun p => uses.countP (clears p)) (Issued uses l)
  remembers : l.store.Remembers (Issued uses l) (Holds uses)

namespace Canonical

theorem nil (nodes : Nat) (state : σ) :
    Canonical ([] : List (PoolUse pools nodes)) ⟨.init pools nodes state, []⟩ := by
  have hissued : Issued ([] : List (PoolUse pools nodes))
      (⟨.init pools nodes state, []⟩ : Ledger σ) = fun _ _ => False := by
    funext d i
    exact eq_false fun ⟨a, hd, _⟩ => Nat.not_lt_zero a (lt_of_originAt? hd)
  have hholds : Holds ([] : List (PoolUse pools nodes)) = fun _ _ _ => False := by
    funext d n x
    exact eq_false fun ⟨c, hc, _⟩ => Nat.not_lt_zero c hc.lt
  constructor
  · rfl
  · intro a
    rfl
  · rw [hissued]
    exact .init pools nodes state
  · rw [hissued, hholds]
    exact .init pools nodes state

theorem concat (h : Canonical uses l) (hr : r.isSome = (u.origin? uses).isSome)
    (hassigns : t.Assigns (fun p => (uses ++ [u]).countP (clears p))
      fun d i => Issued uses l d i ∨ u.origin? uses = some d ∧ r = some i)
    (hremembers : t.Remembers
      (fun d i => Issued uses l d i ∨ u.origin? uses = some d ∧ r = some i) (Holds (uses ++ [u]))) :
    Canonical (uses ++ [u]) ⟨t, l.handed ++ [r]⟩ := by
  rw [← issued_concat h.length_eq] at hassigns hremembers
  refine ⟨?_, ?_, hassigns, hremembers⟩
  · rw [List.length_append, List.length_append, h.length_eq]
    rfl
  · intro a
    rcases Nat.lt_trichotomy a uses.length with ha | rfl | ha
    · rw [instance?_concat (h.length_eq ▸ ha), originAt?_concat ha, h.isSome_eq]
    · rw [originAt?_length, ← h.length_eq, instance?_length, hr]
    · rw [instance?, originAt?, List.getElem?_eq_none, List.getElem?_eq_none]
      · rfl
      · rw [List.length_append]
        exact ha
      · rw [List.length_append, h.length_eq]
        exact ha

/-- A use that gets no instance leaves those issued as they are. -/
theorem concat_none (h : Canonical uses l) (hu : u.origin? uses = none)
    (hassigns : t.Assigns (fun p => (uses ++ [u]).countP (clears p)) (Issued uses l))
    (hremembers : t.Remembers (Issued uses l) (Holds (uses ++ [u]))) :
    Canonical (uses ++ [u]) ⟨t, l.handed ++ [none]⟩ := by
  have hissued : (fun d i => Issued uses l d i ∨ u.origin? uses = some d ∧ none = some i) =
      Issued uses l := by
    funext d i
    exact propext (or_iff_left fun hi => nomatch hi.2)
  apply h.concat
  · rw [hu]
    rfl
  · rwa [hissued]
  · rwa [hissued]

theorem holds_of_ne_keep (hu : ∀ a n x, u ≠ .keep a n x) : Holds (uses ++ [u]) = Holds uses := by
  funext d n x
  rw [holds_concat]
  apply propext
  apply or_iff_left
  rintro ⟨⟨a, -, ha, -⟩, -⟩
  exact hu a n x ha

theorem countP_clears_concat (hu : ∀ p, u.clears p = false) :
    (fun p => (uses ++ [u]).countP (clears p)) = fun p => uses.countP (clears p) := by
  funext p
  rw [List.countP_append, List.countP_singleton, hu p]
  rfl

theorem step_request (h : Canonical uses l) (p : Fin pools) (k : MetricKey) (fs : List String) :
    Canonical (uses ++ [.request p k fs]) (l.step (.request p k fs : PoolUse pools nodes)) := by
  have hholds : Holds (uses ++ [PoolUse.request p k fs]) = Holds uses :=
    holds_of_ne_keep fun _ _ _ hu => nomatch hu
  have hnew (i : Instance) : (fun d j => Issued uses l d j ∨
      (PoolUse.request p k fs : PoolUse pools nodes).origin? uses = some d ∧ some i = some j) =
      fun d j => Issued uses l d j ∨ d = ⟨p, uses.countP (clears p), k, .ofList fs⟩ ∧ j = i := by
    funext d j
    rw [origin?, Option.some.injEq, Option.some.injEq, @eq_comm _ _ d, @eq_comm _ i]
  rw [step]
  cases hf : (l.store.pool p).find? k (.ofList fs) with
  | some j =>
    have hj := h.assigns.issued_of_find? hf
    have hold : (fun d i => Issued uses l d i ∨
        d = ⟨p, uses.countP (clears p), k, .ofList fs⟩ ∧ i = j) = Issued uses l := by
      funext d i
      apply propext
      apply or_iff_left_of_imp
      rintro ⟨rfl, rfl⟩
      exact hj
    rw [Store.intern_of_some hf]
    apply h.concat rfl
    · rw [countP_clears_concat fun _ => rfl, hnew, hold]
      exact h.assigns
    · rw [hnew, hold, hholds]
      exact h.remembers
  | none =>
    apply h.concat rfl
    · rw [countP_clears_concat fun _ => rfl, hnew]
      exact h.assigns.intern hf
    · rw [hnew, hholds]
      exact h.remembers.intern h.assigns hf

theorem step_clear (h : Canonical uses l) (p : Fin pools) :
    Canonical (uses ++ [.clear p]) (l.step (.clear p : PoolUse pools nodes)) := by
  have hcount : (fun q => (uses ++ [PoolUse.clear p]).countP (clears q)) =
      fun q => uses.countP (clears q) + if q = p then 1 else 0 := by
    funext q
    simp only [List.countP_append, List.countP_singleton, clears, decide_eq_true_eq]
  apply h.concat_none rfl
  · rw [hcount]
    exact h.assigns.clear p
  · have hholds : Holds (uses ++ [PoolUse.clear p]) = Holds uses :=
      holds_of_ne_keep fun _ _ _ hu => nomatch hu
    rw [hholds]
    exact ⟨h.remembers.kept_size, h.remembers.get?_iff, h.remembers.exists_issued⟩

theorem exists_origin (h : Canonical uses l) {i : Instance} (hi : l.instance? a = some i) :
    ∃ d, originAt? uses a = some d ∧ Issued uses l d i := by
  have hsome : (originAt? uses a).isSome := by
    rw [← h.isSome_eq, hi]
    rfl
  obtain ⟨d, hd⟩ := Option.isSome_iff_exists.1 hsome
  exact ⟨d, hd, a, hd, hi⟩

theorem step_keep (h : Canonical uses l) (a : Nat) (m : Fin nodes) (y : Float) :
    Canonical (uses ++ [.keep a m y]) (l.step (.keep a m y : PoolUse pools nodes)) := by
  rw [step]
  cases hi : l.instance? a with
  | some j =>
    obtain ⟨e, he, hj⟩ := h.exists_origin hi
    have hholds : Holds (uses ++ [PoolUse.keep a m y]) = fun d n x =>
        Holds uses d n x ∨ (d = e ∧ n = m ∧ x = y) ∧ ∀ z, ¬ Holds uses d n z := by
      funext d n x
      apply propext
      rw [holds_concat]
      apply or_congr_right
      apply and_congr_left'
      constructor
      · rintro ⟨b, -, hb, hd⟩
        cases hb
        exact ⟨Option.some.inj (hd.symm.trans he), rfl, rfl⟩
      · rintro ⟨rfl, rfl, rfl⟩
        exact ⟨a, lt_of_originAt? he, rfl, he⟩
    apply h.concat_none rfl
    · rw [countP_clears_concat fun _ => rfl]
      exact h.assigns.fill hj m y
    · rw [hholds]
      exact h.remembers.fill h.assigns hj m y
  | none =>
    have hnone : originAt? uses a = none := by
      apply Option.not_isSome_iff_eq_none.1
      rw [← h.isSome_eq, hi]
      exact Bool.false_ne_true
    have hholds : Holds (uses ++ [PoolUse.keep a m y]) = Holds uses := by
      funext d n x
      apply propext
      rw [holds_concat]
      apply or_iff_left
      rintro ⟨⟨b, -, hb, hd⟩, -⟩
      cases hb
      rw [hnone] at hd
      cases hd
    apply h.concat_none rfl
    · rw [countP_clears_concat fun _ => rfl]
      exact h.assigns
    · rw [hholds]
      exact h.remembers

theorem run (state : σ) (uses : List (PoolUse pools nodes)) :
    Canonical uses (Ledger.run nodes state uses) := by
  induction uses using List.reverseRecOn with
  | nil => exact .nil nodes state
  | append_singleton uses u ih =>
    rw [Ledger.run, List.foldl_concat]
    cases u with
    | request p k fs => exact ih.step_request p k fs
    | clear p => exact ih.step_clear p
    | keep a n x => exact ih.step_keep a n x

theorem exists_instance (h : Canonical uses l) {p : Fin pools} {k : MetricKey} {fs : List String}
    (ha : uses[a]? = some (.request p k fs)) :
    ∃ i, l.instance? a = some i ∧ i.key = k ∧ i.options.flags.toFinset = fs.toFinset := by
  have hd : originAt? uses a = some ⟨p, (uses.take a).countP (clears p), k, .ofList fs⟩ :=
    originAt?_eq_some_iff.2 ⟨fs, ha, rfl, rfl⟩
  have hsome : (l.instance? a).isSome := by
    rw [h.isSome_eq, hd]
    rfl
  obtain ⟨i, hi⟩ := Option.isSome_iff_exists.1 hsome
  obtain ⟨hkey, hoptions⟩ := h.assigns.carries ⟨a, hd, hi⟩
  refine ⟨i, hi, hkey, ?_⟩
  rw [hoptions, OptionSet.toFinset_ofList]

theorem slot_eq_iff (h : Canonical uses l) {a b : Nat} {i j : Instance}
    (hi : l.instance? a = some i) (hj : l.instance? b = some j) :
    i.slot = j.slot ↔ Shared uses a b := by
  obtain ⟨d, hd, hdi⟩ := h.exists_origin hi
  obtain ⟨e, he, hej⟩ := h.exists_origin hj
  rw [h.assigns.slot_iff hdi hej, shared_iff, hd, he]
  constructor
  · rintro rfl
    exact ⟨d, rfl, rfl⟩
  · rintro ⟨f, hf, hf'⟩
    cases hf
    cases hf'
    rfl

theorem get?_slot_iff (h : Canonical uses l) {b : Nat} {j : Instance}
    (hj : l.instance? b = some j) (n : Fin nodes) (x : Float) :
    (l.store.data n).get? j.slot = some x ↔
      ∃ c, KeptFor uses b n x c ∧ ∀ c' < c, ∀ y, ¬ KeptFor uses b n y c' := by
  obtain ⟨d, hd, hdj⟩ := h.exists_origin hj
  rw [h.remembers.get?_iff hdj, Holds]
  simp only [keptFor_iff hd]

end Canonical

/-- A pool has each pair that it was asked for since it was last cleared, and has it once. -/
structure Stocked (uses : List (PoolUse pools nodes)) (l : Ledger σ) (p : Fin pools) : Prop where
  nodup : (l.store.pool p).pairs.Nodup
  toFinset_eq : (requested p uses).toFinset =
    (l.store.pool p).pairs.toFinset.image fun x => (x.1, x.2.flags.toFinset)

theorem Stocked.size_eq {p : Fin pools} (h : Stocked uses l p) :
    (l.store.pool p).size = (requested p uses).toFinset.card := by
  have hinj : Function.Injective
      fun x : MetricKey × OptionSet => (x.1, x.2.flags.toFinset) :=
    Function.injective_id.prodMap OptionSet.toFinset_injective
  rw [h.toFinset_eq, Finset.card_image_of_injective _ hinj, List.toFinset_card_of_nodup h.nodup,
    Pool.length_pairs]

theorem Stocked.of_pool_eq {p : Fin pools} (h : Stocked uses l p) (hu : u.clears p = false)
    (hpair : u.pair? p = none) (ht : t.pool p = l.store.pool p) :
    Stocked (uses ++ [u]) ⟨t, l.handed ++ [r]⟩ p := by
  constructor
  · rw [ht]
    exact h.nodup
  · rw [requested_concat, hu, if_neg Bool.false_ne_true, hpair, ht]
    exact h.toFinset_eq

theorem Stocked.concat {p : Fin pools} (h : Stocked uses l p) (hsize : l.store.pools.size = pools)
    (u : PoolUse pools nodes) : Stocked (uses ++ [u]) (l.step u) p := by
  cases u with
  | request q k fs =>
    have hq : (q : Nat) < l.store.pools.size := by
      rw [hsize]
      exact q.isLt
    constructor
    · exact Store.nodup_pairs_intern hq h.nodup
    · have hclears : (PoolUse.request q k fs : PoolUse pools nodes).clears p = false := rfl
      rw [requested_concat, hclears, if_neg Bool.false_ne_true, pair?, step]
      by_cases hqp : q = p
      · subst hqp
        rw [if_pos rfl, Store.toFinset_pairs_intern hq, Finset.image_insert,
          OptionSet.toFinset_ofList, ← h.toFinset_eq]
        exact List.toFinset_cons
      · rw [if_neg hqp, Store.pairs_intern hq, if_neg fun hpq => hqp (Fin.ext hpq.1.symm)]
        exact h.toFinset_eq
  | clear q =>
    by_cases hqp : p = q
    · constructor
      · rw [step, Store.pool_clear, hqp, if_pos rfl]
        exact List.nodup_nil
      · rw [requested_concat, clears, if_pos (decide_eq_true hqp), step, Store.pool_clear, hqp,
          if_pos rfl]
        rfl
    · have hclears : (PoolUse.clear q : PoolUse pools nodes).clears p = false := decide_eq_false hqp
      apply h.of_pool_eq hclears rfl
      rw [Store.pool_clear, if_neg fun hpq => hqp (Fin.ext hpq)]
  | keep a n x =>
    rw [step]
    split
    · exact h.of_pool_eq rfl rfl (Store.pool_fill ..)
    · exact h.of_pool_eq rfl rfl rfl

theorem Stocked.run (state : σ) (uses : List (PoolUse pools nodes)) (p : Fin pools) :
    Stocked uses (Ledger.run nodes state uses) p := by
  induction uses using List.reverseRecOn with
  | nil =>
    constructor
    · rw [Ledger.run, List.foldl_nil, Store.pool_init]
      exact List.nodup_nil
    · rw [Ledger.run, List.foldl_nil, Store.pool_init]
      rfl
  | append_singleton uses u ih =>
    have hsize := (Canonical.run state uses).assigns.pools_size
    rw [Ledger.run, List.foldl_concat]
    exact ih.concat hsize u

end Ledger

open PoolUse in
/-- Whatever is done with some pools, each request gets an instance with its key and its flags. Two
instances have the same slot just if they are of requests for the same key and flags from one pool
that is not cleared between them. A pool has as many instances as different pairs were requested
since it was last cleared. Under an instance stands the first value that was kept under an instance
with its slot, and no other. -/
theorem instances_canonical {σ : Type} {pools nodes : Nat} (state : σ)
    (uses : List (PoolUse pools nodes)) :
    let l := Ledger.run nodes state uses
    (∀ a p k fs, uses[a]? = some (.request p k fs) → ∃ i, l.instance? a = some i ∧
      i.key = k ∧ i.options.flags.toFinset = fs.toFinset) ∧
    (∀ a b i j, l.instance? a = some i → l.instance? b = some j →
      (i.slot = j.slot ↔ Shared uses a b)) ∧
    (∀ p : Fin pools, (l.store.pool p).size = (requested p uses).toFinset.card) ∧
    ∀ b j, l.instance? b = some j → ∀ (n : Fin nodes) x,
      (l.store.data n).get? j.slot = some x ↔
        ∃ c, KeptFor uses b n x c ∧ ∀ c' < c, ∀ y, ¬ KeptFor uses b n y c' := by
  intro l
  have h : Ledger.Canonical uses l := .run state uses
  refine ⟨?_, ?_, ?_, ?_⟩
  · intro a p k fs ha
    exact h.exists_instance ha
  · intro a b i j hi hj
    exact h.slot_eq_iff hi hj
  · intro p
    exact (Ledger.Stocked.run state uses p).size_eq
  · intro b j hj n x
    exact h.get?_slot_iff hj n x

namespace Sample

/-- Two pools are asked for one key with the same flags in turn, the first again after it is
cleared, and then for a second key of the same name. -/
def poolUses : List (PoolUse 2 1) :=
  [.request 0 ⟨"LOC", 0⟩ ["a", "b"], .keep 0 0 1, .request 1 ⟨"LOC", 0⟩ ["a", "b"], .clear 0,
    .request 0 ⟨"LOC", 0⟩ ["b", "a", "b"], .request 0 ⟨"LOC", 1⟩ ["a", "b"],
    .request 0 ⟨"LOC", 0⟩ ["a", "b"]]

theorem instances_canonical_of_cleared :
    ∃ i₀ i₂ i₄ i₅ i₆, (([0, 2, 4, 5, 6].map (Ledger.run 1 () poolUses).instance?) =
        [i₀, i₂, i₄, i₅, i₆].map some) ∧
      i₄.slot = i₆.slot ∧ i₀.slot ≠ i₄.slot ∧ i₀.slot ≠ i₂.slot ∧ i₄.slot ≠ i₅.slot ∧
      ((Ledger.run 1 () poolUses).store.pool 0).size = 2 ∧
      ((Ledger.run 1 () poolUses).store.data 0).get? i₀.slot = some 1 ∧
      ∀ x, ((Ledger.run 1 () poolUses).store.data 0).get? i₄.slot ≠ some x := by
  obtain ⟨hget, hslot, hsize, hvalue⟩ := instances_canonical () poolUses
  obtain ⟨i₀, h₀, -⟩ := hget 0 _ _ _ rfl
  obtain ⟨i₂, h₂, -⟩ := hget 2 _ _ _ rfl
  obtain ⟨i₄, h₄, -⟩ := hget 4 _ _ _ rfl
  obtain ⟨i₅, h₅, -⟩ := hget 5 _ _ _ rfl
  obtain ⟨i₆, h₆, -⟩ := hget 6 _ _ _ rfl
  refine ⟨i₀, i₂, i₄, i₅, i₆, ?_, ?_, ?_, ?_, ?_, ?_, ?_, ?_⟩
  · simp only [List.map_cons, List.map_nil, h₀, h₂, h₄, h₅, h₆]
  · exact (hslot 4 6 i₄ i₆ h₄ h₆).2 (by decide +kernel)
  · exact mt (hslot 0 4 i₀ i₄ h₀ h₄).1 (by decide +kernel)
  · exact mt (hslot 0 2 i₀ i₂ h₀ h₂).1 (by decide +kernel)
  · exact mt (hslot 4 5 i₄ i₅ h₄ h₅).1 (by decide +kernel)
  · exact (hsize 0).trans (by decide +kernel)
  · apply (hvalue 0 i₀ h₀ 0 1).2
    refine ⟨1, ⟨0, Nat.zero_lt_one, rfl, by decide +kernel⟩, ?_⟩
    rintro c hc y ⟨a, ha, -⟩
    omega
  · intro x hx
    obtain ⟨c, ⟨a, -, hc, hshared⟩, -⟩ := (hvalue 4 i₄ h₄ 0 x).1 hx
    have hmem := List.mem_of_getElem? hc
    simp only [poolUses, List.mem_cons, PoolUse.keep.injEq, reduceCtorEq, List.not_mem_nil,
      false_or, or_false] at hmem
    rw [hmem.1] at hshared
    exact absurd hshared (by decide +kernel)

end Sample

end TreeMetrics
