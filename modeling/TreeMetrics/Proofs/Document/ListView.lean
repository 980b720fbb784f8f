import TreeMetrics.Proofs.Document.Search
import TreeMetrics.Proofs.Document.SizeHint

namespace TreeMetrics

open Document

section Views

variable {σ β γ : Type}

/-- The source is seen as a list: every call for the next value takes off the first of the list. -/
def SeenAs (next : σ → Option β × σ) (view : σ → List β) : Prop :=
  ∀ s, (next s).1 = (view s).head? ∧ view (next s).2 = (view s).tail

/-- The answer to the call before which there were `k` others. -/
def answerAt (next : σ → Option β × σ) (k : Nat) (s : σ) : Option β :=
  (next (afterCalls next k s)).1

/-- The next value that a filter makes of the values of a source, within a number of calls. -/
def siftWithin (next : σ → Option β × σ) (pick : β → Option γ) : Nat → σ → Option γ × σ
  | 0, s => (none, s)
  | calls + 1, s =>
    match next s with
    | (none, s) => (none, s)
    | (some b, s) =>
      match pick b with
      | some c => (some c, s)
      | none => siftWithin next pick calls s

/-- A filter behind a source that supplies no more than `limit` values. -/
def sift (next : σ → Option β × σ) (limit : σ → Nat) (pick : β → Option γ) (s : σ) :
    Option γ × σ :=
  siftWithin next pick (limit s + 1) s

namespace SeenAs

variable {next : σ → Option β × σ} {view : σ → List β} {limit : σ → Nat} {s : σ} {b : β}
  {bs : List β}

theorem of_nil (h : SeenAs next view) (hs : view s = []) :
    ∃ s', next s = (none, s') ∧ view s' = [] := by
  obtain ⟨hhead, htail⟩ := h s
  rw [hs] at hhead htail
  exact ⟨_, Prod.ext hhead rfl, htail⟩

theorem of_cons (h : SeenAs next view) (hs : view s = b :: bs) :
    ∃ s', next s = (some b, s') ∧ view s' = bs := by
  obtain ⟨hhead, htail⟩ := h s
  rw [hs] at hhead htail
  exact ⟨_, Prod.ext hhead rfl, htail⟩

theorem view_afterCalls (h : SeenAs next view) (k : Nat) (s : σ) :
    view (afterCalls next k s) = (view s).drop k := by
  induction k generalizing s with
  | zero => rfl
  | succ k ih => rw [afterCalls, ih, (h s).2, List.drop_tail]

theorem answerAt_eq (h : SeenAs next view) (k : Nat) (s : σ) :
    answerAt next k s = (view s)[k]? := by
  rw [answerAt, (h _).1, h.view_afterCalls, List.head?_drop]

/-- Values that a filter drops are skipped within the calls that there are for them. -/
theorem siftWithin_eq (h : SeenAs next view) (pick : β → Option γ) {calls : Nat}
    (hcalls : (view s).length < calls) :
    (siftWithin next pick calls s).1 = ((view s).filterMap pick).head? ∧
      (view (siftWithin next pick calls s).2).filterMap pick =
        ((view s).filterMap pick).tail := by
  induction calls generalizing s with
  | zero => exact absurd hcalls (Nat.not_lt_zero _)
  | succ calls ih =>
    cases hs : view s with
    | nil =>
      obtain ⟨s', hnext, hs'⟩ := h.of_nil hs
      simp only [siftWithin, hnext, hs', List.filterMap_nil, List.head?_nil,
        List.tail_nil, and_self]
    | cons b bs =>
      obtain ⟨s', hnext, hs'⟩ := h.of_cons hs
      cases hb : pick b with
      | some c =>
        simp only [siftWithin, hnext, hb, hs', List.filterMap_cons_some hb,
          List.head?_cons, List.tail_cons, and_self]
      | none =>
        rw [hs, List.length_cons] at hcalls
        have hrest := ih (s := s') (by rw [hs']; omega)
        rw [hs'] at hrest
        simp only [siftWithin, hnext, hb, List.filterMap_cons_none hb]
        exact hrest

/-- A filter behind a source is the filter on its list. -/
theorem sifted (h : SeenAs next view) (hlimit : ∀ s, (view s).length ≤ limit s)
    (pick : β → Option γ) :
    SeenAs (sift next limit pick) fun s => (view s).filterMap pick :=
  fun s => h.siftWithin_eq pick (Nat.lt_succ_of_le (hlimit s))

end SeenAs

end Views

variable {α β : Type} {doc : Document α}

namespace Sieve

/-- A sieve is seen as what it picks of the nodes of its walk. -/
theorem seenAs (doc : Document α) :
    SeenAs (next doc) fun s : Sieve doc β => (Stream.walked doc s.walk).filterMap s.pick := by
  intro s
  obtain ⟨w', hnext, hrest⟩ := next_eq doc s
  rw [hnext]
  exact ⟨rfl, hrest⟩

end Sieve

namespace Stream

variable {s : Stream doc} {steps : Nat}

/-- A stream at its end stays there when it is asked once more. -/
theorem step?_ended (h : s.step? doc = none) : s.ended.step? doc = none := by
  induction s with
  | walk w => exact h
  | sifted w f => exact h
  | filtered s f ih =>
    cases hs : s.step? doc with
    | some r =>
      rw [step?, hs] at h
      cases h
    | none => rw [ended, step?, ih hs]
  | along s w axis ih =>
    cases hw : w.next doc with
    | some r =>
      rw [step?, hw] at h
      cases h
    | none =>
      have hs : s.step? doc = none := by
        cases hs : s.step? doc with
        | none => rfl
        | some r =>
          obtain ⟨o, s'⟩ := r
          cases o <;> (rw [step?, hw, hs] at h; cases h)
      -- whether it is kept or let go, the source has no more nodes
      have hrest : (if s.staysAtEnd then s.ended else walk .empty).step? doc = none := by
        split
        · exact ih hs
        · rfl
      rw [ended, step?, Walk.next, hrest]
  | pending s t => cases h
  | append s t _ iht =>
    cases hs : s.step? doc with
    | some r =>
      rw [step?, hs] at h
      cases h
    | none =>
      rw [step?, hs] at h
      exact iht h

theorem toList_nextWithin (h : bound doc s ≤ steps) :
    (nextWithin doc steps s).2.toList doc = (s.toList doc).tail := by
  induction steps generalizing s with
  | zero =>
    cases hs : s.step? doc with
    | none => rw [nextWithin, toList_of_none hs, List.tail_nil, toList_of_none (step?_ended hs)]
    | some r => exact absurd (bound_step? hs) (by omega)
  | succ steps ih =>
    cases hs : s.step? doc with
    | none =>
      rw [nextWithin, hs]
      rw [toList_of_none hs, List.tail_nil, toList_of_none (step?_ended hs)]
    | some r =>
      obtain ⟨o, s'⟩ := r
      have hbound := bound_step? hs
      rw [nextWithin, hs, toList_of_some hs]
      cases o with
      | none => exact ih (by omega)
      | some n => rfl

/-- A stream is seen as the list of its nodes, however far it has been consumed. -/
theorem seenAs (doc : Document α) : SeenAs (next doc) (toList doc) :=
  fun s => ⟨first?_eq_head? s, toList_nextWithin (Nat.le_refl _)⟩

theorem length_toListWithin_le (steps : Nat) (s : Stream doc) :
    (toListWithin doc steps s).length ≤ steps := by
  induction steps generalizing s with
  | zero => exact Nat.le_refl 0
  | succ steps ih =>
    rw [toListWithin]
    cases s.step? doc with
    | none => exact Nat.zero_le _
    | some r =>
      obtain ⟨o, s'⟩ := r
      have hrest := ih s'
      have hone : o.toList.length ≤ 1 := by cases o <;> simp
      rw [List.length_append]
      omega

theorem length_toList_le (doc : Document α) (s : Stream doc) :
    (s.toList doc).length ≤ bound doc s :=
  length_toListWithin_le _ s

theorem countWithin_eq (steps count : Nat) (s : Stream doc) :
    countWithin doc steps count s = count + (toListWithin doc steps s).length := by
  induction steps generalizing count s with
  | zero => rfl
  | succ steps ih =>
    rw [countWithin, toListWithin]
    cases s.step? doc with
    | none => rfl
    | some r =>
      obtain ⟨o, s'⟩ := r
      cases o with
      | none => exact ih count s'
      | some n =>
        rw [List.length_append, ← Nat.add_assoc]
        exact ih (count + 1) s'

theorem count_eq_length (s : Stream doc) : s.count doc = (s.toList doc).length :=
  (countWithin_eq _ 0 s).trans (Nat.zero_add _)

/-- The root and the nodes below it are all nodes of the document. -/
theorem count_root (doc : Document α) :
    (walk (.ofDescendantsOrSelf doc root)).count doc = doc.size := by
  have hall : (walk (.ofDescendantsOrSelf doc root)).toList doc = doc.interval root :=
    walked_descendantOrSelf doc root
  have hroot : doc.subtreeSize root = doc.tree.size := Stands.root.subtreeSize
  rw [count_eq_length, hall, interval, List.length_range', hroot, size_eq]

theorem nonempty_eq (s : Stream doc) : s.nonempty doc = !(s.toList doc).isEmpty := by
  have hfirst : s.nonempty doc = (s.first? doc).isSome := rfl
  rw [hfirst, first?_eq_head?]
  cases s.toList doc <;> rfl

theorem toList_concat (ss : List (Stream doc)) :
    (concat ss).toList doc = ss.flatMap (toList doc) := by
  induction ss with
  | nil => exact walked_of_none rfl
  | cons s ss ih =>
    have hpending : concat (s :: ss) = pending s (concat ss) := rfl
    rw [hpending, toList_pending, ih, List.flatMap_cons]

/-- What is done to the nodes of a union one by one can be done to its parts. -/
theorem toList_concat_map {step : Stream doc → Stream doc} {each : NodeId → List NodeId}
    (hstep : ∀ s, (step s).toList doc = (s.toList doc).flatMap each) (ss : List (Stream doc)) :
    (step (concat ss)).toList doc = (concat (ss.map step)).toList doc := by
  rw [hstep, toList_concat, toList_concat, List.flatMap_assoc, List.flatMap_map]
  simp only [hstep]

theorem toList_filtered_eq_flatMap (s : Stream doc) (f : Filter) :
    (filtered s f).toList doc = (s.toList doc).flatMap fun n => (f n).toList := by
  rw [toList_filtered, List.filterMap_eq_flatMap_toList]

theorem toList_filtered_andThen (s : Stream doc) (f g : Filter) :
    (filtered s (f.andThen g)).toList doc = (filtered (filtered s f) g).toList doc := by
  rw [toList_filtered, toList_filtered, toList_filtered, List.filterMap_filterMap]
  rfl

/-- Two filters in one sieve are one filter behind the other. -/
theorem toList_sifted_andThen (w : Walk doc) (f g : Filter) :
    (sifted w (f.andThen g)).toList doc = (filtered (sifted w f) g).toList doc := by
  rw [toList_sifted, toList_filtered, toList_sifted, List.filterMap_filterMap]
  rfl

end Stream

namespace Sieve

variable {γ : Type}

/-- One sieve behind another picks what a single one with both filters picks, call by call. -/
theorem answerAt_sift (doc : Document α) (w : Walk doc) (f : NodeId → Option β) (g : β → Option γ)
    (k : Nat) :
    answerAt (sift (next doc) (fun s => Stream.walkBound doc s.walk) g) k ⟨w, f⟩ =
      answerAt (next doc) k ⟨w, fun n => (f n).bind g⟩ := by
  have hlimit (s : Sieve doc β) : ((Stream.walked doc s.walk).filterMap s.pick).length ≤
      Stream.walkBound doc s.walk :=
    Nat.le_trans (List.length_filterMap_le _ _) (Stream.length_toList_le doc (.walk s.walk))
  rw [((seenAs doc).sifted hlimit g).answerAt_eq, (seenAs doc).answerAt_eq,
    List.filterMap_filterMap]

end Sieve

/-- Streams agree with lists, also in the midst of their consumption: filters drop and convert in
order, two filters are one that does both, steps along an axis string together what the axis gives
for each node without leaving out repeated nodes, unions are taken apart by every step, and the
searches and counts are those of the list. Filters may make values of any type. -/
theorem streams_agree_with_lists [HasKind α] (doc : Document α) :
    SeenAs (Stream.next doc) (Stream.toList doc) ∧
    -- filters
    (∀ β : Type, SeenAs (Sieve.next doc) fun s : Sieve doc β =>
      ((Stream.walk s.walk).toList doc).filterMap s.pick) ∧
    (∀ (β : Type) (pick : NodeId → Option β),
      SeenAs (sift (Stream.next doc) (Stream.bound doc) pick) fun s =>
        (s.toList doc).filterMap pick) ∧
    (∀ s f, (Stream.filtered s f).toList doc = (s.toList doc).filterMap f) ∧
    (∀ s f g, (Stream.filtered s (f.andThen g)).toList doc =
      (Stream.filtered (.filtered s f) g).toList doc) ∧
    (∀ w f, (Stream.sifted w f).toList doc = ((Stream.walk w).toList doc).filterMap f) ∧
    (∀ w f g, (Stream.sifted w (f.andThen g)).toList doc =
      (Stream.filtered (.sifted w f) g).toList doc) ∧
    (∀ (β γ : Type) (w : Walk doc) (f : NodeId → Option β) (g : β → Option γ) (k : Nat),
      answerAt (sift (Sieve.next doc) (fun s => Stream.walkBound doc s.walk) g) k ⟨w, f⟩ =
        answerAt (Sieve.next doc) k ⟨w, fun n => (f n).bind g⟩) ∧
    -- steps along an axis and unions
    (∀ s axis, (Stream.follow s axis).toList doc =
      (s.toList doc).flatMap fun n => (Stream.walk (axis.walk doc n)).toList doc) ∧
    (∀ ss, (Stream.concat ss).toList doc = ss.flatMap (Stream.toList doc)) ∧
    (∀ ss axis, ((Stream.concat ss).follow axis).toList doc =
      (Stream.concat (ss.map (·.follow axis))).toList doc) ∧
    (∀ ss f, (Stream.filtered (.concat ss) f).toList doc =
      (Stream.concat (ss.map (.filtered · f))).toList doc) ∧
    -- searches and counts
    (∀ n f, doc.firstDescendant? n f = ((doc.descendants n).filterMap f).head?) ∧
    (∀ n f, doc.firstAncestor? n f = ((doc.ancestors n).filterMap f).head?) ∧
    (∀ (β : Type) (n : NodeId) (pick : NodeId → Option β),
      (Sieve.next doc ⟨.ofDescendants doc n, pick⟩).1 =
        ((doc.descendants n).filterMap pick).head? ∧
      (Sieve.next doc ⟨.ofAncestors doc n, pick⟩).1 = ((doc.ancestors n).filterMap pick).head?) ∧
    (∀ n k, doc.firstChildOfKind? n k = ((doc.children n).filter (doc.isKind k)).head?) ∧
    (∀ (s : Stream doc) (k : String),
      s.firstOfKind? doc k = ((s.toList doc).filter (doc.isKind k)).head?) ∧
    (∀ s : Stream doc, s.nonempty doc = !(s.toList doc).isEmpty) ∧
    ∀ s : Stream doc, s.count doc = (s.toList doc).length := by
  refine ⟨Stream.seenAs doc, fun β => Sieve.seenAs doc, ?_, Stream.toList_filtered,
    Stream.toList_filtered_andThen, Stream.toList_sifted, Stream.toList_sifted_andThen, ?_,
    Stream.toList_follow, Stream.toList_concat, ?_, ?_, ?_, ?_, ?_, ?_, ?_, Stream.nonempty_eq,
    Stream.count_eq_length⟩
  · intro β pick
    exact (Stream.seenAs doc).sifted (Stream.length_toList_le doc) pick
  · intro β γ w f g k
    exact Sieve.answerAt_sift doc w f g k
  · intro ss axis
    exact Stream.toList_concat_map (Stream.toList_follow · axis) ss
  · intro ss f
    exact Stream.toList_concat_map (Stream.toList_filtered_eq_flatMap · f) ss
  · intro n f
    rw [firstDescendant?, Stream.first?_eq_head?, Stream.toList_sifted]
    rfl
  · intro n f
    rw [firstAncestor?, Stream.first?_eq_head?, Stream.toList_sifted]
    rfl
  · intro β n pick
    exact ⟨(Sieve.seenAs doc _).1, (Sieve.seenAs doc _).1⟩
  · intro n k
    rw [firstChildOfKind?_eq_find?, List.head?_filter]
  · intro s k
    rw [Stream.firstOfKind?_eq_find?, List.head?_filter]

end TreeMetrics
