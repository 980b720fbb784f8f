import Mathlib.Data.Finmap
import TreeMetrics.Memo.Script
import TreeMetrics.Proofs.Memo.DataMap

namespace TreeMetrics.DataMap

/-- A program on one map. Keys are numbered in the order in which they were made, and what comes
after a step may depend on its answer. The program ends in a value or stops. -/
inductive Program (β ε : Type) where
  | give (v : β)
  | stop (e : ε)
  | get (k : Nat) (next : Option β → Program β ε)
  | put (k : Nat) (v : β) (next : Option β → Program β ε)
  | contains (k : Nat) (next : Bool → Program β ε)
  | size (next : Nat → Program β ε)
  | isEmpty (next : Bool → Program β ε)
  | compute (k : Nat) (body : Program β ε) (next : β → Program β ε)
  | attempt (inner : Program β ε) (next : Except ε β → Program β ε)

/-- What can be seen of a program while it runs: the answers to its steps, and which computations
are begun. -/
inductive Event (β ε : Type) where
  | got (k : Nat) (v : Option β)
  | put (k : Nat) (old : Option β)
  | contained (k : Nat) (b : Bool)
  | counted (n : Nat)
  | foundEmpty (b : Bool)
  | began (k : Nat)
  | computed (k : Nat) (v : β)
  | attempted (outcome : Except ε β)

def Event.puts {β ε : Type} (k : Nat) : Event β ε → Bool
  | put j _ => j == k
  | _ => false

/-- A map in use, and what was seen so far. -/
structure Session (β ε : Type) where
  map : DataMap Nat β
  log : List (Event β ε)

namespace Session

variable {β ε : Type}

def note (s : Session β ε) (e : Event β ε) : Session β ε := { s with log := s.log ++ [e] }

def onMap (f : DataMap Nat β → DataMap Nat β) (s : Session β ε) : Session β ε :=
  { s with map := f s.map }

end Session

/-- Finitely many bindings of keys to values. -/
abbrev Bindings (β : Type) := Finmap fun _ : Nat => β

/-- How a program ends, what was seen of it and the bindings that it leaves. -/
structure Reply (β ε : Type) where
  outcome : Except ε β
  log : List (Event β ε)
  bindings : Bindings β

def Reply.after {β ε : Type} (log : List (Event β ε)) (r : Reply β ε) : Reply β ε :=
  { r with log := log ++ r.log }

namespace Program

variable {β ε : Type}

def run (names : Nat → String) : Program β ε → Action (Session β ε) ε β
  | give v => fun s => (.ok v, s)
  | stop e => fun s => (.error e, s)
  | get k next => fun s =>
    let v := s.map.get? (Script.Key.make k (names k)).id
    run names (next v) (s.note (.got k v))
  | put k v next => fun s =>
    let id := (Script.Key.make k (names k)).id
    let old := s.map.get? id
    run names (next old) ((s.onMap (·.put id v)).note (.put k old))
  | contains k next => fun s =>
    let b := s.map.contains (Script.Key.make k (names k)).id
    run names (next b) (s.note (.contained k b))
  | size next => fun s => run names (next s.map.size) (s.note (.counted s.map.size))
  | isEmpty next => fun s => run names (next s.map.isEmpty) (s.note (.foundEmpty s.map.isEmpty))
  | compute k body next => fun s =>
    match computeIfAbsent Session.map Session.onMap (Script.Key.make k (names k)).id
        (fun s => run names body (s.note (.began k))) s with
    | (.ok v, s) => run names (next v) (s.note (.computed k v))
    | (.error e, s) => (.error e, s)
  | attempt inner next => fun s =>
    let (o, s) := run names inner s
    run names (next o) (s.note (.attempted o))

/-- What a program does to a partial map. A key that is bound is not computed. A computation that
stops leaves the bindings that its steps have made; one that ends in a value binds its key, unless
one of its steps has put a value there. -/
def meaning : Program β ε → Bindings β → Reply β ε
  | give v, m => ⟨.ok v, [], m⟩
  | stop e, m => ⟨.error e, [], m⟩
  | get k next, m => (meaning (next (m.lookup k)) m).after [.got k (m.lookup k)]
  | put k v next, m =>
    (meaning (next (m.lookup k)) (m.insert k v)).after [.put k (m.lookup k)]
  | contains k next, m => (meaning (next (decide (k ∈ m))) m).after [.contained k (decide (k ∈ m))]
  | size next, m => (meaning (next m.keys.card) m).after [.counted m.keys.card]
  | isEmpty next, m =>
    (meaning (next (decide (m.keys = ∅))) m).after [.foundEmpty (decide (m.keys = ∅))]
  | compute k body next, m =>
    match m.lookup k with
    | some v => (meaning (next v) m).after [.computed k v]
    | none =>
      let r := meaning body m
      match r.outcome with
      | .ok v =>
        let bound := if r.log.any (·.puts k) then r.bindings else r.bindings.insert k v
        (meaning (next v) bound).after (.began k :: r.log ++ [.computed k v])
      | .error e => ⟨.error e, .began k :: r.log, r.bindings⟩
  | attempt inner next, m =>
    let r := meaning inner m
    (meaning (next r.outcome) r.bindings).after (r.log ++ [.attempted r.outcome])

end Program

section Keys

variable {κ β : Type} [DecidableEq κ]

theorem mem_keys_assign {j k : κ} {s : Slot β} {l : List (κ × Slot β)} :
    j ∈ (assign k s l).map Prod.fst ↔ j = k ∨ j ∈ l.map Prod.fst := by
  induction l with
  | nil => simp [assign]
  | cons e l ih =>
    obtain ⟨i, t⟩ := e
    unfold assign
    split
    · rename_i hik
      subst hik
      simp
    · simp only [List.map_cons, List.mem_cons, ih]
      tauto

theorem nodup_keys_assign {k : κ} {s : Slot β} {l : List (κ × Slot β)}
    (h : (l.map Prod.fst).Nodup) : ((assign k s l).map Prod.fst).Nodup := by
  induction l with
  | nil => simp [assign]
  | cons e l ih =>
    obtain ⟨i, t⟩ := e
    obtain ⟨hi, hl⟩ := List.nodup_cons.1 h
    unfold assign
    split
    · rename_i hik
      subst hik
      exact h
    · rename_i hik
      refine List.nodup_cons.2 ⟨?_, ih hl⟩
      rw [mem_keys_assign]
      exact not_or.2 ⟨hik, hi⟩

theorem lookup_eq_some_of_mem {k : κ} {s : Slot β} {l : List (κ × Slot β)}
    (h : (l.map Prod.fst).Nodup) (hm : (k, s) ∈ l) : l.lookup k = some s := by
  induction l with
  | nil => cases hm
  | cons e l ih =>
    obtain ⟨i, t⟩ := e
    obtain ⟨hi, hl⟩ := List.nodup_cons.1 h
    rcases List.mem_cons.1 hm with he | hk
    · cases he
      simp
    · have hki : (k == i) = false := by
        rw [beq_eq_false_iff_ne]
        rintro rfl
        exact hi (List.mem_map.2 ⟨_, hk, rfl⟩)
      rw [List.lookup_cons, hki]
      exact ih hl hk

theorem mem_of_lookup_eq_some {k : κ} {s : Slot β} {l : List (κ × Slot β)}
    (h : l.lookup k = some s) : (k, s) ∈ l := by
  obtain ⟨l₁, l₂, rfl, -⟩ := List.lookup_eq_some_iff.1 h
  simp

end Keys

/-- The values of the map are the given bindings. Each key has one slot, and the versions in use are
below the next one. -/
structure Represents {κ β : Type} [DecidableEq κ] (m : DataMap κ β) (b : Finmap fun _ : κ => β) :
    Prop where
  nodup : (m.slots.map Prod.fst).Nodup
  fresh : ∀ {k s}, m.slot? k = some s → s.version < m.nextVersion
  values : ∀ k, m.get? k = b.lookup k

namespace Represents

variable {κ β : Type} [DecidableEq κ] {m : DataMap κ β} {b : Finmap fun _ : κ => β} {k : κ}

theorem empty : Represents (.empty : DataMap κ β) ∅ where
  nodup := List.nodup_nil
  fresh h := by cases h
  values k := by
    rw [Finmap.lookup_empty]
    rfl

theorem contains_eq (h : Represents m b) (k : κ) : m.contains k = decide (k ∈ b) := by
  rw [contains, h.values, Bool.eq_iff_iff, decide_eq_true_iff, Finmap.lookup_isSome]

/-- Empty slots do not count, and no key is counted twice. -/
theorem size_eq (h : Represents m b) : m.size = b.keys.card := by
  have hk : b.keys = ((m.slots.filter fun e => e.2.value.isSome).map Prod.fst).toFinset := by
    ext k
    rw [Finmap.mem_keys, ← Finmap.lookup_isSome, ← h.values, List.mem_toFinset]
    constructor
    · intro hs
      cases hk : m.slot? k with
      | none =>
        rw [get?_eq_none_of_slot? hk] at hs
        cases hs
      | some s =>
        rw [get?_eq_of_slot? hk] at hs
        exact List.mem_map_of_mem (List.mem_filter.2 ⟨mem_of_lookup_eq_some hk, hs⟩)
    · intro hm
      obtain ⟨⟨j, s⟩, hj, rfl⟩ := List.mem_map.1 hm
      obtain ⟨hj, hs⟩ := List.mem_filter.1 hj
      rw [get?_eq_of_slot? (lookup_eq_some_of_mem h.nodup hj)]
      exact hs
  have hn : ((m.slots.filter fun e => e.2.value.isSome).map Prod.fst).Nodup :=
    h.nodup.sublist (List.filter_sublist.map _)
  rw [hk, List.toFinset_card_of_nodup hn, List.length_map, size, List.countP_eq_length_filter]

theorem isEmpty_eq (h : Represents m b) : m.isEmpty = decide (b.keys = ∅) := by
  rw [isEmpty, h.size_eq, Bool.eq_iff_iff, decide_eq_true_iff, beq_iff_eq, Finset.card_eq_zero]

theorem put (h : Represents m b) (k : κ) (v : β) : Represents (m.put k v) (b.insert k v) where
  nodup := nodup_keys_assign h.nodup
  fresh {j s} hs := by
    by_cases hj : j = k
    · subst hj
      rw [slot?_put_self] at hs
      cases hs
      exact Nat.lt_succ_self _
    · rw [slot?_put_of_ne hj] at hs
      exact Nat.lt_succ_of_lt (h.fresh hs)
  values j := by
    by_cases hj : j = k
    · subst hj
      rw [Finmap.lookup_insert, get?_eq_of_slot? (slot?_put_self m j v)]
    · rw [Finmap.lookup_insert_of_ne _ hj, ← h.values, get?, slot?_put_of_ne hj, get?]

theorem reserve (h : Represents m b) (k : κ) : Represents (m.reserve k).2 b := by
  cases hk : m.slot? k with
  | some s =>
    rw [reserve_of_slot? hk]
    exact h
  | none =>
    refine ⟨?_, ?_, fun j => (get?_reserve m k j).trans (h.values j)⟩
    · simp only [DataMap.reserve, hk]
      exact nodup_keys_assign h.nodup
    · intro j s hs
      have hn : (m.reserve k).2.nextVersion = m.nextVersion + 1 := by simp [DataMap.reserve, hk]
      rw [hn]
      by_cases hj : j = k
      · subst hj
        rw [slot?_reserve_self] at hs
        cases hs
        simp [DataMap.reserve, hk]
      · rw [slot?_reserve_of_ne hj] at hs
        exact Nat.lt_succ_of_lt (h.fresh hs)

theorem settle (h : Represents m b) {s : Slot β} (hs : m.slot? k = some s) (v : β) :
    Represents (m.settle k s.version v) (b.insert k v) where
  nodup := by
    simp only [DataMap.settle, hs, ↓reduceIte]
    exact nodup_keys_assign h.nodup
  fresh {j t} ht := by
    have hn : (m.settle k s.version v).nextVersion = m.nextVersion := by
      simp [DataMap.settle, hs]
    rw [hn]
    by_cases hj : j = k
    · subst hj
      rw [slot?_settle_self hs] at ht
      cases ht
      exact h.fresh (s := s) hs
    · rw [slot?_settle_of_ne hj] at ht
      exact h.fresh ht
  values j := by
    by_cases hj : j = k
    · subst hj
      rw [Finmap.lookup_insert, get?_eq_of_slot? (slot?_settle_self hs v)]
    · rw [Finmap.lookup_insert_of_ne _ hj, get?_settle_of_ne hj, h.values]

end Represents

/-- From the one map to the other no slot is lost, and a slot is replaced by a newer one just when a
value is put under its key. -/
structure Tracks {β ε : Type} (m n : DataMap Nat β) (log : List (Event β ε)) : Prop where
  nextVersion_le : m.nextVersion ≤ n.nextVersion
  slot : ∀ {k s}, m.slot? k = some s → ∃ t, n.slot? k = some t ∧
    if log.any (·.puts k) then m.nextVersion ≤ t.version else t.version = s.version

namespace Tracks

variable {β ε : Type} {m n o : DataMap Nat β} {l l' : List (Event β ε)}

theorem refl (m : DataMap Nat β) : Tracks m m ([] : List (Event β ε)) :=
  ⟨le_rfl, fun {_ s} hs => ⟨s, hs, rfl⟩⟩

theorem of_quiet {e : Event β ε} (he : ∀ k, e.puts k = false) (m : DataMap Nat β) :
    Tracks m m [e] := by
  refine ⟨le_rfl, fun {k s} hs => ⟨s, hs, ?_⟩⟩
  simp [he]

theorem trans (h : Tracks m n l) (h' : Tracks n o l') : Tracks m o (l ++ l') := by
  refine ⟨h.nextVersion_le.trans h'.nextVersion_le, fun {k s} hs => ?_⟩
  obtain ⟨t, ht, hv⟩ := h.slot hs
  obtain ⟨u, hu, hw⟩ := h'.slot ht
  refine ⟨u, hu, ?_⟩
  rw [List.any_append]
  cases hl' : l'.any (·.puts k) with
  | true =>
    rw [hl'] at hw
    simpa using h.nextVersion_le.trans hw
  | false =>
    simp only [hl', Bool.false_eq_true, if_false] at hw
    rw [Bool.or_false, hw]
    exact hv

theorem put (m : DataMap Nat β) (k : Nat) (v : β) (old : Option β) :
    Tracks m (m.put k v) [(.put k old : Event β ε)] := by
  refine ⟨Nat.le_succ _, fun {j s} hs => ?_⟩
  by_cases hj : j = k
  · subst hj
    exact ⟨_, slot?_put_self m j v, by simp [Event.puts]⟩
  · exact ⟨s, (slot?_put_of_ne hj m v).trans hs, by simp [Event.puts, Ne.symm hj]⟩

theorem reserve (m : DataMap Nat β) (k : Nat) :
    Tracks m (m.reserve k).2 ([] : List (Event β ε)) := by
  cases hk : m.slot? k with
  | some s =>
    rw [reserve_of_slot? hk]
    exact refl m
  | none =>
    refine ⟨by simp [DataMap.reserve, hk], fun {j t} ht => ⟨t, ?_, by simp⟩⟩
    have hj : j ≠ k := by
      rintro rfl
      rw [hk] at ht
      cases ht
    rw [slot?_reserve_of_ne hj, ht]

theorem settle {k : Nat} {s : Slot β} (hs : m.slot? k = some s) (v : β) :
    Tracks m (m.settle k s.version v) ([] : List (Event β ε)) := by
  refine ⟨by simp [DataMap.settle, hs], fun {j t} ht => ?_⟩
  by_cases hj : j = k
  · subst hj
    rw [hs] at ht
    cases ht
    exact ⟨_, slot?_settle_self hs v, by simp⟩
  · exact ⟨t, (slot?_settle_of_ne hj _ _ _).trans ht, by simp⟩

end Tracks

/-- A run that began with the map `m` and with `log` ends as the reply says. -/
structure Matches {β ε : Type} (m : DataMap Nat β) (log : List (Event β ε)) (r : Reply β ε)
    (result : Except ε β × Session β ε) : Prop where
  outcome : result.1 = r.outcome
  log : result.2.log = log ++ r.log
  represents : result.2.map.Represents r.bindings
  tracks : Tracks m result.2.map r.log

namespace Matches

variable {β ε : Type} {m n : DataMap Nat β} {log l : List (Event β ε)} {r : Reply β ε}
  {result : Except ε β × Session β ε}

theorem inv (h : Matches m log r result) :
    ∃ n, result = (r.outcome, ⟨n, log ++ r.log⟩) ∧ n.Represents r.bindings ∧ Tracks m n r.log := by
  obtain ⟨o, n, l⟩ := result
  refine ⟨n, ?_, h.represents, h.tracks⟩
  rw [← h.outcome, ← h.log]

/-- What is left of a run after its first steps settles the whole. -/
theorem after (hs : Tracks m n l) (h : Matches n (log ++ l) r result) :
    Matches m log (r.after l) result where
  outcome := h.outcome
  log := by rw [h.log, List.append_assoc, Reply.after]
  represents := h.represents
  tracks := hs.trans h.tracks

end Matches

namespace Program

variable {β ε : Type} {names : Nat → String} {m : DataMap Nat β} {b c : Bindings β}
variable {log : List (Event β ε)} {k : Nat} {body : Program β ε} {next : β → Program β ε}

theorem run_compute_of_some {v : β} (h : m.get? k = some v) :
    run names (compute k body next) ⟨m, log⟩ =
      run names (next v) ⟨m, log ++ [.computed k v]⟩ := by
  have hv : (m.reserve k).1.value = some v := (value_reserve m k).trans h
  simp only [run, computeIfAbsent, Script.Key.make, hv]
  rfl

theorem run_compute_of_none (h : m.get? k = none) :
    run names (compute k body next) ⟨m, log⟩ =
      match run names body ⟨(m.reserve k).2, log ++ [.began k]⟩ with
      | (.ok v, s) => run names (next v)
          ⟨s.map.settle k (m.reserve k).1.version v, s.log ++ [.computed k v]⟩
      | (.error e, s) => (.error e, s) := by
  have hv : (m.reserve k).1.value = none := (value_reserve m k).trans h
  simp only [run, computeIfAbsent, Script.Key.make, hv, Session.onMap, Session.note]
  generalize run names body _ = result
  obtain ⟨_ | _, _⟩ := result <;> rfl

/-- The value that was computed goes where the bindings say: the slot that was reserved is still in
place just when nothing was put under its key. -/
theorem settle_reserved {n : DataMap Nat β} (hm : m.Represents b) (hn : n.Represents c)
    (ht : Tracks (m.reserve k).2 n log) (v : β) :
    (n.settle k (m.reserve k).1.version v).Represents
        (if log.any (·.puts k) then c else c.insert k v) ∧
      Tracks n (n.settle k (m.reserve k).1.version v) ([] : List (Event β ε)) := by
  have hs := slot?_reserve_self m k
  obtain ⟨t, hk, hv⟩ := ht.slot hs
  cases hl : log.any (·.puts k) with
  | true =>
    rw [hl, if_pos rfl] at hv
    have hlt := (hm.reserve k).fresh hs
    rw [settle_of_stale hk (by omega)]
    exact ⟨hn, .refl n⟩
  | false =>
    rw [hl] at hv
    have hv : t.version = (m.reserve k).1.version := hv
    rw [← hv]
    exact ⟨hn.settle hk v, .settle hk v⟩

/-- One run, by induction on the program: each step is answered as the bindings say, and leaves a
map that represents them. -/
theorem run_matches (names : Nat → String) (p : Program β ε) (log : List (Event β ε))
    (h : m.Represents b) : Matches m log (p.meaning b) (p.run names ⟨m, log⟩) := by
  induction p generalizing m b log with
  | give v => exact ⟨rfl, (List.append_nil _).symm, h, .refl m⟩
  | stop e => exact ⟨rfl, (List.append_nil _).symm, h, .refl m⟩
  | get k next ih =>
    rw [meaning, ← h.values]
    exact .after (.of_quiet (fun _ => rfl) m) (ih _ _ h)
  | put k v next ih =>
    rw [meaning, ← h.values]
    exact .after (.put m k v _) (ih _ _ (h.put k v))
  | contains k next ih =>
    rw [meaning, ← h.contains_eq]
    exact .after (.of_quiet (fun _ => rfl) m) (ih _ _ h)
  | size next ih =>
    rw [meaning, ← h.size_eq]
    exact .after (.of_quiet (fun _ => rfl) m) (ih _ _ h)
  | isEmpty next ih =>
    rw [meaning, ← h.isEmpty_eq]
    exact .after (.of_quiet (fun _ => rfl) m) (ih _ _ h)
  | compute k body next ihb ihn =>
    cases hk : m.get? k with
    | some v =>
      rw [run_compute_of_some hk, meaning, ← h.values, hk]
      exact .after (.of_quiet (fun _ => rfl) m) (ihn v _ h)
    | none =>
      have hb := ihb (log ++ [.began k]) (h.reserve k)
      have hbegan : Tracks m (m.reserve k).2 [(.began k : Event β ε)] :=
        (Tracks.reserve m k).trans (.of_quiet (fun _ => rfl) _)
      obtain ⟨n, hrun, hn, ht⟩ := hb.inv
      rw [run_compute_of_none hk, hrun, meaning, ← h.values, hk]
      generalize body.meaning b = r at hn ht ⊢
      obtain ⟨o, l, c⟩ := r
      cases o with
      | error e =>
        have hbody : Matches (m.reserve k).2 (log ++ [.began k]) ⟨.error e, l, c⟩
          (.error e, ⟨n, log ++ [.began k] ++ l⟩) := ⟨rfl, rfl, hn, ht⟩
        exact .after hbegan hbody
      | ok v =>
        obtain ⟨hs, hq⟩ := settle_reserved h hn ht v
        have hcomputed := hq.trans (.of_quiet (e := .computed k v) (fun _ => rfl) _)
        have hsteps := hbegan.trans (ht.trans hcomputed)
        have hlog : log ++ [.began k] ++ l ++ [.computed k v] =
            log ++ (.began k :: l ++ [.computed k v]) := by simp
        simp only [hlog]
        exact .after hsteps (ihn v _ hs)
  | attempt inner next ihi ihn =>
    obtain ⟨n, hrun, hn, ht⟩ := (ihi log h).inv
    simp only [meaning, run, hrun, Session.note, List.append_assoc]
    exact .after (ht.trans (.of_quiet (fun _ => rfl) _)) (ihn _ _ hn)

/-- A data map refines a partial map. Whatever the keys are called and however computations are
nested, a program ends on an empty data map as it does on the empty partial map, has the same
answers on the way and leaves the same bindings. -/
theorem run_eq_meaning (names : Nat → String) (p : Program β ε) :
    (p.run names ⟨.empty, []⟩).1 = (p.meaning ∅).outcome ∧
      (p.run names ⟨.empty, []⟩).2.log = (p.meaning ∅).log ∧
      ∀ k, (p.run names ⟨.empty, []⟩).2.map.get? (Script.Key.make k (names k)).id =
        (p.meaning ∅).bindings.lookup k := by
  have h := run_matches names p [] .empty
  exact ⟨h.outcome, h.log, h.represents.values⟩

end Program

end TreeMetrics.DataMap
