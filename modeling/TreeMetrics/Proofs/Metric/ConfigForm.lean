import Mathlib.Data.Set.List
import TreeMetrics.Metric.Config
import TreeMetrics.Proofs.Data.Basic
import TreeMetrics.Proofs.Data.NameMap
import TreeMetrics.Proofs.Metric.Pairs

namespace TreeMetrics

/-- A list that is read item by item. -/
theorem read_eq_ok_iff {α β ε : Type} (item : α → Except ε β)
    (read : List α → Except ε (List β)) (hnil : read [] = .ok [])
    (hcons : ∀ a as, read (a :: as) = do
      let b ← item a
      let bs ← read as
      .ok (b :: bs)) {as : List α} {bs : List β} :
    read as = .ok bs ↔ List.Forall₂ (fun a b => item a = .ok b) as bs := by
  induction as generalizing bs with
  | nil =>
    rw [hnil, List.forall₂_nil_left_iff, Except.ok.injEq, eq_comm]
  | cons a as ih =>
    rw [hcons, List.forall₂_cons_left_iff]
    simp only [bind_eq_ok_iff, Except.ok.injEq, ih]
    constructor
    · rintro ⟨b, hb, cs, hcs, rfl⟩
      exact ⟨b, cs, hb, hcs, rfl⟩
    · rintro ⟨b, cs, hb, hcs, rfl⟩
      exact ⟨b, hb, cs, hcs, rfl⟩

namespace OptionSet

variable {o : OptionSet} {v : Value}

theorem ofList_eq_iff_mem {fs : List String} :
    ofList fs = o ↔ ∀ f, f ∈ o.flags ↔ f ∈ fs := by
  rw [← toFinset_injective.eq_iff, toFinset_ofList, eq_comm, Finset.ext_iff]
  simp only [List.mem_toFinset]

/-- The value is a list of just these flags, in whatever order and however often. -/
def ListedBy (o : OptionSet) (v : Value) : Prop :=
  ∃ fs : List String, v = .list (fs.map .text) ∧ ∀ f, f ∈ o.flags ↔ f ∈ fs

def readFlag : Value → Except DecodeError String
  | .text s => .ok s
  | v => .error (.wrongType v .string)

theorem readFlag_eq_ok_iff {s : String} : readFlag v = .ok s ↔ v = .text s := by
  cases v <;> simp [readFlag]

theorem readFlags_eq_ok_iff {vs : List Value} {fs : List String} :
    readFlags vs = .ok fs ↔ vs = fs.map .text := by
  have hcons : ∀ v vs, readFlags (v :: vs) = (do
      let f ← readFlag v
      let fs ← readFlags vs
      .ok (f :: fs)) := by
    intro v vs
    cases v <;> rfl
  rw [read_eq_ok_iff readFlag readFlags rfl hcons]
  simp only [readFlag_eq_ok_iff]
  rw [← List.forall₂_eq_eq_eq, List.forall₂_map_right_iff]

theorem ofValue_eq_ok_iff : ofValue v = .ok o ↔ o.ListedBy v := by
  unfold ListedBy
  cases v with
  | list vs =>
    simp only [ofValue, bind_eq_ok_iff, readFlags_eq_ok_iff, Except.ok.injEq, Value.list.injEq]
    exact exists_congr fun fs => and_congr_right fun _ => ofList_eq_iff_mem
  | _ => exact ⟨nofun, fun ⟨_, h, _⟩ => nomatch h⟩

end OptionSet

namespace Reduction

variable {r : Reduction} {v : Value}

/-- The value is the name of the reduction, by itself or with a null. -/
def SpelledBy (r : Reduction) (v : Value) : Prop :=
  v = .text r.name ∨ v = .object [(r.name, .null)]

theorem readName_eq_ok_iff {s : String} : readName s = .ok r ↔ s = r.name := by
  constructor
  · intro h
    unfold readName at h
    split at h
    · rename_i hname
      cases h
      have hfound : (r.name == s) = true :=
        List.find?_some (p := fun r : Reduction => r.name == s) hname
      exact (beq_iff_eq.1 hfound).symm
    · cases h
  · rintro rfl
    cases r <;> rfl

theorem ofValue_eq_ok_iff : ofValue v = .ok r ↔ r.SpelledBy v := by
  unfold SpelledBy
  match v with
  | .text s => simp [ofValue, readName_eq_ok_iff]
  | .object [] => simp [ofValue]
  | .object [(s, w)] =>
    simp only [ofValue, bind_eq_ok_iff, readName_eq_ok_iff]
    constructor
    · rintro ⟨r', rfl, h⟩
      split at h
      · cases h
        exact .inr rfl
      · cases h
    · rintro (h | h)
      · cases h
      · cases h
        exact ⟨r, rfl, rfl⟩
  | .object (_ :: _ :: _) => simp [ofValue]
  | .null | .bool _ | .integer _ | .fraction _ | .list _ => simp [ofValue]

end Reduction

namespace Value

/-- A part of a configuration: the member of an object that has the name, the last one if there are
several, or the item of a list in the place. -/
def part? (name : String) (place : Nat) : Value → Option Value
  | .object ms => ms.reverse.lookup name
  | .list vs => vs[place]?
  | _ => none

def items : Value → List Value
  | .list vs => vs
  | _ => []

def members : Value → List (String × Value)
  | .object ms => ms
  | _ => []

/-- An object with the names of reductions and with lists of flags under the names of metrics. The
metrics and the flags are in ascending order, and none is repeated. -/
def IsNormal (v : Value) : Prop :=
  ∃ (aggregate : List String) (options : List (String × List String)),
    v = .object [("aggregate", .list (aggregate.map .text)),
      ("options", .object (options.map fun e => (e.1, .list (e.2.map .text))))] ∧
    (∀ s ∈ aggregate, s ∈ ["sum", "highest", "average"]) ∧
    (options.map Prod.fst).Pairwise (· < ·) ∧ ∀ e ∈ options, e.2.Pairwise (· < ·)

end Value

namespace Config

variable {c d : Config} {v w : Value} {ms : List (String × Value)} {k : String}

theorem readOptions_eq_ok_iff {es : List (String × OptionSet)} :
    readOptions ms = .ok es ↔ List.Forall₂ (fun m e => m.1 = e.1 ∧ e.2.ListedBy m.2) ms es := by
  have hcons : ∀ m ms, readOptions (m :: ms) = (do
      let e ← (do let o ← OptionSet.ofValue m.2; .ok (m.1, o))
      let es ← readOptions ms
      .ok (e :: es)) := by
    intro m ms
    rw [readOptions]
    cases OptionSet.ofValue m.2 <;> rfl
  have hentry : ∀ (m : String × Value) (e : String × OptionSet),
      (∃ o : OptionSet, o.ListedBy m.2 ∧ (m.1, o) = e) ↔ m.1 = e.1 ∧ e.2.ListedBy m.2 := by
    rintro m ⟨l, o⟩
    simp [Prod.ext_iff, and_comm]
  rw [read_eq_ok_iff _ readOptions rfl hcons]
  simp only [bind_eq_ok_iff, Except.ok.injEq, OptionSet.ofValue_eq_ok_iff, hentry]

theorem readAggregate_eq_ok_iff {vs : List Value} {rs : List Reduction} :
    readAggregate vs = .ok rs ↔ List.Forall₂ (fun v r => r.SpelledBy v) vs rs := by
  rw [read_eq_ok_iff Reduction.ofValue readAggregate rfl fun _ _ => rfl]
  simp only [Reduction.ofValue_eq_ok_iff]

theorem rel_lookup {es : List (String × OptionSet)}
    (h : List.Forall₂ (fun m e => m.1 = e.1 ∧ e.2.ListedBy m.2) ms es) :
    Option.Rel (fun w o => OptionSet.ListedBy o w) (ms.lookup k) (es.lookup k) := by
  induction h with
  | nil => exact .none
  | @cons m e ms es hm _ ih =>
    obtain ⟨l, w⟩ := m
    obtain ⟨l', o⟩ := e
    obtain ⟨rfl, hw⟩ : l = l' ∧ o.ListedBy w := hm
    rw [NameMap.lookup_cons_eq, NameMap.lookup_cons_eq]
    split
    · exact .some hw
    · exact ih

theorem rel_of_optionsOfValue {os : NameMap OptionSet} (h : optionsOfValue v = .ok os)
    (k : String) :
    Option.Rel (fun w o => OptionSet.ListedBy o w) (v.members.reverse.lookup k) (os.find? k) := by
  cases v with
  | object ms =>
    obtain ⟨es, hes, hos⟩ := bind_eq_ok_iff.1 h
    cases hos
    rw [NameMap.find?_ofList_eq]
    exact rel_lookup (List.forall₂_reverse_iff.2 (readOptions_eq_ok_iff.1 hes))
  | _ => cases h

theorem forall₂_of_aggregateOfValue {rs : List Reduction} (h : aggregateOfValue v = .ok rs) :
    List.Forall₂ (fun w r => r.SpelledBy w) v.items rs := by
  cases v with
  | list vs => exact readAggregate_eq_ok_iff.1 h
  | _ => cases h

theorem lookup_reverse_cons (k : String) (v : Value) (ms : List (String × Value)) (l : String) :
    ((k, v) :: ms).reverse.lookup l =
      (ms.reverse.lookup l).or (if l = k then some v else none) := by
  rw [List.reverse_cons, List.lookup_append, NameMap.lookup_cons_eq]
  rfl

theorem elim_or_some {β : Type} (o : Option Value) (v : Value) (x : β) (f : Value → β) :
    (o.or (some v)).elim x f = o.elim (f v) f := by
  cases o <;> rfl

/-- Each part is read from the last member of its name, and there are no other members. -/
theorem readMembers_spec (h : readMembers c ms = .ok d) :
    (∀ m ∈ ms, m.1 = "options" ∨ m.1 = "aggregate") ∧
    (ms.reverse.lookup "options").elim (.ok c.options) optionsOfValue = .ok d.options ∧
    (ms.reverse.lookup "aggregate").elim (.ok c.aggregate) aggregateOfValue = .ok d.aggregate := by
  induction ms generalizing c with
  | nil =>
    cases h
    exact ⟨nofun, rfl, rfl⟩
  | cons m ms ih =>
    obtain ⟨k, v⟩ := m
    rw [readMembers] at h
    rw [List.forall_mem_cons, lookup_reverse_cons, lookup_reverse_cons]
    split at h
    · rename_i hk
      subst hk
      obtain ⟨os, hos, h⟩ := bind_eq_ok_iff.1 h
      obtain ⟨hnames, hoptions, haggregate⟩ := ih h
      refine ⟨⟨.inl rfl, hnames⟩, ?_, ?_⟩
      · rw [if_pos rfl, elim_or_some, hos]
        exact hoptions
      · rw [if_neg (by decide), Option.or_none]
        exact haggregate
    · split at h
      · rename_i hk
        subst hk
        obtain ⟨rs, hrs, h⟩ := bind_eq_ok_iff.1 h
        obtain ⟨hnames, hoptions, haggregate⟩ := ih h
        refine ⟨⟨.inr rfl, hnames⟩, ?_, ?_⟩
        · rw [if_neg (by decide), Option.or_none]
          exact hoptions
        · rw [if_pos rfl, elim_or_some, hrs]
          exact haggregate
      · cases h

/-- Each part is read from its place in the value, and is empty if it is not there. -/
theorem parts_of_ofValue (h : ofValue v = .ok c) :
    (v.part? "options" 0).elim (.ok .empty) optionsOfValue = .ok c.options ∧
    (v.part? "aggregate" 1).elim (.ok []) aggregateOfValue = .ok c.aggregate := by
  match v with
  | .object ms => exact (readMembers_spec h).2
  | .list [] =>
    cases h
    exact ⟨rfl, rfl⟩
  | .list [os] =>
    obtain ⟨o, ho, hc⟩ := bind_eq_ok_iff.1 h
    cases hc
    exact ⟨ho, rfl⟩
  | .list (os :: rs :: rest) =>
    obtain ⟨o, ho, h⟩ := bind_eq_ok_iff.1 h
    obtain ⟨a, ha, h⟩ := bind_eq_ok_iff.1 h
    split at h
    · cases h
      exact ⟨ho, ha⟩
    · cases h
  | .null | .bool _ | .integer _ | .fraction _ | .text _ => cases h

/-- The configuration says what the value says: the reductions in the same order and as often, and
the same flags under the same names. -/
structure KeptFrom (c : Config) (v : Value) : Prop where
  aggregate : List.Forall₂ (fun w r => r.SpelledBy w)
    ((v.part? "aggregate" 1).elim [] Value.items) c.aggregate
  options : ∀ k, Option.Rel (fun w o => OptionSet.ListedBy o w)
    (((v.part? "options" 0).elim [] Value.members).reverse.lookup k) (c.options.find? k)

theorem keptFrom_of_ofValue (h : ofValue v = .ok c) : c.KeptFrom v := by
  obtain ⟨hoptions, haggregate⟩ := parts_of_ofValue h
  constructor
  · cases hp : v.part? "aggregate" 1 with
    | none =>
      rw [hp] at haggregate
      rw [← Except.ok.inj haggregate]
      exact .nil
    | some w =>
      rw [hp] at haggregate
      exact forall₂_of_aggregateOfValue haggregate
  · intro k
    cases hp : v.part? "options" 0 with
    | none =>
      rw [hp] at hoptions
      rw [← Except.ok.inj hoptions]
      exact .none
    | some w =>
      rw [hp] at hoptions
      exact rel_of_optionsOfValue hoptions k

theorem optionsOfValue_written (os : NameMap OptionSet) :
    optionsOfValue (.object (os.entries.map fun e => (e.1, e.2.toValue))) = .ok os := by
  have hread : readOptions (os.entries.map fun e => (e.1, e.2.toValue)) = .ok os.entries := by
    rw [readOptions_eq_ok_iff, List.forall₂_map_left_iff, List.forall₂_same]
    exact fun e _ => ⟨rfl, e.2.flags, rfl, fun _ => .rfl⟩
  have hentries : NameMap.ofList os.entries = os := by
    obtain ⟨es, hes⟩ := os
    exact NameMap.mk.injEq .. ▸ NameMap.entries_ofList hes
  rw [optionsOfValue, hread]
  exact congrArg Except.ok hentries

theorem aggregateOfValue_written (rs : List Reduction) :
    aggregateOfValue (.list (rs.map Reduction.toValue)) = .ok rs := by
  rw [aggregateOfValue, readAggregate_eq_ok_iff, List.forall₂_map_left_iff, List.forall₂_same]
  exact fun r _ => .inl rfl

theorem ofValue_object (os rs : Value) :
    ofValue (.object [("aggregate", rs), ("options", os)]) = (do
      let a ← aggregateOfValue rs
      let o ← optionsOfValue os
      .ok ⟨o, a⟩) := by
  rw [ofValue, readMembers, if_neg (by decide), if_pos rfl]
  cases aggregateOfValue rs with
  | error e => rfl
  | ok a =>
    show readMembers _ _ = _
    rw [readMembers, if_pos rfl]
    cases optionsOfValue os <;> rfl

theorem ofValue_toValue (c : Config) : ofValue c.toValue = .ok c := by
  rw [toValue, ofValue_object, aggregateOfValue_written, optionsOfValue_written]
  rfl

theorem isNormal_toValue (c : Config) : c.toValue.IsNormal := by
  refine ⟨c.aggregate.map Reduction.name, c.options.entries.map fun e => (e.1, e.2.flags),
    ?_, ?_, ?_, ?_⟩
  · simp only [toValue, List.map_map]
    rfl
  · intro s hs
    obtain ⟨r, -, rfl⟩ := List.mem_map.1 hs
    cases r <;> decide
  · rw [List.map_map]
    exact c.options.sorted
  · intro e he
    obtain ⟨e, -, rfl⟩ := List.mem_map.1 he
    exact e.2.sorted

theorem exists_of_isNormal (h : v.IsNormal) : ∃ c : Config, c.toValue = v := by
  obtain ⟨names, options, rfl, hnames, hsorted, hflags⟩ := h
  have hrs : names ∈ Set.range (List.map Reduction.name) := by
    rw [Set.range_list_map]
    intro s hs
    rcases List.mem_cons.1 (hnames s hs) with rfl | hs
    · exact ⟨.sum, rfl⟩
    rcases List.mem_cons.1 hs with rfl | hs
    · exact ⟨.highest, rfl⟩
    · exact ⟨.average, (List.mem_singleton.1 hs).symm⟩
  have hes : options ∈ Set.range (List.map fun e : String × OptionSet => (e.1, e.2.flags)) := by
    rw [Set.range_list_map]
    intro e he
    exact ⟨(e.1, ⟨e.2, hflags e he⟩), rfl⟩
  obtain ⟨rs, rfl⟩ := hrs
  obtain ⟨es, rfl⟩ := hes
  rw [List.map_map] at hsorted
  refine ⟨⟨⟨es, hsorted⟩, rs⟩, ?_⟩
  simp only [toValue, List.map_map]
  rfl

theorem ofValue_object_iff_list (os rs : Value) :
    ofValue (.object [("aggregate", rs), ("options", os)]) = .ok c ↔
      ofValue (.list [os, rs]) = .ok c := by
  have hlist : ofValue (.list [os, rs]) = (do
      let o ← optionsOfValue os
      let a ← aggregateOfValue rs
      .ok ⟨o, a⟩) := rfl
  rw [ofValue_object, hlist]
  simp only [bind_eq_ok_iff]
  constructor
  · rintro ⟨a, ha, o, ho, h⟩
    exact ⟨o, ho, a, ha, h⟩
  · rintro ⟨o, ho, a, ha, h⟩
    exact ⟨a, ha, o, ho, h⟩

theorem exists_error_of_mem (h : (k, w) ∈ ms) (hk : k ≠ "options") (hk' : k ≠ "aggregate") :
    ∃ e, ofValue (.object ms) = .error e := by
  cases hc : ofValue (.object ms) with
  | error e => exact ⟨e, rfl⟩
  | ok c =>
    rcases (readMembers_spec hc).1 _ h with h | h
    · exact absurd h hk
    · exact absurd h hk'

/-- Configurations are read back as they were written. Whatever value a configuration is read from,
it is written in normal form, which is read as the same configuration, and it keeps what the value
says. Values in normal form are written as they are read. It does not matter whether the two parts
are the members of an object or the items of a list, and an object with other members is refused. -/
theorem survives_writing :
    (∀ c : Config, ofValue c.toValue = .ok c) ∧
    (∀ v c, ofValue v = .ok c →
      c.toValue.IsNormal ∧ ofValue c.toValue = .ok c ∧ c.KeptFrom v) ∧
    (∀ v : Value, v.IsNormal → ∃ c, ofValue v = .ok c ∧ c.toValue = v) ∧
    (∀ os rs c, ofValue (.object [("aggregate", rs), ("options", os)]) = .ok c ↔
      ofValue (.list [os, rs]) = .ok c) ∧
    ∀ ms k w, (k, w) ∈ ms → k ≠ "options" → k ≠ "aggregate" →
      ∃ e, ofValue (.object ms) = .error e := by
  refine ⟨ofValue_toValue,
    fun v c h => ⟨isNormal_toValue c, ofValue_toValue c, keptFrom_of_ofValue h⟩,
    fun v h => ?_, fun os rs c => ofValue_object_iff_list os rs,
    fun ms k w => exists_error_of_mem⟩
  obtain ⟨c, rfl⟩ := exists_of_isNormal h
  exact ⟨c, ofValue_toValue c, rfl⟩

/-- A list form with repetitions, out of order, and an object that is not a configuration. -/
theorem survives_writing_repeated :
    let v : Value := .list [.object [("WMC", .list [.text "b", .text "a", .text "b"])],
      .list [.text "sum", .object [("highest", .null)], .text "sum"]]
    let c : Config := ⟨⟨[("WMC", ⟨["a", "b"], by decide⟩)], by decide⟩, [.sum, .highest, .sum]⟩
    ofValue v = .ok c ∧ c.toValue.IsNormal ∧ ofValue c.toValue = .ok c ∧ c.KeptFrom v ∧
    (∃ d, ofValue c.toValue = .ok d ∧ d.toValue = c.toValue) ∧
    ∃ e, ofValue (.object [("aggregate", .list []), ("metrics", .list [])]) = .error e := by
  intro v c
  have hv : ofValue v = .ok c := rfl
  obtain ⟨-, hread, hnormal, -, hrefused⟩ := survives_writing
  obtain ⟨hc, hback, hkept⟩ := hread v c hv
  exact ⟨hv, hc, hback, hkept, hnormal c.toValue hc,
    hrefused _ "metrics" (.list []) (List.mem_cons_of_mem _ List.mem_cons_self)
      (by decide) (by decide)⟩

end Config

end TreeMetrics
