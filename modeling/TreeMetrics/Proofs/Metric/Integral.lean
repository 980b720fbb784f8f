import TreeMetrics.Proofs.Metric.Rational

namespace TreeMetrics

namespace Number

open Float.Model.UnpackedFloat
open Float.Model (UnpackedFloat)
open Float.Model.Format (binary64)

variable {x y : Float} {a z : Int} {xs : List Float}

/-- The integer that a value is, if it is one. -/
def integer? (x : Float) : Option Int :=
  (rational x.toModel.unpack).bind fun q => if q.isInt then some q.num else none

theorem integer?_eq_some_iff : integer? x = some z ↔ rational x.toModel.unpack = some (z : ℚ) := by
  unfold integer?
  rw [Option.bind_eq_some_iff]
  constructor
  · rintro ⟨q, hq, h⟩
    split at h
    · rename_i hint
      rw [hq, ← Option.some_inj.1 h, Option.some_inj]
      exact (Rat.den_eq_one_iff q).1 (beq_iff_eq.1 hint) |>.symm
    · cases h
  · intro h
    exact ⟨z, h, by simp [Rat.isInt]⟩

theorem Denotes.integer?_eq (h : Denotes x.toModel.unpack z) : integer? x = some z :=
  integer?_eq_some_iff.2 h.rational_eq

theorem integer?_eq_none (h : x.isNaN = true) : integer? x = none := by
  have hu : x.toModel.unpack = .notANumber := isNaN_iff.1 h
  rw [integer?, hu]
  rfl

theorem Denotes.zero : Denotes (0.0 : Float).toModel.unpack 0 :=
  .positive_zero

theorem Denotes.foldl_add (hx : Denotes x.toModel.unpack a)
    (hxs : ∀ y ∈ xs, ∃ z, integer? y = some z)
    (h : a.natAbs + ((xs.filterMap integer?).map Int.natAbs).sum ≤ 2 ^ 53) :
    Denotes (xs.foldl (· + ·) x).toModel.unpack (a + (xs.filterMap integer?).sum) := by
  induction xs generalizing x a with
  | nil => simpa using hx
  | cons y ys ih =>
    obtain ⟨b, hb⟩ := hxs y List.mem_cons_self
    rw [List.filterMap_cons_some hb, List.map_cons, List.sum_cons] at h
    rw [List.filterMap_cons_some hb, List.sum_cons, ← add_assoc, List.foldl_cons]
    apply ih (hx.add (integer?_eq_some_iff.1 hb) (by omega))
    · intro w hw
      exact hxs w (List.mem_cons_of_mem y hw)
    · omega

/-- The sum of integers is their sum, not rounded. -/
theorem denotes_total (hxs : ∀ y ∈ xs, ∃ z, integer? y = some z)
    (h : ((xs.filterMap integer?).map Int.natAbs).sum ≤ 2 ^ 53) :
    Denotes (Reduction.total xs).toModel.unpack (xs.filterMap integer?).sum := by
  have hsum := Denotes.zero.foldl_add hxs (by simpa using h)
  rwa [zero_add] at hsum

theorem neg_infinity_lt (h : integer? x = some z) : -infinity < x := by
  have hinf : (-infinity).toModel.unpack = .infinity .negative := rfl
  rw [lt_iff_compare, hinf]
  obtain ⟨s, hu, -⟩ | ⟨s, m, e, hm, hu, -⟩ := rational_cases (integer?_eq_some_iff.1 h)
  · rw [hu]
    rfl
  · rw [hu]
    rfl

/-- Of the values met so far the greatest is kept. -/
theorem foldl_greater (hx : integer? x = some a) (hxs : ∀ y ∈ xs, ∃ z, integer? y = some z) :
    ∃ z, integer? (xs.foldl (fun x y => if x < y then y else x) x) = some z ∧
      xs.foldl (fun x y => if x < y then y else x) x ∈ x :: xs ∧
      a ≤ z ∧ ∀ b ∈ xs.filterMap integer?, b ≤ z := by
  induction xs generalizing x a with
  | nil => exact ⟨a, hx, List.mem_cons_self, le_rfl, nofun⟩
  | cons y ys ih =>
    obtain ⟨b, hb⟩ := hxs y List.mem_cons_self
    have hys : ∀ y ∈ ys, ∃ z, integer? y = some z := fun w hw => hxs w (List.mem_cons_of_mem y hw)
    have hlt := lt_iff (integer?_eq_some_iff.1 hx) (integer?_eq_some_iff.1 hb)
    rw [List.filterMap_cons_some hb, List.foldl_cons]
    by_cases hxy : x < y
    · rw [if_pos hxy]
      obtain ⟨z, hz, hmem, hle, hall⟩ := ih hb hys
      have hab : a < b := by exact_mod_cast hlt.1 hxy
      refine ⟨z, hz, List.mem_cons_of_mem x hmem, by omega, ?_⟩
      rintro c (_ | ⟨_, hc⟩)
      · exact hle
      · exact hall c hc
    · rw [if_neg hxy]
      obtain ⟨z, hz, hmem, hle, hall⟩ := ih hx hys
      have hab : b ≤ a := by exact_mod_cast not_lt.1 (hxy ∘ hlt.2)
      refine ⟨z, hz, ?_, hle, ?_⟩
      · rcases List.mem_cons.1 hmem with h | h
        · rw [h]
          exact List.mem_cons_self
        · exact List.mem_cons_of_mem x (List.mem_cons_of_mem y h)
      · rintro c (_ | ⟨_, hc⟩)
        · exact hab.trans hle
        · exact hall c hc

/-- The greatest of integers is one of them, and none is greater. -/
theorem greatest_spec (hne : xs ≠ []) (hxs : ∀ y ∈ xs, ∃ z, integer? y = some z) :
    Reduction.greatest xs ∈ xs ∧
      integer? (Reduction.greatest xs) = (xs.filterMap integer?).max? := by
  match xs, hne with
  | y :: ys, _ =>
    obtain ⟨b, hb⟩ := hxs y List.mem_cons_self
    obtain ⟨z, hz, hmem, hle, hall⟩ :=
      foldl_greater hb fun w hw => hxs w (List.mem_cons_of_mem y hw)
    rw [Reduction.greatest, List.foldl_cons, if_pos (neg_infinity_lt hb)]
    refine ⟨hmem, ?_⟩
    rw [hz]
    symm
    rw [List.max?_eq_some_iff]
    refine ⟨List.mem_filterMap.2 ⟨_, hmem, hz⟩, ?_⟩
    rw [List.filterMap_cons_some hb]
    rintro c (_ | ⟨_, hc⟩)
    · exact hle
    · exact hall c hc

theorem unpack_ne_notANumber {s : Sign} {e : BitVec 11} {m : BitVec 52}
    (h : e = -1#11 → m = 0#52) :
    unpack binary64 (packComponents binary64 s e m) ≠ .notANumber := by
  unfold unpack
  simp only [unpackExponent_packComponents, unpackMantissa_packComponents,
    unpackSign_packComponents, Sign.ofBitVec_toBitVec]
  split
  · rw [if_pos (h ‹_›)]
    nofun
  · split
    · split <;> nofun
    · nofun

theorem unpack_pack_ne_notANumber {u : UnpackedFloat} (hu : u ≠ .notANumber) :
    unpack binary64 (pack binary64 u) ≠ .notANumber := by
  cases u with
  | notANumber => exact absurd rfl hu
  | infinity s => exact unpack_ne_notANumber fun _ => rfl
  | zero s => exact unpack_ne_notANumber fun _ => rfl
  | finite s m e h =>
    unfold pack
    dsimp only
    split
    · exact unpack_ne_notANumber fun _ => rfl
    · rename_i hb
      split
      · exact unpack_ne_notANumber fun he => absurd he (biased_ne (Nat.lt_of_not_le hb))
      · exact unpack_ne_notANumber fun he => absurd he (by decide)

theorem roundWithAccuracy_ne_notANumber {s : Sign} {m : Nat} {e : Int} {c : Accuracy} :
    roundWithAccuracy binary64 s m e c ≠ .notANumber := by
  unfold roundWithAccuracy
  dsimp only
  split <;> nofun

theorem div_ne_notANumber {u v : UnpackedFloat} {q : ℚ} (hu : rational u = some q) (hv : Proper v) :
    UnpackedFloat.div binary64 u v ≠ .notANumber := by
  obtain ⟨hn⟩ := hv
  obtain ⟨s, rfl, -⟩ | ⟨s, m, e, hm, rfl, -⟩ := rational_cases hu
  · nofun
  · exact roundWithAccuracy_ne_notANumber

theorem isNaN_div (hx : integer? x = some z) (hy : Proper y.toModel.unpack) :
    (x / y).isNaN = false := by
  rw [← Bool.not_eq_true]
  intro hnan
  exact unpack_pack_ne_notANumber (div_ne_notANumber (integer?_eq_some_iff.1 hx) hy)
    (isNaN_iff.1 hnan)

end Number

namespace Reduction

open Number

variable {values values' : List Float}

def known (values : List Float) : List Float := values.filter fun x => !x.isNaN

theorem mem_known {x : Float} : x ∈ known values ↔ x ∈ values ∧ x.isNaN = false := by
  rw [known, List.mem_filter, Bool.not_eq_true']

theorem filterMap_known : (known values).filterMap integer? = values.filterMap integer? := by
  rw [known, List.filterMap_filter]
  congr 1
  funext x
  cases hx : x.isNaN with
  | false => rfl
  | true => exact (integer?_eq_none hx).symm

theorem reduce_of_known_eq_nil (h : known values = []) (r : Reduction) :
    r.reduce values = r.reduce [] := by
  have hfilter : (values.filter fun x => !x.isNaN) = [] := h
  unfold reduce
  rw [hfilter]
  rfl

theorem highest_of_known (h : known values ≠ []) :
    highest.reduce values = greatest (known values) :=
  if_neg (mt List.isEmpty_iff.1 h)

theorem average_of_known (h : known values ≠ []) :
    average.reduce values = sum.reduce values / ofCount (known values).length :=
  if_neg (mt List.isEmpty_iff.1 h)

/-- The numbers among the values are integers, with sums that need no rounding. -/
structure Unrounded (values : List Float) : Prop where
  integers : ∀ x ∈ known values, ∃ z, integer? x = some z
  bound : ((values.filterMap integer?).map Int.natAbs).sum ≤ 2 ^ 53

namespace Unrounded

theorem of_perm (h : Unrounded values) (hperm : (known values').Perm (known values)) :
    Unrounded values' := by
  refine ⟨fun x hx => h.integers x (hperm.mem_iff.1 hx), ?_⟩
  have hsum := ((hperm.filterMap integer?).map Int.natAbs).sum_eq
  rw [filterMap_known, filterMap_known] at hsum
  rw [hsum]
  exact h.bound

theorem denotes_sum (h : Unrounded values) :
    Denotes (sum.reduce values).toModel.unpack (values.filterMap integer?).sum := by
  rw [← filterMap_known]
  apply denotes_total h.integers
  rw [filterMap_known]
  exact h.bound

theorem integer?_highest (h : Unrounded values) :
    integer? (highest.reduce values) = (values.filterMap integer?).max? := by
  by_cases hk : known values = []
  · rw [reduce_of_known_eq_nil hk, ← filterMap_known, hk]
    exact integer?_eq_none isNaN_undefined
  · rw [highest_of_known hk, ← filterMap_known]
    exact (greatest_spec hk h.integers).2

theorem isNaN_highest_iff (h : Unrounded values) :
    (highest.reduce values).isNaN = true ↔ known values = [] := by
  by_cases hk : known values = []
  · rw [reduce_of_known_eq_nil hk]
    exact iff_of_true isNaN_undefined hk
  · have hmem := (greatest_spec hk h.integers).1
    rw [highest_of_known hk, (mem_known.1 hmem).2]
    exact iff_of_false nofun hk

theorem isNaN_average_iff (h : Unrounded values) (hlen : values.length < UInt64.size) :
    (average.reduce values).isNaN = true ↔ known values = [] := by
  by_cases hk : known values = []
  · rw [reduce_of_known_eq_nil hk]
    exact iff_of_true isNaN_undefined hk
  · have hle : (known values).length ≤ values.length := List.length_filter_le ..
    have hcount := proper_ofCount (List.length_pos_iff.2 hk) (by omega)
    rw [average_of_known hk, isNaN_div h.denotes_sum.integer?_eq hcount]
    exact iff_of_false nofun hk

theorem sum_of_perm (h : Unrounded values) (hperm : (known values').Perm (known values)) :
    sum.reduce values' = sum.reduce values := by
  have hsum := (hperm.filterMap integer?).sum_eq
  rw [filterMap_known, filterMap_known] at hsum
  have hdenotes := (h.of_perm hperm).denotes_sum
  rw [hsum] at hdenotes
  exact hdenotes.unique h.denotes_sum

theorem average_of_perm (h : Unrounded values) (hperm : (known values').Perm (known values)) :
    average.reduce values' = average.reduce values := by
  by_cases hk : known values = []
  · rw [hk] at hperm
    rw [reduce_of_known_eq_nil hk, reduce_of_known_eq_nil hperm.eq_nil]
  · have hk' : known values' ≠ [] := fun hnil => hk (hnil ▸ hperm).symm.eq_nil
    rw [average_of_known hk, average_of_known hk', hperm.length_eq, h.sum_of_perm hperm]

-- Of zeros of both signs either may be the highest.
theorem highest_of_perm (h : Unrounded values) (hperm : (known values').Perm (known values)) :
    highest.reduce values' = highest.reduce values ∨
      integer? (highest.reduce values') = some 0 ∧ integer? (highest.reduce values) = some 0 := by
  have hmax : (values'.filterMap integer?).max? = (values.filterMap integer?).max? := by
    apply Option.ext
    intro z
    have hmem := fun b => (hperm.filterMap integer?).mem_iff (a := b)
    rw [filterMap_known, filterMap_known] at hmem
    simp only [List.max?_eq_some_iff, hmem]
  have h' := (h.of_perm hperm).integer?_highest
  rw [hmax, ← h.integer?_highest] at h'
  by_cases hk : known values = []
  · rw [hk] at hperm
    left
    rw [reduce_of_known_eq_nil hk, reduce_of_known_eq_nil hperm.eq_nil]
  · have hmem := (greatest_spec hk h.integers).1
    obtain ⟨z, hz⟩ := h.integers _ hmem
    rw [← highest_of_known hk] at hz
    rcases eq_or_eq_zero (integer?_eq_some_iff.1 (h'.trans hz)) (integer?_eq_some_iff.1 hz) with
      heq | hzero
    · exact .inl heq
    · cases Int.cast_eq_zero.1 hzero
      exact .inr ⟨h'.trans hz, hz⟩

end Unrounded

/-- Reductions of integers whose absolute values add up to at most `2 ^ 53`, undefined values
disregarded: the sum is exact and zero for no values, the highest value is one of them and none is
greater, and the average is the sum over their number. The last two are undefined just if there are
no values. Neither the order of the values nor the undefined ones between them matter, except for
the sign of a highest value that is zero. -/
theorem reduce_exact (values : List Float)
    (hvalues : ∀ x ∈ values, x.isNaN = true ∨ (integer? x).isSome = true)
    (hbound : ((values.filterMap integer?).map Int.natAbs).sum ≤ 2 ^ 53) :
    (integer? (sum.reduce values) = some (values.filterMap integer?).sum ∧
      (known values = [] → sum.reduce values = 0.0)) ∧
    (integer? (highest.reduce values) = (values.filterMap integer?).max? ∧
      (known values ≠ [] → highest.reduce values ∈ values) ∧
      ((highest.reduce values).isNaN = true ↔ known values = [])) ∧
    ((known values ≠ [] →
        average.reduce values = sum.reduce values / ofCount (known values).length) ∧
      (values.length < UInt64.size →
        ((average.reduce values).isNaN = true ↔ known values = []))) ∧
    ∀ values', (known values').Perm (known values) →
      sum.reduce values' = sum.reduce values ∧
      average.reduce values' = average.reduce values ∧
      (highest.reduce values' = highest.reduce values ∨
        integer? (highest.reduce values') = some 0 ∧
          integer? (highest.reduce values) = some 0) := by
  have h : Unrounded values := by
    refine ⟨fun x hx => ?_, hbound⟩
    obtain ⟨hmem, hnan⟩ := mem_known.1 hx
    rcases hvalues x hmem with hx' | hx'
    · rw [hnan] at hx'
      cases hx'
    · exact Option.isSome_iff_exists.1 hx'
  refine ⟨⟨h.denotes_sum.integer?_eq, ?_⟩, ⟨h.integer?_highest, ?_, h.isNaN_highest_iff⟩,
    ⟨average_of_known, h.isNaN_average_iff⟩, fun values' hperm =>
      ⟨h.sum_of_perm hperm, h.average_of_perm hperm, h.highest_of_perm hperm⟩⟩
  · intro hk
    exact reduce_of_known_eq_nil hk .sum
  · intro hk
    rw [highest_of_known hk]
    exact (mem_known.1 (greatest_spec hk h.integers).1).1

/-- A list whose absolute values add up to the limit, with numbers of both signs. -/
theorem reduce_exact_at_limit :
    let values : List Float := [-5.0, undefined, 9007199254740984.0, -0.0, 3.0]
    (∀ x ∈ values, x.isNaN = true ∨ (integer? x).isSome = true) ∧
    ((values.filterMap integer?).map Int.natAbs).sum ≤ 2 ^ 53 ∧
    integer? (sum.reduce values) = some 9007199254740982 ∧
    integer? (highest.reduce values) = some 9007199254740984 ∧
    (average.reduce values).isNaN = false ∧
    sum.reduce [3.0, -5.0, -0.0, 9007199254740984.0] = sum.reduce values := by
  intro values
  have hvalues : ∀ x ∈ values, x.isNaN = true ∨ (integer? x).isSome = true := by decide +kernel
  have hbound : ((values.filterMap integer?).map Int.natAbs).sum ≤ 2 ^ 53 := by decide +kernel
  have hknown : known values = [-5.0, 9007199254740984.0, -0.0, 3.0] := by decide +kernel
  obtain ⟨⟨hsum, -⟩, ⟨hhighest, -⟩, ⟨-, haverage⟩, hperm⟩ := reduce_exact values hvalues hbound
  have hmean := haverage (by decide)
  refine ⟨hvalues, hbound, hsum.trans (by decide +kernel), hhighest.trans (by decide +kernel), ?_,
    (hperm _ ?_).1⟩
  · rw [← Bool.not_eq_true, hmean, hknown]
    nofun
  · rw [hknown]
    decide +kernel

end Reduction

end TreeMetrics
