import Mathlib
import TreeMetrics.Metric.Reduction

namespace TreeMetrics

namespace Number

open Float.Model.UnpackedFloat
open Float.Model (UnpackedFloat Format totalExponent)
open Float.Model.Format (binary64)

inductive Plain : UnpackedFloat → Prop where
  | infinity : Plain (.infinity .positive)
  | zero : Plain (.zero .positive)
  | finite {m : Nat} {e : Int} (h : 0 < m) : Plain (.finite .positive m e h)

inductive Proper : UnpackedFloat → Prop where
  | finite {m : Nat} {e : Int} (h : 0 < m) : Proper (.finite .positive m e h)

theorem plain_unpack {e : BitVec 11} {m : BitVec 52} (h : e = -1#11 → m = 0#52) :
    Plain (unpack binary64 (packComponents binary64 .positive e m)) := by
  unfold unpack
  simp only [unpackExponent_packComponents, unpackMantissa_packComponents,
    unpackSign_packComponents, Sign.ofBitVec_toBitVec]
  split
  · rw [if_pos (h ‹_›)]
    exact .infinity
  · split
    · split
      · exact .zero
      · exact .finite _
    · exact .finite _

theorem proper_unpack {e : BitVec 11} {m : BitVec 52} (h : e ≠ -1#11) (h' : e = 0#11 → m ≠ 0#52) :
    Proper (unpack binary64 (packComponents binary64 .positive e m)) := by
  unfold unpack
  simp only [unpackExponent_packComponents, unpackMantissa_packComponents,
    unpackSign_packComponents, Sign.ofBitVec_toBitVec, if_neg h]
  split
  · rw [dif_neg (h' ‹_›)]
    exact .finite _
  · exact .finite _

theorem biased_ne {b : Nat} (h : b + 1 < 2 ^ 11) : BitVec.ofNat 11 b ≠ -1#11 := by
  intro hb
  have hn := congrArg BitVec.toNat hb
  rw [BitVec.toNat_ofNat, Nat.mod_eq_of_lt (by omega)] at hn
  have hm : (-1#11).toNat = 2047 := rfl
  omega

theorem Plain.unpack_pack {u : UnpackedFloat} (h : Plain u) :
    Plain (unpack binary64 (pack binary64 u)) := by
  cases h with
  | infinity => exact plain_unpack fun _ => rfl
  | zero => exact plain_unpack fun _ => rfl
  | finite h =>
    unfold pack
    dsimp only
    split
    · exact plain_unpack fun _ => rfl
    · rename_i hb
      split
      · exact plain_unpack fun he => absurd he (biased_ne (Nat.lt_of_not_le hb))
      · exact plain_unpack fun he => absurd he (by decide)

theorem plain_roundWithAccuracy (spec : Format) (m : Nat) (e : Int) (a : Accuracy) :
    Plain (roundWithAccuracy spec .positive m e a) := by
  unfold roundWithAccuracy
  dsimp only
  split
  · exact .zero
  · exact .finite _

theorem plain_normalize (spec : Format) {m : Int} (hm : 0 ≤ m) (e : Int) :
    Plain (UnpackedFloat.normalize spec m e .positive) := by
  unfold UnpackedFloat.normalize
  split
  · rename_i h
    have := Int.compare_eq_lt.1 h
    omega
  · exact .zero
  · exact plain_roundWithAccuracy ..

theorem Plain.add {spec : Format} {u v : UnpackedFloat} (hu : Plain u) (hv : Plain v) :
    Plain (UnpackedFloat.add spec u v) := by
  cases hu with
  | infinity => cases hv <;> exact .infinity
  | zero =>
    cases hv with
    | infinity => exact .infinity
    | zero => exact .zero
    | finite h => exact .finite h
  | finite hm =>
    cases hv with
    | infinity => exact .infinity
    | zero => exact .finite hm
    | finite _ => exact plain_normalize spec (by simp only [Sign.apply]; positivity) _

theorem Plain.div {spec : Format} {u v : UnpackedFloat} (hu : Plain u) (hv : Proper v) :
    Plain (UnpackedFloat.div spec u v) := by
  obtain ⟨_⟩ := hv
  cases hu with
  | infinity => exact .infinity
  | zero => exact .zero
  | finite _ => exact plain_roundWithAccuracy ..

/-- Positive, with a mantissa and an exponent that fit into the format. -/
inductive InRange : UnpackedFloat → Prop where
  | finite {m : Nat} {e : Int} (h : 0 < m) :
    m < 2 ^ 53 → -1074 ≤ e → e ≤ 971 → InRange (.finite .positive m e h)

theorem InRange.unpack_pack {u : UnpackedFloat} (h : InRange u) :
    Proper (unpack binary64 (pack binary64 u)) := by
  obtain @⟨m, e, h, hm, he, he'⟩ := h
  unfold pack
  have hbias : (binary64.exponentBias : Int) = 1023 := rfl
  have hb : (e + binary64.exponentBias + binary64.mantissaBitsWithoutImplicit).toNat + 1 <
      2 ^ 11 := by
    simp only [hbias]
    omega
  dsimp only
  rw [if_neg (Nat.not_le_of_lt hb)]
  split
  · apply proper_unpack (biased_ne hb)
    intro hz
    have hn := congrArg BitVec.toNat hz
    rw [BitVec.toNat_ofNat, Nat.mod_eq_of_lt (by omega)] at hn
    simp only [hbias, BitVec.toNat_zero] at hn
    omega
  · rename_i hl
    apply proper_unpack (by decide)
    intro _ hz
    have hlog : m.log2 < 52 := by
      have := (Nat.log2_lt (by omega)).2 hm
      have : binary64.mantissaBits = 53 := rfl
      omega
    have hlt := (Nat.log2_lt (by omega)).1 hlog
    have hn := congrArg BitVec.toNat hz
    rw [BitVec.toNat_ofNat, Nat.mod_eq_of_lt hlt, BitVec.toNat_zero] at hn
    omega

theorem mantissa_shiftRight (em : ExtendedMantissa) (k : Nat) :
    (em >>> k).mantissa = em.mantissa / 2 ^ k := by
  induction k with
  | zero => exact (Nat.div_one _).symm
  | succ k ih =>
    calc (em >>> (k + 1)).mantissa = (em >>> k).mantissa / 2 := rfl
      _ = em.mantissa / 2 ^ (k + 1) := by rw [ih, Nat.div_div_eq_div_mul, Nat.pow_succ]

theorem mantissa_ofMantissaAndAccuracy (m : Nat) (a : Accuracy) :
    (ExtendedMantissa.ofMantissaAndAccuracy m a).mantissa = m := by
  unfold ExtendedMantissa.ofMantissaAndAccuracy
  split <;> rfl

theorem roundedMantissa_bounds (em : ExtendedMantissa) :
    em.mantissa ≤ em.roundedMantissa ∧ em.roundedMantissa ≤ em.mantissa + 1 := by
  obtain ⟨m, r, s⟩ := em
  unfold ExtendedMantissa.roundedMantissa Accuracy.roundToNearestEven
  split <;> omega

/-- All bits of a mantissa beyond the first 53 are shifted out. -/
theorem shiftToTargetExponent_eq {m : Nat} {e : Int} (a : Accuracy) (he : -1074 ≤ e) :
    shiftToTargetExponent binary64 m e a =
      (ExtendedMantissa.ofMantissaAndAccuracy m a >>> (m.log2 - 52), e + ↑(m.log2 - 52)) := by
  have hbits : (binary64.mantissaBits : Int) = 53 := rfl
  have hmin : binary64.minExponent = -1074 := rfl
  have hshift : (binary64.targetExponent (totalExponent m e) - e).toNat = m.log2 - 52 := by
    simp only [Format.targetExponent, totalExponent, hbits, hmin]
    omega
  rw [shiftToTargetExponent, shiftToExponent, hshift]

theorem shifted_bounds {m : Nat} (a : Accuracy) (hm : 0 < m) :
    0 < (ExtendedMantissa.ofMantissaAndAccuracy m a >>> (m.log2 - 52)).mantissa ∧
      (ExtendedMantissa.ofMantissaAndAccuracy m a >>> (m.log2 - 52)).mantissa < 2 ^ 53 := by
  have hlt := @Nat.lt_log2_self m
  have hle := Nat.log2_self_le (Nat.ne_of_gt hm)
  rw [mantissa_shiftRight, mantissa_ofMantissaAndAccuracy]
  constructor
  · apply Nat.div_pos _ (Nat.two_pow_pos _)
    exact Nat.le_trans (Nat.pow_le_pow_right (by decide) (Nat.sub_le _ _)) hle
  · rw [Nat.div_lt_iff_lt_mul (Nat.two_pow_pos _), ← Nat.pow_add]
    exact Nat.lt_of_lt_of_le hlt (Nat.pow_le_pow_right (by decide) (by omega))

theorem inRange_roundWithAccuracy {m : Nat} {e : Int} (a : Accuracy) (hm : 0 < m)
    (hm' : m < UInt64.size) (he : -1074 ≤ e) (he' : e ≤ 0) :
    InRange (roundWithAccuracy binary64 .positive m e a) := by
  unfold roundWithAccuracy
  rw [shiftToTargetExponent_eq a he]
  have hfirst := shifted_bounds a hm
  -- Rounding may carry into one bit more, which the second shift takes away again.
  have hround := roundedMantissa_bounds
    (ExtendedMantissa.ofMantissaAndAccuracy m a >>> (m.log2 - 52))
  dsimp only
  generalize (ExtendedMantissa.ofMantissaAndAccuracy m a >>> (m.log2 - 52)) = em at *
  have hlog : m.log2 < 64 := (Nat.log2_lt (Nat.ne_of_gt hm)).2 hm'
  have hlog' : em.roundedMantissa.log2 < 54 := (Nat.log2_lt (by omega)).2 (by omega)
  rw [shiftToTargetExponent_eq .exact (by omega)]
  obtain ⟨hpos, hlt⟩ := shifted_bounds (m := em.roundedMantissa) .exact (by omega)
  rw [dif_neg (Nat.ne_of_gt hpos)]
  exact .finite hpos hlt (by omega) (by omega)

theorem inRange_ofNat {n : Nat} (hn : 0 < n) (hn' : n < UInt64.size) :
    InRange (UnpackedFloat.ofNat binary64 n) := by
  unfold UnpackedFloat.ofNat UnpackedFloat.ofInt UnpackedFloat.normalize
  rw [Int.compare_eq_gt.2 (by omega)]
  unfold UnpackedFloat.round decreaseExponent
  have hlog : n.log2 < 64 := (Nat.log2_lt (Nat.ne_of_gt hn)).2 hn'
  have hbits : (binary64.mantissaBits : Int) = 53 := rfl
  have hmin : binary64.minExponent = -1074 := rfl
  have hshift : (0 - binary64.targetExponent (totalExponent n 0)).toNat = 52 - n.log2 := by
    simp only [Format.targetExponent, totalExponent, hbits, hmin]
    omega
  simp only [Int.toNat_natCast, hshift]
  apply inRange_roundWithAccuracy .exact
  · rw [Nat.shiftLeft_eq]
    exact Nat.mul_pos hn (Nat.two_pow_pos _)
  · rw [Nat.shiftLeft_eq]
    calc n * 2 ^ (52 - n.log2) < 2 ^ (n.log2 + 1) * 2 ^ (52 - n.log2) :=
          Nat.mul_lt_mul_of_pos_right Nat.lt_log2_self (Nat.two_pow_pos _)
      _ = 2 ^ (n.log2 + 1 + (52 - n.log2)) := (Nat.pow_add ..).symm
      _ ≤ 2 ^ 64 := Nat.pow_le_pow_right (by decide) (by omega)
  · omega
  · omega

/-- A number without a sign, such as a count. -/
def Unsigned (x : Float) : Prop := Plain x.toModel.unpack

namespace Unsigned

theorem isNaN_eq_false {x : Float} (h : Unsigned x) : x.isNaN = false := by
  have hx : ∀ {u}, Plain u → u.isNaN = false := fun hu => by cases hu <;> rfl
  exact hx h

theorem zero : Unsigned 0.0 := by
  exact Plain.zero

theorem add {x y : Float} (hx : Unsigned x) (hy : Unsigned y) : Unsigned (x + y) :=
  (Plain.add hx hy).unpack_pack

theorem div {x y : Float} (hx : Unsigned x) (hy : Proper y.toModel.unpack) : Unsigned (x / y) :=
  (Plain.div hx hy).unpack_pack

theorem ofCount (n : Nat) : Unsigned (ofCount n) :=
  (plain_normalize binary64 (Int.natCast_nonneg _) 0).unpack_pack

theorem total {xs : List Float} (h : ∀ x ∈ xs, Unsigned x) : Unsigned (Reduction.total xs) := by
  unfold Reduction.total
  exact List.foldlRecOn xs _ zero fun _ hx y hy => add hx (h y hy)

end Unsigned

theorem proper_ofCount {n : Nat} (hn : 0 < n) (hn' : n < UInt64.size) :
    Proper (ofCount n).toModel.unpack := by
  have hword : n.toUInt64.toNat = n := Nat.mod_eq_of_lt hn'
  have h := (inRange_ofNat (n := n.toUInt64.toNat) (by omega) (by omega)).unpack_pack
  exact h

theorem isNaN_undefined : undefined.isNaN = true := by
  decide

theorem isNaN_greatest {xs : List Float} (h : ∀ x ∈ xs, x.isNaN = false) :
    (Reduction.greatest xs).isNaN = false := by
  unfold Reduction.greatest
  apply List.foldlRecOn (motive := fun x : Float => x.isNaN = false) xs
  · decide
  · intro x hx y hy
    split
    · exact h y hy
    · exact hx

end Number

namespace Reduction

variable {xs : List Float}

theorem isNaN_reduce_nil {r : Reduction} (hr : r ≠ .sum) : (r.reduce []).isNaN = true := by
  cases r with
  | sum => exact absurd rfl hr
  | highest => exact Number.isNaN_undefined
  | average => exact Number.isNaN_undefined

theorem filter_known (h : ∀ x ∈ xs, Number.Unsigned x) : (xs.filter fun x => !x.isNaN) = xs := by
  apply List.filter_eq_self.2
  intro x hx
  rw [(h x hx).isNaN_eq_false]
  rfl

theorem unsigned_sum (h : ∀ x ∈ xs, Number.Unsigned x) : Number.Unsigned (sum.reduce xs) := by
  unfold reduce
  rw [filter_known h]
  exact .total h

theorem isNaN_reduce_cons (r : Reduction) (h : ∀ x ∈ xs, Number.Unsigned x) (hne : xs ≠ [])
    (hlen : xs.length < UInt64.size) : (r.reduce xs).isNaN = false := by
  have hempty : xs.isEmpty = false := List.isEmpty_eq_false_iff.2 hne
  cases r with
  | sum => exact (unsigned_sum h).isNaN_eq_false
  | highest =>
    unfold reduce
    rw [filter_known h]
    simp only [hempty, Bool.false_eq_true, if_false]
    exact Number.isNaN_greatest fun x hx => (h x hx).isNaN_eq_false
  | average =>
    unfold reduce
    rw [filter_known h]
    simp only [hempty, Bool.false_eq_true, if_false]
    have hcount := Number.proper_ofCount (List.length_pos_iff.2 hne) hlen
    exact ((Number.Unsigned.total h).div hcount).isNaN_eq_false

/-- A reduction of counts is undefined only if there is nothing to reduce, and a sum is not even
then. -/
theorem isNaN_reduce (r : Reduction) (h : ∀ x ∈ xs, Number.Unsigned x)
    (hlen : xs.length < UInt64.size) : (r.reduce xs).isNaN = false ↔ r = .sum ∨ xs ≠ [] := by
  constructor
  · intro hx
    by_contra hc
    push Not at hc
    obtain ⟨hr, rfl⟩ := hc
    rw [isNaN_reduce_nil hr] at hx
    cases hx
  · rintro (rfl | hne)
    · exact (unsigned_sum h).isNaN_eq_false
    · exact isNaN_reduce_cons r h hne hlen

end Reduction

end TreeMetrics
