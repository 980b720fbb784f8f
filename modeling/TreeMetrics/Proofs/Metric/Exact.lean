import TreeMetrics.Proofs.Metric.Number

namespace TreeMetrics

namespace Number

open Float.Model.UnpackedFloat
open Float.Model (UnpackedFloat Format totalExponent)
open Float.Model.Format (binary64)

variable {a b m n s k : Nat}

/-- How far a count is shifted to fill a mantissa. -/
def slack (n : Nat) : Nat := 52 - n.log2

theorem slack_le (n : Nat) : slack n ≤ 52 := Nat.sub_le ..

/-- A count in its normal form. -/
def exactly (n : Nat) : UnpackedFloat :=
  if h : 0 < n then
    .finite .positive (n * 2 ^ slack n) (-slack n) (Nat.mul_pos h (Nat.two_pow_pos _))
  else .zero .positive

theorem exactly_zero : exactly 0 = .zero .positive := rfl

theorem exactly_of_pos (h : 0 < n) : exactly n =
    .finite .positive (n * 2 ^ slack n) (-slack n) (Nat.mul_pos h (Nat.two_pow_pos _)) :=
  dif_pos h

theorem log2_mul_two_pow (h : 0 < n) (k : Nat) : (n * 2 ^ k).log2 = n.log2 + k := by
  have hpos := Nat.mul_pos h (Nat.two_pow_pos k)
  rw [Nat.log2_eq_iff (Nat.ne_of_gt hpos)]
  constructor
  · rw [Nat.pow_add]
    exact Nat.mul_le_mul_right _ (Nat.log2_self_le (Nat.ne_of_gt h))
  · rw [Nat.add_right_comm, Nat.pow_add]
    exact Nat.mul_lt_mul_of_pos_right Nat.lt_log2_self (Nat.two_pow_pos k)

theorem log2_le (h : 0 < n) (hn : n < 2 ^ 53) : n.log2 ≤ 52 :=
  Nat.le_of_lt_succ ((Nat.log2_lt (Nat.ne_of_gt h)).2 hn)

theorem log2_mul_slack (h : 0 < n) (hn : n < 2 ^ 53) : (n * 2 ^ slack n).log2 = 52 := by
  have hle := log2_le h hn
  rw [log2_mul_two_pow h, slack]
  omega

/-- Zeros are shifted out without a trace. -/
theorem shiftRight_exact (m k : Nat) :
    ExtendedMantissa.ofMantissaAndAccuracy (m * 2 ^ k) .exact >>> k =
      ExtendedMantissa.ofMantissaAndAccuracy m .exact := by
  induction k generalizing m with
  | zero => rw [Nat.pow_zero, Nat.mul_one]; rfl
  | succ k ih =>
    have hstep : ExtendedMantissa.ofMantissaAndAccuracy (m * 2 ^ (k + 1)) .exact >>> (k + 1) =
        (ExtendedMantissa.ofMantissaAndAccuracy (m * 2 * 2 ^ k) .exact >>> k).shiftRightOne := by
      rw [Nat.pow_succ', ← Nat.mul_assoc]
      rfl
    rw [hstep, ih]
    simp only [ExtendedMantissa.ofMantissaAndAccuracy, ExtendedMantissa.shiftRightOne,
      Nat.mul_mod_left, Nat.mul_div_cancel m Nat.two_pos, bne_self_eq_false, Bool.or_self]

theorem roundWithAccuracy_exact {sign : Sign} {e : Int} (hm : 0 < m) (hlog : m.log2 = 52) (k : Nat)
    (he : -1074 ≤ e) :
    roundWithAccuracy binary64 sign (m * 2 ^ k) e .exact = .finite sign m (e + k) hm := by
  have hshift : (m * 2 ^ k).log2 - 52 = k := by
    rw [log2_mul_two_pow hm, hlog]
    omega
  have hround : (ExtendedMantissa.ofMantissaAndAccuracy m .exact).roundedMantissa = m := rfl
  unfold roundWithAccuracy
  rw [shiftToTargetExponent_eq .exact he, hshift, shiftRight_exact]
  dsimp only
  rw [hround, shiftToTargetExponent_eq .exact (by omega), hlog]
  dsimp only
  rw [mantissa_shiftRight, mantissa_ofMantissaAndAccuracy, dif_neg (by simpa using Nat.ne_of_gt hm)]
  simp

/-- Wherever its mantissa begins, a count is rounded to its normal form. -/
theorem normalize_exact (hn : n < 2 ^ 53) (hk : k ≤ 1000) :
    UnpackedFloat.normalize binary64 (n * 2 ^ k : Nat) (-k) .positive = exactly n := by
  rcases Nat.eq_zero_or_pos n with rfl | h
  · rw [Nat.zero_mul]
    rfl
  have hpos := Nat.mul_pos h (Nat.two_pow_pos k)
  have hle := log2_le h hn
  unfold UnpackedFloat.normalize
  rw [Int.compare_eq_gt.2 (Int.natCast_pos.2 hpos)]
  unfold UnpackedFloat.round decreaseExponent
  have hbits : (binary64.mantissaBits : Int) = 53 := rfl
  have hmin : binary64.minExponent = -1074 := rfl
  have htarget : binary64.targetExponent (totalExponent (n * 2 ^ k) (-k)) = -slack n := by
    simp only [Format.targetExponent, totalExponent, hbits, hmin, log2_mul_two_pow h, slack]
    omega
  have hshift : (-(k : Int) - -(slack n : Int)).toNat = slack n - k := by omega
  have hmantissa : n * 2 ^ k * 2 ^ (slack n - k) = n * 2 ^ slack n * 2 ^ (k - slack n) := by
    rw [Nat.mul_assoc, Nat.mul_assoc, ← Nat.pow_add, ← Nat.pow_add]
    congr 2
    omega
  have hslack := slack_le n
  simp only [Int.toNat_natCast, htarget, hshift, Nat.shiftLeft_eq, hmantissa]
  rw [roundWithAccuracy_exact (Nat.mul_pos h (Nat.two_pow_pos _)) (log2_mul_slack h hn) _
    (by omega), exactly_of_pos h]
  congr 1
  omega

theorem unpack_pack_normal {sign : Sign} {e : Int} (hm : 0 < m) (hlog : m.log2 = 52)
    (he : -1074 ≤ e) (he' : e ≤ 971) :
    unpack binary64 (pack binary64 (.finite sign m e hm)) = .finite sign m e hm := by
  have hbias : (binary64.exponentBias : Int) = 1023 := rfl
  have hstored : (binary64.mantissaBitsWithoutImplicit : Int) = 52 := rfl
  have hb : (e + binary64.exponentBias + binary64.mantissaBitsWithoutImplicit).toNat =
      (e + 1075).toNat := by
    rw [hbias, hstored, Int.add_assoc]
    rfl
  have hlt : (e + 1075).toNat + 1 < 2 ^ 11 := by omega
  have hword : (BitVec.ofNat 11 (e + 1075).toNat).toNat = (e + 1075).toNat := by
    rw [BitVec.toNat_ofNat, Nat.mod_eq_of_lt (by omega)]
  have hzero : BitVec.ofNat 11 (e + 1075).toNat ≠ 0#11 := by
    intro hz
    rw [hz, BitVec.toNat_zero] at hword
    omega
  -- The leading bit of the mantissa is not stored.
  have hmantissa : (1#1 ++ BitVec.ofNat 52 m).toNat = m := by
    obtain ⟨hlo, hhi⟩ := (Nat.log2_eq_iff (Nat.ne_of_gt hm)).1 hlog
    rw [BitVec.toNat_append, ← Nat.shiftLeft_add_eq_or_of_lt (BitVec.isLt _), BitVec.toNat_ofNat,
      Nat.shiftLeft_eq]
    change 1 * 2 ^ 52 + m % 2 ^ 52 = m
    omega
  unfold pack
  dsimp only
  rw [hb, if_neg (Nat.not_le_of_lt hlt), if_pos (by rw [hlog]; rfl)]
  unfold unpack
  simp only [unpackExponent_packComponents, unpackMantissa_packComponents,
    unpackSign_packComponents, Sign.ofBitVec_toBitVec, if_neg (biased_ne hlt), if_neg hzero, hword,
    hmantissa]
  congr 1
  simp only [hbias]
  omega

theorem unpack_pack_exactly (hn : n < 2 ^ 53) :
    unpack binary64 (pack binary64 (exactly n)) = exactly n := by
  rcases Nat.eq_zero_or_pos n with rfl | h
  · rfl
  · have hslack := slack_le n
    rw [exactly_of_pos h]
    exact unpack_pack_normal _ (log2_mul_slack h hn) (by omega) (by omega)

theorem ofCount_eq (hn : n < 2 ^ 53) : ofCount n = .ofModel (.pack (exactly n)) := by
  have hword : n.toUInt64.toNat = n := Nat.mod_eq_of_lt (Nat.lt_trans hn (by decide))
  have hnormal := normalize_exact hn (Nat.zero_le 1000)
  rw [Nat.pow_zero, Nat.mul_one] at hnormal
  show Float.ofModel (.pack (UnpackedFloat.ofNat binary64 n.toUInt64.toNat)) = _
  rw [hword, UnpackedFloat.ofNat, UnpackedFloat.ofInt, ← hnormal]
  rfl

theorem unpack_ofCount (hn : n < 2 ^ 53) : (ofCount n).toModel.unpack = exactly n := by
  rw [ofCount_eq hn]
  exact unpack_pack_exactly hn

theorem decreaseExponent_exact (n : Nat) (h : s ≤ k) :
    (decreaseExponent (n * 2 ^ s) (-s) (-k)).1 = n * 2 ^ k := by
  have hshift : (-(s : Int) - -(k : Int)).toNat = k - s := by omega
  unfold decreaseExponent
  dsimp only
  rw [hshift, Nat.shiftLeft_eq, Nat.mul_assoc, ← Nat.pow_add, Nat.add_sub_of_le h]

-- Two counts are aligned at the smaller of their exponents, which belongs to the greater slack.
theorem min_neg_slack (a b : Nat) :
    min (-(slack a : Int)) (-slack b) = -(max (slack a) (slack b) : Nat) := by
  omega

theorem max_slack_le (a b : Nat) : max (slack a) (slack b) ≤ 1000 := by
  have ha := slack_le a
  have hb := slack_le b
  omega

theorem add_exactly (h : a + b < 2 ^ 53) :
    UnpackedFloat.add binary64 (exactly a) (exactly b) = exactly (a + b) := by
  rcases Nat.eq_zero_or_pos a with rfl | ha
  · rw [Nat.zero_add, exactly_zero]
    unfold exactly
    split
    all_goals rfl
  rcases Nat.eq_zero_or_pos b with rfl | hb
  · rw [Nat.add_zero, exactly_of_pos ha]
    rfl
  rw [exactly_of_pos ha, exactly_of_pos hb, UnpackedFloat.add]
  dsimp only
  rw [min_neg_slack, decreaseExponent_exact a (Nat.le_max_left ..),
    decreaseExponent_exact b (Nat.le_max_right ..), Sign.apply, Sign.apply, ← Int.natCast_add,
    ← Nat.add_mul]
  exact normalize_exact h (max_slack_le a b)

theorem sub_exactly (h : b ≤ a) (ha : a < 2 ^ 53) :
    UnpackedFloat.sub binary64 (exactly a) (exactly b) = exactly (a - b) := by
  rcases Nat.eq_zero_or_pos b with rfl | hb
  · rw [Nat.sub_zero, exactly_zero]
    unfold exactly
    split
    all_goals rfl
  have hpos : 0 < a := Nat.lt_of_lt_of_le hb h
  rw [exactly_of_pos hpos, exactly_of_pos hb, UnpackedFloat.sub]
  dsimp only
  rw [min_neg_slack, decreaseExponent_exact a (Nat.le_max_left ..),
    decreaseExponent_exact b (Nat.le_max_right ..), Sign.apply, Sign.apply,
    ← Int.natCast_sub (Nat.mul_le_mul_right _ h), ← Nat.sub_mul]
  exact normalize_exact (Nat.lt_of_le_of_lt (Nat.sub_le ..) ha) (max_slack_le a b)

/-- Counts are added without rounding. -/
theorem ofCount_add (h : a + b < 2 ^ 53) : ofCount a + ofCount b = ofCount (a + b) := by
  show Float.ofModel (.pack (UnpackedFloat.add binary64 (ofCount a).toModel.unpack
    (ofCount b).toModel.unpack)) = _
  rw [unpack_ofCount (by omega), unpack_ofCount (by omega), add_exactly h, ofCount_eq h]

theorem one_add_ofCount (h : 1 + a < 2 ^ 53) : 1.0 + ofCount a = ofCount (1 + a) := by
  have hone : (1.0 : Float) = ofCount 1 := by decide
  rw [hone, ofCount_add h]

/-- Counts are subtracted without rounding. -/
theorem ofCount_sub (h : b ≤ a) (ha : a < 2 ^ 53) : ofCount a - ofCount b = ofCount (a - b) := by
  show Float.ofModel (.pack (UnpackedFloat.sub binary64 (ofCount a).toModel.unpack
    (ofCount b).toModel.unpack)) = _
  rw [unpack_ofCount ha, unpack_ofCount (by omega), sub_exactly h ha, ofCount_eq (by omega)]

theorem foldl_ofCount {ns : List Nat} (h : k + ns.sum < 2 ^ 53) :
    (ns.map ofCount).foldl (· + ·) (ofCount k) = ofCount (k + ns.sum) := by
  induction ns generalizing k with
  | nil => rfl
  | cons n ns ih =>
    rw [List.sum_cons, ← Nat.add_assoc] at h ⊢
    rw [List.map_cons, List.foldl_cons, ofCount_add (by omega), ih h]

end Number

theorem Reduction.sum_ofCount {ns : List Nat} (h : ns.sum < 2 ^ 53) :
    Reduction.sum.reduce (ns.map Number.ofCount) = Number.ofCount ns.sum := by
  have hknown : ∀ x ∈ ns.map Number.ofCount, Number.Unsigned x := by
    intro x hx
    obtain ⟨n, _, rfl⟩ := List.mem_map.1 hx
    exact .ofCount n
  have hzero : (0.0 : Float) = Number.ofCount 0 := by decide
  unfold reduce
  dsimp only
  rw [filter_known hknown, total, hzero, Number.foldl_ofCount (by omega), Nat.zero_add]

end TreeMetrics
