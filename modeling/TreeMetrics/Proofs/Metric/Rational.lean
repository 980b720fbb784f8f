import TreeMetrics.Proofs.Metric.Exact

namespace TreeMetrics.Number

open Float.Model.UnpackedFloat
open Float.Model (UnpackedFloat Format totalExponent)
open Float.Model.Format (binary64)

variable {m n : Nat} {e f : Int}

/-- A mantissa and an exponent as the format stores them: the leading bit of the mantissa is set,
except at the least exponent. -/
structure Stored (m : Nat) (e : Int) : Prop where
  lt : m < 2 ^ 53
  le : -1074 ≤ e
  full : -1074 < e → 2 ^ 52 ≤ m

theorem stored_unpack {b : BitVec binary64.numBits} {s : Sign} {h : 0 < m}
    (hb : unpack binary64 b = .finite s m e h) : Stored m e := by
  have hbias : (binary64.exponentBias : Int) + binary64.mantissaBitsWithoutImplicit = 1075 := rfl
  unfold unpack at hb
  simp only [hbias] at hb
  split at hb
  · split at hb <;> cases hb
  · split at hb
    · rename_i hz
      split at hb
      · cases hb
      · injection hb with _ hm he
        have hlt := (unpackMantissa b).isLt
        rw [hz] at he
        have he' : e = -1074 := by rw [← he]; rfl
        refine ⟨?_, by omega, by omega⟩
        rw [← hm]
        exact hlt.trans (by decide)
    · rename_i hz
      injection hb with _ hm he
      have hpos : 0 < (unpackExponent b).toNat := by
        apply Nat.pos_of_ne_zero
        intro h0
        exact hz (BitVec.eq_of_toNat_eq h0)
      have hlt := (1#1 ++ unpackMantissa b).isLt
      have hm' : m = 2 ^ 52 + (unpackMantissa b).toNat := by
        rw [← hm, BitVec.toNat_append, ← Nat.shiftLeft_add_eq_or_of_lt (BitVec.isLt _)]
        rfl
      refine ⟨?_, by omega, by omega⟩
      rw [← hm]
      exact hlt

theorem log2_bounds (h : 0 < m) (e : Int) :
    (2 : ℚ) ^ (m.log2 + e) ≤ m * 2 ^ e ∧ (m : ℚ) * 2 ^ e < 2 ^ (m.log2 + e + 1) := by
  have hlo : (2 : ℚ) ^ m.log2 ≤ m := mod_cast Nat.log2_self_le (Nat.ne_of_gt h)
  have hhi : (m : ℚ) < 2 ^ (m.log2 + 1) := mod_cast Nat.lt_log2_self
  constructor
  · rw [zpow_add₀ two_ne_zero, zpow_natCast]
    gcongr
  · rw [add_right_comm, zpow_add₀ two_ne_zero, ← Nat.cast_succ, zpow_natCast]
    gcongr

theorem log2_add_eq (hm : 0 < m) (hn : 0 < n) (h : (m : ℚ) * 2 ^ e = n * 2 ^ f) :
    m.log2 + e = n.log2 + f := by
  obtain ⟨hlo, hhi⟩ := log2_bounds hm e
  obtain ⟨hlo', hhi'⟩ := log2_bounds hn f
  rw [h] at hlo hhi
  have hle := (zpow_lt_zpow_iff_right₀ (by norm_num)).1 (hlo.trans_lt hhi')
  have hge := (zpow_lt_zpow_iff_right₀ (by norm_num)).1 (hlo'.trans_lt hhi)
  omega

theorem mul_two_pow_eq (h : (m : ℚ) * 2 ^ e = n * 2 ^ f) :
    m * 2 ^ (e - f).toNat = n * 2 ^ (f - e).toNat := by
  have hshift : (e - f).toNat + f = (f - e).toNat + e := by omega
  have hpos : (2 : ℚ) ^ (e + f) ≠ 0 := by positivity
  have hcast : (m : ℚ) * 2 ^ (e - f).toNat = n * 2 ^ (f - e).toNat := by
    apply mul_right_cancel₀ hpos
    calc (m : ℚ) * 2 ^ (e - f).toNat * 2 ^ (e + f)
        = m * 2 ^ e * 2 ^ ((e - f).toNat + f) := by
          rw [zpow_add₀ two_ne_zero, zpow_add₀ two_ne_zero, zpow_natCast]; ring
      _ = n * 2 ^ f * 2 ^ ((f - e).toNat + e) := by rw [h, hshift]
      _ = n * 2 ^ (f - e).toNat * 2 ^ (e + f) := by
          rw [zpow_add₀ two_ne_zero, zpow_add₀ two_ne_zero, zpow_natCast]; ring
  exact_mod_cast hcast

/-- A number that a full mantissa holds is rounded to that mantissa. -/
theorem round_exact {sign : Sign} (hm : 0 < m) (hn : 0 < n) (hlog : n.log2 = 52) (he : -1074 ≤ e)
    (hf : -1074 ≤ f) (h : (m : ℚ) * 2 ^ e = n * 2 ^ f) :
    UnpackedFloat.round binary64 sign m e = .finite sign n f hn := by
  have hbits : (binary64.mantissaBits : Int) = 53 := rfl
  have hmin : binary64.minExponent = -1074 := rfl
  have hsum := log2_add_eq hm hn h
  have htarget : binary64.targetExponent (totalExponent m e) = f := by
    simp only [Format.targetExponent, totalExponent, hbits, hmin]
    omega
  unfold UnpackedFloat.round decreaseExponent
  simp only [htarget, Nat.shiftLeft_eq, mul_two_pow_eq h]
  rw [roundWithAccuracy_exact hn hlog _ (by omega)]
  congr 1
  omega

/-- Every integer up to `2 ^ 53` has a full mantissa. -/
theorem exists_full (hn : 0 < n) (hn' : n ≤ 2 ^ 53) :
    ∃ (m : Nat) (e : Int), m.log2 = 52 ∧ -1074 ≤ e ∧ e ≤ 971 ∧ (n : ℚ) = m * 2 ^ e := by
  rcases Nat.lt_or_eq_of_le hn' with hlt | rfl
  · have hslack := slack_le n
    refine ⟨n * 2 ^ slack n, -slack n, log2_mul_slack hn hlt, by omega, by omega, ?_⟩
    rw [Nat.cast_mul, Nat.cast_pow, Nat.cast_two, mul_assoc, ← zpow_natCast,
      ← zpow_add₀ two_ne_zero, add_neg_cancel, zpow_zero, mul_one]
  · exact ⟨2 ^ 52, 1, Nat.log2_two_pow, by omega, by omega, by norm_num⟩

/-- The rational number that an unpacked value stands for. -/
def rational : UnpackedFloat → Option ℚ
  | .infinity _ => none
  | .notANumber => none
  | .zero _ => some 0
  | .finite s m e _ => some (s.apply m * 2 ^ e)

theorem rational_round {sign : Sign} (hm : 0 < m) (hn : 0 < n) (hn' : n ≤ 2 ^ 53) (he : -1074 ≤ e)
    (h : (m : ℚ) * 2 ^ e = n) :
    rational (unpack binary64 (pack binary64 (UnpackedFloat.round binary64 sign m e))) =
      some ((sign.apply n : Int) : ℚ) := by
  obtain ⟨k, f, hlog, hf, hf', hk⟩ := exists_full hn hn'
  have hpos : 0 < k := by
    rcases Nat.eq_zero_or_pos k with rfl | hpos
    · cases hlog
    · exact hpos
  rw [round_exact hm hpos hlog he hf (h.trans hk), unpack_pack_normal hpos hlog hf hf', rational]
  cases sign with
  | positive => simp only [Sign.apply, Int.cast_natCast, hk]
  | negative => simp only [Sign.apply, Int.cast_neg, Int.cast_natCast, hk, neg_mul]

theorem exists_apply {z : Int} (hz : z ≠ 0) : ∃ (s : Sign) (n : Nat), 0 < n ∧ z = s.apply n := by
  rcases Int.lt_or_gt_of_ne hz with hz | hz
  · exact ⟨.negative, z.natAbs, by omega, by simp only [Sign.apply]; omega⟩
  · exact ⟨.positive, z.natAbs, by omega, by simp only [Sign.apply]; omega⟩

theorem normalize_apply (s : Sign) (hm : 0 < m) :
    UnpackedFloat.normalize binary64 (s.apply m) e .positive =
      UnpackedFloat.round binary64 s m e := by
  unfold UnpackedFloat.normalize
  cases s with
  | positive => rw [Int.compare_eq_gt.2 (by simp only [Sign.apply]; omega)]; rfl
  | negative =>
    rw [Int.compare_eq_lt.2 (by simp only [Sign.apply]; omega)]
    simp only [Sign.apply, Int.neg_neg, Int.toNat_natCast]

theorem apply_shiftLeft (s : Sign) (m : Nat) (h : f ≤ e) :
    ((s.apply (m <<< (e - f).toNat : Nat) : Int) : ℚ) * 2 ^ f = (s.apply m : Int) * 2 ^ e := by
  have hshift : ((e - f).toNat : Int) + f = e := by omega
  have hm : ((m <<< (e - f).toNat : Nat) : ℚ) * 2 ^ f = m * 2 ^ e := by
    rw [Nat.shiftLeft_eq, Nat.cast_mul, Nat.cast_pow, Nat.cast_two, mul_assoc, ← zpow_natCast,
      ← zpow_add₀ two_ne_zero, hshift]
  cases s with
  | positive => exact hm
  | negative => simp only [Sign.apply, Int.cast_neg, Int.cast_natCast, neg_mul, hm]

/-- The value is the integer, and if that is zero, it has no sign. -/
structure Denotes (u : UnpackedFloat) (z : Int) : Prop where
  rational_eq : rational u = some (z : ℚ)
  signless : u ≠ .zero .negative

variable {u v : UnpackedFloat} {q r : ℚ} {a b z : Int}

theorem Denotes.positive_zero : Denotes (.zero .positive) 0 :=
  ⟨by rw [rational, Int.cast_zero], nofun⟩

theorem Denotes.of_ne_zero (h : rational u = some (z : ℚ)) (hz : z ≠ 0) : Denotes u z := by
  refine ⟨h, ?_⟩
  rintro rfl
  rw [rational, Option.some_inj] at h
  exact hz (Int.cast_eq_zero.1 h.symm)

theorem rational_cases (h : rational u = some q) :
    (∃ s, u = .zero s ∧ q = 0) ∨
      ∃ s m e hm, u = .finite s m e hm ∧ q = (s.apply (m : Int) : Int) * 2 ^ e := by
  cases u with
  | infinity s => cases h
  | notANumber => cases h
  | zero s => exact .inl ⟨s, rfl, (Option.some_inj.1 h).symm⟩
  | finite s m e hm => exact .inr ⟨s, m, e, hm, rfl, (Option.some_inj.1 h).symm⟩

/-- An integer up to `2 ^ 53` is not rounded. -/
theorem denotes_normalize {k : Int} (hz : z.natAbs ≤ 2 ^ 53) (he : -1074 ≤ e)
    (h : (k : ℚ) * 2 ^ e = z) :
    Denotes (unpack binary64 (pack binary64 (UnpackedFloat.normalize binary64 k e .positive)))
      z := by
  by_cases hk : k = 0
  · rw [hk, Int.cast_zero, zero_mul] at h
    have hzero : UnpackedFloat.normalize binary64 0 e .positive = exactly 0 := rfl
    rw [hk, hzero, unpack_pack_exactly (by decide), exactly_zero, Int.cast_eq_zero.1 h.symm]
    exact .positive_zero
  · obtain ⟨s, m, hm, rfl⟩ := exists_apply hk
    have hcast : (m : ℚ) * 2 ^ e = (s.apply z : Int) := by
      cases s with
      | positive => exact h
      | negative =>
        simp only [Sign.apply, Int.cast_neg, neg_mul, Int.cast_natCast] at h ⊢
        rw [← h, neg_neg]
    have hpos : (0 : ℚ) < (s.apply z : Int) := by
      rw [← hcast]
      positivity
    obtain ⟨n, hn⟩ := Int.eq_ofNat_of_zero_le (Int.cast_pos.1 hpos).le
    rw [hn] at hpos hcast
    have hn' : 0 < n := by exact_mod_cast hpos
    have hsign : z = s.apply n ∧ z ≠ 0 ∧ n ≤ 2 ^ 53 := by
      cases s <;> simp only [Sign.apply] at hn ⊢ <;> omega
    obtain ⟨hz', hne, hle⟩ := hsign
    apply Denotes.of_ne_zero _ hne
    rw [normalize_apply s hm, rational_round hm hn' hle he hcast, hz']

theorem unpack_pack_unpack (x : Float) :
    unpack binary64 (pack binary64 x.toModel.unpack) = x.toModel.unpack := by
  show unpack binary64 (pack binary64 (unpack binary64 x.toModel.toBits.toBitVec)) = _
  rw [pack_unpack_of_valid x.toModel.valid]
  rfl

variable {x y : Float}

/-- Integers are added without rounding. -/
theorem Denotes.add (hx : Denotes x.toModel.unpack a)
    (hy : rational y.toModel.unpack = some (b : ℚ))
    (h : (a + b).natAbs ≤ 2 ^ 53) : Denotes (x + y).toModel.unpack (a + b) := by
  show Denotes (unpack binary64 (pack binary64
    (UnpackedFloat.add binary64 x.toModel.unpack y.toModel.unpack))) _
  obtain ⟨s, hu, ha⟩ | ⟨s, m, e, hm, hu, ha⟩ := rational_cases hx.rational_eq <;>
    obtain ⟨t, hv, hb⟩ | ⟨t, n, f, hn, hv, hb⟩ := rational_cases hy
  · have hs : s = .positive := by
      cases s with
      | positive => rfl
      | negative => exact absurd hu hx.signless
    have hsum : UnpackedFloat.add binary64 (.zero .positive) (.zero t) = exactly 0 := by
      cases t <;> rfl
    rw [hu, hv, hs, hsum, unpack_pack_exactly (by decide), exactly_zero, Int.cast_eq_zero.1 ha,
      Int.cast_eq_zero.1 hb]
    exact .positive_zero
  · have hsum : UnpackedFloat.add binary64 (.zero s) (.finite t n f hn) =
        y.toModel.unpack := hv.symm
    rw [hu, hv, hsum, unpack_pack_unpack, Int.cast_eq_zero.1 ha, zero_add]
    exact ⟨hy, by rw [hv]; nofun⟩
  · have hsum : UnpackedFloat.add binary64 (.finite s m e hm) (.zero t) =
        x.toModel.unpack := hu.symm
    rw [hu, hv, hsum, unpack_pack_unpack, Int.cast_eq_zero.1 hb, add_zero]
    exact hx
  · have he := (stored_unpack hu).le
    have hf := (stored_unpack hv).le
    rw [hu, hv]
    apply denotes_normalize h (le_min he hf)
    rw [Int.cast_add, Int.cast_add, add_mul, apply_shiftLeft s m (min_le_left e f),
      apply_shiftLeft t n (min_le_right e f), ha, hb]

theorem mul_two_pow_lt (hm : m < 2 ^ 53) (hn : 2 ^ 52 ≤ n) (h : e < f) :
    (m : ℚ) * 2 ^ e < n * 2 ^ f := by
  have hm' : (m : ℚ) < 2 ^ 53 := mod_cast hm
  have hn' : (2 : ℚ) ^ 52 ≤ n := mod_cast hn
  calc (m : ℚ) * 2 ^ e < 2 ^ 53 * 2 ^ e := by gcongr
    _ = 2 ^ 52 * 2 ^ (e + 1) := by rw [zpow_add_one₀ two_ne_zero]; ring
    _ ≤ n * 2 ^ f := by gcongr; exacts [one_le_two, by omega]

/-- As values are stored, the exponents decide, and the mantissas only between equal exponents. -/
theorem compare_stored (hm : Stored m e) (hn : Stored n f) :
    (compare e f).then (compare m n) = compare ((m : ℚ) * 2 ^ e) (n * 2 ^ f) := by
  have hle := hm.le
  have hle' := hn.le
  rcases lt_trichotomy e f with h | rfl | h
  · rw [compare_lt_iff_lt.2 h, compare_lt_iff_lt.2 (mul_two_pow_lt hm.lt (hn.full (by omega)) h)]
    rfl
  · have hpos : (0 : ℚ) < 2 ^ e := by positivity
    rw [compare_eq_iff_eq.2 rfl, Ordering.then, ← cmp_eq_compare, ← cmp_eq_compare,
      cmp_mul_pos_right hpos, Nat.strictMono_cast.cmp_map_eq]
  · rw [compare_gt_iff_gt.2 h, compare_gt_iff_gt.2 (mul_two_pow_lt hn.lt (hm.full (by omega)) h)]
    rfl

theorem swap_compare (q r : ℚ) : (compare q r).swap = compare (-q) (-r) := by
  have hanti : StrictAnti (Neg.neg : ℚ → ℚ) := fun _ _ h => neg_lt_neg h
  rw [← cmp_eq_compare, ← cmp_eq_compare, cmp_swap, hanti.cmp_map_eq]

/-- Values that stand for numbers compare as these do. -/
theorem compare_unpack (hx : rational x.toModel.unpack = some q)
    (hy : rational y.toModel.unpack = some r) :
    x.toModel.unpack.compare y.toModel.unpack = some (compare q r) := by
  obtain ⟨s, hu, rfl⟩ | ⟨s, m, e, hm, hu, rfl⟩ := rational_cases hx <;>
    obtain ⟨t, hv, rfl⟩ | ⟨t, n, f, hn, hv, rfl⟩ := rational_cases hy
  · rw [hu, hv, compare_eq_iff_eq.2 rfl]
    rfl
  · have hpos : (0 : ℚ) < n * 2 ^ f := by positivity
    rw [hu, hv]
    cases t with
    | positive => rw [Sign.apply, Int.cast_natCast, compare_lt_iff_lt.2 hpos]; rfl
    | negative =>
      rw [Sign.apply, Int.cast_neg, Int.cast_natCast, neg_mul,
        compare_gt_iff_gt.2 (Left.neg_neg_iff.2 hpos)]
      rfl
  · have hpos : (0 : ℚ) < m * 2 ^ e := by positivity
    rw [hu, hv]
    cases s with
    | positive => rw [Sign.apply, Int.cast_natCast, compare_gt_iff_gt.2 hpos]; rfl
    | negative =>
      rw [Sign.apply, Int.cast_neg, Int.cast_natCast, neg_mul,
        compare_lt_iff_lt.2 (Left.neg_neg_iff.2 hpos)]
      rfl
  · have hpos : (0 : ℚ) < m * 2 ^ e := by positivity
    have hpos' : (0 : ℚ) < n * 2 ^ f := by positivity
    have hstored := compare_stored (stored_unpack hu) (stored_unpack hv)
    rw [hu, hv]
    cases s <;> cases t
    all_goals simp only [Sign.apply, Int.cast_neg, Int.cast_natCast, neg_mul]
    · rw [← swap_compare, ← hstored]
      rfl
    · rw [compare_lt_iff_lt.2 (by linarith)]
      rfl
    · rw [compare_gt_iff_gt.2 (by linarith)]
      rfl
    · rw [← hstored]
      rfl

theorem lt_iff_compare : x < y ↔ x.toModel.unpack.compare y.toModel.unpack = some .lt := by
  show decide (x.toModel.lt y.toModel = true) = true ↔ _
  simp [Float.Model.lt, UnpackedFloat.lt]

theorem lt_iff (hx : rational x.toModel.unpack = some q) (hy : rational y.toModel.unpack = some r) :
    x < y ↔ q < r := by
  rw [lt_iff_compare, compare_unpack hx hy, Option.some_inj, compare_lt_iff_lt]

theorem eq_of_unpack_eq (h : x.toModel.unpack = y.toModel.unpack) : x = y := by
  obtain ⟨⟨b, hb⟩⟩ := x
  obtain ⟨⟨c, hc⟩⟩ := y
  cases UInt64.eq_of_toBitVec_eq ((unpack_inj_of_valid hb hc).1 h)
  rfl

/-- There is one value for a number, except for zero. -/
theorem eq_or_eq_zero (hx : rational x.toModel.unpack = some q)
    (hy : rational y.toModel.unpack = some q) : x = y ∨ q = 0 := by
  have hbeq : x.toModel.unpack.beq y.toModel.unpack = true := by
    rw [UnpackedFloat.beq, compare_unpack hx hy, compare_eq_iff_eq.2 rfl]
    rfl
  obtain ⟨-, -, heq | ⟨hu, -⟩ | ⟨hu, -⟩⟩ := (beq_iff_ne_notANumber_and_eq _ _).1 hbeq
  · exact .inl (eq_of_unpack_eq heq)
  · rw [hu] at hx
    exact .inr (Option.some_inj.1 hx).symm
  · rw [hu] at hx
    exact .inr (Option.some_inj.1 hx).symm

theorem Denotes.eq_zero (h : Denotes u 0) : u = .zero .positive := by
  obtain ⟨s, rfl, -⟩ | ⟨s, m, e, hm, -, hq⟩ := rational_cases h.rational_eq
  · cases s with
    | positive => rfl
    | negative => exact absurd rfl h.signless
  · have hne : s.apply m ≠ 0 := by cases s <;> simp only [Sign.apply] <;> omega
    have hpos : (2 : ℚ) ^ e ≠ 0 := by positivity
    rw [Int.cast_zero] at hq
    exact absurd hq.symm (mul_ne_zero (Int.cast_ne_zero.2 hne) hpos)

theorem Denotes.unique (hx : Denotes x.toModel.unpack z) (hy : Denotes y.toModel.unpack z) :
    x = y := by
  rcases eq_or_eq_zero hx.rational_eq hy.rational_eq with heq | hz
  · exact heq
  · cases Int.cast_eq_zero.1 hz
    exact eq_of_unpack_eq (hx.eq_zero.trans hy.eq_zero.symm)

end TreeMetrics.Number
