import RuleAlgebra.Proofs.ExactScalars
import RuleAlgebra.Proofs.SignedZeros

/-!
Integers that are scalars without rounding. Over fractions all are. Among the binary64 numbers every
integer up to `2 ^ 53` is one, and those that are stay what they are when they are multiplied by one
or negated: a number times one is the number, and its negative has the negative value.
-/

namespace RuleAlgebra

namespace Scalar

variable (α : Type) [Scalar α]

def Holds (n : Int) : Prop := ∃ v : α, Scalar.ofRat? (n : Rat) = some v ∧ Scalar.toInt? v = some n

variable {α} in
theorem toInt?_eq_some_iff {v : α} {n : Int} :
    Scalar.toInt? v = some n ↔ Scalar.toRat? v = some (n : Rat) := by
  simp only [toInt?, Option.bind_eq_some_iff, Option.ite_none_right_eq_some, Option.some.injEq]
  constructor
  · rintro ⟨q, hq, hden, rfl⟩
    rw [hq, (Rat.den_eq_one_iff q).mp hden]
  · intro h
    exact ⟨n, h, Rat.den_intCast n, Rat.num_intCast n⟩

/-- Integers that scalars hold stay what they are when they are compared with one, multiplied by one
and negated. -/
structure KeepsIntegers : Prop where
  one : Scalar.toInt? (Scalar.one : α) = some 1
  beq_one {v : α} : (v == Scalar.one) = true → Scalar.toInt? v = some 1
  one_mul {v : α} {n : Int} : Scalar.toInt? v = some n → Scalar.toInt? (Scalar.one * v) = some n
  neg {n : Int} : Holds α n → Holds α (-n)

theorem holds_rat (n : Int) : Holds Rat n := ⟨n, rfl, toInt?_intCast n⟩

theorem keepsIntegers_rat : KeepsIntegers Rat where
  one := toInt?_eq_some.mpr (by simp)
  beq_one h := toInt?_eq_some.mpr (by simpa using h)
  one_mul h := by simpa using h
  neg _ := holds_rat _

end Scalar

namespace Binary64

open Float.Model UnpackedFloat

section Unit

variable {m : Nat} {e : Int} {hm : 0 < m} {s : Sign}

theorem unpack_bounds {v : Float} (h : v.toModel.unpack = .finite s m e hm) :
    m < 2 ^ 53 ∧ (2 ^ 52 ≤ m ∨ e = -1074) := by
  have hbias : (Format.binary64.exponentBias : Int) = 1023 := rfl
  have hfraction := (fractionField v).isLt
  change UnpackedFloat.unpack .binary64 v.toBits.toBitVec = _ at h
  unfold UnpackedFloat.unpack at h
  dsimp only at h
  rw [hbias] at h
  unfold fractionField at hfraction
  split_ifs at h with hinfinite hnan hsubnormal hzero
  · cases h
    have hfirst : (@unpackExponent .binary64 v.toBits.toBitVec).toNat = 0 :=
      congrArg BitVec.toNat hsubnormal
    omega
  · cases h
    refine ⟨BitVec.isLt _, Or.inl ?_⟩
    rw [BitVec.toNat_append]
    exact Nat.left_le_or

theorem log2_shifted (hm : 0 < m) : (2 ^ 52 * m).log2 = 52 + m.log2 := by
  have hpow : 2 ^ (52 + m.log2) = 2 ^ 52 * 2 ^ m.log2 := pow_add 2 52 m.log2
  rw [Nat.log2_eq_iff (by positivity), pow_succ, hpow]
  have hlow := Nat.log2_self_le hm.ne'
  have hhigh : m < 2 ^ (m.log2 + 1) := Nat.lt_log2_self
  rw [pow_succ] at hhigh
  omega

theorem shiftRight_multiple (m k : Nat) :
    (⟨2 ^ k * m, false, false⟩ : ExtendedMantissa) >>> k = ⟨m, false, false⟩ := by
  induction k generalizing m with
  | zero =>
    rw [pow_zero, Nat.one_mul]
    rfl
  | succ k ih =>
    change ((⟨2 ^ (k + 1) * m, false, false⟩ : ExtendedMantissa) >>> k).shiftRightOne = _
    rw [pow_succ, Nat.mul_assoc, ih]
    simp [ExtendedMantissa.shiftRightOne]

theorem shiftToTargetExponent_multiple {k : Nat} {f : Int}
    (h : ((Format.binary64.targetExponent (totalExponent (2 ^ k * m) f)) - f).toNat = k) :
    shiftToTargetExponent .binary64 (2 ^ k * m) f .exact = (⟨m, false, false⟩, f + k) := by
  unfold shiftToTargetExponent shiftToExponent
  dsimp only
  rw [h]
  exact congrArg (·, f + (k : Int)) (shiftRight_multiple m k)

theorem mul_one_finite (s : Sign) (hm : 0 < m) (hlt : m < 2 ^ 53) (he : -1074 ≤ e)
    (hnormal : 2 ^ 52 ≤ m ∨ e = -1074) :
    roundWithAccuracy .binary64 s (2 ^ 52 * m) (-52 + e) .exact = .finite s m e hm := by
  have hbits : (Format.binary64.mantissaBits : Int) = 53 := rfl
  have hlast : Format.binary64.minExponent = -1074 := rfl
  have hlog : m.log2 < 53 := (Nat.log2_lt hm.ne').mpr hlt
  have hlogNormal : m.log2 = 52 ∨ e = -1074 :=
    hnormal.imp_left fun hle => le_antisymm (by omega) ((Nat.le_log2 hm.ne').mpr hle)
  -- One as the first factor adds 52 zero bits to the mantissa. The first shift takes them away,
  -- and the one after rounding finds the mantissa in its place.
  have hfirst : shiftToTargetExponent .binary64 (2 ^ 52 * m) (-52 + e) .exact =
      (⟨m, false, false⟩, e) := by
    rw [shiftToTargetExponent_multiple]
    · simp
    · simp only [Format.targetExponent, totalExponent, hbits, hlast, log2_shifted hm]
      omega
  have hsecond : shiftToTargetExponent .binary64 (2 ^ 0 * m) e .exact =
      (⟨m, false, false⟩, e + (0 : Nat)) := by
    apply shiftToTargetExponent_multiple
    simp only [Format.targetExponent, totalExponent, hbits, hlast, pow_zero, Nat.one_mul]
    omega
  have hagain : shiftToTargetExponent .binary64
      (ExtendedMantissa.roundedMantissa ⟨m, false, false⟩) e .exact = (⟨m, false, false⟩, e) := by
    rw [pow_zero, Nat.one_mul, Nat.cast_zero, add_zero] at hsecond
    exact hsecond
  unfold roundWithAccuracy
  simp only [hfirst, hagain, hm.ne', ↓reduceDIte]

theorem one_mul_of_isFinite {v : Float} (h : v.toModel.unpack.isFinite) : 1 * v = v := by
  have hproduct : UnpackedFloat.mul .binary64 (1 : Float).toModel.unpack v.toModel.unpack =
      v.toModel.unpack := by
    rw [one_unpack]
    cases hv : v.toModel.unpack with
    | zero s => cases s <;> rfl
    | finite s m e hm =>
      obtain ⟨hlt, hnormal⟩ := unpack_bounds hv
      have hround := mul_one_finite s hm hlt (le_unpack_exponent hv) hnormal
      cases s <;> exact hround
    | _ => rw [hv] at h; cases h
  calc 1 * v = Float.ofModel (Float.Model.pack
        (.mul .binary64 (1 : Float).toModel.unpack v.toModel.unpack)) := rfl
    _ = Float.ofModel (Float.Model.pack v.toModel.unpack) := by rw [hproduct]
    _ = v := Float.ofBits_toBits v

end Unit

section Negation

theorem signBit_iff (v : Float) :
    signBit v = true ↔ @unpackSign .binary64 v.toBits.toBitVec = 1#1 := by
  have hlt : v.toBits.toNat < 2 ^ 64 := v.toBits.toNat_lt
  have hsign : (@unpackSign .binary64 v.toBits.toBitVec).toNat = v.toBits.toNat / 2 ^ 63 % 2 := by
    rw [unpackSign_def, BitVec.extractLsb'_toNat, Nat.shiftRight_eq_div_pow]
    rfl
  rw [← BitVec.toNat_inj, hsign]
  change decide (2 ^ 63 ≤ v.toBits.toNat) = true ↔ _ = 1
  rw [decide_eq_true_iff]
  omega

theorem signBit_of_sign? {v : Float} {s : Sign} (h : sign? v.toModel.unpack = some s) :
    signBit v = true ↔ s = .negative := by
  change sign? (UnpackedFloat.unpack .binary64 v.toBits.toBitVec) = some s at h
  rw [sign?_unpack] at h
  split_ifs at h
  obtain rfl := Option.some.inj h
  have hbit : ∀ b : BitVec 1, b = 1#1 ↔ b ≠ 0#1 := by decide
  rw [signBit_iff, hbit, Sign.ofBitVec]
  split_ifs with hzero <;> simp [hzero]

theorem sign?_neg (u : UnpackedFloat) : sign? u.neg = (sign? u).map (- ·) := by
  cases u <;> rfl

theorem parts?_neg (v : Float) : parts? (-v) = parts? v := by
  rw [parts?_eq, parts?_eq, exponentField_neg, fractionField_neg]

theorem toRat?_neg {v : Float} {q : Rat} (h : toRat? v = some q) : toRat? (-v) = some (-q) := by
  obtain ⟨s, hs⟩ : ∃ s, sign? v.toModel.unpack = some s := by
    have hfinite := isFinite_of_toRat? h
    cases hv : v.toModel.unpack with
    | notANumber => rw [hv] at hfinite; cases hfinite
    | _ => exact ⟨_, rfl⟩
  have hneg : sign? (-v).toModel.unpack = some (-s) := by
    change sign? (Float.Model.pack v.toModel.unpack.neg).unpack = _
    rw [sign?_unpack_pack, sign?_neg, hs]
    rfl
  obtain ⟨⟨m, e⟩, hparts, -⟩ := Option.map_eq_some_iff.mp h
  rw [toRat?_of_parts hparts] at h
  rw [toRat?_of_parts ((parts?_neg v).trans hparts), ← Option.some.inj h]
  cases s with
  | positive =>
    have hv : ¬signBit v = true := fun hv => nomatch (signBit_of_sign? hs).mp hv
    rw [if_neg hv, if_pos ((signBit_of_sign? hneg).mpr rfl)]
  | negative =>
    have hw : ¬signBit (-v) = true := fun hw => nomatch (signBit_of_sign? hneg).mp hw
    rw [if_pos ((signBit_of_sign? hs).mpr rfl), if_neg hw, neg_neg]

end Negation

section Exactness

variable {num den k : Nat} {e : Int}

theorem multiple_of_eq (hden : 0 < den) (h : (num : Rat) / den = k * 2 ^ e) :
    multiple num den e = k := le_antisymm (multiple_le hden h.le) (le_multiple hden h.ge)

theorem exists_mantissa {n : Nat} (hn : 0 < n) (hle : n ≤ 2 ^ 53) :
    ∃ k : Nat, (n : Rat) / (1 : Nat) = k * 2 ^ (Int.log 2 ((n : Rat) / (1 : Nat)) - 52) := by
  rw [Nat.cast_one, div_one, Int.log_natCast]
  rcases lt_or_eq_of_le hle with hlt | rfl
  · have hlog : Nat.log 2 n < 53 := Nat.log_lt_of_lt_pow hn.ne' hlt
    refine ⟨n * 2 ^ (52 - Nat.log 2 n), ?_⟩
    have hexponent : (Nat.log 2 n : Int) - 52 = -((52 - Nat.log 2 n : Nat) : Int) := by omega
    rw [hexponent, zpow_neg, zpow_natCast]
    push_cast
    rw [mul_assoc, mul_inv_cancel₀ (by positivity), mul_one]
  · exact ⟨2 ^ 52, by norm_num⟩

theorem bitsOf?_of_mantissa (hnum : 0 < num) (hden : 0 < den)
    (hlow : -1022 ≤ Int.log 2 ((num : Rat) / den)) (hhigh : Int.log 2 ((num : Rat) / den) ≤ 1023)
    (hk : (num : Rat) / den = k * 2 ^ (Int.log 2 ((num : Rat) / den) - 52)) :
    2 ^ 52 ≤ k ∧ k < 2 ^ 53 ∧ bitsOf? num den =
      some ((Int.log 2 ((num : Rat) / den) + 1022).toNat * 2 ^ 52 + k) := by
  have hmultiple := multiple_of_eq hden hk
  have hmantissa := (multiple_bounds hnum hden).1
  have habove := Int.lt_zpow_succ_log_self (b := 2) one_lt_two ((num : Rat) / den)
  have hexponent := exponent_eq_log hnum hden
  generalize Int.log 2 ((num : Rat) / den) = log at *
  rw [hmultiple] at hmantissa
  have hlt : k < 2 ^ 53 := by
    have hunit : (2 : Rat) ^ (log + 1) = 2 ^ (53 : Int) * 2 ^ (log - 52) := by
      rw [← zpow_add₀ two_ne_zero]
      congr 1
      omega
    push_cast at habove
    rw [hk, hunit, mul_lt_mul_iff_of_pos_right (by positivity)] at habove
    exact_mod_cast habove
  refine ⟨hmantissa, hlt, ?_⟩
  have hpow : Nat.pow 2 52 = 2 ^ 52 := rfl
  have hplace : log - 52 + 1074 = log + 1022 := by omega
  unfold bitsOf?
  dsimp only
  rw [hexponent, hpow, if_neg (not_lt.mpr hlow), max_eq_left (by omega), hplace, hmultiple]
  exact if_pos (by omega)

theorem toRat?_ofBits (log : Int) {k : Nat} (hlow : 2 ^ 52 ≤ k) (hhigh : k < 2 ^ 53)
    (hlog : -1022 ≤ log) (hlog' : log ≤ 1023) :
    toRat? (Float.ofBits (UInt64.ofNat ((log + 1022).toNat * 2 ^ 52 + k))) =
      some ((k : Rat) * 2 ^ (log - 52)) := by
  have hbits := toBits_ofBits (n := (log + 1022).toNat * 2 ^ 52 + k) (by omega)
  generalize Float.ofBits (UInt64.ofNat ((log + 1022).toNat * 2 ^ 52 + k)) = v at hbits ⊢
  have hparts : parts? v = some (k, log - 52) := by
    have hpow : Nat.pow 2 52 = 2 ^ 52 := rfl
    have hexponents : Nat.pow 2 11 = 2 ^ 11 := rfl
    unfold parts?
    rw [hbits, hpow, hexponents]
    have hbiased : ((log + 1022).toNat * 2 ^ 52 + k) / 2 ^ 52 % 2 ^ 11 = (log + 1023).toNat := by
      omega
    have hfraction : ((log + 1022).toNat * 2 ^ 52 + k) % 2 ^ 52 = k - 2 ^ 52 := by omega
    dsimp only
    rw [hbiased, hfraction, if_neg (by omega), if_neg (by omega)]
    simp only [Option.some.injEq, Prod.mk.injEq]
    omega
  have hsign : ¬signBit v = true := by
    change ¬decide (2 ^ 63 ≤ v.toBits.toNat) = true
    rw [hbits, decide_eq_true_iff]
    omega
  rw [toRat?_of_parts hparts, if_neg hsign]

theorem toRat?_of_ofRat?_natCast {n : Nat} (hn : 0 < n) (hle : n ≤ 2 ^ 53) :
    ∃ v : Float, ofRat? n = some v ∧ toRat? v = some n := by
  obtain ⟨k, hk⟩ := exists_mantissa hn hle
  have hlog : 0 ≤ Int.log 2 ((n : Rat) / (1 : Nat)) ∧
      Int.log 2 ((n : Rat) / (1 : Nat)) ≤ 53 := by
    rw [Nat.cast_one, div_one, Int.log_natCast]
    have hmono := Nat.log_mono_right (b := 2) hle
    rw [Nat.log_pow one_lt_two] at hmono
    exact ⟨Int.natCast_nonneg _, by exact_mod_cast hmono⟩
  obtain ⟨hlow, hhigh, hbits⟩ := bitsOf?_of_mantissa hn one_pos (by omega) (by omega) hk
  have hvalue := toRat?_ofBits (Int.log 2 ((n : Rat) / (1 : Nat))) hlow hhigh (by omega) (by omega)
  rw [← hk, Nat.cast_one, div_one] at hvalue
  refine ⟨_, ?_, hvalue⟩
  have hpositive : ¬(n : Rat) < 0 := by simp
  rw [ofRat?, if_neg (by exact_mod_cast hn.ne'), Rat.num_natCast, Rat.den_natCast,
    Int.natAbs_natCast, hbits, Nat.cast_one, div_one]
  simp only [Option.map_some, if_neg hpositive]

end Exactness

section Integers

-- exact arithmetic is computed, so the operations on fractions have to unfold
attribute [local semireducible] Rat.mul Rat.inv

theorem one_eq : (Scalar.one : Float) = 1 := by decide

theorem ofRat?_neg {q : Rat} {v : Float} (hq : q ≠ 0) (h : ofRat? q = some v) :
    ∃ w, ofRat? (-q) = some w ∧ (w = -v ∨ v = -w) := by
  rw [ofRat?, if_neg hq] at h
  obtain ⟨bits, hbits, hv⟩ := Option.map_eq_some_iff.mp h
  dsimp only at hv
  rw [ofRat?, if_neg (neg_ne_zero.mpr hq), Rat.neg_num, Rat.neg_den, Int.natAbs_neg, hbits]
  refine ⟨_, rfl, ?_⟩
  dsimp only
  rcases lt_or_gt_of_ne hq with hneg | hpos
  · rw [if_pos hneg] at hv
    rw [if_neg (by simpa using hneg.le)]
    exact Or.inr hv.symm
  · rw [if_neg hpos.not_gt] at hv
    rw [if_pos (by simpa using hpos), hv]
    exact Or.inl rfl

theorem holds_neg {n : Int} (h : Scalar.Holds Float n) : Scalar.Holds Float (-n) := by
  by_cases hzero : n = 0
  · rwa [hzero, neg_zero, ← hzero]
  · obtain ⟨v, hv, hn⟩ := h
    have hvalue : toRat? v = some (n : Rat) := Scalar.toInt?_eq_some_iff.mp hn
    obtain ⟨w, hw, hsign⟩ := ofRat?_neg (Int.cast_ne_zero.mpr hzero) hv
    rw [← Int.cast_neg] at hw
    refine ⟨w, hw, Scalar.toInt?_eq_some_iff.mpr ?_⟩
    change toRat? w = _
    rw [Int.cast_neg]
    rcases hsign with rfl | rfl
    · exact toRat?_neg hvalue
    · have hfinite : (toRat? w).isSome := by
        rw [toRat?_isSome_iff, ← exponentField_neg, ← toRat?_isSome_iff, hvalue]
        rfl
      obtain ⟨q, hq⟩ := Option.isSome_iff_exists.mp hfinite
      rw [toRat?_neg hq, Option.some.injEq] at hvalue
      rw [hq, ← hvalue, neg_neg]

theorem keepsIntegers_float : Scalar.KeepsIntegers Float where
  one := by decide
  beq_one {v} h := by
    have hone : toRat? (Scalar.one : Float) = some ((1 : Int) : Rat) := by decide
    have hvalue : toRat? v = toRat? (Scalar.one : Float) := toRat?_congr (Or.inr h)
    exact Scalar.toInt?_eq_some_iff.mpr (hvalue.trans hone)
  one_mul {v n} h := by
    have hfinite := isFinite_of_toRat? (Scalar.toInt?_eq_some_iff.mp h)
    rw [one_eq, one_mul_of_isFinite hfinite, h]
  neg := holds_neg

/-- Every integer up to `2 ^ 53` is a number without rounding. -/
theorem holds_float {n : Int} (hn : n.natAbs ≤ 2 ^ 53) : Scalar.Holds Float n := by
  have natural {n : Nat} (hn : n ≤ 2 ^ 53) : Scalar.Holds Float n := by
    rcases n.eq_zero_or_pos with rfl | hpos
    · have hzero : toRat? 0 = some 0 := (toRat?_eq_zero_iff 0).mpr (by decide)
      exact ⟨0, rfl, Scalar.toInt?_eq_some_iff.mpr hzero⟩
    · obtain ⟨v, hv, hvalue⟩ := toRat?_of_ofRat?_natCast hpos hn
      exact ⟨v, hv, Scalar.toInt?_eq_some_iff.mpr hvalue⟩
  rcases n.natAbs_eq with h | h <;> rw [h]
  · exact natural hn
  · exact holds_neg (natural hn)

end Integers

end Binary64

end RuleAlgebra
