import RuleAlgebra.Proofs.BinaryRange

/-!
Zeros of binary64. A number compares equal to zero exactly when its value is zero. Only rounding
below the last place of the subnormal numbers makes a zero of another value, so no integer and no
doubled number becomes one. A number times a zero is a zero or no number at all, and subtracting
that from a square leaves the sign.
-/

namespace RuleAlgebra.Binary64

open Float.Model UnpackedFloat

section Fields

def exponentField (v : Float) : BitVec 11 := @unpackExponent .binary64 v.toBits.toBitVec

def fractionField (v : Float) : BitVec 52 := @unpackMantissa .binary64 v.toBits.toBitVec

theorem toNat_exponentField (v : Float) :
    (exponentField v).toNat = v.toBits.toNat / 2 ^ 52 % 2 ^ 11 := by
  rw [exponentField, unpackExponent_def, BitVec.extractLsb'_toNat, Nat.shiftRight_eq_div_pow]
  rfl

theorem toNat_fractionField (v : Float) : (fractionField v).toNat = v.toBits.toNat % 2 ^ 52 := by
  rw [fractionField, unpackMantissa_def, BitVec.extractLsb'_toNat]
  rfl

theorem parts?_eq (v : Float) : parts? v =
    if exponentField v = -1 then none
    else if exponentField v = 0 then some ((fractionField v).toNat, -1074)
    else some (2 ^ 52 + (fractionField v).toNat, ((exponentField v).toNat : Int) - 1075) := by
  have hlast : exponentField v = -1 ↔ (exponentField v).toNat = 2047 := by
    rw [← BitVec.toNat_inj]
    rfl
  have hfirst : exponentField v = 0 ↔ (exponentField v).toNat = 0 := by
    rw [← BitVec.toNat_inj]
    rfl
  simp only [hlast, hfirst, toNat_exponentField, toNat_fractionField]
  rfl

theorem toRat?_isSome_iff (v : Float) : (toRat? v).isSome ↔ exponentField v ≠ -1 := by
  rw [toRat?, Option.isSome_map, parts?_eq]
  split_ifs with hinfinite hsubnormal
  · simp [hinfinite]
  · simp [hsubnormal]
  · exact iff_of_true rfl hinfinite

theorem toRat?_eq_zero_of_parts {v : Float} {m : Nat} {e : Int} (h : parts? v = some (m, e)) :
    toRat? v = some 0 ↔ m = 0 := by
  have hpower : (2 : Rat) ^ e ≠ 0 := zpow_ne_zero e two_ne_zero
  rw [toRat?_of_parts h]
  split_ifs <;> simp [hpower]

theorem toRat?_eq_zero_iff (v : Float) :
    toRat? v = some 0 ↔ exponentField v = 0 ∧ fractionField v = 0 := by
  have hzero : fractionField v = 0 ↔ (fractionField v).toNat = 0 := by
    rw [← BitVec.toNat_inj]
    rfl
  have hparts := parts?_eq v
  rw [hzero]
  split_ifs at hparts with hinfinite hsubnormal
  · rw [toRat?, hparts, hinfinite]
    simp
  · rw [toRat?_eq_zero_of_parts hparts, hsubnormal]
    simp
  · rw [toRat?_eq_zero_of_parts hparts]
    exact iff_of_false (by omega) fun h => hsubnormal h.1

theorem isFinite_of_toRat? {v : Float} {q : Rat} (h : toRat? v = some q) :
    v.toModel.unpack.isFinite := by
  have hfinite := (toRat?_isSome_iff v).mp (Option.isSome_iff_exists.mpr ⟨q, h⟩)
  change (UnpackedFloat.unpack .binary64 v.toBits.toBitVec).isFinite
  unfold UnpackedFloat.unpack
  dsimp only
  split_ifs with hlast
  · exact absurd hlast hfinite
  · exact absurd hlast hfinite
  all_goals rfl

theorem unpack_eq_zero_iff (v : Float) :
    (∃ s, v.toModel.unpack = .zero s) ↔ exponentField v = 0 ∧ fractionField v = 0 := by
  change (∃ s, UnpackedFloat.unpack .binary64 v.toBits.toBitVec = .zero s) ↔ _
  unfold UnpackedFloat.unpack exponentField fractionField
  dsimp only
  split_ifs with h1 h2 h3 h4 <;> simp_all

end Fields

section Rounding

variable {m : Nat} {e : Int}

theorem mantissa_shiftRight (em : ExtendedMantissa) (k : Nat) :
    (em >>> k).mantissa = em.mantissa / 2 ^ k := by
  induction k with
  | zero => exact (Nat.div_one em.mantissa).symm
  | succ k ih =>
    change (em >>> k).mantissa / 2 = _
    rw [ih, Nat.div_div_eq_div_mul, pow_succ]

theorem mantissa_ofMantissaAndAccuracy (m : Nat) (a : Accuracy) :
    (ExtendedMantissa.ofMantissaAndAccuracy m a).mantissa = m := by
  cases a with
  | exact => rfl
  | inexact o => cases o <;> rfl

theorem le_roundedMantissa (em : ExtendedMantissa) : em.mantissa ≤ em.roundedMantissa := by
  unfold ExtendedMantissa.roundedMantissa
  cases em.accuracy with
  | exact => exact le_rfl
  | inexact o => cases o <;> simp [Accuracy.roundToNearestEven]

/-- A mantissa whose leading bit is not below the last subnormal place is shifted to at most 53
bits, and not to zero. -/
theorem shiftToTargetExponent_bounds (hm : 0 < m) (he : -1074 ≤ m.log2 + e) (a : Accuracy) :
    let shifted := shiftToTargetExponent .binary64 m e a
    0 < shifted.1.mantissa ∧ shifted.1.mantissa < 2 ^ 53 ∧ -1074 ≤ shifted.2 := by
  intro shifted
  -- down to 53 bits, or to the last subnormal place where that leaves fewer
  obtain ⟨k, hk⟩ : ∃ k, k = (max ((m.log2 : Int) + 1 + e - 53) (-1074) - e).toNat := ⟨_, rfl⟩
  have hmantissa : shifted.1.mantissa = m / 2 ^ k := by
    rw [hk, ← mantissa_ofMantissaAndAccuracy m a, ← mantissa_shiftRight,
      mantissa_ofMantissaAndAccuracy]
    rfl
  have hexponent : shifted.2 = e + k := by
    rw [hk]
    rfl
  have hlow : k ≤ m.log2 := by omega
  have hhigh : m.log2 < 53 + k := by omega
  rw [hmantissa, hexponent]
  refine ⟨?_, ?_, by omega⟩
  · apply Nat.div_pos _ (Nat.two_pow_pos k)
    exact (Nat.pow_le_pow_right two_pos hlow).trans (Nat.log2_self_le hm.ne')
  · rw [Nat.div_lt_iff_lt_mul (Nat.two_pow_pos k), ← pow_add]
    exact (Nat.log2_lt hm.ne').mp hhigh

theorem roundWithAccuracy_finite (hm : 0 < m) (he : -1074 ≤ m.log2 + e) (s : Sign) (a : Accuracy) :
    ∃ n f hn, roundWithAccuracy .binary64 s m e a = .finite s n f hn ∧ n < 2 ^ 53 ∧ -1074 ≤ f := by
  obtain ⟨hpos, -, hexponent⟩ := shiftToTargetExponent_bounds hm he a
  unfold roundWithAccuracy
  generalize shiftToTargetExponent .binary64 m e a = shifted at hpos hexponent ⊢
  -- rounding up may take one bit more, so that the mantissa is shifted once again
  have hrounded := hpos.trans_le (le_roundedMantissa shifted.1)
  have hagain := shiftToTargetExponent_bounds hrounded (e := shifted.2) (by omega) .exact
  refine ⟨_, _, hagain.1, dif_neg hagain.1.ne', hagain.2⟩

end Rounding

section Packing

variable {m : Nat} {e : Int}

theorem unpack_pack_zero (s : Sign) : (Float.Model.pack (.zero s)).unpack = .zero s :=
  unpack_packedZero

theorem unpack_pack_notANumber : (Float.Model.pack .notANumber).unpack = .notANumber :=
  unpack_packedNaN

theorem pack_finite (s : Sign) (hm : 0 < m) (e : Int) :
    ∃ (exponent : BitVec 11) (fraction : BitVec 52),
      UnpackedFloat.pack .binary64 (.finite s m e hm) =
        packComponents .binary64 s exponent fraction ∧
      (exponent = -1 → fraction = 0) ∧
      (m < 2 ^ 53 → -1074 ≤ e → exponent = 0 → fraction ≠ 0) := by
  have hbias : (Format.binary64.exponentBias : Int) = 1023 := rfl
  have hbits : Format.binary64.mantissaBits = 53 := rfl
  unfold UnpackedFloat.pack
  dsimp only
  rw [hbias, hbits]
  split_ifs with hinfinite hnormal
  · refine ⟨-1, 0, rfl, fun _ => rfl, fun _ _ h => ?_⟩
    exact absurd h (by decide)
  · refine ⟨_, _, rfl, fun h => ?_, fun _ he h => ?_⟩
    · have hlast : (e + 1023 + 52).toNat % 2 ^ 11 = 2047 := congrArg BitVec.toNat h
      omega
    · have hfirst : (e + 1023 + 52).toNat % 2 ^ 11 = 0 := congrArg BitVec.toNat h
      omega
  · refine ⟨_, _, rfl, fun h => ?_, fun hlt _ _ h => ?_⟩
    · exact absurd h (by decide)
    · have hnone : m % 2 ^ 52 = 0 := congrArg BitVec.toNat h
      have hlog : m.log2 < 53 := (Nat.log2_lt hm.ne').mpr hlt
      have hsmall : m < 2 ^ 52 := (Nat.log2_lt hm.ne').mp (by omega)
      omega

def sign? : UnpackedFloat → Option Sign
  | .notANumber => none
  | .infinity s | .zero s | .finite s _ _ _ => some s

theorem sign?_unpack (b : BitVec 64) : sign? (UnpackedFloat.unpack .binary64 b) =
    if @isNaNBits .binary64 b then none else some (Sign.ofBitVec (@unpackSign .binary64 b)) := by
  unfold UnpackedFloat.unpack isNaNBits
  dsimp only
  split_ifs <;> simp_all [sign?]

theorem sign?_unpack_pack (u : UnpackedFloat) : sign? (Float.Model.pack u).unpack = sign? u := by
  cases u with
  | notANumber => rw [unpack_pack_notANumber]
  | infinity s => cases s <;> rfl
  | zero s => rw [unpack_pack_zero]
  | finite s m e hm =>
    obtain ⟨exponent, fraction, hpack, hnumber, -⟩ := pack_finite s hm e
    change sign? (UnpackedFloat.unpack .binary64 (UnpackedFloat.pack .binary64 _)) = some s
    rw [hpack, sign?_unpack, if_neg, unpackSign_packComponents, Sign.ofBitVec_toBitVec]
    simpa [isNaNBits] using hnumber

theorem unpack_pack_ne_zero {u : UnpackedFloat} (hzero : ∀ s, u ≠ .zero s)
    (hrange : ∀ s m e hm, u = .finite s m e hm → m < 2 ^ 53 ∧ -1074 ≤ e) (t : Sign) :
    (Float.Model.pack u).unpack ≠ .zero t := by
  cases u with
  | notANumber => simp [unpack_pack_notANumber]
  | infinity s => cases s <;> exact nofun
  | zero s => exact absurd rfl (hzero s)
  | finite s m e hm =>
    intro h
    have hbits : UnpackedFloat.pack .binary64 (.finite s m e hm) = packedZero .binary64 t :=
      (unpack_eq_zero_iff_of_valid valid_pack).mp h
    obtain ⟨exponent, fraction, hpack, -, hnonzero⟩ := pack_finite s hm e
    obtain ⟨hlt, he⟩ := hrange s m e hm rfl
    rw [hpack] at hbits
    have hexponent : exponent = 0 := by simpa [packedZero] using congrArg unpackExponent hbits
    have hfraction : fraction = 0 := by simpa [packedZero] using congrArg unpackMantissa hbits
    exact hnonzero hlt he hexponent hfraction

theorem le_unpack_exponent {v : Float} {s : Sign} {hm : 0 < m}
    (h : v.toModel.unpack = .finite s m e hm) : -1074 ≤ e := by
  have hbias : (Format.binary64.exponentBias : Int) = 1023 := rfl
  change UnpackedFloat.unpack .binary64 v.toBits.toBitVec = _ at h
  unfold UnpackedFloat.unpack at h
  dsimp only at h
  rw [hbias] at h
  split_ifs at h with hinfinite hnan hsubnormal hzero
  · cases h
    omega
  · cases h
    have hpos : (@unpackExponent .binary64 v.toBits.toBitVec).toNat ≠ 0 :=
      fun hz => hsubnormal (BitVec.eq_of_toNat_eq hz)
    omega

end Packing

section Comparisons

theorem beq_zero_iff (u : UnpackedFloat) : u.beq (.zero .positive) ↔ ∃ s, u = .zero s := by
  cases u with
  | infinity s => cases s <;> simp [UnpackedFloat.beq, UnpackedFloat.compare]
  | finite s m e hm => cases s <;> simp [UnpackedFloat.beq, UnpackedFloat.compare]
  | _ => simp [UnpackedFloat.beq, UnpackedFloat.compare]

theorem lt_zero_of_sign? {u : UnpackedFloat} (h : sign? u ≠ some .negative) :
    u.lt (.zero .positive) = false := by
  cases u with
  | infinity s => cases s <;> simp_all [UnpackedFloat.lt, UnpackedFloat.compare, sign?]
  | finite s m e hm => cases s <;> simp_all [UnpackedFloat.lt, UnpackedFloat.compare, sign?]
  | _ => rfl

theorem zero_le_of_sign? {u : UnpackedFloat} (h : sign? u = some .positive) :
    UnpackedFloat.le (.zero .positive) u = true := by
  cases u with
  | notANumber => cases h
  | infinity s => cases s <;> simp_all [UnpackedFloat.le, UnpackedFloat.compare, sign?]
  | zero s => rfl
  | finite s m e hm => cases s <;> simp_all [UnpackedFloat.le, UnpackedFloat.compare, sign?]

theorem beq_zero_iff_unpack (v : Float) : (v == 0) = true ↔ ∃ s, v.toModel.unpack = .zero s :=
  beq_zero_iff v.toModel.unpack

theorem lt_zero_iff_unpack (v : Float) : v < 0 ↔ v.toModel.unpack.lt (.zero .positive) :=
  decide_eq_true_iff

theorem zero_le_iff_unpack (v : Float) :
    0 ≤ v ↔ UnpackedFloat.le (.zero .positive) v.toModel.unpack :=
  decide_eq_true_iff

theorem beq_zero_iff_toRat? (v : Float) : (v == 0) = true ↔ toRat? v = some 0 := by
  rw [beq_zero_iff_unpack, unpack_eq_zero_iff, toRat?_eq_zero_iff]

end Comparisons

section Products

theorem unpack_mul (v w : Float) : (v * w).toModel.unpack =
    (Float.Model.pack (.mul .binary64 v.toModel.unpack w.toModel.unpack)).unpack := rfl

theorem unpack_sub (v w : Float) : (v - w).toModel.unpack =
    (Float.Model.pack (.sub .binary64 v.toModel.unpack w.toModel.unpack)).unpack := rfl

theorem sign?_roundWithAccuracy (s : Sign) (m : Nat) (e : Int) (a : Accuracy) :
    sign? (roundWithAccuracy .binary64 s m e a) = some s := by
  unfold roundWithAccuracy
  dsimp only
  split_ifs <;> rfl

theorem sign?_mul_self (u : UnpackedFloat) :
    sign? (u.mul .binary64 u) = (sign? u).map fun _ => .positive := by
  cases u with
  | notANumber => rfl
  | infinity s => cases s <;> rfl
  | zero s => cases s <;> rfl
  | finite s m e hm => cases s <;> exact sign?_roundWithAccuracy ..

-- exact arithmetic is computed, so the operations on fractions have to unfold
attribute [local semireducible] Rat.mul Rat.inv

theorem two_unpack : (Scalar.ofNat 2 : Float).toModel.unpack =
    .finite .positive (2 ^ 52) (-51) (by decide) := by
  have hbits : (Scalar.ofNat 2 : Float) = Float.ofBits 0x4000000000000000 := by decide
  rw [hbits]
  rfl

theorem four_unpack : (Scalar.ofNat 4 : Float).toModel.unpack =
    .finite .positive (2 ^ 52) (-50) (by decide) := by
  have hbits : (Scalar.ofNat 4 : Float) = Float.ofBits 0x4010000000000000 := by decide
  rw [hbits]
  rfl

theorem double_eq_zero_iff (v : Float) :
    (∃ s, (Scalar.ofNat 2 * v).toModel.unpack = .zero s) ↔ ∃ s, v.toModel.unpack = .zero s := by
  rw [unpack_mul, two_unpack]
  cases h : v.toModel.unpack with
  | zero s => exact iff_of_true ⟨_, unpack_pack_zero _⟩ ⟨s, rfl⟩
  | notANumber =>
    apply iff_of_false _ (by simp)
    exact not_exists.mpr (unpack_pack_ne_zero nofun nofun)
  | infinity s =>
    apply iff_of_false _ (by simp)
    exact not_exists.mpr (unpack_pack_ne_zero nofun nofun)
  | finite s m e hm =>
    have hlog : 52 ≤ (2 ^ 52 * m).log2 :=
      (Nat.le_log2 (by positivity)).mpr (Nat.le_mul_of_pos_right _ hm)
    have he := le_unpack_exponent h
    obtain ⟨n, f, hn, hround, hlt, hf⟩ := roundWithAccuracy_finite (m := 2 ^ 52 * m) (e := -51 + e)
      (by positivity) (by omega) (.positive * s) .exact
    apply iff_of_false _ (by simp)
    refine not_exists.mpr (unpack_pack_ne_zero ?_ ?_)
    · intro t ht
      cases hround.symm.trans ht
    · intro t n' f' hn' ht
      cases hround.symm.trans ht
      exact ⟨hlt, hf⟩

theorem zero_mul_cases (s : Sign) (u : UnpackedFloat) :
    (.mul .binary64 (.zero s) u = UnpackedFloat.notANumber ∧ ¬u.isFinite) ∨
      ∃ t, .mul .binary64 (.zero s) u = UnpackedFloat.zero t := by
  cases u with
  | notANumber => exact .inl ⟨rfl, Bool.false_ne_true⟩
  | infinity t => exact .inl ⟨rfl, Bool.false_ne_true⟩
  | zero t => exact .inr ⟨_, rfl⟩
  | finite t m e hm => exact .inr ⟨_, rfl⟩

theorem sign?_sub_zero {u : UnpackedFloat} (h : sign? u ≠ some .negative) (s : Sign) :
    sign? (u.sub .binary64 (.zero s)) = sign? u := by
  cases u with
  | zero t => cases t <;> cases s <;> first | rfl | exact absurd rfl h
  | _ => rfl

theorem sub_notANumber (u : UnpackedFloat) : u.sub .binary64 .notANumber = .notANumber := by
  cases u <;> rfl

end Products

section Discriminant

variable {a : Float} (ha : (a == 0) = true) (b c : Float)

theorem sign?_square (v : Float) :
    sign? (v * v).toModel.unpack = (sign? v.toModel.unpack).map fun _ => .positive := by
  rw [unpack_mul, sign?_unpack_pack, sign?_mul_self]

include ha

/-- Where `a` vanishes, so does `4ac`, unless it is no number. -/
theorem unpack_fourfold :
    ((Scalar.ofNat 4 * a * c).toModel.unpack = .notANumber ∧ ¬c.toModel.unpack.isFinite) ∨
      ∃ t, (Scalar.ofNat 4 * a * c).toModel.unpack = .zero t := by
  obtain ⟨s, hs⟩ := (beq_zero_iff_unpack a).mp ha
  have hfour : (Scalar.ofNat 4 * a).toModel.unpack = .zero (.positive * s) := by
    rw [unpack_mul, four_unpack, hs]
    exact unpack_pack_zero _
  rw [unpack_mul, hfour]
  obtain ⟨hnan, hc⟩ | ⟨t, ht⟩ := zero_mul_cases (.positive * s) c.toModel.unpack
  · rw [hnan]
    exact .inl ⟨unpack_pack_notANumber, hc⟩
  · rw [ht]
    exact .inr ⟨t, unpack_pack_zero t⟩

theorem sign?_discriminant :
    (sign? (b * b - Scalar.ofNat 4 * a * c).toModel.unpack = none ∧ ¬c.toModel.unpack.isFinite) ∨
      sign? (b * b - Scalar.ofNat 4 * a * c).toModel.unpack =
        (sign? b.toModel.unpack).map fun _ => .positive := by
  rw [unpack_sub, sign?_unpack_pack]
  obtain ⟨hnan, hc⟩ | ⟨t, ht⟩ := unpack_fourfold ha c
  · rw [hnan, sub_notANumber]
    exact .inl ⟨rfl, hc⟩
  · rw [ht, sign?_sub_zero (by simp [sign?_square]), sign?_square]
    exact .inr rfl

theorem discriminant_not_negative : ¬b * b - Scalar.ofNat 4 * a * c < 0 := by
  have hsign : sign? (b * b - Scalar.ofNat 4 * a * c).toModel.unpack ≠ some .negative := by
    obtain ⟨h, -⟩ | h := sign?_discriminant ha b c <;> simp [h]
  rw [lt_zero_iff_unpack, lt_zero_of_sign? hsign]
  exact Bool.false_ne_true

theorem discriminant_nonneg (hb : b.toModel.unpack.isFinite) (hc : c.toModel.unpack.isFinite) :
    0 ≤ b * b - Scalar.ofNat 4 * a * c := by
  obtain ⟨-, hinfinite⟩ | h := sign?_discriminant ha b c
  · exact absurd hc hinfinite
  · obtain ⟨s, hs⟩ : ∃ s, sign? b.toModel.unpack = some s := by
      cases hu : b.toModel.unpack with
      | notANumber => rw [hu] at hb; cases hb
      | _ => exact ⟨_, rfl⟩
    rw [hs] at h
    exact (zero_le_iff_unpack _).mpr (zero_le_of_sign? h)

end Discriminant

section Integers

theorem bitsOf?_bounds {num den bits : Nat} (hden : 0 < den) (hle : den ≤ num)
    (h : bitsOf? num den = some bits) : 2 ^ 52 ≤ bits ∧ bits < 2047 * 2 ^ 52 := by
  have hlog : 0 ≤ Int.log 2 ((num : Rat) / den) := by
    have hpos : (0 : Rat) < den := by exact_mod_cast hden
    have hone : (1 : Rat) ≤ num / den := by
      rw [le_div_iff₀ hpos, one_mul]
      exact_mod_cast hle
    rw [Int.log_of_one_le_right 2 hone]
    exact Int.natCast_nonneg _
  unfold bitsOf? at h
  dsimp only at h
  rw [exponent_eq_log (hden.trans_le hle) hden] at h
  generalize Int.log 2 ((num : Rat) / den) = log at hlog h
  have hpow : Nat.pow 2 52 = 2 ^ 52 := rfl
  have hnormal : ¬log < -1022 := by omega
  rw [hpow, if_neg hnormal] at h
  split_ifs at h with hlt
  cases h
  omega

theorem toBits_ofBits {n : Nat} (h : n < 2047 * 2 ^ 52) :
    (Float.ofBits (UInt64.ofNat n)).toBits.toNat = n := by
  have hn : (UInt64.ofNat n).toBitVec.toNat = n := by
    simp
    omega
  have hexponent : @unpackExponent .binary64 (UInt64.ofNat n).toBitVec ≠ -1 := by
    rw [Ne, ← BitVec.toNat_inj, unpackExponent_def, BitVec.extractLsb'_toNat,
      Nat.shiftRight_eq_div_pow, hn]
    change ¬n / 2 ^ 52 % 2 ^ 11 = 2047
    omega
  change (UnpackedFloat.pack .binary64
    (UnpackedFloat.unpack .binary64 (UInt64.ofNat n).toBitVec)).toNat = n
  rw [pack_unpack, if_neg, hn]
  simpa [isNaNBits] using fun h => absurd h hexponent

theorem unpackExponent_pack_neg (u : UnpackedFloat) :
    unpackExponent (UnpackedFloat.pack .binary64 u.neg) =
      unpackExponent (UnpackedFloat.pack .binary64 u) := by
  cases u with
  | finite s m e hm =>
    simp only [UnpackedFloat.neg, UnpackedFloat.pack]
    split_ifs <;> simp [packedInfinity]
  | _ => simp [UnpackedFloat.neg, UnpackedFloat.pack, packedInfinity, packedZero]

theorem exponentField_neg (v : Float) : exponentField (-v) = exponentField v := by
  have hbits : UnpackedFloat.pack .binary64 v.toModel.unpack = v.toBits.toBitVec :=
    pack_unpack_of_valid v.toModel.valid
  unfold exponentField
  rw [← hbits, ← unpackExponent_pack_neg]
  rfl

theorem toRat?_of_ofRat?_intCast {n : Int} {v : Float} (h : ofRat? n = some v) :
    ∃ q, toRat? v = some q ∧ (q = 0 ↔ n = 0) := by
  by_cases hn : n = 0
  · subst hn
    cases h
    exact ⟨0, (toRat?_eq_zero_iff 0).mpr (by decide), by simp⟩
  · rw [ofRat?, if_neg (by exact_mod_cast hn)] at h
    obtain ⟨bits, hbits, hv⟩ := Option.map_eq_some_iff.mp h
    obtain ⟨hlow, hhigh⟩ := bitsOf?_bounds (Rat.den_pos _) (by simp; omega) hbits
    have hexponent : (exponentField v).toNat = bits / 2 ^ 52 := by
      have hunsigned :
          (exponentField (Float.ofBits (UInt64.ofNat bits))).toNat = bits / 2 ^ 52 := by
        rw [toNat_exponentField, toBits_ofBits hhigh]
        omega
      rw [← hv]
      dsimp only
      split_ifs
      · rwa [exponentField_neg]
      · exact hunsigned
    have hfinite : exponentField v ≠ -1 := by
      intro hlast
      have hsize : bits / 2 ^ 52 = 2047 := hexponent.symm.trans (congrArg BitVec.toNat hlast)
      omega
    have hnormal : exponentField v ≠ 0 := by
      intro hfirst
      have hsize : bits / 2 ^ 52 = 0 := hexponent.symm.trans (congrArg BitVec.toNat hfirst)
      omega
    obtain ⟨q, hq⟩ := Option.isSome_iff_exists.mp ((toRat?_isSome_iff v).mpr hfinite)
    refine ⟨q, hq, iff_of_false ?_ hn⟩
    rintro rfl
    exact hnormal ((toRat?_eq_zero_iff v).mp hq).1

end Integers

end RuleAlgebra.Binary64
