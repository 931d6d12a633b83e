import Mathlib
import RuleAlgebra.Scalar.Binary64

/-!
The range of binary64. A fraction has a nearest number unless its magnitude reaches the middle
between the largest number and the power of two after it, and the values of all finite numbers lie
below that.
-/

namespace RuleAlgebra.Binary64

/-- Halfway between the largest binary64 number and `2 ^ 1024`. -/
def rangeEnd : Rat := 2 ^ 1024 - 2 ^ 970

theorem rangeEnd_eq : rangeEnd = (2 ^ 53 - 1 / 2) * 2 ^ (971 : Int) := by
  have hfull : (2 : Rat) ^ 1024 = 2 ^ 53 * 2 ^ 971 := by rw [← pow_add]
  have hhalf : (2 : Rat) ^ 970 = 1 / 2 * 2 ^ 971 := by
    rw [pow_succ' 2 970, ← mul_assoc, one_div, inv_mul_cancel₀ two_ne_zero, one_mul]
  have hunit : (2 : Rat) ^ (971 : Int) = 2 ^ 971 := zpow_natCast 2 971
  rw [rangeEnd, hunit, hfull, hhalf, sub_mul]

theorem power_lt_rangeEnd {e : Int} (h : e ≤ 1023) : (2 : Rat) ^ e < rangeEnd := by
  calc (2 : Rat) ^ e ≤ 2 ^ (1023 : Int) := zpow_le_zpow_right₀ one_le_two h
    _ = 2 ^ 52 * 2 ^ (971 : Int) := by
      rw [← zpow_natCast 2 52, ← zpow_add₀ two_ne_zero]
      rfl
    _ < rangeEnd := by
      rw [rangeEnd_eq]
      gcongr
      norm_num

theorem rangeEnd_le_power {e : Int} (h : 1024 ≤ e) : rangeEnd ≤ 2 ^ e := by
  calc rangeEnd ≤ 2 ^ 53 * 2 ^ (971 : Int) := by
        rw [rangeEnd_eq]
        gcongr
        norm_num
    _ = 2 ^ (1024 : Int) := by
      rw [← zpow_natCast 2 53, ← zpow_add₀ two_ne_zero]
      rfl
    _ ≤ 2 ^ e := zpow_le_zpow_right₀ one_le_two h

section Quotients

variable {n d k : Nat}

theorem div_mul_add_mod (n d : Nat) : n = n / d * d + n % d := by
  rw [mul_comm]
  exact (Nat.div_add_mod n d).symm

theorem roundDiv_le (hd : 0 < d) (h : n ≤ k * d) : roundDiv n d ≤ k := by
  have hn := div_mul_add_mod n d
  have hmod := Nat.mod_lt n hd
  have hle : n / d ≤ k := Nat.div_le_of_le_mul (by rwa [mul_comm])
  unfold roundDiv
  dsimp only
  by_cases heq : n / d = k
  · have hr : n % d = 0 := by
      rw [heq] at hn
      omega
    rw [if_pos (by omega), heq]
  · split_ifs <;> omega

theorem le_roundDiv (hd : 0 < d) (h : k * d ≤ n) : k ≤ roundDiv n d := by
  have hle : k ≤ n / d := (Nat.le_div_iff_mul_le hd).mpr h
  unfold roundDiv
  dsimp only
  split_ifs <;> omega

theorem roundDiv_lt_iff (hd : 0 < d) (hk : k % 2 = 0) :
    roundDiv n d < k ↔ 2 * n + d < 2 * (k * d) := by
  have hn := div_mul_add_mod n d
  have hmod := Nat.mod_lt n hd
  rcases lt_trichotomy (n / d + 1) k with hlt | heq | hgt
  · have hround : roundDiv n d < k := by
      unfold roundDiv
      dsimp only
      split_ifs <;> omega
    have hmul : (n / d + 2) * d ≤ k * d := Nat.mul_le_mul_right d (by omega)
    rw [add_mul] at hmul
    exact iff_of_true hround (by omega)
  · have hmul : (n / d + 1) * d = k * d := by rw [heq]
    rw [add_mul, one_mul] at hmul
    have hodd : n / d % 2 ≠ 0 := by omega
    unfold roundDiv
    dsimp only
    rw [if_neg hodd]
    split_ifs <;> omega
  · have hmul : k * d ≤ n / d * d := Nat.mul_le_mul_right d (by omega)
    have hround : k ≤ roundDiv n d := le_roundDiv hd (by omega)
    exact iff_of_false (by omega) (by omega)

end Quotients

section Multiples

variable {num den k : Nat} {e : Int}

theorem multiple_eq (num : Nat) (hden : 0 < den) (e : Int) : ∃ n d : Nat, 0 < d ∧
    multiple num den e = roundDiv n d ∧ (n : Rat) / d = (num : Rat) / den / 2 ^ e := by
  unfold multiple
  split_ifs with he
  · refine ⟨num, den * 2 ^ e.toNat, by positivity, rfl, ?_⟩
    obtain ⟨k, rfl⟩ := Int.eq_ofNat_of_zero_le he
    push_cast
    rw [Int.toNat_natCast, zpow_natCast, div_div]
  · refine ⟨num * 2 ^ (-e).toNat, den, hden, rfl, ?_⟩
    obtain ⟨k, hk⟩ : ∃ k : Nat, e = -k := ⟨(-e).toNat, by omega⟩
    subst hk
    push_cast
    rw [neg_neg, Int.toNat_natCast, zpow_neg, zpow_natCast, div_inv_eq_mul]
    ring

theorem multiple_le (hden : 0 < den) (h : (num : Rat) / den ≤ k * 2 ^ e) :
    multiple num den e ≤ k := by
  obtain ⟨n, d, hd, heq, hv⟩ := multiple_eq num hden e
  rw [heq]
  apply roundDiv_le hd
  have hpos : (0 : Rat) < 2 ^ e := by positivity
  have hd' : (0 : Rat) < d := by exact_mod_cast hd
  rw [← div_le_iff₀ hpos, ← hv, div_le_iff₀ hd'] at h
  exact_mod_cast h

theorem le_multiple (hden : 0 < den) (h : k * 2 ^ e ≤ (num : Rat) / den) :
    k ≤ multiple num den e := by
  obtain ⟨n, d, hd, heq, hv⟩ := multiple_eq num hden e
  rw [heq]
  apply le_roundDiv hd
  have hpos : (0 : Rat) < 2 ^ e := by positivity
  have hd' : (0 : Rat) < d := by exact_mod_cast hd
  rw [← le_div_iff₀ hpos, ← hv, le_div_iff₀ hd'] at h
  exact_mod_cast h

theorem multiple_lt_iff (num : Nat) (hden : 0 < den) (hk : k % 2 = 0) :
    multiple num den e < k ↔ (num : Rat) / den < (k - 1 / 2) * 2 ^ e := by
  obtain ⟨n, d, hd, heq, hv⟩ := multiple_eq num hden e
  have hpos : (0 : Rat) < 2 ^ e := by positivity
  have hd' : (0 : Rat) < d := by exact_mod_cast hd
  rw [heq, roundDiv_lt_iff hd hk, ← div_lt_iff₀ hpos, ← hv, div_lt_iff₀ hd', sub_mul,
    lt_sub_iff_add_lt]
  constructor
  · intro h
    have h' : (2 * n + d : Rat) < 2 * (k * d) := by exact_mod_cast h
    linarith
  · intro h
    have h' : (2 * n + d : Rat) < 2 * (k * d) := by linarith
    exact_mod_cast h'

end Multiples

section Rounding

variable {num den : Nat}

theorem log2_bounds {n : Nat} (hn : 0 < n) :
    (2 : Rat) ^ (n.log2 : Int) ≤ n ∧ (n : Rat) < 2 ^ ((n.log2 : Int) + 1) := by
  rw [← Nat.cast_succ, zpow_natCast, zpow_natCast]
  exact ⟨by exact_mod_cast Nat.log2_self_le hn.ne', by exact_mod_cast Nat.lt_log2_self⟩

theorem scale_bounds (hnum : 0 < num) (hden : 0 < den) :
    (2 : Rat) ^ (scaleOf num den - 1) < (num : Rat) / den ∧
      (num : Rat) / den < 2 ^ (scaleOf num den + 1) := by
  have hpos : (0 : Rat) < den := by exact_mod_cast hden
  obtain ⟨hnumLow, hnumHigh⟩ := log2_bounds hnum
  obtain ⟨hdenLow, hdenHigh⟩ := log2_bounds hden
  unfold scaleOf
  constructor
  · rw [lt_div_iff₀ hpos]
    calc (2 : Rat) ^ ((num.log2 : Int) - den.log2 - 1) * den
        < 2 ^ ((num.log2 : Int) - den.log2 - 1) * 2 ^ ((den.log2 : Int) + 1) := by gcongr
      _ = 2 ^ (num.log2 : Int) := by
        rw [← zpow_add₀ two_ne_zero]
        congr 1
        omega
      _ ≤ num := hnumLow
  · rw [div_lt_iff₀ hpos]
    calc (num : Rat) < 2 ^ ((num.log2 : Int) + 1) := hnumHigh
      _ = 2 ^ ((num.log2 : Int) - den.log2 + 1) * 2 ^ (den.log2 : Int) := by
        rw [← zpow_add₀ two_ne_zero]
        congr 1
        omega
      _ ≤ 2 ^ ((num.log2 : Int) - den.log2 + 1) * den := by gcongr

theorem below_power_iff (num : Nat) (hden : 0 < den) (e : Int) :
    (if 0 ≤ e then num < den * Nat.pow 2 e.toNat else num * Nat.pow 2 (-e).toNat < den) ↔
      (num : Rat) / den < 2 ^ e := by
  have hpos : (0 : Rat) < den := by exact_mod_cast hden
  have hpow (k : Nat) : Nat.pow 2 k = 2 ^ k := rfl
  rw [div_lt_iff₀ hpos, hpow, hpow]
  split_ifs with he
  · obtain ⟨k, rfl⟩ := Int.eq_ofNat_of_zero_le he
    rw [Int.toNat_natCast, zpow_natCast, mul_comm]
    exact_mod_cast Iff.rfl
  · obtain ⟨k, rfl⟩ : ∃ k : Nat, e = -k := ⟨(-e).toNat, by omega⟩
    have hpower : (0 : Rat) < 2 ^ k := by positivity
    rw [neg_neg, Int.toNat_natCast, zpow_neg, zpow_natCast, ← div_eq_inv_mul, lt_div_iff₀ hpower]
    exact_mod_cast Iff.rfl

theorem exponent_eq_log (hnum : 0 < num) (hden : 0 < den) :
    (if (if 0 ≤ scaleOf num den then num < den * Nat.pow 2 (scaleOf num den).toNat
        else num * Nat.pow 2 (-scaleOf num den).toNat < den)
      then scaleOf num den - 1 else scaleOf num den) = Int.log 2 ((num : Rat) / den) := by
  have hv : (0 : Rat) < num / den := by positivity
  obtain ⟨hlow, hhigh⟩ := scale_bounds hnum hden
  have hle := (Int.zpow_le_iff_le_log (b := 2) one_lt_two hv).mp (by exact_mod_cast hlow.le)
  have hlt := (Int.lt_zpow_iff_log_lt (b := 2) one_lt_two hv).mp (by exact_mod_cast hhigh)
  have htop := below_power_iff num hden (scaleOf num den)
  have hlog := Int.lt_zpow_iff_log_lt (b := 2) (x := scaleOf num den) one_lt_two hv
  push_cast at hlog
  rw [hlog] at htop
  simp only [htop]
  split_ifs <;> omega

/-- The quotient in units of its last place has 53 bits unless it is subnormal. -/
theorem multiple_bounds (hnum : 0 < num) (hden : 0 < den) :
    2 ^ 52 ≤ multiple num den (Int.log 2 ((num : Rat) / den) - 52) ∧
      multiple num den (Int.log 2 ((num : Rat) / den) - 52) ≤ 2 ^ 53 := by
  have hv : (0 : Rat) < num / den := by positivity
  have hlow := Int.zpow_log_le_self (b := 2) one_lt_two hv
  have hhigh := Int.lt_zpow_succ_log_self (b := 2) one_lt_two ((num : Rat) / den)
  set log := Int.log 2 ((num : Rat) / den)
  have hunit : (2 : Rat) ^ log = 2 ^ (52 : Int) * 2 ^ (log - 52) := by
    rw [← zpow_add₀ two_ne_zero]
    congr 1
    omega
  push_cast at hlow hhigh
  rw [zpow_add_one₀ two_ne_zero, hunit] at hhigh
  rw [hunit] at hlow
  constructor
  · apply le_multiple hden
    norm_num at hlow ⊢
    exact hlow
  · apply multiple_le hden
    norm_num at hhigh ⊢
    linarith

theorem bitsOf?_isSome_of_normal (hnum : 0 < num) (hden : 0 < den)
    (h : -1022 ≤ Int.log 2 ((num : Rat) / den)) :
    (bitsOf? num den).isSome ↔ (Int.log 2 ((num : Rat) / den) + 1022).toNat * 2 ^ 52 +
      multiple num den (Int.log 2 ((num : Rat) / den) - 52) < 2047 * 2 ^ 52 := by
  unfold bitsOf?
  dsimp only
  rw [exponent_eq_log hnum hden]
  generalize Int.log 2 ((num : Rat) / den) = log at h ⊢
  have hpow : Nat.pow 2 52 = 2 ^ 52 := rfl
  have hplace : log - 52 + 1074 = log + 1022 := by omega
  have hend : (0x7ff0000000000000 : Nat) = 2047 * 2 ^ 52 := by norm_num
  rw [hpow, if_neg (not_lt.mpr h), max_eq_left (by omega), hplace, hend]
  split_ifs with hbits
  · exact iff_of_true rfl hbits
  · exact iff_of_false Bool.false_ne_true hbits

theorem bitsOf?_isSome_of_subnormal (hnum : 0 < num) (hden : 0 < den)
    (h : Int.log 2 ((num : Rat) / den) < -1022) : (bitsOf? num den).isSome := by
  have habove := Int.lt_zpow_succ_log_self (b := 2) one_lt_two ((num : Rat) / den)
  unfold bitsOf?
  dsimp only
  rw [exponent_eq_log hnum hden]
  generalize Int.log 2 ((num : Rat) / den) = log at h habove ⊢
  push_cast at habove
  have hm : multiple num den (-1074) ≤ 2 ^ 52 := by
    apply multiple_le hden
    have hplaces : (2 : Rat) ^ (-1022 : Int) = (2 ^ 52 : Nat) * 2 ^ (-1074 : Int) := by
      rw [Nat.cast_pow, ← zpow_natCast, Nat.cast_two, ← zpow_add₀ two_ne_zero]
      rfl
    calc (num : Rat) / den ≤ 2 ^ (log + 1) := habove.le
      _ ≤ 2 ^ (-1022 : Int) := zpow_le_zpow_right₀ one_le_two (by omega)
      _ = (2 ^ 52 : Nat) * 2 ^ (-1074 : Int) := hplaces
  rw [if_pos h, max_eq_right (by omega), if_pos (by omega)]
  rfl

theorem bitsOf?_isSome_iff (hnum : 0 < num) (hden : 0 < den) :
    (bitsOf? num den).isSome ↔ (num : Rat) / den < rangeEnd := by
  have hv : (0 : Rat) < num / den := by positivity
  obtain ⟨hlow, hhigh⟩ := multiple_bounds hnum hden
  have hbelow := Int.zpow_log_le_self (b := 2) one_lt_two hv
  have habove := Int.lt_zpow_succ_log_self (b := 2) one_lt_two ((num : Rat) / den)
  push_cast at hbelow habove
  by_cases hsub : Int.log 2 ((num : Rat) / den) < -1022
  · have hin : (num : Rat) / den < rangeEnd := habove.trans (power_lt_rangeEnd (by omega))
    exact iff_of_true (bitsOf?_isSome_of_subnormal hnum hden hsub) hin
  · rw [bitsOf?_isSome_of_normal hnum hden (not_lt.mp hsub)]
    generalize Int.log 2 ((num : Rat) / den) = log at hsub hlow hhigh hbelow habove ⊢
    rcases lt_trichotomy log 1023 with hlt | rfl | hgt
    · have hin : (num : Rat) / den < rangeEnd := habove.trans (power_lt_rangeEnd (by omega))
      exact iff_of_true (by omega) hin
    · -- in the last binade the rounding decides
      have hlast : multiple num den 971 < 2 ^ 53 ↔ (num : Rat) / den < rangeEnd := by
        rw [multiple_lt_iff num hden (by norm_num), rangeEnd_eq]
        norm_num
      rw [← hlast]
      change 2045 * 2 ^ 52 + multiple num den 971 < 2047 * 2 ^ 52 ↔ _
      omega
    · have hout : rangeEnd ≤ (num : Rat) / den := (rangeEnd_le_power hgt).trans hbelow
      exact iff_of_false (by omega) (not_lt.mpr hout)

end Rounding

section Range

/-- A fraction has a nearest number exactly when its magnitude lies in the range. -/
theorem ofRat?_isSome_iff (q : Rat) : (ofRat? q).isSome ↔ |q| < rangeEnd := by
  by_cases h : q = 0
  · have hpos : |q| < rangeEnd := by
      rw [h, abs_zero]
      exact (zpow_pos two_pos 0).trans (power_lt_rangeEnd (by omega))
    rw [ofRat?, if_pos h]
    exact iff_of_true rfl hpos
  · have hnum : 0 < q.num.natAbs := Int.natAbs_pos.mpr (Rat.num_ne_zero.mpr h)
    have habs : |q| = (q.num.natAbs : Rat) / q.den := by
      rw [Rat.abs_def, Rat.divInt_eq_div]
      simp
    rw [ofRat?, if_neg h, Option.isSome_map, bitsOf?_isSome_iff hnum q.den_pos, habs]

theorem parts?_bounds {v : Float} {m : Nat} {e : Int} (h : parts? v = some (m, e)) :
    m < 2 ^ 53 ∧ e ≤ 971 := by
  have hpow : Nat.pow 2 52 = 2 ^ 52 := rfl
  have hexponents : Nat.pow 2 11 = 2 ^ 11 := rfl
  unfold parts? at h
  rw [hpow, hexponents] at h
  have hfraction : v.toBits.toNat % 2 ^ 52 < 2 ^ 52 := Nat.mod_lt _ (by norm_num)
  have hbiased : v.toBits.toNat / 2 ^ 52 % 2 ^ 11 < 2 ^ 11 := Nat.mod_lt _ (by norm_num)
  generalize v.toBits.toNat % 2 ^ 52 = fraction at h hfraction
  generalize v.toBits.toNat / 2 ^ 52 % 2 ^ 11 = biased at h hbiased
  dsimp only at h
  split_ifs at h with hinfinite hsubnormal
  · cases h
    omega
  · cases h
    omega

theorem magnitude_eq (m : Nat) (e : Int) :
    (if 0 ≤ e then ((m * Nat.pow 2 e.toNat : Nat) : Rat) else mkRat m (Nat.pow 2 (-e).toNat)) =
      (m : Rat) * 2 ^ e := by
  split_ifs with h0
  · obtain ⟨k, rfl⟩ := Int.eq_ofNat_of_zero_le h0
    simp
  · obtain ⟨k, rfl⟩ : ∃ k : Nat, e = -k := ⟨(-e).toNat, by omega⟩
    simp [Rat.mkRat_eq_div, div_eq_mul_inv]

theorem toRat?_of_parts {v : Float} {m : Nat} {e : Int} (h : parts? v = some (m, e)) :
    toRat? v = some (if signBit v then -((m : Rat) * 2 ^ e) else (m : Rat) * 2 ^ e) := by
  simp only [toRat?, h, Option.map_some, magnitude_eq]

theorem toRat?_lt {v : Float} {q : Rat} (h : toRat? v = some q) : |q| < rangeEnd := by
  obtain ⟨⟨m, e⟩, hparts, -⟩ := Option.map_eq_some_iff.mp h
  obtain ⟨hm, he⟩ := parts?_bounds hparts
  have habs : |q| = m * 2 ^ e := by
    have hnonneg : (0 : Rat) ≤ m * 2 ^ e := by positivity
    rw [toRat?_of_parts hparts] at h
    obtain rfl := Option.some.inj h
    split_ifs
    · rw [abs_neg, abs_of_nonneg hnonneg]
    · rw [abs_of_nonneg hnonneg]
  have hm' : (m : Rat) ≤ 2 ^ 53 - 1 := by
    have hm1 : m + 1 ≤ 2 ^ 53 := hm
    have hcast : (m : Rat) + 1 ≤ 2 ^ 53 := by exact_mod_cast hm1
    linarith
  calc |q| = m * 2 ^ e := habs
    _ ≤ (2 ^ 53 - 1) * 2 ^ (971 : Int) := by
      gcongr
      exact one_le_two
    _ < rangeEnd := by
      rw [rangeEnd_eq]
      gcongr
      norm_num

end Range

end RuleAlgebra.Binary64
