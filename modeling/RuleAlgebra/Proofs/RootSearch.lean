import RuleAlgebra.Proofs.RationalRoots
import RuleAlgebra.Proofs.ExactScalars

/-!
The search for rational roots misses none. Every rational root of an integer polynomial is among the
candidates, and a candidate is divided out until it is no longer a root, so what is left has no
rational root and each root is listed with its multiplicity.
-/

namespace RuleAlgebra.Roots

open Polynomial

section Divisors

theorem sqrtFrom_spec (n : Nat) {bits r : Nat} (hlow : r * r ≤ n)
    (hhigh : n < (r + 2 ^ bits) * (r + 2 ^ bits)) :
    sqrtFrom n bits r * sqrtFrom n bits r ≤ n ∧
      n < (sqrtFrom n bits r + 1) * (sqrtFrom n bits r + 1) := by
  induction bits generalizing r with
  | zero => exact ⟨hlow, by simpa [sqrtFrom] using hhigh⟩
  | succ bits ih =>
    have hpow : Nat.pow 2 bits = 2 ^ bits := rfl
    have hdouble : r + 2 ^ (bits + 1) = r + 2 ^ bits + 2 ^ bits := by
      rw [pow_succ]
      omega
    unfold sqrtFrom
    dsimp only
    rw [hpow]
    split_ifs with hnext
    · apply ih hnext
      rwa [← hdouble]
    · apply ih hlow
      exact not_le.mp hnext

theorem floorSqrt_eq_sqrt (n : Nat) : floorSqrt n = Nat.sqrt n := by
  have hhigh : n < (0 + 2 ^ (n.log2 / 2 + 1)) * (0 + 2 ^ (n.log2 / 2 + 1)) := by
    rw [zero_add, ← pow_add]
    apply Nat.lt_log2_self.trans_le
    apply Nat.pow_le_pow_right (by decide)
    omega
  obtain ⟨hle, hlt⟩ := sqrtFrom_spec n (Nat.zero_le _) hhigh
  exact Nat.eq_sqrt.mpr ⟨hle, hlt⟩

theorem mem_divisors {n d : Nat} (hn : n ≠ 0) : d ∈ divisors n ↔ d ∣ n := by
  have hmem : d ∈ divisors n ↔ (d ≤ Nat.sqrt n ∧ 0 < d ∧ d ∣ n) ∨
      ∃ k ≤ Nat.sqrt n, k * k ≠ n ∧ 0 < k ∧ k ∣ n ∧ n / k = d := by
    simp [divisors, floorSqrt_eq_sqrt, Nat.dvd_iff_mod_eq_zero, and_assoc]
  rw [hmem]
  constructor
  · rintro (⟨-, -, hd⟩ | ⟨k, -, -, -, hk, rfl⟩)
    · exact hd
    · exact Nat.div_dvd_of_dvd hk
  · intro hd
    have hpos : 0 < d := Nat.pos_of_dvd_of_pos hd (Nat.pos_of_ne_zero hn)
    by_cases hle : d ≤ Nat.sqrt n
    · exact Or.inl ⟨hle, hpos, hd⟩
    · -- a divisor above the root is the cofactor of one below it
      obtain ⟨k, rfl⟩ := hd
      have hk : 0 < k := Nat.pos_of_ne_zero fun h => hn (by simp [h])
      have hlt : k < d := by
        by_contra hdk
        apply hle
        rw [Nat.le_sqrt]
        exact Nat.mul_le_mul_left d (not_lt.mp hdk)
      have hroot : k ≤ Nat.sqrt (d * k) := by
        rw [Nat.le_sqrt]
        exact Nat.mul_le_mul_right k hlt.le
      have hne : k * k ≠ d * k := fun h => hlt.ne (Nat.eq_of_mul_eq_mul_right hk h)
      exact Or.inr ⟨k, hroot, hne, hk, Nat.dvd_mul_left k d, Nat.mul_div_cancel d hk⟩

theorem le_of_mem_divisors {n d : Nat} (h : d ∈ divisors n) : 0 < d ∧ d ≤ n := by
  by_cases hn : n = 0
  · subst hn
    simp [divisors, floorSqrt_eq_sqrt] at h
  · have hdvd := (mem_divisors hn).mp h
    have hpos := Nat.pos_of_ne_zero hn
    exact ⟨Nat.pos_of_dvd_of_pos hdvd hpos, Nat.le_of_dvd hpos hdvd⟩

theorem mem_candidates {lead const : Nat} {r : Rat} : r ∈ candidates lead const ↔
    ∃ p ∈ divisors const, ∃ q ∈ divisors lead, r = (p : Rat) / q ∨ r = -((p : Rat) / q) := by
  unfold candidates
  rw [(distinct_spec (List.pairwise_mergeSort' _ _)).2]
  simp only [List.mem_mergeSort, List.mem_append, List.mem_map, List.mem_flatMap,
    Rat.mkRat_eq_div, Int.cast_natCast]
  constructor
  · rintro (⟨p, hp, q, hq, rfl⟩ | ⟨_, ⟨p, hp, q, hq, rfl⟩, rfl⟩)
    · exact ⟨p, hp, q, hq, Or.inl rfl⟩
    · exact ⟨p, hp, q, hq, Or.inr rfl⟩
  · rintro ⟨p, hp, q, hq, rfl | rfl⟩
    · exact Or.inl ⟨p, hp, q, hq, rfl⟩
    · exact Or.inr ⟨_, ⟨p, hp, q, hq, rfl⟩, rfl⟩

theorem candidates_small {lead const : Nat} {r : Rat} (h : r ∈ candidates lead const) :
    r.num.natAbs ≤ const ∧ r.den ≤ lead := by
  obtain ⟨p, hp, q, hq, hr⟩ := mem_candidates.mp h
  obtain ⟨hp0, hpc⟩ := le_of_mem_divisors hp
  obtain ⟨hq0, hql⟩ := le_of_mem_divisors hq
  have hquotient : ((p : Rat) / q).num.natAbs ≤ p ∧ ((p : Rat) / q).den ≤ q := by
    have hfraction : (p : Rat) / q = Rat.divInt p q := by
      rw [Rat.divInt_eq_div, Int.cast_natCast, Int.cast_natCast]
    have hnum : ((p : Rat) / q).num ∣ (p : Int) := by
      rw [hfraction]
      exact Rat.num_dvd _ (by exact_mod_cast hq0.ne')
    have hden : (((p : Rat) / q).den : Int) ∣ (q : Int) := by
      rw [hfraction]
      exact Rat.den_dvd _ _
    constructor
    · exact Nat.le_of_dvd hp0 (Int.natAbs_dvd_natAbs.mpr hnum)
    · exact Nat.le_of_dvd hq0 (Int.natCast_dvd_natCast.mp hden)
  rcases hr with rfl | rfl
  · exact ⟨hquotient.1.trans hpc, hquotient.2.trans hql⟩
  · rw [Rat.num_neg_eq_neg_num, Int.natAbs_neg, Rat.den_neg_eq_den]
    exact ⟨hquotient.1.trans hpc, hquotient.2.trans hql⟩

end Divisors

section IntegerPolynomials

noncomputable def ascending {R : Type*} [CommRing R] : List R → R[X]
  | [] => 0
  | c :: cs => C c + X * ascending cs

theorem coeff_ascending {R : Type*} [CommRing R] (cs : List R) (i : Nat) :
    (ascending cs).coeff i = cs.getD i 0 := by
  induction cs generalizing i with
  | nil => simp [ascending]
  | cons c cs ih =>
    cases i with
    | zero => simp [ascending]
    | succ i =>
      rw [ascending, coeff_add, coeff_C_succ, zero_add, coeff_X_mul, ih]
      rfl

theorem polynomial_reverse (cs : List Rat) : polynomial cs.reverse = ascending cs := by
  induction cs with
  | nil => rfl
  | cons c cs ih =>
    rw [List.reverse_cons, polynomial_append_singleton, ih, ascending]
    ring

theorem polynomial_integers (cs : List Int) :
    polynomial (cs.map (Int.cast : Int → Rat)).reverse =
      (ascending cs).map (Int.castRingHom ℚ) := by
  rw [polynomial_reverse]
  induction cs with
  | nil => simp [ascending]
  | cons c cs ih => simp [ascending, ih]

theorem leadingCoeff_ascending {cs : List Int} {lead : Int} (h : cs.getLast? = some lead)
    (hlead : lead ≠ 0) : (ascending cs).leadingCoeff = lead := by
  have hcoeff : (ascending cs).coeff (cs.length - 1) = lead := by
    rw [coeff_ascending, List.getD_eq_getElem?_getD, ← List.getLast?_eq_getElem?, h]
    rfl
  have hle : (ascending cs).natDegree ≤ cs.length - 1 := by
    rw [natDegree_le_iff_coeff_eq_zero]
    intro i hi
    rw [coeff_ascending, List.getD_eq_default]
    omega
  have hdegree := natDegree_eq_of_le_of_coeff_ne_zero hle (by rwa [hcoeff])
  rw [leadingCoeff, hdegree, hcoeff]

/-- The rational root theorem: numerator and denominator divide the outer coefficients. -/
theorem mem_candidates_of_root {cs : List Int} {lead const : Int} (hlast : cs.getLast? = some lead)
    (hlead : lead ≠ 0) (hhead : cs.head? = some const) (hconst : const ≠ 0) {r : Rat}
    (hr : ((ascending cs).map (Int.castRingHom ℚ)).IsRoot r) :
    r ∈ candidates lead.natAbs const.natAbs := by
  have hroot : aeval r (ascending cs) = 0 := by
    rw [aeval_def, eval₂_eq_eval_map]
    exact hr
  have hnum : r.num ∣ const := by
    have h := num_dvd_of_is_root hroot
    rw [coeff_ascending, List.getD_eq_getElem?_getD, ← List.head?_eq_getElem?, hhead] at h
    exact (r.isFractionRingNum.symm.dvd).trans h
  have hden : (r.den : Int) ∣ lead := by
    have h := den_dvd_of_is_root hroot
    rw [leadingCoeff_ascending hlast hlead] at h
    rw [← r.isFractionRingDen]
    exact Int.natAbs_dvd.mpr h
  rw [mem_candidates]
  refine ⟨r.num.natAbs, (mem_divisors (Int.natAbs_ne_zero.mpr hconst)).mpr
    (Int.natAbs_dvd_natAbs.mpr hnum), r.den, (mem_divisors (Int.natAbs_ne_zero.mpr hlead)).mpr
    (Int.natCast_dvd.mp hden), ?_⟩
  rcases Int.natAbs_eq r.num with h | h
  · left
    have hcast : (r.num.natAbs : Rat) = r.num := by rw [← Int.cast_natCast, ← h]
    rw [hcast, r.num_div_den]
  · right
    have hcast : (r.num.natAbs : Rat) = -r.num := by
      rw [← Int.cast_natCast, ← Int.cast_neg]
      congr 1
      omega
    rw [hcast, neg_div, neg_neg, r.num_div_den]

end IntegerPolynomials

section Exhaustion

variable {desc : List Rat} {r : Rat}

theorem eval_divideOutAll (cs : List Rat) (h : (polynomial desc).eval r ≠ 0) :
    (polynomial (divideOutAll cs desc).2).eval r ≠ 0 := by
  rw [polynomial_divideOutAll cs desc, eval_mul] at h
  exact right_ne_zero_of_mul h

theorem length_hornerSteps (x acc : Rat) (cs : List Rat) :
    (hornerSteps x acc cs).length = cs.length + 1 := by
  induction cs generalizing acc with
  | nil => rfl
  | cons c cs ih => rw [hornerSteps, List.length_cons, ih, List.length_cons]

theorem length_deflate (root : Rat) (h : 1 < desc.length) :
    (deflate desc root).length = desc.length - 1 := by
  cases desc with
  | nil => simp at h
  | cons c cs =>
    rw [List.length_cons] at h ⊢
    rw [deflate, length_hornerSteps, List.length_dropLast]
    omega

theorem eval_of_short (h0 : polynomial desc ≠ 0) (h : ¬1 < desc.length) :
    (polynomial desc).eval r ≠ 0 := by
  match desc with
  | [] => simp at h0
  | [c] =>
    have hc : polynomial [c] = C c := by simp [polynomial]
    rw [hc] at h0 ⊢
    simpa using h0
  | _ :: _ :: _ => simp at h

theorem eval_divideOut (root : Rat) {fuel : Nat} (h0 : polynomial desc ≠ 0)
    (hfuel : desc.length ≤ fuel) :
    (polynomial (divideOut root fuel desc).2).eval root ≠ 0 := by
  induction fuel generalizing desc with
  | zero =>
    have hshort : ¬1 < desc.length := by omega
    exact eval_of_short h0 hshort
  | succ fuel ih =>
    unfold divideOut
    split_ifs with h
    · have hpoly := polynomial_deflate root h.1
      rw [h.2, C_0, add_zero] at hpoly
      apply ih
      · exact left_ne_zero_of_mul (hpoly ▸ h0)
      · rw [length_deflate root h.1]
        omega
    · by_cases hlength : 1 < desc.length
      · rw [← horner_eq_eval]
        exact fun hz => h ⟨hlength, hz⟩
      · exact eval_of_short h0 hlength

theorem eval_divideOutAll_of_mem {cs : List Rat} (h0 : polynomial desc ≠ 0) (hr : r ∈ cs) :
    (polynomial (divideOutAll cs desc).2).eval r ≠ 0 := by
  induction cs generalizing desc with
  | nil => simp at hr
  | cons c cs ih =>
    have hrest := polynomial_divideOut c desc.length desc
    have hne := right_ne_zero_of_mul (hrest ▸ h0)
    rcases List.mem_cons.mp hr with rfl | hr
    · exact eval_divideOutAll cs (eval_divideOut r h0 le_rfl)
    · exact ih hne hr

end Exhaustion

section Sizes

theorem divideOutAll_subset (cs desc : List Rat) : (divideOutAll cs desc).1 ⊆ cs := by
  induction cs generalizing desc with
  | nil => exact List.Subset.refl _
  | cons c cs ih =>
    intro r hr
    rcases List.mem_append.mp hr with hr | hr
    · exact List.mem_cons.mpr (Or.inl (List.eq_of_mem_replicate hr))
    · exact List.mem_cons_of_mem c (ih _ hr)

theorem ofIntegers_small (coeffs : List Rat) :
    ∀ r ∈ (ofIntegers coeffs).1, r.num.natAbs ≤ maxSearch ∧ r.den ≤ maxSearch := by
  have hzero (n : Nat) : ∀ r ∈ List.replicate n (0 : Rat),
      r.num.natAbs ≤ maxSearch ∧ r.den ≤ maxSearch := by
    intro r hr
    rw [List.eq_of_mem_replicate hr]
    exact ⟨Nat.zero_le _, by decide⟩
  obtain h | ⟨n, desc, -, h | ⟨lead, const, hlead, hconst, h⟩⟩ := ofIntegers_cases coeffs
  · simp [h]
  · rw [h]
    exact hzero n
  · rw [h]
    intro r hr
    rcases List.mem_append.mp (List.mem_mergeSort.mp hr) with hr | hr
    · exact hzero n r hr
    · obtain ⟨hnum, hden⟩ := candidates_small (divideOutAll_subset _ _ hr)
      omega

end Sizes

section Search

theorem splitZeros_reverse {qs : List Rat} {lead : Rat} (h : qs.getLast? = some lead)
    (hlead : lead ≠ 0) : splitZeros qs.reverse =
      ((qs.takeWhile (· = 0)).length, (qs.dropWhile (· = 0)).reverse) := by
  have hne : qs.dropWhile (· = 0) ≠ [] := by
    intro hnil
    rw [List.dropWhile_eq_nil_iff] at hnil
    exact hlead (by simpa using hnil lead (List.mem_of_getLast? h))
  have hpos := List.length_pos_iff.mpr hne
  have hsplit : qs.takeWhile (· = 0) ++ qs.dropWhile (· = 0) = qs :=
    List.takeWhile_append_dropWhile
  have hlength : (qs.takeWhile (· = 0)).length + (qs.dropWhile (· = 0)).length = qs.length := by
    rw [← List.length_append, hsplit]
  have hmin : min (qs.takeWhile (· = 0)).length (qs.length - 1) =
      (qs.takeWhile (· = 0)).length := Nat.min_eq_left (by omega)
  have hdrop : qs.drop (qs.takeWhile (· = 0)).length = qs.dropWhile (· = 0) := by
    have hleft : (qs.takeWhile (· = 0) ++ qs.dropWhile (· = 0)).drop
        (qs.takeWhile (· = 0)).length = qs.dropWhile (· = 0) := List.drop_left
    rwa [hsplit] at hleft
  simp only [splitZeros, List.reverse_reverse, List.length_reverse, hmin]
  rw [← List.reverse_drop, hdrop]

theorem getLast?_dropWhile {coeffs : List Int} {lead : Int} (h : coeffs.getLast? = some lead)
    (hlead : lead ≠ 0) : (coeffs.dropWhile (· = 0)).getLast? = some lead := by
  have hne : coeffs.dropWhile (· = 0) ≠ [] := by
    intro hnil
    rw [List.dropWhile_eq_nil_iff] at hnil
    exact hlead (by simpa using hnil lead (List.mem_of_getLast? h))
  rw [← List.getLast?_append_of_ne_nil (coeffs.takeWhile (· = 0)) hne,
    List.takeWhile_append_dropWhile, h]

/-- Coefficients that are small enough to be searched leave nothing with a rational root. -/
theorem ofIntegers_rest {coeffs : List Int} {lead low : Int} (hlast : coeffs.getLast? = some lead)
    (hlead : lead ≠ 0) (hlow : coeffs.find? (· ≠ 0) = some low)
    (hleadSmall : lead.natAbs ≤ maxSearch) (hlowSmall : low.natAbs ≤ maxSearch) (r : Rat) :
    (polynomial (ofIntegers (coeffs.map (Int.cast : Int → Rat))).2).eval r ≠ 0 := by
  let cs := coeffs.dropWhile (· = 0)
  have hcsLast : cs.getLast? = some lead := getLast?_dropWhile hlast hlead
  have hcsHead : cs.head? = some low := by
    rw [List.find?_eq_head?_dropWhile_not] at hlow
    simpa [cs] using hlow
  have hlow0 : low ≠ 0 := by simpa using List.find?_some hlow
  have hpoly : polynomial (cs.map (Int.cast : Int → Rat)).reverse =
      (ascending cs).map (Int.castRingHom ℚ) := polynomial_integers cs
  have hpoly0 : polynomial (cs.map (Int.cast : Int → Rat)).reverse ≠ 0 := by
    rw [hpoly, Polynomial.map_ne_zero_iff (Int.castRingHom ℚ).injective_int]
    intro hz
    have hc := leadingCoeff_ascending hcsLast hlead
    rw [hz, leadingCoeff_zero] at hc
    exact hlead hc.symm
  -- the search begins where the zeros at the lower end are split off
  have hsplit : splitZeros (coeffs.map (Int.cast : Int → Rat)).reverse =
      ((coeffs.map (Int.cast : Int → Rat)).takeWhile (· = 0) |>.length,
        (cs.map (Int.cast : Int → Rat)).reverse) := by
    have hlastCast : (coeffs.map (Int.cast : Int → Rat)).getLast? = some (lead : Rat) := by
      rw [List.getLast?_map, hlast]
      rfl
    rw [splitZeros_reverse hlastCast (by exact_mod_cast hlead), List.dropWhile_map]
    simp [cs, Function.comp_def]
  have hintegers : ((coeffs.map (Int.cast : Int → Rat)).reverse.isEmpty ||
      (coeffs.map (Int.cast : Int → Rat)).reverse.any (·.den != 1)) = false := by
    have hne : coeffs ≠ [] := by
      rintro rfl
      simp at hlast
    simp [hne]
  simp only [ofIntegers, hintegers, hsplit, List.head?_reverse, List.getLast?_reverse,
    List.getLast?_map, List.head?_map, hcsLast, hcsHead, Option.map_some, Rat.num_intCast,
    Bool.false_eq_true, if_false]
  split_ifs with hshort hlarge
  · exact eval_of_short hpoly0 (not_lt.mpr (Nat.lt_succ_iff.mp hshort))
  · omega
  · by_cases hroot : (polynomial (cs.map (Int.cast : Int → Rat)).reverse).eval r = 0
    · apply eval_divideOutAll_of_mem hpoly0
      rw [hpoly] at hroot
      exact mem_candidates_of_root hcsLast hlead hcsHead hlow0 hroot
    · exact eval_divideOutAll _ hroot

variable {α : Type} [Scalar α]

theorem exactValues_eq_ok {vs : List α} {qs : List Rat} (h : vs.map Scalar.toRat? = qs.map some) :
    exactValues vs = .ok qs := by
  rw [exactValues, mapM_eq_ok]
  induction vs generalizing qs with
  | nil =>
    obtain rfl : qs = [] := by simpa using h.symm
    exact .nil
  | cons v vs ih =>
    cases qs with
    | nil => simp at h
    | cons q qs =>
      obtain ⟨hv, hvs⟩ := List.cons.inj h
      exact .cons (by rw [hv]; rfl) (ih hvs)

/-- The search for the rational roots of an integer polynomial: the roots that are found are
ascending, and with what is left they make up the polynomial; when the outer coefficients are small
enough to be searched, every rational number is listed as often as it is a root, and what is left
has no rational root. -/
theorem rational_exact {vs : List α} {coeffs : List Int} {lead : Int}
    (hvs : vs.map Scalar.toRat? = coeffs.map fun n : Int => some (n : Rat))
    (hlast : coeffs.getLast? = some lead) (hlead : lead ≠ 0) :
    ∃ roots rest, rational vs = .ok (roots, rest) ∧ roots.Pairwise (· ≤ ·) ∧
      (ascending coeffs).map (Int.castRingHom ℚ) =
        (roots.map fun r => X - C r).prod * polynomial rest ∧
      (lead.natAbs ≤ maxSearch → (∀ low ∈ coeffs.find? (· ≠ 0), low.natAbs ≤ maxSearch) →
        (∀ r, roots.count r =
          ((ascending coeffs).map (Int.castRingHom ℚ)).rootMultiplicity r) ∧
        ∀ r, ¬(polynomial rest).IsRoot r) := by
  obtain ⟨hsorted, hprod⟩ := ofIntegers_spec (coeffs.map (Int.cast : Int → Rat))
  have hvalues : exactValues vs = .ok (coeffs.map (Int.cast : Int → Rat)) := by
    apply exactValues_eq_ok
    rw [hvs, List.map_map]
    rfl
  rw [polynomial_integers] at hprod
  refine ⟨_, _, by rw [rational, hvalues]; rfl, hsorted, hprod, fun hleadSmall hlowSmall => ?_⟩
  obtain ⟨low, hlow⟩ : ∃ low, coeffs.find? (· ≠ 0) = some low := by
    rw [← Option.isSome_iff_exists, List.find?_isSome]
    exact ⟨lead, List.mem_of_getLast? hlast, by simpa using hlead⟩
  have hrest := ofIntegers_rest hlast hlead hlow hleadSmall (hlowSmall low hlow)
  refine ⟨fun r => ?_, hrest⟩
  set rest := (ofIntegers (coeffs.map (Int.cast : Int → Rat))).2
  set roots := (ofIntegers (coeffs.map (Int.cast : Int → Rat))).1
  have hrest0 : polynomial rest ≠ 0 := fun hz => hrest 0 (by rw [hz, eval_zero])
  have hrestRoots : (polynomial rest).roots = 0 :=
    Multiset.eq_zero_of_forall_notMem fun r hr => hrest r (isRoot_of_mem_roots hr)
  have hlinear : (roots.map fun r => X - C r).prod.roots = (roots : Multiset ℚ) := by
    rw [← Multiset.prod_coe, ← Multiset.map_coe, roots_multiset_prod_X_sub_C]
  have hlinear0 : (roots.map fun r => X - C r).prod ≠ 0 := by
    apply List.prod_ne_zero
    simp [X_sub_C_ne_zero]
  rw [← count_roots, hprod, roots_mul (mul_ne_zero hlinear0 hrest0), hlinear, hrestRoots, add_zero,
    Multiset.coe_count]

/-- Two thirds of the roots of `2x³ - 3x²` are zero. -/
theorem rational_exact_of_double_zero :
    ([0, 0, -3, 2] : List Rat).map Scalar.toRat? =
        ([0, 0, -3, 2] : List Int).map (fun n : Int => some (n : Rat)) ∧
      ∃ roots rest, rational ([0, 0, -3, 2] : List Rat) = .ok (roots, rest) ∧
        (∀ r, roots.count r =
          ((ascending [0, 0, -3, 2]).map (Int.castRingHom ℚ)).rootMultiplicity r) ∧
        ∀ r, ¬(polynomial rest).IsRoot r := by
  have hvs : ([0, 0, -3, 2] : List Rat).map Scalar.toRat? =
      ([0, 0, -3, 2] : List Int).map (fun n : Int => some (n : Rat)) := rfl
  obtain ⟨roots, rest, hrational, -, -, hcomplete⟩ :=
    rational_exact hvs rfl (by decide : (2 : Int) ≠ 0)
  refine ⟨hvs, roots, rest, hrational, hcomplete (by decide) ?_⟩
  intro low hlow
  obtain rfl : (-3 : Int) = low := by simpa using hlow
  decide

end Search

end RuleAlgebra.Roots
