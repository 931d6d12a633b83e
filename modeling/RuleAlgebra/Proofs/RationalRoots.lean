import Mathlib
import RuleAlgebra.Polynomial.Roots

/-!
Coefficient lists as polynomials. Horner's scheme evaluates them, deflating divides by a linear
factor, and the roots that are found come with what is left when they are divided out.
-/

namespace RuleAlgebra.Roots

open Polynomial

section Coefficients

noncomputable def polynomial (desc : List Rat) : ℚ[X] :=
  desc.foldl (fun p c => p * X + C c) 0

@[simp] theorem polynomial_nil : polynomial [] = 0 := rfl

theorem polynomial_append_singleton (desc : List Rat) (c : Rat) :
    polynomial (desc ++ [c]) = polynomial desc * X + C c := by
  simp [polynomial, List.foldl_append]

theorem polynomial_append_zeros (desc : List Rat) (n : Nat) :
    polynomial (desc ++ List.replicate n 0) = polynomial desc * X ^ n := by
  induction n with
  | zero => simp
  | succ n ih =>
    rw [List.replicate_succ', ← List.append_assoc, polynomial_append_singleton, ih, pow_succ]
    simp [mul_assoc]

theorem horner_eq_eval (desc : List Rat) (x : Rat) : horner desc x = (polynomial desc).eval x := by
  have step (v : Rat) (p : ℚ[X]) (hv : v = p.eval x) :
      desc.foldl (fun v c => v * x + c) v =
        (desc.foldl (fun p c => p * X + C c) p).eval x := by
    induction desc generalizing v p with
    | nil => exact hv
    | cons c desc ih => exact ih _ _ (by simp [hv])
  exact step 0 0 (by simp)

theorem polynomial_map_div (desc : List Rat) (s : Rat) :
    polynomial (desc.map (· / s)) = polynomial desc * C s⁻¹ := by
  have step (p q : ℚ[X]) (hp : q = p * C s⁻¹) :
      (desc.map (· / s)).foldl (fun p c => p * X + C c) q =
        desc.foldl (fun p c => p * X + C c) p * C s⁻¹ := by
    induction desc generalizing p q with
    | nil => exact hp
    | cons c desc ih =>
      refine ih _ _ ?_
      simp only [hp, div_eq_mul_inv, C_mul]
      ring
  exact step 0 0 (by simp)

end Coefficients

section Deflation

theorem hornerSteps_dropLast (x acc : Rat) {cs : List Rat} (h : cs ≠ []) :
    hornerSteps x acc cs.dropLast = (hornerSteps x acc cs).dropLast := by
  induction cs generalizing acc with
  | nil => exact absurd rfl h
  | cons c cs ih =>
    cases cs with
    | nil => rfl
    | cons d cs =>
      rw [List.dropLast_cons_of_ne_nil (by simp), hornerSteps, ih _ (by simp)]
      rfl

theorem hornerSteps_ne_nil (x acc : Rat) (cs : List Rat) : hornerSteps x acc cs ≠ [] := by
  cases cs <;> simp [hornerSteps]

/-- One invariant carries Horner's scheme: the quotient so far times the divisor, plus the running
value, is the polynomial so far. -/
theorem foldl_hornerSteps (x acc : Rat) (cs : List Rat) (p : ℚ[X]) :
    cs.foldl (fun p c => p * X + C c) (p * (X - C x) + C acc) =
      (hornerSteps x acc cs).dropLast.foldl (fun p c => p * X + C c) p * (X - C x) +
        C (cs.foldl (fun v c => v * x + c) acc) := by
  induction cs generalizing acc p with
  | nil => rfl
  | cons c cs ih =>
    have hstep : (p * (X - C x) + C acc) * X + C c =
        (p * X + C acc) * (X - C x) + C (acc * x + c) := by
      rw [C_add, C_mul]
      ring
    rw [List.foldl_cons, hstep, ih, hornerSteps,
      List.dropLast_cons_of_ne_nil (hornerSteps_ne_nil x _ cs)]
    rfl

theorem polynomial_deflate {desc : List Rat} (x : Rat) (h : 1 < desc.length) :
    polynomial desc = polynomial (deflate desc x) * (X - C x) + C (horner desc x) := by
  cases desc with
  | nil => simp at h
  | cons c cs =>
    have hcs : cs ≠ [] := by
      rintro rfl
      simp at h
    have key := foldl_hornerSteps x c cs 0
    rw [zero_mul, zero_add] at key
    rw [deflate, hornerSteps_dropLast x c hcs]
    simpa [polynomial, horner] using key

theorem polynomial_divideOut (root : Rat) (fuel : Nat) (desc : List Rat) :
    polynomial desc =
      (X - C root) ^ (divideOut root fuel desc).1 * polynomial (divideOut root fuel desc).2 := by
  fun_induction divideOut root fuel desc with
  | case1 desc => simp
  | case2 fuel desc h n rest hr ih =>
    rw [polynomial_deflate root h.1, h.2, C_0, add_zero, ih, hr, pow_succ]
    ring
  | case3 fuel desc h => simp

theorem polynomial_divideOutAll (candidates desc : List Rat) :
    polynomial desc = ((divideOutAll candidates desc).1.map fun r => X - C r).prod *
      polynomial (divideOutAll candidates desc).2 := by
  induction candidates generalizing desc with
  | nil => simp [divideOutAll]
  | cons c cs ih =>
    rw [polynomial_divideOut c desc.length desc, ih]
    simp [divideOutAll, mul_assoc]

theorem polynomial_splitZeros (desc : List Rat) :
    polynomial desc = polynomial (splitZeros desc).2 * X ^ (splitZeros desc).1 := by
  set n := (splitZeros desc).1 with hn
  have hle : n ≤ (desc.reverse.takeWhile (· = 0)).length := Nat.min_le_left _ _
  have htail : desc.drop (desc.length - n) = List.replicate n 0 := by
    have hrev : desc.drop (desc.length - n) = (desc.reverse.take n).reverse := by
      rw [List.reverse_take, List.reverse_reverse, List.length_reverse]
    have hprefix := (List.takeWhile_prefix (· = (0 : Rat)) (l := desc.reverse)).length_le
    have hlen : n ≤ desc.length := hle.trans (by simpa using hprefix)
    rw [hrev, List.eq_replicate_iff]
    refine ⟨by simpa using hlen, fun c hc => ?_⟩
    have hpre : desc.reverse.take n <+: desc.reverse.takeWhile (· = 0) :=
      List.prefix_of_prefix_length_le (List.take_prefix _ _) (List.takeWhile_prefix _)
        ((List.length_take_le _ _).trans hle)
    simpa using List.mem_takeWhile_imp (hpre.subset (List.mem_reverse.mp hc))
  have hsplit : desc = (splitZeros desc).2 ++ List.replicate n 0 := by
    rw [← htail]
    exact (List.take_append_drop _ _).symm
  conv_lhs => rw [hsplit]
  exact polynomial_append_zeros _ n

theorem ofIntegers_cases (coeffs : List Rat) :
    ofIntegers coeffs = ([], coeffs.reverse) ∨ ∃ n desc, splitZeros coeffs.reverse = (n, desc) ∧
      (ofIntegers coeffs = (List.replicate n 0, desc) ∨ ∃ lead const, lead ≤ maxSearch ∧
        const ≤ maxSearch ∧ ofIntegers coeffs =
          ((List.replicate n 0 ++ (divideOutAll (candidates lead const) desc).1).mergeSort (· ≤ ·),
            (divideOutAll (candidates lead const) desc).2)) := by
  unfold ofIntegers
  dsimp only
  split
  · exact Or.inl rfl
  · refine Or.inr ⟨_, _, rfl, ?_⟩
    split
    · rename_i lead const _ _
      split_ifs with hshort hlarge
      · exact Or.inl rfl
      · exact Or.inl rfl
      · obtain ⟨hlead, hconst⟩ := not_or.mp hlarge
        exact Or.inr ⟨_, _, not_lt.mp hlead, not_lt.mp hconst, rfl⟩
    · exact Or.inl rfl

/-- The roots are ascending, and with what is left they make up the polynomial. -/
theorem ofIntegers_spec (coeffs : List Rat) :
    (ofIntegers coeffs).1.Pairwise (· ≤ ·) ∧ polynomial coeffs.reverse =
      ((ofIntegers coeffs).1.map fun r => X - C r).prod * polynomial (ofIntegers coeffs).2 := by
  obtain h | ⟨n, desc, hsplit, hfound⟩ := ofIntegers_cases coeffs
  · simp [h]
  · have hpow : polynomial coeffs.reverse =
        ((List.replicate n (0 : Rat)).map fun r => X - C r).prod * polynomial desc := by
      rw [polynomial_splitZeros, hsplit]
      simp [mul_comm]
    obtain h | ⟨lead, const, -, -, h⟩ := hfound
    · rw [h]
      exact ⟨by simp [List.pairwise_replicate], hpow⟩
    · rw [h]
      refine ⟨List.pairwise_mergeSort' _ _, ?_⟩
      rw [((List.mergeSort_perm _ _).map _).prod_eq, List.map_append, List.prod_append, mul_assoc,
        ← polynomial_divideOutAll]
      exact hpow

end Deflation

section Distinct

theorem distinct_cons (q : Rat) (l : List Rat) :
    distinct (q :: l) = if (distinct l).head? = some q then distinct l else q :: distinct l := rfl

theorem distinct_spec {l : List Rat} (hl : l.Pairwise (· ≤ ·)) :
    (distinct l).Pairwise (· < ·) ∧ ∀ q, q ∈ distinct l ↔ q ∈ l := by
  induction l with
  | nil => exact ⟨List.Pairwise.nil, fun q => Iff.rfl⟩
  | cons q l ih =>
    obtain ⟨hq, hl'⟩ := List.pairwise_cons.mp hl
    obtain ⟨hlt, hmem⟩ := ih hl'
    rw [distinct_cons]
    split_ifs with hhead
    · refine ⟨hlt, fun r => ?_⟩
      have hql : q ∈ l := (hmem q).mp (List.mem_of_mem_head? hhead)
      simp only [hmem, List.mem_cons]
      exact ⟨Or.inr, fun h => h.elim (fun he => he ▸ hql) id⟩
    · refine ⟨List.pairwise_cons.mpr ⟨fun r hr => ?_, hlt⟩, fun r => by simp [hmem]⟩
      refine lt_of_le_of_ne (hq r ((hmem r).mp hr)) ?_
      rintro rfl
      -- an element that is no larger than any other one comes first
      cases hd : distinct l with
      | nil => simp [hd] at hr
      | cons s rest =>
        rw [hd] at hr hlt hhead
        rcases List.mem_cons.mp hr with rfl | hrest
        · simp at hhead
        · have hs : q ≤ s := hq s ((hmem s).mp (by simp [hd]))
          exact absurd ((List.pairwise_cons.mp hlt).1 q hrest) (not_lt.mpr hs)

theorem prod_distinct {M : Type*} [CommMonoid M] (f : Rat → M) {roots : List Rat}
    (hr : roots.Pairwise (· ≤ ·)) :
    ((distinct roots).map fun r => f r ^ roots.countP (· = r)).prod = (roots.map f).prod := by
  obtain ⟨hlt, hmem⟩ := distinct_spec hr
  have hnodup : (distinct roots).Nodup := hlt.imp ne_of_lt
  have hset : (distinct roots).toFinset = roots.toFinset := by
    ext q
    simp [hmem]
  rw [Finset.prod_list_map_count roots f, ← hset, List.prod_toFinset _ hnodup]
  refine congrArg List.prod (List.map_congr_left fun r _ => ?_)
  simp [List.count_eq_countP, Bool.beq_eq_decide_eq]

end Distinct

end RuleAlgebra.Roots
