import RuleAlgebra.Proofs.RootFactoring
import RuleAlgebra.Proofs.RootSearch
import RuleAlgebra.Proofs.Variables

/-!
Factoring an integer polynomial over its rational roots leaves no fraction. The linear factors are
primitive, so by Gauss's lemma what is left when they are divided out has integer coefficients.
-/

namespace RuleAlgebra

open RuleAlgebra.Traced

namespace Expr

/-- Every number in the expression is an integer. -/
def Integral (e : Expr Rat) : Prop := ∀ q, num q ∈ e.walk → ∃ n : Int, q = n

@[simp] theorem integral_var (x : String) : (var x : Expr Rat).Integral := by
  intro q hq
  simp [walk] at hq

@[simp] theorem integral_num {q : Rat} : (num q).Integral ↔ ∃ n : Int, q = n := by
  simp [Integral, walk]

@[simp] theorem integral_op {o : Arithmetic} {l r : Expr Rat} :
    (op o l r).Integral ↔ l.Integral ∧ r.Integral := by
  simp [Integral, walk, or_imp, forall_and]

theorem Integral.op {o : Arithmetic} {l r : Expr Rat} (hl : l.Integral) (hr : r.Integral) :
    (Expr.op o l r).Integral :=
  integral_op.mpr ⟨hl, hr⟩

@[simp] theorem integral_ofNat (n : Nat) : (ofNat n : Expr Rat).Integral :=
  integral_num.mpr ⟨n, by simp⟩

end Expr

namespace Term

open RuleAlgebra.Expr

def Integral (t : Term Rat) : Prop :=
  (∃ n : Int, t.coefficient.value = n) ∧ ∀ e ∈ t.rest, e.Integral

theorem product_integral {fs : List (Expr Rat)} (h : ∀ f ∈ fs, f.Integral) :
    (product fs).Integral := by
  have foldl (e : Expr Rat) (he : e.Integral) (fs : List (Expr Rat)) (h : ∀ f ∈ fs, f.Integral) :
      (fs.foldl (op .mul) e).Integral := by
    induction fs generalizing e with
    | nil => exact he
    | cons f fs ih =>
      obtain ⟨hf, hfs⟩ := List.forall_mem_cons.mp h
      exact ih _ (he.op hf) hfs
  cases fs with
  | nil => exact integral_ofNat 1
  | cons f fs =>
    obtain ⟨hf, hfs⟩ := List.forall_mem_cons.mp h
    exact foldl f hf fs hfs

theorem times_integral {v : Rat} {rest : Option (Expr Rat)} (hv : ∃ n : Int, v = n)
    (hrest : ∀ e ∈ rest, e.Integral) : (times v rest).Integral := by
  cases rest with
  | none => exact integral_num.mpr hv
  | some e =>
    have he : e.Integral := hrest e rfl
    unfold times
    split_ifs
    · exact he
    · exact Integral.op (integral_num.mpr hv) he

theorem toExpr_integral {t : Term Rat} (h : t.Integral) : Yields Expr.Integral t.toExpr := by
  obtain ⟨c, rest⟩ := t
  obtain ⟨⟨n, hn⟩, hrest⟩ := h
  cases c with
  | inexact v => exact times_integral ⟨n, hn⟩ hrest
  | exact q =>
    obtain rfl : q = n := hn
    simp only [toExpr, Rat.num_intCast, Rat.den_intCast, if_true, Coefficient.round_rat, ok_bind]
    exact times_integral ⟨n, rfl⟩ hrest

theorem addTo_integral {e : Expr Rat} {t : Term Rat} (he : e.Integral) (ht : t.Integral) :
    Yields Expr.Integral (addTo e t) := by
  unfold addTo
  split_ifs
  · have hneg : Integral { t with coefficient := t.coefficient.neg } := by
      obtain ⟨⟨n, hn⟩, hrest⟩ := ht
      exact ⟨⟨-n, by simp [hn]⟩, hrest⟩
    apply (toExpr_integral hneg).bind
    intro d hd
    exact he.op hd
  · apply (toExpr_integral ht).bind
    intro d hd
    exact he.op hd

theorem sum_integral {ts : List (Term Rat)} (h : ∀ t ∈ ts, t.Integral) :
    Yields Expr.Integral (sum ts) := by
  have hfilter : ∀ t ∈ ts.filter (!·.coefficient.isZero), t.Integral :=
    fun t ht => h t (List.mem_of_mem_filter ht)
  unfold sum
  split
  · exact integral_ofNat 0
  · rename_i t ts' heq
    rw [heq] at hfilter
    obtain ⟨ht, hts⟩ := List.forall_mem_cons.mp hfilter
    apply (toExpr_integral ht).bind
    intro e he
    exact outcome_foldlM he fun t ht e he => addTo_integral he (hts t ht)

end Term

namespace Roots

open Polynomial
open RuleAlgebra.Expr (Integral integral_var integral_num integral_ofNat)

section Gauss

noncomputable def linear (r : Rat) : ℤ[X] := C (r.den : ℤ) * X - C r.num

theorem isPrimitive_linear (r : Rat) : (linear r).IsPrimitive := by
  intro k hk
  rw [C_dvd_iff_dvd_coeff] at hk
  have hden : k ∣ (r.den : ℤ) := by
    have h := hk 1
    rwa [linear, coeff_sub, coeff_C_mul, coeff_X_one, mul_one, coeff_C_of_ne_zero one_ne_zero,
      sub_zero] at h
  have hnum : k ∣ r.num := by
    have h := hk 0
    rwa [linear, coeff_sub, coeff_C_mul, coeff_X_zero, mul_zero, coeff_C_zero, zero_sub,
      dvd_neg] at h
  have hcoprime : IsCoprime r.num r.den := Rat.isCoprime_num_den r
  exact hcoprime.isUnit_of_dvd' hnum hden

theorem isPrimitive_prod (roots : List Rat) : (roots.map linear).prod.IsPrimitive := by
  induction roots with
  | nil => exact isPrimitive_one
  | cons r roots ih =>
    rw [List.map_cons, List.prod_cons]
    exact (isPrimitive_linear r).mul ih

theorem map_linear (r : Rat) :
    (linear r).map (Int.castRingHom ℚ) = C (r.den : ℚ) * (X - C r) := by
  have hnum : (r.num : ℚ) = r.den * r := (Rat.den_mul_eq_num r).symm
  rw [linear, Polynomial.map_sub, Polynomial.map_mul, map_C, map_X, map_C,
    eq_intCast (Int.castRingHom ℚ), eq_intCast (Int.castRingHom ℚ), Int.cast_natCast, hnum, C_mul,
    mul_sub]

theorem map_prod_linear (roots : List Rat) :
    (roots.map linear).prod.map (Int.castRingHom ℚ) =
      C (roots.map fun r : Rat => (r.den : ℚ)).prod * (roots.map fun r => X - C r).prod := by
  induction roots with
  | nil => simp
  | cons r roots ih =>
    simp only [List.map_cons, List.prod_cons, Polynomial.map_mul, map_linear, ih, C_mul]
    ring

/-- The denominators of the roots divide what is left of an integer polynomial. -/
theorem rest_integers {coeffs : List Int} {roots rest : List Rat}
    (h : (ascending coeffs).map (Int.castRingHom ℚ) =
      (roots.map fun r => X - C r).prod * polynomial rest) :
    ∀ q ∈ rest.map (· / roots.foldl (fun s r => s * (r.den : Rat)) 1), ∃ n : Int, q = n := by
  set scale := roots.foldl (fun s r => s * (r.den : Rat)) 1 with hscale
  rw [foldl_den, one_mul] at hscale
  have hscale0 : scale ≠ 0 := by
    rw [hscale]
    apply List.prod_ne_zero
    simp
  have hsplit : (ascending coeffs).map (Int.castRingHom ℚ) =
      (roots.map linear).prod.map (Int.castRingHom ℚ) * polynomial (rest.map (· / scale)) := by
    have hcancel : C scale * C scale⁻¹ = (1 : ℚ[X]) := by
      rw [← C_mul, mul_inv_cancel₀ hscale0, C_1]
    rw [h, map_prod_linear, ← hscale, polynomial_map_div]
    linear_combination
      (-((roots.map fun r => X - C r).prod * polynomial rest)) * hcancel
  have hprimitive := isPrimitive_prod roots
  -- the quotient exists over the integers because it does over the fractions
  obtain ⟨quotient, hquotient⟩ : (roots.map linear).prod ∣ ascending coeffs := by
    rw [IsPrimitive.Int.dvd_iff_map_cast_dvd_map_cast _ _ hprimitive]
    exact ⟨_, hsplit⟩
  have hne : (roots.map linear).prod.map (Int.castRingHom ℚ) ≠ 0 := by
    rw [Polynomial.map_ne_zero_iff (Int.castRingHom ℚ).injective_int]
    exact hprimitive.ne_zero
  have hrest : polynomial (rest.map (· / scale)) = quotient.map (Int.castRingHom ℚ) := by
    apply mul_left_cancel₀ hne
    rw [← hsplit, hquotient, Polynomial.map_mul]
  intro q hq
  rw [← List.reverse_reverse (rest.map (· / scale)), polynomial_reverse] at hrest
  obtain ⟨i, hi, rfl⟩ := List.getElem_of_mem (List.mem_reverse.mpr hq)
  refine ⟨quotient.coeff i, ?_⟩
  rw [← eq_intCast (Int.castRingHom ℚ), ← coeff_map, ← hrest, coeff_ascending,
    List.getD_eq_getElem _ _ hi]

end Gauss

section Numbers

theorem powerOf_integral {e : Expr Rat} (he : e.Integral) (n : Nat) : (powerOf e n).Integral := by
  unfold powerOf
  split_ifs
  · exact he
  · exact he.op (integral_ofNat n)

theorem build_integral {asc : List Rat} (h : ∀ q ∈ asc, ∃ n : Int, q = n) (x : String) :
    Yields Integral (build asc x) := by
  apply Term.sum_integral
  intro t ht
  obtain ⟨⟨c, n⟩, hm, rfl⟩ := List.mem_map.mp (List.mem_reverse.mp ht)
  refine ⟨h c (List.fst_mem_of_mem_zipIdx hm), ?_⟩
  dsimp only
  split_ifs
  · simp
  · simpa using powerOf_integral (integral_var x) n

theorem linearFactor_integral (root : Rat) {e : Expr Rat} (he : e.Integral) :
    Yields Integral (linearFactor root e) := by
  have natural (n : Nat) : (Expr.num (n : Rat)).Integral := integral_num.mpr ⟨n, by simp⟩
  by_cases h0 : root = 0
  · rw [linearFactor, if_pos h0]
    exact he
  · rw [linearFactor, if_neg h0]
    have hlhs : (if root.den = 1 then e else .op .mul (.num (root.den : Rat)) e).Integral := by
      split_ifs
      · exact he
      · exact (natural _).op he
    change Integral (if root.num < 0 then _ else _)
    by_cases hneg : root.num < 0
    · rw [if_pos hneg]
      exact hlhs.op (natural _)
    · rw [if_neg hneg]
      exact hlhs.op (natural _)

theorem rootFactors_integral {e : Expr Rat} (he : e.Integral) (roots : List Rat) :
    Yields (∀ f ∈ ·, f.Integral) (rootFactors e roots) := by
  apply outcome_forall_mapM
  intro root _
  apply (linearFactor_integral root he).bind
  intro d hd
  dsimp only
  split_ifs
  · exact hd
  · exact hd.op (integral_ofNat _)

theorem factor_integral (coeffs : List Int) (x : String) :
    Yields (∀ d ∈ ·, d.Integral) (factor (coeffs.map (Int.cast : Int → Rat)) x) := by
  obtain ⟨hsorted, hprod⟩ := ofIntegers_spec (coeffs.map (Int.cast : Int → Rat))
  rw [polynomial_integers] at hprod
  obtain ⟨⟨roots, rest⟩, hfound⟩ :
    ∃ found, ofIntegers (coeffs.map (Int.cast : Int → Rat)) = found := ⟨_, rfl⟩
  rw [hfound] at hsorted hprod
  have hrest := rest_integers hprod
  obtain ⟨fs, hok, -⟩ :=
    rootFactors_spec (Interpretation.rational_powerLaws fun _ => 0) (Expr.defined_var _ x) hsorted
  have hfs := rootFactors_integral (integral_var x) roots
  rw [hok] at hfs
  obtain ⟨r, hr, -, hfactored⟩ := factor_factored hfound hok
  rw [hr]
  intro d hd
  generalize rest.map (· / roots.foldl (fun s r => s * (r.den : Rat)) 1) = left at hrest hfactored
  cases hfactored d hd with
  | linear => exact Term.product_integral hfs
  | constant c =>
    have hc : (Expr.num c).Integral := integral_num.mpr (hrest c (by simp))
    exact Term.product_integral (List.forall_mem_cons.mpr ⟨hc, hfs⟩)
  | remaining he =>
    have hleft : ∀ q ∈ left.reverse, ∃ n : Int, q = n :=
      fun q hq => hrest q (List.mem_reverse.mp hq)
    have hremaining := build_integral hleft x
    rw [he] at hremaining
    exact Term.product_integral
      (List.forall_mem_append.mpr ⟨hfs, List.forall_mem_singleton.mpr hremaining⟩)

theorem factor_eq_none {coeffs : List Rat} {x : String} :
    factor coeffs x = .ok none ↔ ∃ rest, rational coeffs = .ok ([], rest) := by
  obtain ⟨⟨roots, rest⟩, hfound⟩ : ∃ found, ofIntegers coeffs = found := ⟨_, rfl⟩
  have hsorted := (ofIntegers_spec coeffs).1
  rw [hfound] at hsorted
  obtain ⟨fs, hok, -⟩ :=
    rootFactors_spec (Interpretation.rational_powerLaws fun _ => 0) (Expr.defined_var _ x) hsorted
  obtain ⟨r, hr, hnone, -⟩ := factor_factored hfound hok
  rw [hr, Except.ok.injEq, hnone]
  simp [rational, exactValues_rat, hfound, pure, Except.pure]

/-- Factoring an integer polynomial over its rational roots never fails. It gives no expression
exactly when no rational root is found; otherwise an expression whose numbers are all integers and
which is evaluated, whatever the variables are, to the value of the polynomial. -/
theorem factor_integers (coeffs : List Int) (x : String) : ∃ r,
    factor (coeffs.map (Int.cast : Int → Rat)) x = .ok r ∧
      (r = none ↔ ∃ rest, rational (coeffs.map (Int.cast : Int → Rat)) = .ok ([], rest)) ∧
      ∀ d ∈ r, (∀ q, Expr.num q ∈ d.walk → ∃ n : Int, q = n) ∧
        ∀ ρ : String → Rat, d.evaluate (fun y => some (ρ y)) =
          .ok (aeval (ρ x) (ascending coeffs)) := by
  obtain ⟨r, hr, -⟩ := factor_spec (Interpretation.rational_powerLaws fun _ => 0)
    (coeffs.map (Int.cast : Int → Rat)) x
  have hintegral := factor_integral coeffs x
  rw [hr] at hintegral
  refine ⟨r, hr, ?_, fun d hd => ⟨hintegral d hd, fun ρ => ?_⟩⟩
  · rw [← factor_eq_none, hr, Except.ok.injEq]
  · obtain ⟨s, hs, hspec⟩ := factor_spec (Interpretation.rational_powerLaws ρ)
      (coeffs.map (Int.cast : Int → Rat)) x
    obtain rfl : r = s := Except.ok.inj (hr.symm.trans hs)
    obtain ⟨hdefined, hvalue⟩ := hspec d hd
    rw [Expr.evaluate_rational ρ hdefined, hvalue, polynomial_integers]
    exact congrArg Except.ok (aeval_map_algebraMap ℚ (ρ x) (ascending coeffs))

end Numbers

end Roots

end RuleAlgebra
