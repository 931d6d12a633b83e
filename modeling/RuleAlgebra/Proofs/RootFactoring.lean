import RuleAlgebra.Proofs.ExactEvaluation
import RuleAlgebra.Proofs.RationalRoots
import RuleAlgebra.Proofs.SparsePolynomials
import RuleAlgebra.Rules.Factoring

/-!
Factoring a polynomial over its rational roots keeps the value of the polynomial.
-/

namespace RuleAlgebra.Roots

open Polynomial (aeval aeval_X aeval_C)
open RuleAlgebra.Expr

variable {K : Type*} [Field K] [CharZero K] {I : Interpretation K}

section Building

theorem powerOf_eval (hI : I.PowerLaws) (e : Expr Rat) (n : Nat) :
    (powerOf e n).eval I = e.eval I ^ n := by
  unfold powerOf
  split_ifs with hn
  · rw [hn, pow_one]
  · rw [eval_pow, eval_ofNat, (hI.nat _ n).2]

theorem powerOf_defined (hI : I.PowerLaws) {e : Expr Rat} (he : e.Defined I) (n : Nat) :
    (powerOf e n).Defined I := by
  unfold powerOf
  split_ifs
  · exact he
  · rw [defined_pow, eval_ofNat]
    exact ⟨⟨he, defined_ofNat I n⟩, (hI.nat _ n).1⟩

def monomial (x : String) (c : Rat) (n : Nat) : Term Rat :=
  ⟨.inexact c, if n = 0 then none else some (powerOf (.var x) n)⟩

theorem monomial_eval (hI : I.PowerLaws) (x : String) (c : Rat) (n : Nat) :
    (monomial x c n).eval I = c * I.assign x ^ n := by
  unfold monomial Term.eval
  split_ifs with hn
  · simp [hn, Term.restEval]
  · simp [Term.restEval, powerOf_eval hI]

theorem monomial_defined (hI : I.PowerLaws) (x : String) (c : Rat) (n : Nat) :
    (monomial x c n).Defined I := by
  unfold monomial Term.Defined
  split_ifs
  · trivial
  · exact powerOf_defined hI (defined_var I x) n

theorem total_monomials (hI : I.PowerLaws) (x : String) (asc : List Rat) (k : Nat) :
    Term.total I ((asc.zipIdx k).map fun (c, n) => monomial x c n) =
      aeval (I.assign x) (polynomial asc.reverse) * I.assign x ^ k := by
  induction asc generalizing k with
  | nil => simp
  | cons c asc ih =>
    rw [List.zipIdx_cons, List.map_cons, Term.total_cons, ih, monomial_eval hI, List.reverse_cons,
      polynomial_append_singleton]
    simp only [map_add, map_mul, aeval_X, aeval_C, eq_ratCast, pow_succ]
    ring

theorem build_spec (hI : I.PowerLaws) (x : String) (asc : List Rat) : ∃ e,
    build asc x = .ok e ∧ e.Defined I ∧
      e.eval I = aeval (I.assign x) (polynomial asc.reverse) := by
  obtain ⟨e, he, hv, hd⟩ :=
    Term.sum_spec I ((asc.zipIdx.map fun (c, n) => monomial x c n).reverse)
  refine ⟨e, he, hd fun t ht => ?_, ?_⟩
  · obtain ⟨m, -, rfl⟩ := List.mem_map.mp (List.mem_reverse.mp ht)
    exact monomial_defined hI x m.1 m.2
  · rw [hv, Term.total, List.map_reverse, List.sum_reverse, ← Term.total, total_monomials hI,
      pow_zero, mul_one]

end Building

section Factors

theorem den_mul_sub (root : Rat) (u : K) :
    (root.den : K) * (u - root) = root.den * u - root.num := by
  have h : (root.den : K) * (root : K) = root.num := by
    exact_mod_cast congrArg (Rat.cast (K := K)) (Rat.den_mul_eq_num root)
  rw [mul_sub, h]

theorem linearFactor_spec (root : Rat) {e : Expr Rat} (he : e.Defined I) : ∃ d,
    linearFactor root e = .ok d ∧ d.Defined I ∧
      d.eval I = (root.den : K) * (e.eval I - root) := by
  by_cases h0 : root = 0
  · exact ⟨e, by simp [linearFactor, h0]; rfl, he, by simp [h0]⟩
  · let lhs := if root.den = 1 then e else .op .mul (num root.den) e
    have hlhs : lhs.Defined I ∧ lhs.eval I = (root.den : K) * e.eval I := by
      unfold lhs
      split_ifs with hd
      · simp [hd, he]
      · simp [he]
    refine ⟨if root.num < 0 then .op .add lhs (num root.num.natAbs)
      else .op .sub lhs (num root.num.natAbs), by simp [linearFactor, h0, Expr.ofRat?]; rfl, ?_⟩
    rw [den_mul_sub]
    split_ifs with hneg
    · have habs : ((root.num.natAbs : Rat) : K) = -root.num := by
        rw [Rat.cast_natCast, ← Int.cast_natCast, Int.ofNat_natAbs_of_nonpos hneg.le, Int.cast_neg]
      exact ⟨by simp [hlhs.1], by rw [eval_add, hlhs.2, eval_num, habs, sub_eq_add_neg]⟩
    · have habs : ((root.num.natAbs : Rat) : K) = root.num := by
        rw [Rat.cast_natCast, ← Int.cast_natCast, Int.natAbs_of_nonneg (not_lt.mp hneg)]
      exact ⟨by simp [hlhs.1], by rw [eval_sub, hlhs.2, eval_num, habs]⟩

theorem rootFactors_ok {α : Type} [Scalar α] {P : Rat → Expr α → Prop} {e : Expr α}
    {roots : List Rat} (h : ∀ root ∈ distinct roots, ∃ d, linearFactor root e = .ok d ∧ P root d) :
    ∃ fs, rootFactors e roots = .ok fs ∧ List.Forall₂ (fun root f => ∃ d, P root d ∧
      f = if roots.countP (· = root) = 1 then d
        else .op .pow d (ofNat (roots.countP (· = root)))) (distinct roots) fs := by
  apply mapM_ok
  intro root hroot
  obtain ⟨d, hd, hP⟩ := h root hroot
  exact ⟨_, by rw [hd]; rfl, d, hP, rfl⟩

theorem rootFactors_spec (hI : I.PowerLaws) {e : Expr Rat} (he : e.Defined I) {roots : List Rat}
    (hr : roots.Pairwise (· ≤ ·)) : ∃ fs, rootFactors e roots = .ok fs ∧
      (∀ f ∈ fs, f.Defined I) ∧
      (fs.map (Expr.eval I)).prod =
        (roots.map fun r : Rat => (r.den : K) * (e.eval I - r)).prod := by
  have each : ∀ root ∈ distinct roots, ∃ d, linearFactor root e = .ok d ∧ d.Defined I ∧
      d.eval I = (root.den : K) * (e.eval I - root) :=
    fun root _ => linearFactor_spec root he
  obtain ⟨fs, hfs, hall⟩ := rootFactors_ok each
  have hspec : List.Forall₂ (fun root f => f.Defined I ∧
      f.eval I = ((root.den : K) * (e.eval I - root)) ^ roots.countP (· = root))
      (distinct roots) fs := by
    refine hall.imp fun root f hf => ?_
    obtain ⟨d, ⟨dd, dv⟩, rfl⟩ := hf
    split_ifs with hn
    · exact ⟨dd, by rw [dv, hn, pow_one]⟩
    · rw [defined_pow, eval_pow, eval_ofNat, (hI.nat _ _).2]
      exact ⟨⟨⟨dd, defined_ofNat I _⟩, (hI.nat _ _).1⟩, congrArg (· ^ _) dv⟩
  refine ⟨fs, hfs, forall_mem_of_forall₂ hspec fun _ _ h => h.1, ?_⟩
  rw [← prod_distinct _ hr, map_eq_of_forall₂ hspec fun _ _ h => h.2]

theorem foldl_den (roots : List Rat) (s : Rat) :
    roots.foldl (fun s r => s * (r.den : Rat)) s =
      s * (roots.map fun r : Rat => (r.den : Rat)).prod := by
  induction roots generalizing s with
  | nil => simp
  | cons r roots ih => rw [List.foldl_cons, ih, List.map_cons, List.prod_cons, mul_assoc]

theorem prod_linear (roots : List Rat) (u : K) :
    (roots.map fun r : Rat => (r.den : K) * (u - r)).prod =
      ((roots.map fun r : Rat => (r.den : Rat)).prod : Rat) *
        aeval u (roots.map fun r => Polynomial.X - Polynomial.C r).prod := by
  induction roots with
  | nil => simp
  | cons r roots ih =>
    simp only [List.map_cons, List.prod_cons, ih, map_mul, map_sub, aeval_X, aeval_C, eq_ratCast]
    push_cast
    ring

/-- The linear factors have integer coefficients, which the division of what is left makes up
for. -/
theorem prod_linear_mul (roots rest : List Rat) (u : K) :
    (roots.map fun r : Rat => (r.den : K) * (u - r)).prod *
        aeval u (polynomial (rest.map (· / roots.foldl (fun s r => s * (r.den : Rat)) 1))) =
      aeval u ((roots.map fun r => Polynomial.X - Polynomial.C r).prod * polynomial rest) := by
  have hscale : (roots.map fun r : Rat => (r.den : Rat)).prod ≠ 0 := by
    refine List.prod_ne_zero ?_
    simp
  have hscaleK : (((roots.map fun r : Rat => (r.den : Rat)).prod : Rat) : K) ≠ 0 :=
    Rat.cast_ne_zero.mpr hscale
  rw [foldl_den, one_mul, polynomial_map_div, prod_linear]
  simp only [map_mul, aeval_C, eq_ratCast, Rat.cast_inv]
  field_simp

theorem aeval_polynomial_reverse (u : K) (asc : List Rat) :
    aeval u (polynomial asc.reverse) = ascendingValue u (asc.map fun v : Rat => (v : K)) := by
  induction asc with
  | nil => simp [ascendingValue]
  | cons v asc ih =>
    rw [List.reverse_cons, polynomial_append_singleton, map_add, map_mul, ih, aeval_X, aeval_C,
      eq_ratCast, List.map_cons, ascendingValue_cons]
    ring

theorem exactValues_rat (coeffs : List Rat) : exactValues coeffs = .ok coeffs := by
  have h : exactValues coeffs = coeffs.mapM fun v => (pure v : Except Failure Rat) := rfl
  rw [h, List.mapM_pure, List.map_id']
  rfl

theorem mapM_round (qs : List Rat) :
    qs.mapM (fun q => (Coefficient.round q : Except Failure Rat)) = .ok qs := by
  simp only [Coefficient.round_rat]
  exact exactValues_rat qs

/-- A product over the linear factors `fs`: alone when one is left, else with the constant that is
left in front or the polynomial that is left at the end. -/
inductive Factored (x : String) (fs : List (Expr Rat)) : (left : List Rat) → Expr Rat → Prop
  | linear : Factored x fs [1] (Term.product fs)
  | constant (c : Rat) : Factored x fs [c] (Term.product (num c :: fs))
  | remaining {left : List Rat} {e : Expr Rat} (he : build left.reverse x = .ok e) :
    Factored x fs left (Term.product (fs ++ [e]))

theorem factor_factored {coeffs roots rest : List Rat} {x : String} {fs : List (Expr Rat)}
    (hfound : ofIntegers coeffs = (roots, rest)) (hfs : rootFactors (.var x) roots = .ok fs) :
    ∃ r, factor coeffs x = .ok r ∧ (r = none ↔ roots = []) ∧ ∀ d ∈ r,
      Factored x fs (rest.map (· / roots.foldl (fun s r => s * (r.den : Rat)) 1)) d := by
  simp only [factor, rational, exactValues_rat, ok_bind, pure_bind, hfound, hfs]
  generalize rest.map (· / roots.foldl (fun s r => s * (r.den : Rat)) 1) = left
  cases roots with
  | nil => exact ⟨none, rfl, by simp⟩
  | cons root roots =>
    simp only [List.isEmpty_cons, Bool.false_eq_true, if_false, reduceCtorEq, iff_false]
    split
    · rename_i c
      split_ifs with h1
      · subst h1
        exact ⟨_, rfl, by simp, by simpa using .linear⟩
      · exact ⟨_, rfl, by simp, by simpa [Expr.ofRat?] using .constant c⟩
    · obtain ⟨e, he⟩ : ∃ e, build left.reverse x = .ok e := ⟨_, Term.sum_rat _⟩
      simp only [mapM_round, ok_bind, he]
      exact ⟨_, rfl, by simp, by simpa using .remaining he⟩

theorem factor_spec (hI : I.PowerLaws) (coeffs : List Rat) (x : String) : ∃ r,
    factor coeffs x = .ok r ∧ ∀ d ∈ r, d.Defined I ∧
      d.eval I = aeval (I.assign x) (polynomial coeffs.reverse) := by
  obtain ⟨hsorted, hpoly⟩ := ofIntegers_spec coeffs
  obtain ⟨⟨roots, rest⟩, hfound⟩ : ∃ found, ofIntegers coeffs = found := ⟨_, rfl⟩
  rw [hfound] at hsorted hpoly
  dsimp only at hsorted hpoly
  obtain ⟨fs, hfs, dfs, vfs⟩ := rootFactors_spec hI (defined_var I x) hsorted
  rw [eval_var] at vfs
  obtain ⟨r, hr, -, hfactored⟩ := factor_factored hfound hfs
  refine ⟨r, hr, fun d hd => ?_⟩
  -- what is left is divided by the denominators that the linear factors are scaled by
  have hprod := prod_linear_mul roots rest (I.assign x)
  rw [← hpoly, ← vfs] at hprod
  have hconstant (c : Rat) : aeval (I.assign x) (polynomial [c]) = (c : K) := by simp [polynomial]
  generalize rest.map (· / roots.foldl (fun s r => s * (r.den : Rat)) 1) = left at hprod hfactored
  cases hfactored d hd with
  | linear =>
    rw [hconstant, Rat.cast_one, mul_one] at hprod
    exact ⟨(Term.product_defined I fs).mpr dfs, (Term.product_eval I fs).trans hprod⟩
  | constant c =>
    rw [hconstant] at hprod
    refine ⟨(Term.product_defined I _).mpr (by simpa using dfs), ?_⟩
    rw [Term.product_eval, List.map_cons, List.prod_cons, eval_num, mul_comm, hprod]
  | remaining he =>
    obtain ⟨e, he', de, ve⟩ := build_spec hI x left.reverse
    obtain rfl := Except.ok.inj (he.symm.trans he')
    rw [List.reverse_reverse] at ve
    refine ⟨(Term.product_defined I _).mpr ?_, ?_⟩
    · simpa [or_imp, forall_and] using ⟨dfs, de⟩
    · rw [Term.product_eval, List.map_append, List.prod_append, ← hprod, ← ve]
      simp

end Factors

end RuleAlgebra.Roots

namespace RuleAlgebra.Expr

open Polynomial (aeval aeval_X aeval_C)

variable {K : Type*} [Field K] [CharZero K] {I : Interpretation K}

theorem numericCoefficients_eval (hI : I.PowerLaws) (hcall : ∀ f vs, ¬I.CallDefined f vs)
    {e : Expr Rat} {x : String} {cs : List Rat} (hx : ∀ y, e.contains y = true → y = x)
    (hd : e.Defined I) (h : e.numericCoefficients x = some cs) :
    aeval (I.assign x) (Roots.polynomial cs.reverse) = e.eval I := by
  obtain ⟨p, vs, hexp, rfl, hvalues⟩ := numericCoefficients_dense h
  obtain ⟨hdefined, hvalue⟩ :=
    hexp.dense_total (polynomialValues_interpretation fun u n _ => (hI.nat u n).2) hd
  have hclosed : ∀ d ∈ p.dense, ∀ y, d.contains y = false := by
    intro d hmem y
    by_contra hy
    have hsource : d.contains y = true → y ∈ ({x} : Set String) := by
      rcases Sparse.mem_dense hmem with ⟨k, hk⟩ | rfl
      · exact hexp.coefficients_variables hx _ hk y
      · simp [ofNat, contains]
    obtain rfl := hsource (by simpa using hy)
    exact hy (hexp.dense_free d hmem)
  have hmap : vs.map (fun v : Rat => (v : K)) = p.dense.map (eval I) := by
    apply map_eq_of_forall₂ ((List.forall₂_and_left _ _).mpr ⟨fun _ hmem => hmem, hvalues⟩)
    rintro d v ⟨hmem, hv⟩
    exact (closedValue?_eval hI hcall (hclosed d hmem) (hdefined d hmem) hv).symm
  rw [Roots.aeval_polynomial_reverse, ascendingValue_trimEnd (by simp), hmap]
  exact hvalue

end RuleAlgebra.Expr

namespace RuleAlgebra.Rules

open RuleAlgebra.Expr

variable {K : Type*} [Field K] [CharZero K] {I : Interpretation K}

theorem factorRationalRoots_cases {α : Type} [Scalar α] (e : Expr α) :
    factorRationalRoots e = .ok e ∨ ∃ x coeffs, e.variableNames = [x] ∧
      e.numericCoefficients x = some coeffs ∧ 3 ≤ coeffs.length ∧
        factorRationalRoots e = Roots.factor coeffs x >>= fun r => .ok (r.getD e) := by
  unfold factorRationalRoots
  split
  · split_ifs
    · exact Or.inl rfl
    · split
      · rename_i x hnames
        split
        · rename_i coeffs hcoeffs
          split_ifs with hshort
          · exact Or.inl rfl
          · simp only [Bool.or_eq_true, decide_eq_true_eq, not_or, not_lt] at hshort
            exact Or.inr ⟨x, coeffs, hnames, hcoeffs, hshort.1, rfl⟩
        · exact Or.inl rfl
      · exact Or.inl rfl
  · exact Or.inl rfl

theorem factorRationalRoots_keepsValue (hI : I.PowerLaws)
    (hcall : ∀ f vs, ¬I.CallDefined f vs) : KeepsValue I factorRationalRoots := by
  intro e
  obtain h | ⟨x, coeffs, hnames, hcoeffs, -, h⟩ := factorRationalRoots_cases e
  · exact ⟨e, h, Refines.refl _⟩
  · obtain ⟨factored, hf, hv⟩ := Roots.factor_spec hI coeffs x
    rw [hf, ok_bind] at h
    refine ⟨_, h, ?_⟩
    cases factored with
    | none => exact Refines.refl _
    | some d =>
      intro hd
      obtain ⟨dd, vd⟩ := hv d rfl
      refine ⟨dd, vd.trans (numericCoefficients_eval hI hcall (fun y hy => ?_) hd hcoeffs)⟩
      simpa [hnames] using mem_variableNames.mpr hy

end RuleAlgebra.Rules
