import RuleAlgebra.Equation.Solver
import RuleAlgebra.Proofs.OverflowingRules
import RuleAlgebra.Proofs.RootSearch
import RuleAlgebra.Proofs.TracedComputations
import RuleAlgebra.Rules.Standard

/-!
The solutions of a polynomial equation over fractions. The roots that are found are rounded to
nearby integers, sorted, and thinned out; each is still close to a solution, and the solutions are
told apart by more than the tolerance. So no rational root is missed, whatever the numerical methods
answer.
-/

namespace RuleAlgebra

namespace Roots

@[simp] theorem snapTolerance_rat : (snapTolerance : Rat) = 1 / 10 ^ 9 := by
  norm_num [snapTolerance, Scalar.ofDecimal_rat]

theorem roundHalfEven_intCast (n : Int) : roundHalfEven (n : Rat) = n := by
  simp [roundHalfEven]

theorem snap_rat {tolerance : Rat} (ht : 0 < tolerance) (v : Rat) :
    ∃ w, snap tolerance v = .ok w ∧ |v - w| < tolerance ∧ snap tolerance w = .ok w := by
  have hsnap (u : Rat) : snap tolerance u =
      .ok (if |u - roundHalfEven u| < tolerance then (roundHalfEven u : Rat) else u) := by
    simp [snap, Scalar.nearest?, pure, Except.pure, bind, Except.bind, Coefficient.round,
      Scalar.abs_rat]
  by_cases h : |v - roundHalfEven v| < tolerance
  · refine ⟨roundHalfEven v, by rw [hsnap, if_pos h], h, ?_⟩
    rw [hsnap, roundHalfEven_intCast, ite_self]
  · refine ⟨v, by rw [hsnap, if_neg h], ?_, by rw [hsnap, if_neg h]⟩
    simpa using ht

end Roots

namespace Solver

open Roots Traced

section Merging

/-- Numbers in a list are more than the tolerance apart, in ascending order. -/
def Spaced (vs : List Rat) : Prop := vs.Pairwise fun a b => a + snapTolerance < b

theorem dropRepeated_near {last : Option Rat} {vs : List Rat} (hvs : vs.Pairwise (· ≤ ·))
    (hlast : ∀ u ∈ last, ∀ v ∈ vs, u ≤ v) :
    Spaced (dropRepeated last vs) ∧
      (∀ u ∈ last, ∀ w ∈ dropRepeated last vs, u + snapTolerance < w) ∧
      ∀ v ∈ vs, ∃ w, (w ∈ last ∨ w ∈ dropRepeated last vs) ∧ |v - w| ≤ snapTolerance := by
  induction vs generalizing last with
  | nil => simp [dropRepeated, Spaced]
  | cons v vs ih =>
    obtain ⟨hv, hvs⟩ := List.pairwise_cons.mp hvs
    -- `v` is kept: the rest is thinned out relative to it
    have keep (h : ∀ u ∈ last, u + snapTolerance < v) :
        Spaced (v :: dropRepeated (some v) vs) ∧
          (∀ u ∈ last, ∀ w ∈ v :: dropRepeated (some v) vs, u + snapTolerance < w) ∧
          ∀ x ∈ v :: vs, ∃ w, (w ∈ last ∨ w ∈ v :: dropRepeated (some v) vs) ∧
            |x - w| ≤ snapTolerance := by
      obtain ⟨hspaced, hafter, hnear⟩ := @ih (some v) hvs (by simpa using hv)
      have hafter : ∀ w ∈ dropRepeated (some v) vs, v + snapTolerance < w := hafter v rfl
      refine ⟨List.pairwise_cons.mpr ⟨hafter, hspaced⟩, fun u hu w hw => ?_, fun x hx => ?_⟩
      · rcases List.mem_cons.mp hw with rfl | hw
        · exact h u hu
        · have htolerance : (0 : Rat) < snapTolerance := by simp
          linarith [h u hu, hafter w hw]
      · rcases List.mem_cons.mp hx with rfl | hx
        · exact ⟨x, .inr (by simp), by simp⟩
        · obtain ⟨w, hw, hxw⟩ := hnear x hx
          refine ⟨w, .inr ?_, hxw⟩
          rcases hw with hw | hw
          · exact List.mem_cons.mpr (.inl (Option.some.inj hw).symm)
          · exact List.mem_cons_of_mem v hw
    cases last with
    | none => exact keep (by simp)
    | some u =>
      have huv : u ≤ v := hlast u rfl v (by simp)
      simp only [dropRepeated, Scalar.lt_rat, Scalar.abs_rat, decide_eq_true_eq]
      split_ifs with hfar
      · apply keep
        rintro _ ⟨⟩
        rw [abs_of_nonneg (sub_nonneg.mpr huv)] at hfar
        linarith
      · obtain ⟨hspaced, hafter, hnear⟩ := @ih (some u) hvs fun w hw x hx =>
          hlast w hw x (List.mem_cons_of_mem v hx)
        refine ⟨hspaced, hafter, List.forall_mem_cons.mpr ⟨?_, hnear⟩⟩
        exact ⟨u, .inl rfl, not_lt.mp hfar⟩

theorem dropRepeated_subset (last : Option Rat) (vs : List Rat) : dropRepeated last vs ⊆ vs := by
  fun_induction dropRepeated last vs with
  | case1 => simp
  | case2 v vs ih => exact List.cons_subset_cons v ih
  | case3 u v vs _ ih => exact List.cons_subset_cons v ih
  | case4 u v vs _ ih => exact List.subset_cons_of_subset v ih

/-- Rounding, sorting and thinning out gives numbers apart from each other, with one of them close to
each of the numbers given. -/
theorem merged_near (vs : List Rat) : ∃ ws us : List Rat, snapped vs = .ok ws ∧
    numbers (dropRepeated none (ascending ws)) = .ok (us.map .num) ∧ Spaced us ∧
      ∀ v ∈ vs, ∃ u ∈ us, |v - u| < 2 * snapTolerance := by
  have htolerance : (0 : Rat) < snapTolerance := by simp
  obtain ⟨ws, hws, hpairs⟩ : ∃ ws, vs.mapM (snap snapTolerance) = .ok ws ∧ List.Forall₂
      (fun v w => |v - w| < snapTolerance ∧ snap snapTolerance w = .ok w) vs ws :=
    mapM_ok fun v _ => snap_rat htolerance v
  have hsorted : (ascending ws).Pairwise (· ≤ ·) := List.pairwise_mergeSort' _ _
  have hmem (w : Rat) : w ∈ ascending ws ↔ w ∈ ws := List.mem_mergeSort
  obtain ⟨hspaced, -, hnear⟩ := @dropRepeated_near none _ hsorted (by simp)
  refine ⟨ws, dropRepeated none (ascending ws), hws, ?_, hspaced, ?_⟩
  · -- what has been rounded stays as it is
    have hfixed : snapped (dropRepeated none (ascending ws)) =
        .ok (dropRepeated none (ascending ws)) := by
      rw [snapped, mapM_eq_ok]
      apply List.forall₂_same.mpr
      intro w hw
      have hw : w ∈ ws := (hmem w).mp (dropRepeated_subset _ _ hw)
      exact forall_mem_of_forall₂ hpairs (fun _ _ h => h.2) w hw
    rw [numbers, hfixed]
    rfl
  · intro v hv
    obtain ⟨w, hw, hvw, -⟩ := exists_mem_of_forall₂ hpairs v hv
    obtain ⟨u, hu, hwu⟩ := hnear w ((hmem w).mpr hw)
    refine ⟨u, by simpa using hu, ?_⟩
    calc |v - u| ≤ |v - w| + |w - u| := abs_sub_le v w u
      _ < 2 * snapTolerance := by linarith

end Merging

theorem solvePolynomial_ends {α : Type} [Scalar α] (hα : Scalar.Ranged α) {s : Solver α}
    {coeffs : List (Expr α)} {x : String} {vs : List α} {roots rest : List Rat}
    {P R : List α → Prop} {Q : Solution α → Prop} {F : Failure → Prop}
    (hvs : coeffs.mapM Expr.closedValue? = some vs)
    (hrational : Roots.rational vs = .ok (roots, rest))
    (hfound : Outcome P F (roots.mapM Coefficient.round))
    (hremaining : Outcome R F (rest.reverse.mapM Coefficient.round))
    (h : ∀ found remaining, P found → R remaining → Ensures (do
      let others ← s.remainingRoots (!roots.isEmpty) remaining x
      let all ← Traced.lift (snapped (found ++ others))
      let solutions ← Traced.lift (numbers (dropRepeated none (ascending all)))
      pure (.ofOne x solutions .polynomial .real) : Traced α (Solution α)) Q F) :
    Ensures (s.solvePolynomial coeffs x) Q F := by
  simp only [solvePolynomial, hvs, hrational, lift_ok_bind]
  apply (ensures_lift hfound).bind
  intro found hP
  apply (ensures_lift hremaining).bind
  intro remaining hR
  obtain ⟨before, hbefore⟩ := Roots.build_result hα vs x
  obtain ⟨after, hafter⟩ := Roots.build_result hα remaining x
  simp only [hbefore, hafter, lift_ok_bind]
  split
  · exact (ensures_step trivial).bind (P := fun _ => True) fun _ _ => h found remaining hP hR
  · exact h found remaining hP hR

section Polynomials

open Polynomial

variable {s : Solver Rat} {coeffs : List (Expr Rat)} {x : String}

/-- The solutions are apart from each other, and one of them is close to each rational root that the
search finds. -/
theorem solvePolynomial_ensures {values : List Rat} {roots rest : List Rat}
    (hvalues : coeffs.mapM Expr.closedValue? = some values)
    (hroots : rational values = .ok (roots, rest)) :
    Ensures (s.solvePolynomial coeffs x)
      (fun sol => ∃ us : List Rat, sol.solutions = us.map .num ∧ Spaced us ∧
        ∀ r ∈ roots, ∃ u ∈ us, |r - u| < 2 * snapTolerance) fun _ => True := by
  have hfound : Outcome (· = roots) (fun _ => True) (roots.mapM (Coefficient.round : Rat → _)) := by
    rw [mapM_round]
    exact Eq.refl roots
  have hremaining : Outcome (fun _ => True) (fun _ => True)
      (rest.reverse.mapM (Coefficient.round : Rat → Except Failure Rat)) := by
    rw [mapM_round]
    trivial
  apply solvePolynomial_ends Scalar.ranged_rat hvalues hroots hfound hremaining
  rintro found remaining rfl -
  apply ensures_after
  intro others
  obtain ⟨ws, us, hws, hus, hspaced, hnear⟩ := merged_near (found ++ others)
  rw [hws, lift_ok_bind, hus, lift_ok_bind]
  exact ensures_pure ⟨us, rfl, hspaced, fun r hr => hnear r (List.mem_append_left _ hr)⟩

/-- The solutions of a polynomial equation with integer coefficients of which the leading and the
lowest one are small enough to be searched for roots are ascending, more than the tolerance apart,
and one of them lies within twice the tolerance of each rational root. -/
theorem solvePolynomial_misses_none {ns : List Int} {lead low : Int}
    (hvalues : coeffs.mapM Expr.closedValue? = some (ns.map (Int.cast : Int → Rat)))
    (hlead : ns.getLast? = some lead) (hlead0 : lead ≠ 0) (hlow : ns.find? (· ≠ 0) = some low)
    (hleadSmall : lead.natAbs ≤ 10 ^ 6) (hlowSmall : low.natAbs ≤ 10 ^ 6) {sol : Solution Rat}
    (h : (s.solvePolynomial coeffs x).result = .ok sol) :
    ∃ us : List Rat, sol.solutions = us.map .num ∧
      us.Pairwise (fun a b => a + 1 / 10 ^ 9 < b) ∧
      ∀ r : Rat, ((Roots.ascending ns).map (Int.castRingHom ℚ)).IsRoot r →
        ∃ u ∈ us, |r - u| < 2 / 10 ^ 9 := by
  have hexact : (ns.map (Int.cast : Int → Rat)).map Scalar.toRat? =
      ns.map fun n : Int => some (n : Rat) := by
    simp [Function.comp_def]
  obtain ⟨roots, rest, hroots, -, hproduct, hcomplete⟩ := rational_exact hexact hlead hlead0
  have hsearched : ∀ n ∈ ns.find? (· ≠ 0), n.natAbs ≤ maxSearch := by
    intro n hn
    obtain rfl : low = n := Option.some.inj (hlow.symm.trans hn)
    exact hlowSmall
  obtain ⟨-, hrest⟩ := hcomplete hleadSmall hsearched
  have hsolve := (solvePolynomial_ensures (s := s) (x := x) hvalues hroots).result
  rw [h] at hsolve
  obtain ⟨us, hsolutions, hspaced, hnear⟩ := hsolve
  refine ⟨us, hsolutions, by simpa [Spaced] using hspaced, fun r hr => ?_⟩
  -- what the search leaves has no rational root, so that the root is one of those found
  have hmem : r ∈ roots := by
    rw [hproduct, root_mul] at hr
    have hlinear := hr.resolve_right (hrest r)
    rw [IsRoot, eval_list_prod, List.prod_eq_zero_iff] at hlinear
    obtain ⟨q, hq, hzero⟩ : ∃ q ∈ roots, r - q = 0 := by simpa using hlinear
    rwa [sub_eq_zero.mp hzero]
  obtain ⟨u, hu, hru⟩ := hnear r hmem
  refine ⟨u, hu, hru.trans_eq ?_⟩
  rw [snapTolerance_rat]
  norm_num

/-- In `2x⁴ - x³ - 4x + 2 = (2x - 1)(x³ - 2)` the root `1/2` is found exactly, and a numerical
method answers for the rest. -/
theorem solvePolynomial_misses_none_of_quartic :
    let s : Solver Rat := ⟨⟨.standard, 50⟩, ⟨id, fun u _ => u, fun _ => [(5 / 4, 0), (5 / 4, 0)],
      fun _ u _ => .ok u⟩, true, -10, 10, 1 / 10 ^ 9⟩
    let ns : List Int := [2, -4, 0, -1, 2]
    let coeffs : List (Expr Rat) := ns.map Expr.ofInt
    coeffs.mapM Expr.closedValue? = some (ns.map (Int.cast : Int → Rat)) ∧
      ∃ sol, (s.solvePolynomial coeffs "x").result = .ok sol ∧
        ∃ us : List Rat, sol.solutions = us.map .num ∧
          us.Pairwise (fun a b => a + 1 / 10 ^ 9 < b) ∧ ∃ u ∈ us, |1 / 2 - u| < 2 / 10 ^ 9 := by
  intro s ns coeffs
  have hvalues : coeffs.mapM Expr.closedValue? = some (ns.map (Int.cast : Int → Rat)) := by
    decide +kernel
  have hrun : ((s.solvePolynomial coeffs "x").result.toOption.map (·.solutions.length)) =
      some 2 := by
    cbv
  obtain ⟨sol, hsol, -⟩ := Option.map_eq_some_iff.mp hrun
  have hroot : ((Roots.ascending ns).map (Int.castRingHom ℚ)).IsRoot (1 / 2) := by
    simp [ns, Roots.ascending]
    norm_num
  have hresult := toOption_eq_some.mp hsol
  obtain ⟨us, hsolutions, hspaced, hnear⟩ := solvePolynomial_misses_none hvalues rfl (by decide)
    rfl (by decide) (by decide) hresult
  exact ⟨hvalues, sol, hresult, us, hsolutions, hspaced, hnear _ hroot⟩

end Polynomials

end Solver

end RuleAlgebra
