import RuleAlgebra.Proofs.CommonFactors
import RuleAlgebra.Proofs.Overflow
import RuleAlgebra.Proofs.RootFactoring
import RuleAlgebra.Proofs.RootSearch
import RuleAlgebra.Proofs.StandardRules

/-!
When the rules of the standard library fail. Six of them write numbers that may lie beyond the range
of scalars, and overflow exactly when one does; all others always have a result.
-/

namespace RuleAlgebra

namespace Rules

open RuleAlgebra.Expr RuleAlgebra.Scalar

variable {α : Type} [Scalar α]

section Constants

/-- A negative power of an integer whose reciprocal has no finite value. -/
def ReciprocalOverflows : Expr α → Prop
  | .op .pow (.num a) (.num b) => isInteger a = true ∧ (∃ n < 0, toInt? b = some n) ∧
      (a == Scalar.zero) = false ∧ (power? a (-b)).bind finite? = none
  | _ => False

theorem nearIntegerNumber?_result (v : α) : ∃ r, nearIntegerNumber? v = .ok r := by
  unfold nearIntegerNumber?
  cases hn : nearInteger? v with
  | none => exact ⟨none, rfl⟩
  | some n =>
    obtain ⟨-, hnear⟩ := Option.filter_eq_some_iff.mp hn
    have hrange : InRange α n := by
      cases hround : (Scalar.ofRat? (n : Rat) : Option α) with
      | none => simp [hround] at hnear
      | some w => simp [InRange, hround]
    obtain ⟨e, he⟩ := (Coefficient.ofRat?_overflows (α := α) n).2 (not_not.mpr hrange)
    exact ⟨some e, by simp only [he, ok_bind]; rfl⟩

theorem foldReciprocal_overflows (a b : α) : OverflowsIff (foldReciprocal a b)
    ((a == Scalar.zero) = false ∧ (power? a (-b)).bind finite? = none) := by
  unfold foldReciprocal
  by_cases ha : (a == Scalar.zero) = true
  · rw [if_pos ha]
    exact (overflowsIff_ok none).congr (by simp [ha])
  · rw [if_neg ha]
    cases hp : (power? a (-b)).bind finite? with
    | none => exact ⟨fun _ => rfl, fun hn => absurd ⟨by simpa using ha, rfl⟩ hn⟩
    | some p => exact (overflowsIff_ok _).congr (by simp)

theorem foldOperation_overflows (o : Arithmetic) (a b : α) : OverflowsIff (foldOperation o a b)
    (ReciprocalOverflows (.op o (.num a) (.num b))) := by
  cases o with
  | add | sub | mul => exact (overflowsIff_ok _).congr (by simp [ReciprocalOverflows])
  | div =>
    apply (OverflowsIff.ofResult _).congr (by simp [ReciprocalOverflows])
    unfold foldOperation
    split
    · exact ⟨_, rfl⟩
    · contradiction
    · contradiction
    · exact ⟨_, rfl⟩
  | pow =>
    unfold foldOperation
    cases hb : toInt? b with
    | none =>
      apply (OverflowsIff.ofResult _).congr (by simp [ReciprocalOverflows, hb])
      cases toInt? a
      all_goals
        dsimp only
        split
        · exact nearIntegerNumber?_result _
        · exact ⟨none, rfl⟩
    | some n =>
      cases ha : toInt? a with
      | none => exact (overflowsIff_ok _).congr (by simp [ReciprocalOverflows, isInteger, ha])
      | some m =>
        dsimp only
        split_ifs with hn
        · apply (foldReciprocal_overflows a b).congr
          simp [ReciprocalOverflows, isInteger, ha, hb, hn]
        · exact (overflowsIff_ok _).congr (by simp [ReciprocalOverflows, hb, hn])

theorem foldFunction_result (f : String) (args : List (Expr α)) :
    ∃ r, foldFunction f args = .ok r := by
  unfold foldFunction
  split
  · split
    · exact nearIntegerNumber?_result _
    · exact ⟨none, rfl⟩
  · exact ⟨none, rfl⟩

theorem foldConstants_overflows (e : Expr α) :
    OverflowsIff (foldConstants e) (ReciprocalOverflows e) := by
  unfold foldConstants
  split
  · rename_i o a b
    exact (foldOperation_overflows o a b).map
  · rename_i f args
    exact (OverflowsIff.ofResult (foldFunction_result f args)).map
  · rename_i hop hfn
    apply (overflowsIff_ok _).congr
    rw [false_iff]
    intro h
    unfold ReciprocalOverflows at h
    split at h
    · exact hop _ _ _ rfl
    · exact h

end Constants

section Sums

variable (hα : Ranged α)

/-- The sum or difference of two fractions, of which one at least is no number, cannot be
written. -/
def FractionsOverflow : Expr α → Prop
  | .op o l r => o.isAdditive = true ∧ (l.isNum && r.isNum) = false ∧
      ∃ p q, fraction? l = some p ∧ fraction? r = some q ∧
        ¬(Coefficient.exact (if o = .add then p + q else p - q) : Coefficient α).Writable
  | _ => False

include hα in
theorem addFractions_overflows (e : Expr α) :
    OverflowsIff (addFractions e) (FractionsOverflow e) := by
  cases e with
  | op o l r =>
    unfold addFractions
    dsimp only
    by_cases h : (!o.isAdditive || (l.isNum && r.isNum)) = true
    · rw [if_pos h]
      apply (overflowsIff_ok _).congr
      rw [false_iff]
      rintro ⟨hadditive, hnum, -⟩
      simp [hadditive, hnum] at h
    · rw [if_neg h]
      rw [Bool.or_eq_true, Bool.not_eq_true', not_or, Bool.not_eq_false, Bool.not_eq_true] at h
      split
      · rename_i p q hp hq
        apply (Term.toExpr_overflows hα _).congr
        simp [FractionsOverflow, h, hp, hq]
      · rename_i hnone
        apply (overflowsIff_ok _).congr
        rw [false_iff]
        rintro ⟨-, -, p, q, hp, hq, -⟩
        exact hnone p q hp hq
  | _ => exact overflowsIff_ok _

def IsSumOf (ts : List (Term α)) : Expr α → Prop
  | .op o l r => o.isAdditive = true ∧ Term.terms (.op o l r) = .ok ts
  | _ => False

include hα in
theorem overflows_of_terms {k : List (Term α) → Except Failure (Expr α)}
    {R : List (Term α) → Prop} (o : Arithmetic) (l r : Expr α)
    (h : ∀ ts, (∀ t ∈ ts, t.coefficient.Fits) → OverflowsIff (k ts) (R ts)) :
    OverflowsIff (if !o.isAdditive then pure (.op o l r) else do
        let ts ← Term.terms (.op o l r)
        k ts) (∃ ts, IsSumOf ts (.op o l r) ∧ R ts) := by
  split_ifs with hadditive
  · exact (overflowsIff_ok _).congr (by simp_all [IsSumOf])
  · obtain ⟨ts, hts, hfits⟩ := Term.terms_fits hα (.op o l r)
    rw [hts, ok_bind]
    apply (h ts hfits).congr
    simp_all [IsSumOf]

/-- The coefficient of a term cannot be added to that of a like term. -/
def Clashes (merged : List (Term α)) (t : Term α) : Prop :=
  ∃ s, merged.find? (·.rest == t.rest) = some s ∧ s.coefficient.Clash t.coefficient

theorem mergeTerm_overflows (ss : List (Term α)) (t : Term α) :
    OverflowsIff (mergeTerm ss t) (Clashes ss t) := by
  induction ss with
  | nil => exact (overflowsIff_ok _).congr (by simp [Clashes])
  | cons s ss ih =>
    unfold mergeTerm
    by_cases hlike : (s.rest == t.rest) = true
    · rw [if_pos hlike]
      apply (s.coefficient.add_overflows t.coefficient).map.congr
      simp [Clashes, hlike]
    · rw [if_neg hlike]
      apply ih.map.congr
      simp [Clashes, hlike]

/-- Coefficients of like terms cannot be added, or a sum of them cannot be written. -/
def MergingOverflows (e : Expr α) : Prop :=
  ∃ ts, IsSumOf ts e ∧
    ((∃ before t after merged, ts = before ++ t :: after ∧
        before.foldlM mergeTerm [] = .ok merged ∧ Clashes merged t) ∨
      ∃ merged, ts.foldlM mergeTerm [] = .ok merged ∧ merged.length ≠ ts.length ∧
        ∃ t ∈ merged, ¬t.coefficient.Writable)

include hα in
theorem combineLikeTerms_overflows (e : Expr α) :
    OverflowsIff (combineLikeTerms e) (MergingOverflows e) := by
  cases e with
  | op o l r =>
    apply overflows_of_terms hα o l r
    intro ts _
    apply (overflowsIff_foldlM mergeTerm_overflows ts []).bind
    intro merged _
    split_ifs with hlength
    · exact (overflowsIff_ok _).congr (by simp [hlength])
    · apply (Term.sum_overflows hα merged).congr
      simp [hlength]
  | _ => exact (overflowsIff_ok _).congr (by simp [MergingOverflows, IsSumOf])

/-- A sum in which squares were replaced cannot be written. -/
def SquaresOverflow (e : Expr α) : Prop :=
  ∃ ts, IsSumOf ts e ∧ ∃ us, (sumOfSquares? ts).or (oneMinusSquare? ts) = some us ∧
    ∃ t ∈ us, ¬t.coefficient.Writable

include hα in
theorem pythagoreanIdentity_overflows (e : Expr α) :
    OverflowsIff (pythagoreanIdentity e) (SquaresOverflow e) := by
  cases e with
  | op o l r =>
    apply overflows_of_terms hα o l r
    intro ts _
    cases (sumOfSquares? ts).or (oneMinusSquare? ts) with
    | none => exact (overflowsIff_ok _).congr (by simp)
    | some us =>
      apply (Term.sum_overflows hα us).congr
      simp
  | _ => exact (overflowsIff_ok _).congr (by simp [SquaresOverflow, IsSumOf])

theorem natAbs_truncate_le (q : Rat) : ((truncate q).natAbs : Rat) ≤ |q| := by
  have hle : (truncate q).natAbs * q.den ≤ q.num.natAbs := by
    rw [truncate, Int.natAbs_tdiv, Int.natAbs_natCast]
    exact Nat.div_mul_le_self _ _
  have hden : (0 : Rat) < q.den := by exact_mod_cast q.den_pos
  rw [Rat.abs_def, Rat.divInt_eq_div, Int.cast_natCast, Int.cast_natCast, le_div_iff₀ hden]
  exact_mod_cast hle

include hα in
theorem commonDivisor_fits {g : Nat} (hg : InRange α g) {cs : List (Coefficient α)}
    (hcs : ∀ c ∈ cs, c.Fits) : ∃ d, commonDivisor g cs = .ok d ∧ d ≠ 0 ∧ InRange α d := by
  have hone : InRange α (1 : Nat) := hα.natural (by simp [Roots.maxSearch])
  induction cs generalizing g with
  | nil =>
    refine ⟨_, rfl, ?_⟩
    split_ifs with h
    · exact ⟨one_ne_zero, hone⟩
    · exact ⟨by omega, hg⟩
  | cons c cs ih =>
    obtain ⟨hc, hcs⟩ := List.forall_mem_cons.mp hcs
    obtain ⟨v, hv⟩ := Coefficient.toScalar_result hc
    rw [commonDivisor, hv, ok_bind]
    split
    · rename_i q _ hq
      apply ih _ hcs
      have hrange : InRange α q := by
        cases c with
        | exact p => rwa [← Option.some.inj hq]
        | inexact w => exact hα.value hq
      by_cases h0 : (truncate q).natAbs = 0
      · rwa [h0, Nat.gcd_zero_right]
      · apply hα.smaller _ hrange
        have hgcd : Nat.gcd g (truncate q).natAbs ≤ (truncate q).natAbs :=
          Nat.gcd_le_right g (Nat.pos_of_ne_zero h0)
        rw [Nat.abs_cast]
        exact le_trans (by exact_mod_cast hgcd) (natAbs_truncate_le q)
    · exact ⟨1, rfl, one_ne_zero, hone⟩

/-- A coefficient without the common divisor cannot be written. -/
def SharingOverflows (e : Expr α) : Prop :=
  ∃ ts, IsSumOf ts e ∧ ∃ g, commonDivisor 0 (ts.map (·.coefficient)) = .ok g ∧
    ¬(g = 1 ∧ (sharedOf ts).isEmpty = true) ∧
      ∃ t ∈ ts, ∃ c, t.coefficient.divide g = .ok c ∧ ¬c.Writable

include hα in
theorem factorCommonTerm_overflows (e : Expr α) :
    OverflowsIff (factorCommonTerm e) (SharingOverflows e) := by
  cases e with
  | op o l r =>
    apply overflows_of_terms hα o l r
    intro ts hts
    have hfits : ∀ c ∈ ts.map (·.coefficient), c.Fits := by simpa using hts
    have hzero : InRange α (0 : Nat) := hα.natural (Nat.zero_le _)
    obtain ⟨g, hg, hg0, hgr⟩ := commonDivisor_fits hα hzero hfits
    obtain ⟨us, hus, hall⟩ : ∃ us, (ts.mapM fun t => do
        let c ← t.coefficient.divide g
        pure (⟨c, withoutShared (sharedOf ts) t.rest⟩ : Term α) : Except Failure _) = .ok us ∧
          List.Forall₂ (fun t u : Term α => t.coefficient.divide g = .ok u.coefficient) ts us := by
      apply mapM_ok
      intro t ht
      obtain ⟨c, hc, -⟩ :=
        Coefficient.divide_fits hα (hts t ht) (n := g) (by exact_mod_cast hg0) hgr
      exact ⟨⟨c, _⟩, by rw [hc]; rfl, hc⟩
    obtain ⟨divisor, hdivisor⟩ := (Coefficient.ofRat?_overflows (α := α) g).2 (not_not.mpr hgr)
    have hwritable : (∃ u ∈ us, ¬u.coefficient.Writable) ↔
        ∃ t ∈ ts, ∃ c, t.coefficient.divide g = .ok c ∧ ¬c.Writable := by
      have hiff := forall_mem_iff_of_forall₂ hall (Q := fun t : Term α =>
        ∀ c, t.coefficient.divide g = .ok c → c.Writable) (R := (·.coefficient.Writable))
        fun t u htu => by simp [htu]
      simpa [not_forall] using (not_congr hiff).symm
    have hshared : (if ts.all (·.rest.isSome) then
        sharedPowers (ts.map fun t => (factorsOf t.rest).map Term.powerParts) else []) =
          sharedOf ts := rfl
    simp only [hg, ok_bind, hshared, Except.ok.injEq, exists_eq_left']
    by_cases hnothing : g = 1 ∧ (sharedOf ts).isEmpty = true
    · rw [if_pos hnothing]
      exact (overflowsIff_ok _).congr (by simp [hnothing])
    · rw [if_neg hnothing, hus, ok_bind, hdivisor, ok_bind]
      apply (Term.sum_overflows hα us).map.congr
      rw [hwritable, and_iff_right hnothing]
  | _ => exact (overflowsIff_ok _).congr (by simp [SharingOverflows, IsSumOf])

end Sums

end Rules

namespace Roots

open RuleAlgebra.Scalar

variable {α : Type} [Scalar α] (hα : Ranged α)

/-- What is left of a polynomial without its rational roots cannot be written. -/
def FactoringOverflows (coeffs : List α) : Prop :=
  ∃ roots rest, rational coeffs = .ok (roots, rest) ∧ roots.isEmpty = false ∧
    ∃ q ∈ rest, ¬InRange α (q / roots.foldl (fun s r => s * (r.den : Rat)) 1)

include hα in
theorem build_result (values : List α) (x : String) : ∃ e, build values x = .ok e := by
  apply (Term.sum_overflows hα _).2
  rintro ⟨t, ht, hw⟩
  obtain ⟨m, -, rfl⟩ := List.mem_map.mp (List.mem_reverse.mp ht)
  exact hw trivial

include hα in
theorem linearFactor_result {root : Rat} (hnum : root.num.natAbs ≤ maxSearch)
    (hden : root.den ≤ maxSearch) (e : Expr α) : ∃ d, linearFactor root e = .ok d := by
  obtain ⟨p, hp⟩ := (Coefficient.ofRat?_overflows (α := α) root.num.natAbs).2
    (not_not.mpr (hα.natural hnum))
  obtain ⟨q, hq⟩ := (Coefficient.ofRat?_overflows (α := α) root.den).2
    (not_not.mpr (hα.natural hden))
  unfold linearFactor
  by_cases h0 : root = 0
  · rw [if_pos h0]
    exact ⟨e, rfl⟩
  · rw [if_neg h0, hp, ok_bind, hq, ok_bind]
    exact ⟨_, rfl⟩

include hα in
theorem rootFactors_result {roots : List Rat}
    (hsmall : ∀ r ∈ roots, r.num.natAbs ≤ maxSearch ∧ r.den ≤ maxSearch)
    (hsorted : roots.Pairwise (· ≤ ·)) (e : Expr α) : ∃ fs, rootFactors e roots = .ok fs := by
  obtain ⟨fs, hfs, -⟩ := rootFactors_ok (P := fun _ _ => True) fun root hroot => by
    obtain ⟨hnum, hden⟩ := hsmall root (((distinct_spec hsorted).2 root).mp hroot)
    obtain ⟨linear, hlinear⟩ := linearFactor_result hα hnum hden e
    exact ⟨linear, hlinear, trivial⟩
  exact ⟨fs, hfs⟩

theorem exactValues_result {coeffs : List α} (hcoeffs : coeffs.all isInteger = true) :
    ∃ qs, exactValues coeffs = .ok qs := by
  obtain ⟨qs, hqs, -⟩ : ∃ qs, exactValues coeffs = .ok qs ∧
      List.Forall₂ (fun _ _ => True) coeffs qs := by
    apply mapM_ok
    intro v hv
    obtain ⟨n, hn⟩ := Option.isSome_iff_exists.mp (List.all_eq_true.mp hcoeffs v hv)
    obtain ⟨q, hq, -⟩ := Option.bind_eq_some_iff.mp hn
    rw [hq]
    exact ⟨q, rfl, trivial⟩
  exact ⟨qs, hqs⟩

include hα in
theorem factor_overflows {coeffs : List α} (hcoeffs : coeffs.all isInteger = true) (x : String) :
    OverflowsIff (factor coeffs x) (FactoringOverflows coeffs) := by
  obtain ⟨qs, hqs⟩ := exactValues_result hcoeffs
  have hrational : rational coeffs = .ok (ofIntegers qs) := by
    rw [rational, hqs]
    rfl
  have hsmall := ofIntegers_small qs
  obtain ⟨hsorted, -⟩ := ofIntegers_spec qs
  unfold factor FactoringOverflows
  rw [hrational, ok_bind]
  generalize ofIntegers qs = found at hsmall hsorted
  obtain ⟨roots, rest⟩ := found
  obtain ⟨fs, hfs⟩ := rootFactors_result hα hsmall hsorted (.var x)
  have hcondition : (∃ rs left, (Except.ok (roots, rest) : Except Failure _) = .ok (rs, left) ∧
      rs.isEmpty = false ∧ ∃ q ∈ left, ¬InRange α (q / rs.foldl (fun s r => s * (r.den : Rat)) 1)) ↔
      roots.isEmpty = false ∧
        ∃ q ∈ rest.map (· / roots.foldl (fun s r => s * (r.den : Rat)) 1), ¬InRange α q := by
    simp
  apply OverflowsIff.congr _ hcondition.symm
  dsimp only
  generalize rest.map (· / roots.foldl (fun s r => s * (r.den : Rat)) 1) = left
  cases roots.isEmpty with
  | true => exact (overflowsIff_ok none).congr (by simp)
  | false =>
    simp only [Bool.false_eq_true, if_false, hfs, ok_bind, true_and]
    split
    · rename_i c
      by_cases hc : c = 1
      · have hone : InRange α c := by
          rw [hc]
          exact hα.natural (n := 1) (by simp [maxSearch])
        rw [if_pos hc]
        exact (overflowsIff_ok _).congr (by simpa using hone)
      · rw [if_neg hc]
        apply (Coefficient.ofRat?_overflows (α := α) c).map.congr
        simp
    · apply ((overflowsIff_mapM fun q _ => Coefficient.round_overflows (α := α) q).bind
        fun values _ => (OverflowsIff.ofResult (build_result hα values x)).map).congr
      simp

end Roots

namespace Rules

open RuleAlgebra.Scalar

variable {α : Type} [Scalar α] (hα : Ranged α)

/-- A polynomial in one variable whose factors cannot all be written. -/
def FactorsOverflow : Expr α → Prop
  | .op o l r => o.isAdditive = true ∧ ∃ x coeffs, (Expr.op o l r).variableNames = [x] ∧
      (Expr.op o l r).numericCoefficients x = some coeffs ∧ 3 ≤ coeffs.length ∧
        coeffs.all isInteger = true ∧ Roots.FactoringOverflows coeffs
  | _ => False

theorem factorsOverflow_iff {o : Arithmetic} {l r : Expr α} {x : String} {coeffs : List α}
    (hx : (Expr.op o l r).variableNames = [x])
    (hcoeffs : (Expr.op o l r).numericCoefficients x = some coeffs) :
    FactorsOverflow (.op o l r) ↔ o.isAdditive = true ∧ 3 ≤ coeffs.length ∧
      coeffs.all isInteger = true ∧ Roots.FactoringOverflows coeffs := by
  constructor
  · rintro ⟨hadditive, y, cs, hy, hcs, h⟩
    obtain rfl : x = y := by simpa using hx.symm.trans hy
    obtain rfl : coeffs = cs := Option.some.inj (hcoeffs.symm.trans hcs)
    exact ⟨hadditive, h⟩
  · exact fun ⟨hadditive, h⟩ => ⟨hadditive, x, coeffs, hx, hcoeffs, h⟩

include hα in
theorem factorRationalRoots_overflows (e : Expr α) :
    OverflowsIff (factorRationalRoots e) (FactorsOverflow e) := by
  cases e with
  | op o l r =>
    unfold factorRationalRoots
    dsimp only
    by_cases hadditive : o.isAdditive = true
    · rw [hadditive, Bool.not_true, if_neg Bool.false_ne_true]
      split
      · rename_i x hx
        split
        · rename_i coeffs hcoeffs
          apply OverflowsIff.congr _ (factorsOverflow_iff hx hcoeffs).symm
          by_cases hshape : 3 ≤ coeffs.length ∧ coeffs.all isInteger = true
          · obtain ⟨hlength, hall⟩ := hshape
            have hif : ¬(decide (coeffs.length < 3) || !coeffs.all isInteger) = true := by
              simp [hall, hlength]
            rw [if_neg hif]
            apply (Roots.factor_overflows hα hall x).map.congr
            rw [and_iff_right hadditive, and_iff_right hlength, and_iff_right hall]
          · have hif : (decide (coeffs.length < 3) || !coeffs.all isInteger) = true := by
              rw [Bool.or_eq_true, decide_eq_true_eq, Bool.not_eq_true', ← Bool.not_eq_true]
              exact or_iff_not_and_not.mpr fun h => hshape ⟨not_lt.mp h.1, not_not.mp h.2⟩
            rw [if_pos hif]
            apply (overflowsIff_ok _).congr
            rw [false_iff]
            exact fun ⟨_, hlength, hall, _⟩ => hshape ⟨hlength, hall⟩
        · rename_i hnone
          apply (overflowsIff_ok _).congr
          rw [false_iff]
          rintro ⟨-, y, cs, hy, hcs, -⟩
          obtain rfl : x = y := by simpa using hx.symm.trans hy
          rw [hnone] at hcs
          cases hcs
      · rename_i hnames
        apply (overflowsIff_ok _).congr
        rw [false_iff]
        rintro ⟨-, y, -, hy, -⟩
        exact hnames y hy
    · rw [Bool.not_eq_true] at hadditive
      rw [hadditive, Bool.not_false, if_pos rfl]
      exact (overflowsIff_ok _).congr (by simp [FactorsOverflow, hadditive])
  | _ => exact overflowsIff_ok _

/-- When a rule of the standard library overflows, by its name. -/
def Overflows (name : String) (e : Expr α) : Prop :=
  match name with
  | "fold-constants" => ReciprocalOverflows e
  | "add-fractions" => FractionsOverflow e
  | "combine-like-terms" => MergingOverflows e
  | "pythagorean-identity" => SquaresOverflow e
  | "factor-common-term" => SharingOverflows e
  | "factor-rational-roots" => FactorsOverflow e
  | _ => False

theorem identities_result :
    ∀ r ∈ (identities : List (Rule α)), ∀ e, OverflowsIff (r.apply e) (Overflows r.name e) := by
  simp only [identities, arithmeticIdentities, trigonometricIdentities, exponentialIdentities,
    logarithmicIdentities, List.cons_append, List.nil_append, List.forall_mem_cons,
    List.not_mem_nil, false_imp_iff, implies_true, and_true]
  constructorm* _ ∧ _
  all_goals
    intro e
    apply OverflowsIff.ofResult
    apply patternRule_result
    simp [any, anyNumber, sum, difference, product, quotient, power, call, nat, Expr.ofNat,
      Expr.ofInt, Expr.negative]

include hα in
theorem computedRules_overflow :
    ∀ r ∈ (computedRules : List (Rule α)), ∀ e, OverflowsIff (r.apply e) (Overflows r.name e) := by
  simp only [computedRules, List.forall_mem_cons, List.not_mem_nil, false_imp_iff, implies_true,
    and_true]
  exact ⟨foldConstants_overflows, addFractions_overflows hα, fun _ => overflowsIff_ok _,
    fun _ => overflowsIff_ok _, fun _ => overflowsIff_ok _, fun _ => overflowsIff_ok _,
    combineLikeTerms_overflows hα, fun _ => overflowsIff_ok _, fun _ => overflowsIff_ok _,
    fun _ => overflowsIff_ok _, fun _ => overflowsIff_ok _, fun _ => overflowsIff_ok _,
    pythagoreanIdentity_overflows hα, fun _ => overflowsIff_ok _, fun _ => overflowsIff_ok _,
    fun _ => overflowsIff_ok _, fun _ => overflowsIff_ok _, factorCommonTerm_overflows hα,
    factorRationalRoots_overflows hα⟩

end Rules

end RuleAlgebra
