import RuleAlgebra.Proofs.FactorCosts
import RuleAlgebra.Proofs.TermValues

/-!
The mass of an expression: the prime factors of its numbers, its variables, calls and signs. A power
with a number as exponent weighs as much as its base, and products add nothing to their factors, so
that taking a common factor out of a sum makes what is left lighter even where more is written.
-/

namespace RuleAlgebra

open ArithmeticFunction (cardFactors cardFactors_mul cardFactors_pos_iff_one_lt)

section Numbers

def numMass (v : Rat) : Nat := cardFactors v.num.natAbs + cardFactors v.den

@[simp] theorem numMass_neg (v : Rat) : numMass (-v) = numMass v := by simp [numMass]

theorem numMass_intCast (n : Int) : numMass n = cardFactors n.natAbs := by simp [numMass]

theorem numMass_natCast (n : Nat) : numMass n = cardFactors n := numMass_intCast n

@[simp] theorem numMass_zero : numMass 0 = 0 := by simpa using numMass_natCast 0

@[simp] theorem numMass_one : numMass 1 = 0 := by simpa using numMass_natCast 1

theorem numMass_parts (v : Rat) : numMass v.num + numMass v.den = numMass v := by
  rw [numMass_intCast, numMass_natCast, numMass]

theorem cardFactors_le_of_dvd {m n : Nat} (h : m ∣ n) (hn : n ≠ 0) :
    cardFactors m ≤ cardFactors n := by
  obtain ⟨k, rfl⟩ := h
  obtain ⟨hm, hk⟩ := mul_ne_zero_iff.mp hn
  rw [cardFactors_mul hm hk]
  omega

theorem numMass_mul (u v : Rat) : numMass (u * v) ≤ numMass u + numMass v := by
  by_cases hu : u = 0
  · simp [hu]
  by_cases hv : v = 0
  · simp [hv]
  have hnum : (u * v).num.natAbs ∣ u.num.natAbs * v.num.natAbs := by
    rw [Rat.mul_num, ← Int.natAbs_mul]
    exact Int.natAbs_dvd_natAbs.mpr (Int.ediv_dvd_of_dvd (by
      rw [Int.natCast_dvd]
      exact Nat.gcd_dvd_left _ _))
  have hu' : u.num.natAbs ≠ 0 := Int.natAbs_ne_zero.mpr (Rat.num_ne_zero.mpr hu)
  have hv' : v.num.natAbs ≠ 0 := Int.natAbs_ne_zero.mpr (Rat.num_ne_zero.mpr hv)
  have h1 := cardFactors_le_of_dvd hnum (mul_ne_zero hu' hv')
  have h2 := cardFactors_le_of_dvd (Rat.mul_den_dvd u v) (mul_ne_zero u.den_nz v.den_nz)
  rw [cardFactors_mul hu' hv'] at h1
  rw [cardFactors_mul u.den_nz v.den_nz] at h2
  simp only [numMass]
  omega

theorem numMass_prod (vs : List Rat) : numMass vs.prod ≤ (vs.map numMass).sum := by
  induction vs with
  | nil => simp
  | cons v vs ih =>
    have := numMass_mul v vs.prod
    rw [List.prod_cons, List.map_cons, List.sum_cons]
    omega

theorem numMass_div (v : Rat) (n : Int) : numMass (v / n) ≤ numMass v + numMass n := by
  have hinv : numMass (n : Rat)⁻¹ ≤ numMass n := by
    by_cases hn : n = 0
    · simp [hn]
    · simp [numMass, hn, Int.natAbs_sign]
  have := numMass_mul v (n : Rat)⁻¹
  rw [← div_eq_mul_inv] at this
  omega

theorem numMass_div_lt {n : Int} {d : Nat} (hd : 1 < d) (hdvd : (d : Int) ∣ n) (hn : n ≠ 0) :
    numMass ((n : Rat) / d) < numMass n := by
  obtain ⟨k, rfl⟩ := hdvd
  obtain ⟨hd0, hk⟩ := mul_ne_zero_iff.mp hn
  have hdiv : (((d : Int) * k : Int) : Rat) / d = (k : Int) := by
    push_cast
    field_simp
  have hpos := cardFactors_pos_iff_one_lt.mpr hd
  rw [hdiv, numMass_intCast, numMass_intCast, Int.natAbs_mul, Int.natAbs_natCast,
    cardFactors_mul (by omega) (Int.natAbs_ne_zero.mpr hk)]
  omega

end Numbers

namespace Expr

def opMass (o : Arithmetic) (r : Expr Rat) (m n : Nat) : Nat :=
  match o with
  | .mul => m + n
  | .pow => if r.isNum then max 1 m else m + n + 1
  | .add | .sub | .div => m + n + 1

mutual

def mass : Expr Rat → Nat
  | num v => numMass v
  | op o l r => opMass o r (mass l) (mass r)
  | fn _ as => massArgs as + 1
  | eq l r => mass l + mass r + 1
  | _ => 1

def massArgs : List (Expr Rat) → Nat
  | [] => 0
  | a :: as => mass a + massArgs as

end

section Masses

variable {e l r : Expr Rat}

@[simp] theorem mass_num (v : Rat) : (num v).mass = numMass v := rfl

@[simp] theorem mass_op (o : Arithmetic) : (op o l r).mass = opMass o r l.mass r.mass :=
  rfl

theorem mass_mul (l r : Expr Rat) : (op .mul l r).mass = l.mass + r.mass := mass_op .mul

theorem mass_le_massArgs {as : List (Expr Rat)} : ∀ a ∈ as, a.mass ≤ massArgs as := by
  induction as with
  | nil => simp
  | cons a as ih =>
    intro b hb
    rw [massArgs]
    rcases List.mem_cons.mp hb with rfl | hb
    · omega
    · have := ih b hb
      omega

/-- Numbers apart, no part weighs more than the whole. -/
theorem mass_children (e : Expr Rat) : ∀ c ∈ e.children, c.mass ≤ e.mass ∨ ∃ v, c = num v := by
  cases e with
  | op o l r =>
    simp only [children, List.forall_mem_cons, List.not_mem_nil, false_imp_iff, implies_true,
      and_true, mass_op]
    constructor
    · left
      cases o <;> simp only [opMass]
      case pow => split_ifs <;> omega
      all_goals omega
    · cases r with
      | num v => exact Or.inr ⟨v, rfl⟩
      | _ =>
        left
        cases o <;> simp only [opMass, isNum, Bool.false_eq_true, if_false] <;> omega
  | eq l r =>
    simp only [children, List.forall_mem_cons, List.not_mem_nil, false_imp_iff, implies_true,
      and_true, mass]
    exact ⟨Or.inl (by omega), Or.inl (by omega)⟩
  | fn f as =>
    intro a ha
    rw [children] at ha
    have := mass_le_massArgs a ha
    rw [mass]
    exact Or.inl (by omega)
  | _ => simp [children]

theorem factors_ne_nil (e : Expr Rat) : Term.factors e ≠ [] := by
  fun_induction Term.factors e with
  | case1 l r ihl ihr => simp [ihl]
  | case2 e _ => simp

theorem mass_pos (hnum : e.isNum = false) (hsingle : Term.factors e = [e]) : 0 < e.mass := by
  cases e with
  | num v => simp [isNum] at hnum
  | op o l r =>
    cases o with
    | mul =>
      have hl := List.length_pos_of_ne_nil (factors_ne_nil l)
      have hr := List.length_pos_of_ne_nil (factors_ne_nil r)
      have := congrArg List.length hsingle
      simp only [Term.factors, List.length_append, List.length_singleton] at this
      omega
    | pow =>
      simp only [mass_op, opMass]
      split_ifs <;> omega
    | _ => simp [opMass]
  | _ => exact Nat.succ_pos _

end Masses

end Expr

namespace Term

open RuleAlgebra.Expr RuleAlgebra.Rules

section Terms

def restMass : Option (Expr Rat) → Nat
  | none => 0
  | some e => e.mass

def NumberFree (rest : Option (Expr Rat)) : Prop := ∀ f ∈ factorsOf rest, f.isNum = false

/-- The quotient that writing a fraction takes. -/
def fractionMass : Coefficient Rat → Nat
  | .exact q => if q.den = 1 then 0 else 1
  | .inexact _ => 0

def termMass (t : Term Rat) : Nat :=
  numMass t.coefficient.value + fractionMass t.coefficient + restMass t.rest

theorem mass_split (e : Expr Rat) : e.mass = (((factors e).filterMap number?).map numMass).sum +
    (((factors e).filter (!·.isNum)).map mass).sum := by
  simpa using (sum_factors mass_mul e).symm.trans (sum_split (factors e))

theorem splitNumbers_mass (e : Expr Rat) :
    numMass (splitNumbers e).1 + restMass (splitNumbers e).2 ≤ e.mass ∧
      NumberFree (splitNumbers e).2 := by
  unfold splitNumbers
  split
  · simp [restMass, NumberFree, factorsOf]
  · have hsplit := mass_split e
    have hprod := numMass_prod ((factors e).filterMap number?)
    dsimp only
    split_ifs with hn ho
    · refine ⟨by simp [restMass], fun f hf => ?_⟩
      rw [List.isEmpty_iff, List.filterMap_eq_nil_iff] at hn
      cases f with
      | num v => exact absurd (hn _ hf) (by simp [number?])
      | _ => rfl
    · refine ⟨?_, by simp [NumberFree, factorsOf]⟩
      simp only [foldl_mul_rat, restMass]
      omega
    · rw [List.isEmpty_iff] at ho
      refine ⟨?_, fun f hf => ?_⟩
      · simp only [foldl_mul_rat, restMass, sum_product mass_mul ho]
        omega
      · rw [factorsOf, product_factors ho fun f hf =>
          factors_of_mem_factors (List.mem_of_mem_filter hf)] at hf
        simpa using (List.mem_filter.mp hf).2

theorem fractionMass_ofScalar (v : Rat) : fractionMass (.ofScalar v) = 0 := by
  unfold Coefficient.ofScalar
  split
  · simp [fractionMass]
  · rfl

theorem fractionMass_le (c : Coefficient Rat) : fractionMass c ≤ 1 := by
  cases c with
  | inexact v => simp [fractionMass]
  | exact q =>
    simp only [fractionMass]
    split_ifs <;> omega

theorem split_mass {e : Expr Rat} {v : Rat} {rest : Option (Expr Rat)}
    (h : splitNumbers e = (v, rest)) :
    termMass ⟨.ofScalar v, rest⟩ ≤ e.mass ∧ NumberFree rest := by
  have hsplit := splitNumbers_mass e
  rw [h] at hsplit
  simpa [termMass, fractionMass_ofScalar] using hsplit

theorem ofExpr_mass (e : Expr Rat) :
    ∃ t, ofExpr e = .ok t ∧ termMass t ≤ e.mass ∧ NumberFree t.rest := by
  fun_induction ofExpr e with
  | case1 l r n hn ih =>
    obtain ⟨t, ht, hle, hfree⟩ := ih
    obtain ⟨c, hc, hcv⟩ := t.coefficient.normal.divide_rat n
    obtain ⟨rfl, -⟩ := integerDivisor?_eq_some.mp hn
    refine ⟨{ t with coefficient := c }, by simp only [ht, ok_bind, hc]; rfl, ?_, hfree⟩
    have hdiv := numMass_div t.coefficient.value n
    have hc1 := fractionMass_le c
    simp only [termMass, hcv, Coefficient.value_normal, mass_op, opMass, mass_num] at hle ⊢
    omega
  | case2 l r hn v rest hs => exact ⟨_, rfl, split_mass hs⟩
  | case3 e hne v rest hs => exact ⟨_, rfl, split_mass hs⟩

def termsMass (ts : List (Term Rat)) : Nat := (ts.map fun t => termMass t + 1).sum

@[simp] theorem termsMass_nil : termsMass [] = 0 := rfl

@[simp] theorem termsMass_cons (t : Term Rat) (ts : List (Term Rat)) :
    termsMass (t :: ts) = termMass t + 1 + termsMass ts := by simp [termsMass]

@[simp] theorem termsMass_append (ts us : List (Term Rat)) :
    termsMass (ts ++ us) = termsMass ts + termsMass us := by simp [termsMass]

theorem termMass_scale {sign : Int} (hsign : sign.natAbs = 1) (t : Term Rat) :
    termMass { t with coefficient := t.coefficient.scale sign } = termMass t := by
  obtain ⟨c, rest⟩ := t
  rcases Int.natAbs_eq_iff.mp hsign with rfl | rfl <;> cases c <;>
    simp [termMass, Coefficient.scale, fractionMass]

theorem ofSum_mass {sign : Int} (hsign : sign.natAbs = 1) (e : Expr Rat) :
    ∃ ts, ofSum sign e = .ok ts ∧ termsMass ts ≤ e.mass + 1 ∧ ∀ t ∈ ts, NumberFree t.rest := by
  fun_induction ofSum sign e with
  | case1 sign l r ihl ihr =>
    obtain ⟨ls, hls, wls, fls⟩ := ihl hsign
    obtain ⟨rs, hrs, wrs, frs⟩ := ihr hsign
    refine ⟨ls ++ rs, by simp only [hls, hrs]; rfl, ?_, List.forall_mem_append.mpr ⟨fls, frs⟩⟩
    simp only [termsMass_append, mass_op, opMass]
    omega
  | case2 sign l r ihl ihr =>
    obtain ⟨ls, hls, wls, fls⟩ := ihl hsign
    obtain ⟨rs, hrs, wrs, frs⟩ := ihr (by omega)
    refine ⟨ls ++ rs, by simp only [hls, hrs]; rfl, ?_, List.forall_mem_append.mpr ⟨fls, frs⟩⟩
    simp only [termsMass_append, mass_op, opMass]
    omega
  | case3 sign e _ _ =>
    obtain ⟨t, ht, hle, hfree⟩ := ofExpr_mass e
    refine ⟨[{ t with coefficient := t.coefficient.scale sign }], by simp only [ht]; rfl, ?_, ?_⟩
    · rw [termsMass_cons, termsMass_nil, termMass_scale hsign]
      omega
    · simpa using hfree

end Terms

section Sums

theorem times_mass (v : Rat) (rest : Option (Expr Rat)) :
    (times v rest).mass = numMass v + restMass rest := by
  cases rest with
  | none => simp [times, restMass]
  | some e =>
    by_cases h : v = 1
    · simp [times, restMass, h]
    · simp [times, restMass, h, opMass]

theorem written_mass (t : Term Rat) : (written t).mass = termMass t := by
  obtain ⟨c, rest⟩ := t
  cases c with
  | inexact v => simp [written, times_mass, termMass, fractionMass]
  | exact q =>
    have hparts := numMass_parts q
    simp only [written, termMass, Coefficient.value_exact, fractionMass]
    split_ifs with hd
    · have hden : numMass (q.den : Rat) = 0 := by simp [hd]
      rw [times_mass]
      omega
    · simp only [mass_op, opMass, times_mass, mass_num]
      omega

theorem termMass_neg (t : Term Rat) :
    termMass { t with coefficient := t.coefficient.neg } = termMass t := by
  obtain ⟨c, rest⟩ := t
  cases c <;> simp [termMass, Coefficient.neg, fractionMass]

theorem joined_mass (s : Expr Rat) (t : Term Rat) :
    (joined s t).mass = s.mass + (termMass t + 1) := by
  unfold joined
  split_ifs
  · rw [mass_op, opMass, written_mass, termMass_neg, add_assoc]
  · rw [mass_op, opMass, written_mass, add_assoc]

theorem foldl_joined_mass (ts : List (Term Rat)) (s : Expr Rat) :
    (ts.foldl joined s).mass = s.mass + termsMass ts := by
  induction ts generalizing s with
  | nil => rfl
  | cons t ts ih => rw [List.foldl_cons, ih, joined_mass, termsMass_cons, add_assoc]

/-- What a term adds to the mass of a sum, where it is left out when it is zero. -/
def summandMass (t : Term Rat) : Nat := if t.coefficient.value = 0 then 0 else termMass t + 1

theorem termsMass_filter_nonzero (ts : List (Term Rat)) :
    termsMass (ts.filter (!·.coefficient.isZero)) = (ts.map summandMass).sum := by
  induction ts with
  | nil => rfl
  | cons t ts ih =>
    by_cases hz : t.coefficient.isZero = true
    · simp [hz, ih, summandMass, Coefficient.isZero_iff.mp hz]
    · have hv : t.coefficient.value ≠ 0 := fun h => hz (Coefficient.isZero_iff.mpr h)
      simp [hz, ih, summandMass, hv]

theorem writtenSum_mass (ts : List (Term Rat)) :
    (writtenSum ts).mass = 0 ∨ (writtenSum ts).mass < (ts.map summandMass).sum := by
  rw [← termsMass_filter_nonzero]
  unfold writtenSum
  cases ts.filter (!·.coefficient.isZero) with
  | nil => simp [ofNat]
  | cons u us =>
    simp only [foldl_joined_mass, written_mass, termsMass_cons]
    omega

end Sums

end Term

end RuleAlgebra
