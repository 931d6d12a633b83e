import RuleAlgebra.Proofs.ArithmeticRules
import RuleAlgebra.Proofs.Identities
import RuleAlgebra.Proofs.ReductionCost

/-!
The rules that look at one or two operations lower the cost of whatever they change, except for the
two that only order the factors of a product.
-/

namespace RuleAlgebra.Rules

open RuleAlgebra.Expr

theorem Lowers.ofPure {g : Expr Rat → Expr Rat}
    (h : ∀ e, e.Closed → (g e).Closed ∧ (g e = e ∨ (g e).cost < e.cost)) :
    Lowers fun e => pure (g e) := fun e he => ⟨g e, rfl, h e he⟩

theorem closed_intCast (n : Int) : (num (n : Rat)).Closed := by simp

theorem exists_int {v : Rat} (h : (num v).Closed) : ∃ n : Int, v = n :=
  ⟨v.num, ((Rat.den_eq_one_iff v).mp ((closed_num v).mp h)).symm⟩

section Identities

/-- Whether the skeleton of a rule weighs less than its pattern. -/
def IdentityLowers (r : Rule Rat) : Prop :=
  ∃ p s, r.apply = patternRule p s ∧ (∀ n ∈ s.wildcards, n ∈ p.wildcards) ∧
    ∀ σ, (p.fill σ).Closed → (s.fill σ).Closed ∧ (s.fill σ).weight < (p.fill σ).weight

theorem IdentityLowers.lowers {r : Rule Rat} (h : IdentityLowers r) : Lowers r.apply := by
  obtain ⟨p, s, hr, hs, hv⟩ := h
  intro e he
  rw [hr]
  rcases patternRule_cases hs e with h | ⟨σ, rfl, h⟩
  · exact ⟨e, h, he, Or.inl rfl⟩
  · obtain ⟨hclosed, hweight⟩ := hv σ he
    exact ⟨_, h, hclosed, Or.inr (cost_lt_of_weight hweight)⟩

theorem identityLowers_identity {tags : List String} {name : String} {description : Option String}
    {p s : Expr Rat} (hs : ∀ n ∈ s.wildcards, n ∈ p.wildcards)
    (hv : ∀ σ, (p.fill σ).Closed → (s.fill σ).Closed ∧ (s.fill σ).weight < (p.fill σ).weight) :
    IdentityLowers (identity tags name description p s) := ⟨p, s, rfl, hs, hv⟩

@[simp] theorem fill_ofNat (σ : String → Expr Rat) (n : Nat) :
    (ofNat n : Expr Rat).fill σ = ofNat n := rfl

@[simp] theorem fill_negative (σ : String → Expr Rat) (e : Expr Rat) :
    (negative e).fill σ = negative (e.fill σ) := rfl

theorem arithmeticIdentities_lower :
    ∀ r ∈ (arithmeticIdentities : List (Rule Rat)), IdentityLowers r := by
  simp only [arithmeticIdentities, List.forall_mem_cons, List.not_mem_nil, false_imp_iff,
    implies_true, and_true]
  refine ⟨?_, ?_, ?_, ?_, ?_, ?_, ?_, ?_, ?_, ?_, ?_, ?_, ?_⟩
  all_goals
    refine identityLowers_identity ?_ fun σ hσ => ?_
    · simp [any, sum, difference, product, quotient, power, nat, negative, ofNat, ofInt]
    · have hx := two_le_weight (σ "x")
      simp only [any, sum, difference, product, quotient, power, nat, fill, fill_ofNat,
        fill_negative, closed_op, closed_ofNat, closed_negative, true_and, and_true] at hσ ⊢
      simp only [weight_op, weight_ofNat, weight_negative, opWeight, hσ, true_and]
      omega

theorem identityLowers_of_not_closed {tags : List String} {name : String}
    {description : Option String} {p s : Expr Rat} (hs : ∀ n ∈ s.wildcards, n ∈ p.wildcards)
    (hp : ∀ σ, ¬(p.fill σ).Closed) : IdentityLowers (identity tags name description p s) :=
  identityLowers_identity hs fun σ hσ => absurd hσ (hp σ)

theorem trigonometricIdentities_lower :
    ∀ r ∈ (trigonometricIdentities : List (Rule Rat)), IdentityLowers r := by
  simp only [trigonometricIdentities, List.forall_mem_cons, List.not_mem_nil, false_imp_iff,
    implies_true, and_true]
  refine ⟨?_, ?_, ?_, ?_, ?_, ?_, ?_, ?_, ?_, ?_, ?_, ?_⟩ <;>
    refine identityLowers_of_not_closed ?_ fun σ => ?_
  all_goals simp [any, product, quotient, call, nat, negative, ofNat, ofInt, fill]

theorem exponentialIdentities_lower :
    ∀ r ∈ (exponentialIdentities : List (Rule Rat)), IdentityLowers r := by
  simp only [exponentialIdentities, List.forall_mem_cons, List.not_mem_nil, false_imp_iff,
    implies_true, and_true]
  refine ⟨?_, ?_, ?_, identityLowers_identity ?_ fun σ hσ => ?_, ?_, ?_, ?_⟩
  · exact identityLowers_of_not_closed (by simp [any, call]) fun σ => by simp [call, fill]
  · exact identityLowers_of_not_closed (by simp [any, call, product, sum])
      fun σ => by simp [call, product, fill]
  · exact identityLowers_of_not_closed (by simp [any, call, power])
      fun σ => by simp [call, power, fill]
  · simp [any, quotient, power, difference]
  · have hx := two_le_weight (σ "x")
    simp only [any, quotient, power, difference, fill, closed_op, weight_op, opWeight] at hσ ⊢
    exact ⟨⟨hσ.1.1, hσ.1.2, hσ.2.2⟩, by omega⟩
  all_goals
    refine identityLowers_of_not_closed ?_ fun σ => ?_
    all_goals simp [any, power, call, nat, ofNat, fill]

theorem logarithmicIdentities_lower :
    ∀ r ∈ (logarithmicIdentities : List (Rule Rat)), IdentityLowers r := by
  simp only [logarithmicIdentities, List.forall_mem_cons, List.not_mem_nil, false_imp_iff,
    implies_true, and_true]
  refine ⟨?_, ?_, ?_, ?_, ?_, ?_⟩ <;> refine identityLowers_of_not_closed ?_ fun σ => ?_
  all_goals simp [any, anyNumber, sum, difference, product, quotient, power, call, nat, ofNat, fill]

theorem identities_lower : ∀ r ∈ (identities : List (Rule Rat)), Lowers r.apply := by
  intro r hr
  simp only [identities, List.mem_append] at hr
  rcases hr with ((hr | hr) | hr) | hr
  · exact (arithmeticIdentities_lower r hr).lowers
  · exact (trigonometricIdentities_lower r hr).lowers
  · exact (exponentialIdentities_lower r hr).lowers
  · exact (logarithmicIdentities_lower r hr).lowers

end Identities

section Numbers

theorem numWeight_mul_lt (a b : Rat) : numWeight (a * b) < numWeight a + numWeight b := by
  have ha := two_le_numWeight a
  have hb := two_le_numWeight b
  by_cases hab : a * b < 0
  · have hneg : a < 0 ∨ b < 0 := by
      by_contra hpos
      simp only [not_or, not_lt] at hpos
      exact absurd (mul_nonneg hpos.1 hpos.2) (not_le.mpr hab)
    rcases hneg with h | h <;> simp only [numWeight, hab, h, if_true] at * <;> omega
  · simp only [numWeight, hab, if_false] at *
    omega

theorem numWeight_of_nonneg {v : Rat} (h : 0 ≤ v) : numWeight v = 2 := if_neg (not_lt.mpr h)

theorem numWeight_of_neg {v : Rat} (h : v < 0) : numWeight v = 5 := if_pos h

theorem cost_num_lt (v a b : Rat) {o : Arithmetic} (ho : o ≠ .mul) :
    (num v).cost < (op o (num a) (num b)).cost := by
  have hv := numWeight_le v
  have ha := two_le_numWeight a
  have hb := two_le_numWeight b
  apply cost_lt_of_weight
  cases o <;> simp only [weight_num, weight_op, opWeight] <;> first | omega | exact absurd rfl ho

def signedGcd (m n : Int) : Int := if n < 0 then -(Int.gcd m n : Int) else Int.gcd m n

theorem signedGcd_parts (m : Int) {n : Int} (hn : n ≠ 0) : ∃ p q : Int,
    m = signedGcd m n * p ∧ n = signedGcd m n * q ∧ 0 < q ∧ signedGcd m n ≠ 0 := by
  have hm : signedGcd m n ∣ m := by
    unfold signedGcd
    split_ifs
    · exact (neg_dvd).mpr (Int.gcd_dvd_left m n)
    · exact Int.gcd_dvd_left m n
  have hn' : signedGcd m n ∣ n := by
    unfold signedGcd
    split_ifs
    · exact (neg_dvd).mpr (Int.gcd_dvd_right m n)
    · exact Int.gcd_dvd_right m n
  obtain ⟨p, hp⟩ := hm
  obtain ⟨q, hq⟩ := hn'
  have hg : signedGcd m n ≠ 0 := signedGcd_ne_zero m hn
  refine ⟨p, q, hp, hq, ?_, hg⟩
  unfold signedGcd at hq hg
  split_ifs at hq hg with hneg
  · have hpos : (0 : Int) < Int.gcd m n := by omega
    nlinarith
  · have hpos : (0 : Int) < Int.gcd m n := by omega
    have : 0 < n := by omega
    nlinarith

/-- Parts without their common divisor are smaller numbers, or the second was negative. -/
theorem reduced_parts {m n : Int} (hn : n ≠ 0) (hg : signedGcd m n ≠ 1) : ∃ p q : Int,
    (m : Rat) / (signedGcd m n : Rat) = p ∧ (n : Rat) / (signedGcd m n : Rat) = q ∧ 0 < q ∧
      (n < 0 ∨ (m < 0 ↔ p < 0) ∧ 0 < n ∧ p.natAbs ≤ m.natAbs ∧ q.natAbs < n.natAbs) := by
  obtain ⟨p, q, hp, hq, hpos, hg0⟩ := signedGcd_parts m hn
  have hgR : (signedGcd m n : Rat) ≠ 0 := Int.cast_ne_zero.mpr hg0
  generalize hgcd : signedGcd m n = g at *
  refine ⟨p, q, ?_, ?_, hpos, ?_⟩
  · rw [hp, Int.cast_mul, mul_div_cancel_left₀ _ hgR]
  · rw [hq, Int.cast_mul, mul_div_cancel_left₀ _ hgR]
  · by_cases hneg : n < 0
    · exact Or.inl hneg
    · have hg2 : 2 ≤ g := by
        have hnonneg : 0 ≤ g := by
          rw [← hgcd, signedGcd, if_neg hneg]
          exact Int.natCast_nonneg _
        omega
      refine Or.inr ⟨?_, by omega, ?_, ?_⟩
      · rw [hp]
        constructor
        · intro h
          by_contra hp0
          nlinarith
        · intro h
          nlinarith
      · rw [hp, Int.natAbs_mul]
        exact Nat.le_mul_of_pos_left _ (by omega)
      · rw [hq, Int.natAbs_mul]
        have hg2' : 2 ≤ g.natAbs := by omega
        have hq' : 0 < q.natAbs := by omega
        nlinarith

theorem numWeight_intCast (n : Int) : numWeight (n : Rat) = if n < 0 then 5 else 2 := by
  simp [numWeight]

theorem foldQuotient?_lowers {m n : Int} {d : Expr Rat}
    (h : foldQuotient? (m : Rat) (n : Rat) m n = some d) :
    d.Closed ∧ d.cost < (op .div (num (m : Rat)) (num (n : Rat))).cost := by
  by_cases hn : n = 0
  · simp [foldQuotient?, hn] at h
  simp only [foldQuotient?, hn, if_false] at h
  change (if m % n = 0 then _ else if signedGcd m n = 1 then none else some (Expr.op .div
    (num ((m : Rat) / Scalar.ofInt (signedGcd m n)))
    (num ((n : Rat) / Scalar.ofInt (signedGcd m n))))) = some d at h
  split_ifs at h with hmod hg
  · obtain rfl := Option.some.inj h
    obtain ⟨k, hk⟩ := Int.dvd_of_emod_eq_zero hmod
    have hquotient : (m : Rat) / n = (k : Int) := by
      rw [hk, Int.cast_mul, mul_div_cancel_left₀ _ (Int.cast_ne_zero.mpr hn)]
    rw [hquotient]
    exact ⟨closed_intCast k, cost_num_lt _ _ _ (by simp)⟩
  · obtain rfl := Option.some.inj h
    obtain ⟨p, q, hp, hq, hpos, hsmaller⟩ := reduced_parts hn hg
    rw [Scalar.ofInt_rat, hp, hq]
    refine ⟨by simp, ?_⟩
    rw [cost_lt]
    simp only [weight_op, weight_num, size_op, size_num, opWeight, opSize, numWeight_intCast,
      Rat.num_intCast]
    rcases hsmaller with hneg | ⟨hsign, hn0, hpm, hqn⟩
    · left
      simp only [hneg, if_true, not_lt.mpr hpos.le, if_false]
      split_ifs <;> omega
    · right
      simp only [hsign, not_lt.mpr hpos.le, not_lt.mpr hn0.le, if_false, true_and]
      omega

theorem foldReciprocal_eq {m : Int} (hm : m ≠ 0) (k : Nat) :
    foldReciprocal (m : Rat) ((-k : Int) : Rat) =
      .ok (some (op .div (ofNat 1) (num ((m ^ k : Int) : Rat)))) := by
  have hm' : (m : Rat) ≠ 0 := Int.cast_ne_zero.mpr hm
  have hp : Scalar.power? (m : Rat) (k : Rat) = some ((m : Rat) ^ k) :=
    Rational.power?_eq_some.mpr ⟨⟨by simp, Or.inl hm'⟩, by simp⟩
  simp [foldReciprocal, hm, hp]
  rfl

theorem power_value? (m : Int) (k : Nat) :
    Arithmetic.pow.value? (m : Rat) ((k : Int) : Rat) = some ((m ^ k : Int) : Rat) := by
  have hp : Scalar.power? (m : Rat) ((k : Int) : Rat) = some ((m ^ k : Int) : Rat) :=
    Rational.power?_eq_some.mpr ⟨⟨by simp, Or.inr (by simp)⟩, by simp⟩
  simp only [Arithmetic.value?, hp, Option.bind_some, Scalar.finite?_rat]

theorem foldReciprocal_lowers (m : Int) {n : Int} (hn : n < 0) :
    ∃ r, foldReciprocal (m : Rat) (n : Rat) = .ok r ∧
      ∀ d ∈ r, d.Closed ∧ d.cost < (op .pow (num (m : Rat)) (num (n : Rat))).cost := by
  by_cases hm : m = 0
  · exact ⟨none, by simp [foldReciprocal, hm]; rfl, by simp⟩
  · obtain ⟨k, rfl⟩ : ∃ k : Nat, n = -k := ⟨n.natAbs, by omega⟩
    refine ⟨_, foldReciprocal_eq hm k, ?_⟩
    rintro d ⟨⟩
    refine ⟨⟨by simp, closed_intCast _⟩, cost_lt_of_weight ?_⟩
    have hw : m < 0 ∨ 0 ≤ m ^ k := by
      by_contra h
      simp only [not_or, not_lt] at h
      exact h.2 (pow_nonneg h.1 k)
    simp only [weight_op, weight_num, weight_ofNat, opWeight, numWeight_intCast, hn, if_true]
    rcases hw with hw | hw
    · simp only [hw, if_true]
      split_ifs <;> omega
    · simp only [not_lt.mpr hw, if_false]
      split_ifs <;> omega

theorem foldOperation_lowers (o : Arithmetic) (m n : Int) :
    ∃ r, foldOperation o (m : Rat) (n : Rat) = .ok r ∧
      ∀ d ∈ r, d.Closed ∧ d.cost < (op o (num (m : Rat)) (num (n : Rat))).cost := by
  have byValue (k : Int) (hk : (num (k : Rat)).cost < (op o (num (m : Rat)) (num (n : Rat))).cost) :
      ∀ d ∈ some (num (k : Rat)),
        d.Closed ∧ d.cost < (op o (num (m : Rat)) (num (n : Rat))).cost := by
    rintro d ⟨⟩
    exact ⟨closed_intCast k, hk⟩
  unfold foldOperation
  rw [Scalar.toInt?_intCast, Scalar.toInt?_intCast]
  cases o with
  | add =>
    exact ⟨some (num ((m + n : Int) : Rat)), by simp [Arithmetic.value?, pure, Except.pure],
      byValue _ (cost_num_lt _ _ _ (by simp))⟩
  | sub =>
    exact ⟨some (num ((m - n : Int) : Rat)), by simp [Arithmetic.value?, pure, Except.pure],
      byValue _ (cost_num_lt _ _ _ (by simp))⟩
  | mul =>
    refine ⟨some (num ((m * n : Int) : Rat)), by simp [Arithmetic.value?, pure, Except.pure],
      byValue _ (cost_lt_of_weight ?_)⟩
    simpa [opWeight] using numWeight_mul_lt m n
  | div => exact ⟨foldQuotient? m n m n, rfl, fun d hd => foldQuotient?_lowers hd⟩
  | pow =>
    dsimp only
    split_ifs with hn
    · exact foldReciprocal_lowers m hn
    · obtain ⟨k, rfl⟩ : ∃ k : Nat, n = k := ⟨n.toNat, by omega⟩
      refine ⟨some (num ((m ^ k : Int) : Rat)), ?_, byValue _ (cost_num_lt _ _ _ (by simp))⟩
      rw [power_value?]
      rfl

theorem foldConstants_lowers : Lowers foldConstants := by
  intro e he
  unfold foldConstants
  split
  · rename_i o a b
    rw [closed_op] at he
    obtain ⟨m, rfl⟩ := exists_int he.1
    obtain ⟨n, rfl⟩ := exists_int he.2
    obtain ⟨r, hr, hd⟩ := foldOperation_lowers o m n
    rw [hr, ok_bind]
    cases r with
    | none => exact ⟨_, rfl, by simp, Or.inl rfl⟩
    | some d => exact ⟨d, rfl, (hd d rfl).1, Or.inr (hd d rfl).2⟩
  · simp at he
  · exact ⟨_, rfl, he, Or.inl rfl⟩

end Numbers

section Fractions

theorem fraction?_weight {e : Expr Rat} {q : Rat} (h : fraction? e = some q)
    (hnum : e.isNum = false) : 10 ≤ e.weight := by
  unfold fraction? at h
  split at h
  · simp [isNum] at hnum
  · rename_i a b
    have ha := two_le_numWeight a
    have hb := two_le_numWeight b
    simp only [weight_op, weight_num, opWeight]
    omega
  · cases h

theorem written_number (q : Rat) : (Term.written ⟨.exact q, none⟩).Closed ∧
    (Term.written ⟨.exact q, none⟩).weight ≤ 13 := by
  have hnum := numWeight_le (q.num : Rat)
  have hden := numWeight_of_nonneg (Nat.cast_nonneg (α := Rat) q.den)
  simp only [Term.written, Term.times]
  split_ifs
  · exact ⟨closed_intCast _, by rw [weight_num]; omega⟩
  · refine ⟨by simp, ?_⟩
    simp only [weight_op, weight_num, opWeight, hden]
    omega

theorem fractions_weight {o : Arithmetic} {l r : Expr Rat} {p q : Rat} (ho : o.isAdditive = true)
    (hp : fraction? l = some p) (hq : fraction? r = some q) (hlr : (l.isNum && r.isNum) = false) :
    18 ≤ (op o l r).weight := by
  have hl := two_le_weight l
  have hr := two_le_weight r
  have hten : 10 ≤ l.weight ∨ 10 ≤ r.weight := by
    cases hnum : l.isNum with
    | false => exact Or.inl (fraction?_weight hp hnum)
    | true => exact Or.inr (fraction?_weight hq (by simpa [hnum] using hlr))
  cases o <;> simp only [Arithmetic.isAdditive, Bool.false_eq_true] at ho <;>
    simp only [weight_op, opWeight] <;> omega

theorem addFractions_lowers : Lowers addFractions := by
  intro e he
  obtain h | ⟨o, l, r, p, q, rfl, ho, hnum, hp, hq, h⟩ := addFractions_cases e
  · exact ⟨e, h, he, Or.inl rfl⟩
  · obtain ⟨hclosed, hweight⟩ := written_number (if o = .add then p + q else p - q)
    have hweight' := fractions_weight ho hp hq hnum
    exact ⟨_, h.trans (Term.toExpr_rat _), hclosed, Or.inr (cost_lt_of_weight (by omega))⟩

end Fractions

section Products

theorem constantFirst_keepsCost : KeepsCost fun e => pure (constantFirst e) := by
  intro e he
  refine ⟨constantFirst e, rfl, ?_⟩
  unfold constantFirst
  split
  · split_ifs
    · exact ⟨he, rfl⟩
    · rw [closed_op] at he
      refine ⟨by rw [closed_op]; exact he.symm, ?_⟩
      rw [cost_eq]
      simp [opWeight, opSize, add_comm, mul_comm]
  · exact ⟨he, rfl⟩

theorem associateProducts_keepsCost : KeepsCost fun e => pure (associateProducts e) := by
  intro e he
  refine ⟨associateProducts e, rfl, ?_⟩
  unfold associateProducts
  split
  · simp only [closed_op] at he
    refine ⟨by simp [he], ?_⟩
    rw [cost_eq]
    simp [opWeight, opSize, add_assoc, mul_assoc]
  · exact ⟨he, rfl⟩

theorem mergeCoefficients_lowers : Lowers fun e => pure (mergeCoefficients e) := by
  apply Lowers.ofPure
  intro e he
  unfold mergeCoefficients
  split
  · rename_i a b r
    simp only [closed_op] at he
    obtain ⟨m, rfl⟩ := exists_int he.1
    obtain ⟨n, rfl⟩ := exists_int he.2.1
    have hlt := numWeight_mul_lt (m : Rat) n
    refine ⟨?_, Or.inr (cost_lt_of_weight ?_)⟩
    · rw [closed_op, ← Int.cast_mul]
      exact ⟨closed_intCast _, he.2.2⟩
    · simp only [weight_op, weight_num, opWeight]
      omega
  · exact ⟨he, Or.inl rfl⟩

theorem multiplyFractions_lowers : Lowers fun e => pure (multiplyFractions e) := by
  apply Lowers.ofPure
  intro e he
  unfold multiplyFractions
  split
  · rename_i a n d
    simp only [closed_op] at he
    refine ⟨by simp [he], Or.inr (cost_lt.mpr (Or.inr ?_))⟩
    have ha := two_le_size a
    have hd := two_le_size d
    simp only [weight_op, opWeight, size_op, opSize]
    constructor
    · omega
    · nlinarith
  · rename_i n d b _
    simp only [closed_op] at he
    refine ⟨by simp [he], Or.inr (cost_lt.mpr (Or.inr ?_))⟩
    have hb := two_le_size b
    have hd := two_le_size d
    simp only [weight_op, opWeight, size_op, opSize]
    constructor
    · omega
    · nlinarith
  · exact ⟨he, Or.inl rfl⟩

end Products

section Quotients

theorem zeroNumerator_lowers : Lowers fun e => pure (zeroNumerator e) := by
  apply Lowers.ofPure
  intro e he
  unfold zeroNumerator
  split
  · rename_i l r
    split_ifs
    · have hl := two_le_weight l
      refine ⟨by simp, Or.inr (cost_lt_of_weight ?_)⟩
      simp only [weight_op, weight_ofNat, opWeight]
      omega
    · exact ⟨he, Or.inl rfl⟩
  · exact ⟨he, Or.inl rfl⟩

theorem selfDivision_lowers : Lowers fun e => pure (selfDivision e) := by
  apply Lowers.ofPure
  intro e he
  unfold selfDivision
  split
  · rename_i l r
    split_ifs
    · have hl := two_le_weight l
      refine ⟨by simp, Or.inr (cost_lt_of_weight ?_)⟩
      simp only [weight_op, weight_ofNat, opWeight]
      omega
    · exact ⟨he, Or.inl rfl⟩
  · exact ⟨he, Or.inl rfl⟩

theorem nestedFractions_lowers : Lowers fun e => pure (nestedFractions e) := by
  apply Lowers.ofPure
  intro e he
  unfold nestedFractions
  split
  · simp only [closed_op] at he
    refine ⟨by simp [he], Or.inr (cost_lt_of_weight ?_)⟩
    simp only [weight_op, opWeight]
    omega
  · rename_i a b c _
    simp only [closed_op] at he
    refine ⟨by simp [he], Or.inr (cost_lt_of_weight ?_)⟩
    simp only [weight_op, opWeight]
    omega
  · exact ⟨he, Or.inl rfl⟩

theorem powerOfPower_lowers : Lowers fun e => pure (powerOfPower e) := by
  apply Lowers.ofPure
  intro e he
  unfold powerOfPower
  split
  · split_ifs
    · simp only [closed_op] at he
      refine ⟨by simp [he], Or.inr (cost_lt_of_weight ?_)⟩
      simp only [weight_op, opWeight]
      omega
    · exact ⟨he, Or.inl rfl⟩
  · exact ⟨he, Or.inl rfl⟩

end Quotients

section Signs

theorem Negates.lowers {e d : Expr Rat} (h : Negates e d) (he : e.Closed) :
    d.Closed ∧ d.weight < e.weight := by
  cases h with
  | @number v hv =>
    have hneg : v < 0 := by simpa using hv
    simp only [closed_num, Rat.den_neg_eq_den, weight_num, numWeight_of_neg hneg,
      numWeight_of_nonneg (neg_nonneg.mpr hneg.le)] at he ⊢
    exact ⟨he, by omega⟩
  | @unit v _ r =>
    rw [closed_op] at he
    have hweight := two_le_numWeight v
    simp only [weight_op, weight_num, opWeight]
    exact ⟨he.2, by omega⟩
  | @product v hv r =>
    have hneg : v < 0 := by simpa using hv
    simp only [closed_op, closed_num, Rat.den_neg_eq_den, weight_op, weight_num, opWeight,
      numWeight_of_neg hneg, numWeight_of_nonneg (neg_nonneg.mpr hneg.le)] at he ⊢
    exact ⟨he, by omega⟩

theorem flipped_lowers {o : Arithmetic} {l r d : Expr Rat} (ho : o.isAdditive = true)
    (hl : l.Closed) (hd : d.Closed) (hweight : d.weight < r.weight) :
    (op (flipped o) l d).Closed ∧ (op (flipped o) l d).cost < (op o l r).cost := by
  refine ⟨by simp [hl, hd], cost_lt_of_weight ?_⟩
  cases o <;> simp only [Arithmetic.isAdditive, Bool.false_eq_true] at ho <;>
    simp only [flipped, weight_op, opWeight] <;> omega

theorem normalizeSigns_lowers : Lowers fun e => pure (normalizeSigns e) := by
  apply Lowers.ofPure
  intro e he
  obtain hkept | hd := normalizeSigns_cases e
  · rw [hkept]
    exact ⟨he, Or.inl rfl⟩
  · generalize normalizeSigns e = d at hd ⊢
    cases hd with
    | operand ho l hr =>
      rw [closed_op] at he
      obtain ⟨hclosed, hweight⟩ := hr.lowers he.2
      obtain ⟨hc, hlt⟩ := flipped_lowers ho he.1 hclosed hweight
      exact ⟨hc, Or.inr hlt⟩
    | @numerator o ho l n n' hn d =>
      simp only [closed_op] at he
      obtain ⟨hclosed, hweight⟩ := hn.lowers he.2.1
      obtain ⟨hc, hlt⟩ := flipped_lowers (r := op .div n d) (d := op .div n' d) ho he.1
        (by simp [hclosed, he.2.2]) (by simpa [opWeight] using hweight)
      exact ⟨hc, Or.inr hlt⟩

end Signs

end RuleAlgebra.Rules
