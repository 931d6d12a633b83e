import RuleAlgebra.Proofs.TermValues
import RuleAlgebra.Rules.Arithmetic

/-!
The rules of arithmetic keep the value of every expression.
-/

namespace RuleAlgebra.Rules

open RuleAlgebra.Expr

variable {K : Type*} [Field K] {I : Interpretation K}

theorem signedGcd_ne_zero (m : Int) {n : Int} (hn : n ≠ 0) :
    (if n < 0 then -(Int.gcd m n : Int) else Int.gcd m n) ≠ 0 := by
  have hg : (Int.gcd m n : Int) ≠ 0 := by
    exact_mod_cast fun h0 => hn (Int.gcd_eq_zero_iff.mp h0).2
  split_ifs
  · exact neg_ne_zero.mpr hg
  · exact hg

section Folding

variable [CharZero K]

theorem value?_refines (hI : I.PowerLaws) {o : Arithmetic} {a b c : Rat}
    (h : o.value? a b = some c) : Refines I (.op o (num a) (num b)) (num c) := by
  intro hd
  refine ⟨defined_num I c, ?_⟩
  cases o with
  | add =>
    obtain rfl := Option.some.inj h
    simp
  | sub =>
    obtain rfl := Option.some.inj h
    simp
  | mul =>
    obtain rfl := Option.some.inj h
    simp
  | div =>
    simp only [Arithmetic.value?, Scalar.zero_rat, Scalar.beq_rat, decide_eq_true_eq,
      Scalar.finite?_rat, Option.ite_none_left_eq_some, Option.some.injEq] at h
    simp [← h.2]
  | pow =>
    have hp : Scalar.power? a b = some c := by
      simpa [Arithmetic.value?, Option.bind_eq_some_iff] using h
    simp [hI.number hp]

theorem foldQuotient?_refines {m n : Int} {d : Expr Rat}
    (h : foldQuotient? (m : Rat) (n : Rat) m n = some d) :
    Refines I (.op .div (num (m : Rat)) (num (n : Rat))) d := by
  by_cases hn : n = 0
  · simp [foldQuotient?, hn] at h
  · have hg0 := signedGcd_ne_zero m hn
    simp only [foldQuotient?, hn, if_false] at h
    generalize (if n < 0 then -(Int.gcd m n : Int) else Int.gcd m n) = g at h hg0
    split_ifs at h with hmod hg
    · obtain rfl := Option.some.inj h
      intro _
      simp
    · obtain rfl := Option.some.inj h
      intro _
      have hgK : (g : K) ≠ 0 := Int.cast_ne_zero.mpr hg0
      refine ⟨by simp [hg0, hn], ?_⟩
      simp [div_div_div_cancel_right₀ hgK]

theorem foldReciprocal_spec (hI : I.PowerLaws) (a : Rat) (n : Int) :
    ∃ r, foldReciprocal a (n : Rat) = .ok r ∧
      ∀ d ∈ r, Refines I (.op .pow (num a) (num (n : Rat))) d := by
  by_cases ha : a = 0
  · exact ⟨none, by simp [foldReciprocal, ha]; rfl, by simp⟩
  · have hp : Scalar.power? a (-(n : Rat)) = some (a ^ (-n)) := by
      refine Rational.power?_eq_some.mpr ⟨⟨by simp, Or.inl ha⟩, by simp⟩
    refine ⟨some (.op .div (ofNat 1) (num (a ^ (-n)))), by simp [foldReciprocal, ha, hp]; rfl, ?_⟩
    rintro d ⟨⟩ -
    have hv : Rational.power? a (n : Rat) = some (a ^ n) :=
      Rational.power?_eq_some.mpr ⟨⟨by simp, Or.inl ha⟩, by simp⟩
    have hpow : (a : K) ^ n ≠ 0 := zpow_ne_zero n (Rat.cast_ne_zero.mpr ha)
    refine ⟨by simp [hpow], ?_⟩
    rw [eval_pow, eval_num, eval_num, hI.number hv]
    simp

theorem foldOperation_spec (hI : I.PowerLaws) (o : Arithmetic) (a b : Rat) :
    ∃ r, foldOperation o a b = .ok r ∧ ∀ d ∈ r, Refines I (.op o (num a) (num b)) d := by
  have byValue : ∀ d ∈ (o.value? a b).map num, Refines I (.op o (num a) (num b)) d := by
    intro d hd
    obtain ⟨c, hc, rfl⟩ := Option.map_eq_some_iff.mp hd
    exact value?_refines hI hc
  unfold foldOperation
  split
  · rename_i m n hm hn
    obtain rfl := Scalar.toInt?_eq_some.mp hm
    obtain rfl := Scalar.toInt?_eq_some.mp hn
    exact ⟨_, rfl, fun d hd => foldQuotient?_refines hd⟩
  · rename_i n _ hn
    obtain rfl := Scalar.toInt?_eq_some.mp hn
    split_ifs with hneg
    · exact foldReciprocal_spec hI a n
    · exact ⟨_, rfl, byValue⟩
  · rename_i hb
    -- over fractions no power has a value when the exponent is no integer
    have hnone : Arithmetic.pow.value? a b = none := by
      rw [Option.eq_none_iff_forall_ne_some]
      intro c hc
      have hp : Scalar.power? a b = some c := by
        simpa [Arithmetic.value?, Option.bind_eq_some_iff] using hc
      have hden := (Rational.power?_eq_some.mp hp).1.1
      simp [Scalar.toInt?, hden] at hb
    simp only [hnone]
    exact ⟨none, rfl, by simp⟩
  · exact ⟨_, rfl, byValue⟩

theorem foldConstants_keepsValue_of (hI : I.PowerLaws) (hfold : ∀ f args, ∃ r,
    foldFunction f args = .ok r ∧ ∀ d ∈ r, Refines I (.fn f args) d) :
    KeepsValue I foldConstants := by
  intro e
  unfold foldConstants
  split
  · rename_i o a b
    obtain ⟨r, hr, hd⟩ := foldOperation_spec hI o a b
    refine ⟨r.getD (.op o (num a) (num b)), by simp only [hr]; rfl, ?_⟩
    cases r with
    | none => exact Refines.refl _
    | some d => exact hd d rfl
  · rename_i f args
    obtain ⟨r, hr, hd⟩ := hfold f args
    refine ⟨r.getD (.fn f args), by simp only [hr]; rfl, ?_⟩
    cases r with
    | none => exact Refines.refl _
    | some d => exact hd d rfl
  · exact ⟨e, rfl, Refines.refl e⟩

theorem foldConstants_keepsValue (hI : I.PowerLaws) (hcall : ∀ f vs, ¬I.CallDefined f vs) :
    KeepsValue I foldConstants := by
  apply foldConstants_keepsValue_of hI
  intro f args
  obtain ⟨r, hr⟩ : ∃ r, foldFunction f args = (.ok r : Except Failure _) := by
    unfold foldFunction nearIntegerNumber?
    split
    · split
      · split
        · exact ⟨_, rfl⟩
        · exact ⟨_, rfl⟩
      · exact ⟨_, rfl⟩
    · exact ⟨_, rfl⟩
  exact ⟨r, hr, fun d _ h => absurd ((defined_fn I f args).mp h).2 (hcall f _)⟩

end Folding

section Fractions

variable [CharZero K]

theorem fraction?_eval {e : Expr Rat} {q : Rat} (h : fraction? e = some q) :
    e.eval I = q := by
  unfold fraction? at h
  split at h
  · simp only [Option.map_id', Option.pure_def, Option.bind_eq_bind, Option.bind_eq_some_iff,
      Scalar.toInt?_eq_some, Option.some.injEq] at h
    obtain ⟨n, rfl, rfl⟩ := h
    simp
  · split at h
    · rename_i hm hn
      simp only [Option.ite_none_left_eq_some, Option.some.injEq] at h
      simp [Scalar.toInt?_eq_some.mp hm, Scalar.toInt?_eq_some.mp hn, ← h.2]
    · cases h
  · cases h

theorem addFractions_cases {α : Type} [Scalar α] (e : Expr α) : addFractions e = .ok e ∨
    ∃ o l r p q, e = .op o l r ∧ o.isAdditive = true ∧ (l.isNum && r.isNum) = false ∧
      fraction? l = some p ∧ fraction? r = some q ∧
      addFractions e = Term.toExpr ⟨.exact (if o = .add then p + q else p - q), none⟩ := by
  unfold addFractions
  split
  · rename_i o l r
    split
    · exact Or.inl rfl
    · rename_i hskip
      simp only [Bool.not_eq_true, Bool.or_eq_false_iff, Bool.not_eq_false'] at hskip
      split
      · rename_i p q hp hq
        exact Or.inr ⟨o, l, r, p, q, rfl, hskip.1, hskip.2, hp, hq, rfl⟩
      · exact Or.inl rfl
  · exact Or.inl rfl

theorem addFractions_keepsValue : KeepsValue I addFractions := by
  intro e
  obtain h | ⟨o, l, r, p, q, rfl, ho, -, hp, hq, h⟩ := addFractions_cases e
  · exact ⟨e, h, Refines.refl e⟩
  · refine ⟨_, h.trans (Term.toExpr_rat _), fun _ => ⟨Term.written_defined I trivial, ?_⟩⟩
    rw [Term.written_eval]
    cases o with
    | add => simp [Term.eval, Term.restEval, fraction?_eval hp, fraction?_eval hq]
    | sub => simp [Term.eval, Term.restEval, fraction?_eval hp, fraction?_eval hq]
    | _ => simp [Arithmetic.isAdditive] at ho

end Fractions

section Signs

theorem constantFirst_refines (e : Expr Rat) : Refines I e (constantFirst e) := by
  unfold constantFirst
  split
  · rename_i l v
    split_ifs
    · exact Refines.refl _
    · intro h
      simp only [defined_mul, defined_num, and_true] at h
      exact ⟨by simp [h], by simp [mul_comm]⟩
  · exact Refines.refl e

theorem mergeCoefficients_refines [CharZero K] (e : Expr Rat) :
    Refines I e (mergeCoefficients e) := by
  unfold mergeCoefficients
  split
  · intro h
    exact ⟨by simpa using h, by simp [mul_assoc]⟩
  · exact Refines.refl e

theorem zeroNumerator_refines [CharZero K] (e : Expr Rat) : Refines I e (zeroNumerator e) := by
  unfold zeroNumerator
  split
  · split_ifs with h0
    · simp only [Bool.and_eq_true, isNumber_iff] at h0
      intro _
      simp [h0.1]
    · exact Refines.refl _
  · exact Refines.refl e

/-- A negative number, or a product with one in front, and what it is the negation of. -/
inductive Negates {α : Type} [Scalar α] : Expr α → Expr α → Prop
  | number {v : α} (hv : Scalar.lt v Scalar.zero = true) : Negates (num v) (num (-v))
  | unit {v : α} (hone : (-v == Scalar.one) = true) (r : Expr α) :
    Negates (.op .mul (num v) r) r
  | product {v : α} (hv : Scalar.lt v Scalar.zero = true) (r : Expr α) :
    Negates (.op .mul (num v) r) (.op .mul (num (-v)) r)

theorem negates_of_negated? {α : Type} [Scalar α] {e d : Expr α}
    (h : Rules.negated? e = some d) : Negates e d := by
  unfold Rules.negated? at h
  split at h
  · split_ifs at h with hv
    obtain rfl := Option.some.inj h
    exact .number hv
  · split_ifs at h with hv hone
    · obtain rfl := Option.some.inj h
      exact .unit hone _
    · obtain rfl := Option.some.inj h
      exact .product hv _
  · cases h

theorem Negates.spec [CharZero K] {e d : Expr Rat} (h : Negates e d) :
    d.eval I = -e.eval I ∧ (d.Defined I ↔ e.Defined I) := by
  cases h with
  | number _ => simp
  | @unit v hone r =>
    have hv : v = -1 := by
      rw [Scalar.beq_rat, decide_eq_true_eq, Scalar.one_rat] at hone
      linarith
    simp [hv]
  | product _ r => simp

/-- Subtracting the negation of an expression adds it, and the other way round. -/
theorem flipped_refines {o : Arithmetic} {l r d : Expr Rat} (ho : o.isAdditive = true)
    (hv : d.eval I = -r.eval I) (hd : d.Defined I ↔ r.Defined I) :
    Refines I (.op o l r) (.op (flipped o) l d) := by
  intro h
  cases o with
  | add =>
    simp only [defined_add] at h
    exact ⟨by simp [flipped, hd, h], by simp [flipped, hv]⟩
  | sub =>
    simp only [defined_sub] at h
    refine ⟨by simp [flipped, hd, h], by simp [flipped, hv, sub_eq_add_neg]⟩
  | _ => simp [Arithmetic.isAdditive] at ho

/-- The second operand of a sum or difference, or its numerator, is a negation. -/
inductive Flips {α : Type} [Scalar α] : Expr α → Expr α → Prop
  | operand {o : Arithmetic} (ho : o.isAdditive = true) (l : Expr α) {r r' : Expr α}
    (hr : Negates r r') : Flips (.op o l r) (.op (flipped o) l r')
  | numerator {o : Arithmetic} (ho : o.isAdditive = true) (l : Expr α) {n n' : Expr α}
    (hn : Negates n n') (d : Expr α) :
    Flips (.op o l (.op .div n d)) (.op (flipped o) l (.op .div n' d))

theorem normalizeSigns_cases {α : Type} [Scalar α] (e : Expr α) :
    normalizeSigns e = e ∨ Flips e (normalizeSigns e) := by
  unfold normalizeSigns
  split
  · split_ifs with ho
    · exact Or.inl rfl
    · simp only [Bool.not_eq_true, Bool.not_eq_false'] at ho
      split
      · split
        · rename_i hn
          exact Or.inr (.numerator ho _ (negates_of_negated? hn) _)
        · exact Or.inl rfl
      · split
        · rename_i hr
          exact Or.inr (.operand ho _ (negates_of_negated? hr))
        · exact Or.inl rfl
  · exact Or.inl rfl

theorem normalizeSigns_refines [CharZero K] (e : Expr Rat) : Refines I e (normalizeSigns e) := by
  obtain h | h := normalizeSigns_cases e
  · rw [h]
    exact Refines.refl e
  · generalize normalizeSigns e = d at h ⊢
    cases h with
    | operand ho l hr =>
      obtain ⟨hv, hd⟩ := hr.spec (I := I)
      exact flipped_refines ho hv hd
    | numerator ho l hn d =>
      obtain ⟨hv, hd⟩ := hn.spec (I := I)
      exact flipped_refines ho (by simp [hv, neg_div]) (by simp [hd])

end Signs

end RuleAlgebra.Rules
