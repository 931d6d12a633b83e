import RuleAlgebra.Proofs.Instantiation
import RuleAlgebra.Proofs.Interpretation
import RuleAlgebra.Rules.Standard

/-!
The rules that are given by pattern and skeleton keep the value of every expression without
functions.
-/

namespace RuleAlgebra.Rules

open RuleAlgebra.Expr

variable {K : Type*} [Field K] {I : Interpretation K}

/-- Whether the skeleton of a rule has a value wherever its pattern has one, and the same. -/
def IdentityHolds (I : Interpretation K) (r : Rule Rat) : Prop :=
  ∃ p s, r.apply = patternRule p s ∧ (∀ n ∈ s.wildcards, n ∈ p.wildcards) ∧
    ∀ σ, Refines I (p.fill σ) (s.fill σ)

theorem IdentityHolds.keepsValue {r : Rule Rat} (h : IdentityHolds I r) :
    KeepsValue I r.apply := by
  obtain ⟨p, s, hr, hs, hv⟩ := h
  intro e
  rw [hr]
  rcases patternRule_cases hs e with h | ⟨σ, rfl, h⟩
  · exact ⟨e, h, Refines.refl e⟩
  · exact ⟨_, h, hv σ⟩

theorem identityHolds_identity {tags : List String} {name : String} {description : Option String}
    {p s : Expr Rat} (hs : ∀ n ∈ s.wildcards, n ∈ p.wildcards)
    (hv : ∀ σ, Refines I (p.fill σ) (s.fill σ)) :
    IdentityHolds I (identity tags name description p s) := ⟨p, s, rfl, hs, hv⟩

/-- An identity whose pattern calls a function holds where no call is defined. -/
theorem identityHolds_of_undefined {tags : List String} {name : String}
    {description : Option String} {p s : Expr Rat} (hs : ∀ n ∈ s.wildcards, n ∈ p.wildcards)
    (hp : ∀ σ, ¬(p.fill σ).Defined I) : IdentityHolds I (identity tags name description p s) :=
  identityHolds_identity hs fun σ hd => absurd hd (hp σ)

theorem arithmeticIdentities_hold [CharZero K] (hI : I.PowerLaws) :
    ∀ r ∈ (arithmeticIdentities : List (Rule Rat)), IdentityHolds I r := by
  have pow_zero (u : K) : I.power u 0 = 1 := by simpa using (hI.nat u 0).2
  have pow_one (u : K) : I.power u 1 = u := by simpa using (hI.nat u 1).2
  simp only [arithmeticIdentities, List.forall_mem_cons, List.not_mem_nil, false_imp_iff,
    implies_true, and_true]
  refine ⟨?_, ?_, ?_, ?_, ?_, ?_, ?_, ?_, ?_, ?_, ?_, ?_, ?_⟩ <;>
    refine identityHolds_identity ?_ fun σ => ?_
  all_goals simp +contextual [any, sum, difference, product, quotient, power, nat, negative, ofNat,
    ofInt, fill, Refines, pow_zero, pow_one, hI.one_base]

theorem trigonometricIdentities_hold (hcall : ∀ f vs, ¬I.CallDefined f vs) :
    ∀ r ∈ (trigonometricIdentities : List (Rule Rat)), IdentityHolds I r := by
  simp only [trigonometricIdentities, List.forall_mem_cons, List.not_mem_nil, false_imp_iff,
    implies_true, and_true]
  refine ⟨?_, ?_, ?_, ?_, ?_, ?_, ?_, ?_, ?_, ?_, ?_, ?_⟩ <;>
    refine identityHolds_of_undefined ?_ fun σ => ?_
  all_goals simp [any, product, quotient, call, nat, negative, ofNat, ofInt, fill, hcall]

theorem quotientOfPowers_refines (hI : I.PowerLaws) (x a b : Expr Rat) :
    Refines I (.op .div (.op .pow x a) (.op .pow x b)) (.op .pow x (.op .sub a b)) := by
  intro hd
  simp only [defined_div, defined_pow, eval_pow] at hd
  obtain ⟨⟨⟨⟨dx, da⟩, pa⟩, ⟨-, db⟩, pb⟩, h0⟩ := hd
  obtain ⟨pd, pe⟩ := hI.sub pa pb h0
  simp only [defined_pow, defined_sub, eval_pow, eval_sub, eval_div]
  exact ⟨⟨⟨dx, da, db⟩, pd⟩, pe⟩

theorem exponentialIdentities_hold (hI : I.PowerLaws) (hcall : ∀ f vs, ¬I.CallDefined f vs) :
    ∀ r ∈ (exponentialIdentities : List (Rule Rat)), IdentityHolds I r := by
  simp only [exponentialIdentities, List.forall_mem_cons, List.not_mem_nil, false_imp_iff,
    implies_true, and_true]
  refine ⟨?_, ?_, ?_, identityHolds_identity ?_ fun σ => ?_, ?_, ?_, ?_⟩
  case refine_4 => simp [any, difference, quotient, power]
  case refine_5 => exact quotientOfPowers_refines hI (σ "x") (σ "a") (σ "b")
  all_goals
    refine identityHolds_of_undefined ?_ fun σ => ?_
  all_goals simp [any, product, sum, power, call, nat, ofNat, fill, hcall]

theorem logarithmicIdentities_hold (hcall : ∀ f vs, ¬I.CallDefined f vs) :
    ∀ r ∈ (logarithmicIdentities : List (Rule Rat)), IdentityHolds I r := by
  simp only [logarithmicIdentities, List.forall_mem_cons, List.not_mem_nil, false_imp_iff,
    implies_true, and_true]
  refine ⟨?_, ?_, ?_, ?_, ?_, ?_⟩ <;> refine identityHolds_of_undefined ?_ fun σ => ?_
  all_goals
    simp [any, anyNumber, product, sum, difference, quotient, power, call, nat, ofNat, fill, hcall]

theorem identities_keepsValue [CharZero K] (hI : I.PowerLaws)
    (hcall : ∀ f vs, ¬I.CallDefined f vs) :
    ∀ r ∈ (identities : List (Rule Rat)), KeepsValue I r.apply := by
  intro r hr
  simp only [identities, List.mem_append, or_assoc] at hr
  rcases hr with hr | hr | hr | hr
  · exact (arithmeticIdentities_hold hI r hr).keepsValue
  · exact (trigonometricIdentities_hold hcall r hr).keepsValue
  · exact (exponentialIdentities_hold hI hcall r hr).keepsValue
  · exact (logarithmicIdentities_hold hcall r hr).keepsValue

end RuleAlgebra.Rules
