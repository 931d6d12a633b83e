import RuleAlgebra.Proofs.PythagoreanIdentity

/-!
The rules on trigonometric functions, powers and logarithms keep values over the real numbers: a
node that has a value is rewritten to one that has the same value. The rule that takes an exponent
out of a logarithm does so exactly where the base of the power is positive.
-/

namespace RuleAlgebra

open RuleAlgebra.Expr
open Interpretation
open scoped RealScalar

/-- The constants have their usual values. -/
structure UsualConstants (env : Environment ℝ) : Prop where
  pi : variableValue env "pi" = .ok Real.pi
  e : variableValue env "e" = .ok (Real.exp 1)

namespace Rules

variable {env : Environment ℝ}

section Identities

theorem trigonometricIdentities_hold_overReals (hc : UsualConstants env) :
    ∀ r ∈ (trigonometricIdentities : List (Rule Rat)), IdentityHolds (overReals env) r := by
  have hpi : (overReals env).assign "pi" = Real.pi := assign_overReals hc.pi
  simp only [trigonometricIdentities, List.forall_mem_cons, List.not_mem_nil, false_imp_iff,
    implies_true, and_true]
  refine ⟨?_, ?_, ?_, ?_, ?_, ?_, ?_, ?_, ?_, ?_, ?_, ?_⟩ <;>
    refine identityHolds_identity ?_ fun σ => ?_
  all_goals
    simp only [any, product, quotient, call, nat, negative, ofNat, ofInt, fill, fillArgs, Refines,
      defined_call_overReals, eval_call_overReals, callValue?_sin, callValue?_cos, callValue?_tan,
      callValue?_sec, callValue?_csc, callValue?_cot, defined_div, defined_mul, eval_div, eval_mul]
  all_goals
    simp +contextual [hpi, Real.tan_eq_sin_div_cos, Real.sin_two_mul, neg_div]

theorem exponentialIdentities_hold_overReals (hc : UsualConstants env) :
    ∀ r ∈ (exponentialIdentities : List (Rule Rat)), IdentityHolds (overReals env) r := by
  have he : (overReals env).assign "e" = Real.exp 1 := assign_overReals hc.e
  have hpower (u v : ℝ) : (overReals env).power u v = u ^ v := rfl
  simp only [exponentialIdentities, List.forall_mem_cons, List.not_mem_nil, false_imp_iff,
    implies_true, and_true]
  refine ⟨?_, ?_, ?_, identityHolds_identity ?_ fun σ => ?_, ?_, ?_, ?_⟩
  case refine_4 => simp [any, difference, quotient, power]
  case refine_5 =>
    exact quotientOfPowers_refines (overReals_powerLaws env) (σ "x") (σ "a") (σ "b")
  all_goals
    refine identityHolds_identity ?_ fun σ => ?_
  all_goals
    simp only [any, product, sum, power, call, nat, ofNat, fill, fillArgs, Refines,
      defined_call_overReals, eval_call_overReals, callValue?_exp, callValue?_ln, callValue?_sqrt,
      callValue?_abs, defined_pow, defined_mul, defined_add, eval_pow, eval_mul, eval_add]
  all_goals
    simp +contextual [he, hpower, Real.exp_log, Real.exp_add, Real.sq_sqrt, Real.sqrt_sq_eq_abs]

theorem logarithmicIdentities_hold_overReals (hc : UsualConstants env) :
    ∀ r ∈ (logarithmicIdentities : List (Rule Rat)), r.info.name ≠ some "ln-power" →
      IdentityHolds (overReals env) r := by
  have he : (overReals env).assign "e" = Real.exp 1 := assign_overReals hc.e
  have hpower (u v : ℝ) : (overReals env).power u v = u ^ v := rfl
  simp only [logarithmicIdentities, List.forall_mem_cons, List.not_mem_nil, false_imp_iff,
    implies_true, and_true]
  refine ⟨?_, ?_, ?_, ?_, ?_, fun h => absurd rfl h⟩ <;> intro
  all_goals
    refine identityHolds_identity ?_ fun σ => ?_
  all_goals
    simp only [any, product, sum, quotient, difference, power, call, nat, ofNat, fill, fillArgs,
      Refines, defined_call_overReals, eval_call_overReals, callValue?_exp, callValue?_ln,
      defined_add, defined_sub, defined_mul, defined_div, defined_pow, eval_add, eval_sub, eval_mul,
      eval_div, eval_pow]
  all_goals
    simp +contextual [he, hpower, Real.log_mul, Real.log_div, ne_of_gt]

end Identities

section PowersUnderLogarithm

def logarithmOfPower (b : Expr Rat) (n : Rat) : Expr Rat := fn "ln" [op .pow b (num n)]

def logarithmPowerRule : Rule Rat :=
  identity ["logarithmic", "real"] "ln-power" (some "ln(a^n) = n*ln(a)")
    (call "ln" (power (any "a") (anyNumber "n"))) (product (any "n") (call "ln" (any "a")))

theorem logarithmPowerRule_apply (b : Expr Rat) (n : Rat) :
    logarithmPowerRule.apply (logarithmOfPower b n) = .ok (op .mul (num n) (fn "ln" [b])) := rfl

theorem logarithmPowerRule_unmatched {e : Expr Rat} (h : ∀ b n, e ≠ logarithmOfPower b n) :
    logarithmPowerRule.apply e = .ok e := by
  change patternRule _ _ e = _
  unfold patternRule
  split
  · rfl
  · rename_i c hmatch
    obtain ⟨-, he⟩ := instantiate_eq_ok.mp (match?_spec hmatch)
    obtain ⟨u, v, rfl⟩ : ∃ u v, e = fn "ln" [op .pow u v] := ⟨_, _, he.symm⟩
    cases v with
    | num n => exact absurd rfl (h u n)
    | _ =>
      simp [match?, matchFrom?, matchArgs?, call, power, any, anyNumber, admits] at hmatch

variable {b e : Expr Rat} {n : Rat} {v : ℝ}

/-- If the expression is the logarithm of a power with a literal exponent, the base of the power is
positive. -/
def PositiveBase (env : Environment ℝ) (e : Expr Rat) : Prop :=
  ∀ b n, e = logarithmOfPower b n → ∃ u, HasValue env b u ∧ 0 < u

theorem hasValue_logarithm {a : Expr Rat} :
    HasValue env (fn "ln" [a]) v ↔ ∃ u, HasValue env a u ∧ 0 < u ∧ Real.log u = v := by
  have hln : Elementary.ofName? "ln" = some .ln := rfl
  rw [hasValue_fn]
  constructor
  · rintro ⟨g, a', u, hg, ha, hu, hlog⟩
    obtain rfl := Option.some.inj (hln.symm.trans hg)
    obtain ⟨rfl, -⟩ := List.cons.inj ha
    rw [RealScalar.elementary?, Option.ite_none_right_eq_some, Option.some.injEq] at hlog
    exact ⟨u, hu, hlog⟩
  · rintro ⟨u, hu, hpos, rfl⟩
    exact ⟨.ln, a, u, hln, rfl, hu, by rw [RealScalar.elementary?, if_pos hpos]⟩

theorem hasValue_logarithmOfPower : HasValue env (logarithmOfPower b n) v ↔
    ∃ u, HasValue env b u ∧ RealScalar.PowerDefined u n ∧ 0 < u ^ (n : ℝ) ∧
      Real.log (u ^ (n : ℝ)) = v := by
  simp only [logarithmOfPower, hasValue_logarithm, hasValue_op, hasValue_num, pow_value?_real]
  constructor
  · rintro ⟨w, ⟨u, _, hu, rfl, hdefined, rfl⟩, hpos, hlog⟩
    exact ⟨u, hu, hdefined, hpos, hlog⟩
  · rintro ⟨u, hu, hdefined, hpos, hlog⟩
    exact ⟨_, ⟨u, _, hu, rfl, hdefined, rfl⟩, hpos, hlog⟩

theorem hasValue_timesLogarithm : HasValue env (op .mul (num n) (fn "ln" [b])) v ↔
    ∃ u, HasValue env b u ∧ 0 < u ∧ n * Real.log u = v := by
  simp only [hasValue_op, hasValue_num, hasValue_logarithm, Arithmetic.value?, finite?_real,
    Option.some.injEq]
  constructor
  · rintro ⟨_, _, rfl, ⟨u, hu, hpos, rfl⟩, hv⟩
    exact ⟨u, hu, hpos, hv⟩
  · rintro ⟨u, hu, hpos, hv⟩
    exact ⟨_, _, rfl, ⟨u, hu, hpos, rfl⟩, hv⟩

theorem logarithmPowerRule_keeps_iff (hv : HasValue env e v) :
    ∃ d, logarithmPowerRule.apply e = .ok d ∧ (HasValue env d v ↔ PositiveBase env e) := by
  by_cases h : ∃ b n, e = logarithmOfPower b n
  · obtain ⟨b, n, rfl⟩ := h
    obtain ⟨u, hu, -, -, hlog⟩ := hasValue_logarithmOfPower.mp hv
    refine ⟨_, logarithmPowerRule_apply b n, ?_⟩
    rw [hasValue_timesLogarithm]
    -- an even power of a negative base has a logarithm, and the base has none
    constructor
    · rintro ⟨w, hw, hpos, -⟩ b' n' heq
      obtain ⟨rfl, -⟩ : b = b' ∧ n = n' := by simpa [logarithmOfPower] using heq
      exact ⟨w, hw, hpos⟩
    · intro hpositive
      obtain ⟨w, hw, hpos⟩ := hpositive b n rfl
      obtain rfl := hu.unique hw
      exact ⟨u, hu, hpos, by rw [← hlog, Real.log_rpow hpos]⟩
  · simp only [not_exists] at h
    exact ⟨e, logarithmPowerRule_unmatched h, iff_of_true hv fun b n heq => absurd heq (h b n)⟩

end PowersUnderLogarithm

section Groups

def functionGroups : List String := ["trigonometric", "exponential", "logarithmic"]

def OfFunctions (r : Rule Rat) : Prop := ∃ g ∈ functionGroups, r.hasTag g = true

theorem identities_keepRealValue (hc : UsualConstants env) {r : Rule Rat} (hr : r ∈ identities)
    (hname : r.info.name ≠ some "ln-power") : KeepsValue (overReals env) r.apply := by
  simp only [identities, List.mem_append, or_assoc] at hr
  rcases hr with hr | hr | hr | hr
  · exact (arithmeticIdentities_hold (overReals_powerLaws env) r hr).keepsValue
  · exact (trigonometricIdentities_hold_overReals hc r hr).keepsValue
  · exact (exponentialIdentities_hold_overReals hc r hr).keepsValue
  · exact (logarithmicIdentities_hold_overReals hc r hr hname).keepsValue

theorem computedRules_ofFunctions {r : Rule Rat} (hr : r ∈ computedRules) (hg : OfFunctions r) :
    r.apply = pythagoreanIdentity ∨ r.apply = (fun e => pure (combinePowers e)) ∨
      r.apply = fun e => pure (powerOfPower e) := by
  revert r
  simp only [computedRules, List.forall_mem_cons, List.not_mem_nil, false_imp_iff, implies_true,
    and_true]
  simp [OfFunctions, functionGroups, Rule.hasTag, computed, computedAlways]

theorem computedRules_keepRealValue {r : Rule Rat} (hr : r ∈ computedRules) (hg : OfFunctions r) :
    KeepsValue (overReals env) r.apply := by
  have hlaws := overReals_powerLaws env
  rcases computedRules_ofFunctions hr hg with h | h | h
  · exact h ▸ pythagoreanIdentity_keepsRealValue env
  · exact h ▸ KeepsValue.ofPure (combinePowers_refines hlaws)
  · exact h ▸ KeepsValue.ofPure (powerOfPower_refines hlaws)

theorem eq_logarithmPowerRule {r : Rule Rat} (hr : r ∈ identities)
    (hname : r.info.name = some "ln-power") : r = logarithmPowerRule := by
  revert r
  simp only [identities, arithmeticIdentities, trigonometricIdentities, exponentialIdentities,
    logarithmicIdentities, List.cons_append, List.nil_append, List.forall_mem_cons,
    List.not_mem_nil, false_imp_iff, implies_true, and_true]
  simp [identity, Rule.ofPattern, logarithmPowerRule]

theorem computedRules_name_ne {r : Rule Rat} (hr : r ∈ computedRules) :
    r.info.name ≠ some "ln-power" := by
  revert r
  simp [computedRules, computed, computedAlways]

end Groups

end Rules

open Rules

section Library

variable {env : Environment ℝ} {e : Expr Rat} {v : ℝ}

theorem KeepsValue.hasValue {f : Expr Rat → Except Failure (Expr Rat)}
    (hf : KeepsValue (overReals env) f) (hvars : KeepsVariables f) (hv : HasValue env e v) :
    ∃ d, f e = .ok d ∧ HasValue env d v := by
  obtain ⟨d, hd, hrefines⟩ := hf e
  refine ⟨d, hd, hrefines.hasValue (fun he => ?_) hv⟩
  have hwithin := hvars _ e he
  rw [hd] at hwithin
  exact hwithin

theorem logarithmPowerRule_mem : logarithmPowerRule ∈ (Library.standard : Library Rat).rules := by
  have hmem : logarithmPowerRule ∈ (identities : List (Rule Rat)) := by
    simp [identities, logarithmicIdentities, logarithmPowerRule]
  rw [Library.standard, Library.ofRules, Library.addAll_rules]
  simp only [Library.empty, List.nil_append, List.mem_flatMap, List.mem_filter, List.mem_append]
  exact ⟨"logarithmic", by decide, Or.inl hmem, rfl⟩

def withX (x : ℝ) : Environment ℝ := fun y => if y = "x" then some x else none

theorem withX_usual (x : ℝ) : UsualConstants (withX x) where
  pi := rfl
  e := rfl

theorem hasValue_x (x : ℝ) : HasValue (withX x) (var "x") x := rfl

theorem hasValue_logarithmOfSquare {x : ℝ} (hx : x ≠ 0) :
    HasValue (withX x) (logarithmOfPower (var "x") 2) (Real.log (x ^ 2)) := by
  have hpower : x ^ ((2 : Rat) : ℝ) = x ^ 2 := by norm_num
  refine hasValue_logarithmOfPower.mpr ⟨x, hasValue_x x, ?_, ?_, by rw [hpower]⟩
  · exact_mod_cast RealScalar.powerDefined_nat x 2
  · rw [hpower]
    positivity

theorem logarithmPowerRule_ofFunctions : OfFunctions logarithmPowerRule :=
  ⟨"logarithmic", by decide, rfl⟩

/-- A rule on functions maps an expression that has a value over the reals to one with the same
value. The one exception takes an exponent out of the logarithm of a power: what it gives has a
value exactly where the base of the power is positive. -/
theorem functionRules_keep_values {r : Rule Rat} (hr : r ∈ (Library.standard : Library Rat).rules)
    (hg : OfFunctions r) (hc : UsualConstants env) (hv : HasValue env e v) :
    ∃ d, r.apply e = .ok d ∧
      (HasValue env d v ↔ (r.info.name = some "ln-power" → PositiveBase env e)) := by
  have hvars := Library.standard_keepsVariables r hr
  have keeps (hne : r.info.name ≠ some "ln-power") (hf : KeepsValue (overReals env) r.apply) :
      ∃ d, r.apply e = .ok d ∧
        (HasValue env d v ↔ (r.info.name = some "ln-power" → PositiveBase env e)) := by
    obtain ⟨d, hd, hdv⟩ := hf.hasValue hvars hv
    exact ⟨d, hd, iff_of_true hdv fun h => absurd h hne⟩
  rcases Library.mem_standard hr with hid | hcomp
  · by_cases hname : r.info.name = some "ln-power"
    · obtain rfl := eq_logarithmPowerRule hid hname
      simpa [hname] using logarithmPowerRule_keeps_iff hv
    · exact keeps hname (identities_keepRealValue hc hid hname)
  · exact keeps (computedRules_name_ne hcomp) (computedRules_keepRealValue hcomp hg)

theorem functionRules_keep_values_of_square :
    HasValue (withX 3) (logarithmOfPower (var "x") 2) (Real.log (3 ^ 2)) ∧
      ∃ d, logarithmPowerRule.apply (logarithmOfPower (var "x") 2) = .ok d ∧
        (HasValue (withX 3) d (Real.log (3 ^ 2)) ↔
          (logarithmPowerRule.info.name = some "ln-power" →
            PositiveBase (withX 3) (logarithmOfPower (var "x") 2))) :=
  have hvalue := hasValue_logarithmOfSquare (x := 3) (by norm_num)
  ⟨hvalue, functionRules_keep_values logarithmPowerRule_mem logarithmPowerRule_ofFunctions
    (withX_usual 3) hvalue⟩

/-- The logarithm of a square has a value at a negative argument, and twice the logarithm has none:
not every rule on functions keeps values over the reals. -/
theorem logarithm_of_square_loses_value :
    ¬∀ r ∈ (Library.standard : Library Rat).rules, OfFunctions r →
      ∀ env, UsualConstants env → ∀ e v, HasValue env e v →
        ∃ d, r.apply e = .ok d ∧ HasValue env d v := by
  intro h
  obtain ⟨d, hd, hv⟩ := h _ logarithmPowerRule_mem logarithmPowerRule_ofFunctions _
    (withX_usual (-2)) _ _ (hasValue_logarithmOfSquare (by norm_num))
  obtain rfl := Except.ok.inj ((logarithmPowerRule_apply _ _).symm.trans hd)
  obtain ⟨u, hu, hpos, -⟩ := hasValue_timesLogarithm.mp hv
  obtain rfl := hu.unique (hasValue_x (-2))
  norm_num at hpos

end Library

end RuleAlgebra
