import RuleAlgebra.Proofs.Interpretation
import RuleAlgebra.Proofs.Occurrences

/-!
Derivations of a field that obey the rules of calculus: the variable has the derivative one, what
does not depend on it has the derivative zero, and powers and functions obey their rules where they
are defined. When all calls are defined, and all powers of bases other than zero, an expression is
defined if and only if no divisor and no base of a power in it is zero.
-/

namespace RuleAlgebra

open RuleAlgebra.Expr

section Nonzero

variable {K : Type*} [Field K] {I : Interpretation K}

def NonzeroRoot (I : Interpretation K) : Expr Rat → Prop
  | op .div _ r => r.eval I ≠ 0
  | op .pow l _ => l.eval I ≠ 0
  | eq _ _ => False
  | wild _ _ _ => False
  | _ => True

mutual

theorem defined_iff_nonzero (hcall : ∀ f vs, I.CallDefined f vs)
    (hpower : ∀ u v, I.PowerDefined u v ↔ u ≠ 0) :
    ∀ t : Expr Rat, t.Defined I ↔ ∀ u ∈ t.walk, NonzeroRoot I u
  | num q => by simp [walk, NonzeroRoot]
  | var x => by simp [walk, NonzeroRoot]
  | eq l r => by simp [walk, NonzeroRoot]
  | wild n k a => by simp [walk, NonzeroRoot]
  | op o l r => by
    have hroot : I.OperationDefined o (l.eval I) (r.eval I) ↔ NonzeroRoot I (op o l r) := by
      cases o <;> simp [Interpretation.OperationDefined, NonzeroRoot, hpower]
    simp only [Defined, walk, List.forall_mem_cons, List.forall_mem_append, hroot,
      defined_iff_nonzero hcall hpower l, defined_iff_nonzero hcall hpower r]
    exact and_comm
  | fn f as => by
    simp only [Defined, walk, List.forall_mem_cons, hcall, and_true, NonzeroRoot, true_and]
    exact definedArgs_iff_nonzero hcall hpower as

theorem definedArgs_iff_nonzero (hcall : ∀ f vs, I.CallDefined f vs)
    (hpower : ∀ u v, I.PowerDefined u v ↔ u ≠ 0) :
    ∀ as : List (Expr Rat), DefinedArgs I as ↔ ∀ u ∈ walkArgs as, NonzeroRoot I u
  | [] => by simp [DefinedArgs, walkArgs]
  | a :: as => by
    simp only [DefinedArgs, walkArgs, List.forall_mem_append,
      defined_iff_nonzero hcall hpower a, definedArgs_iff_nonzero hcall hpower as]

end

end Nonzero

structure DifferentialLaws {K : Type*} [Field K] (I : Interpretation K) (D : Derivation ℤ K K)
    (x : String) : Prop where
  self : D (I.assign x) = 1
  free {t : Expr Rat} : t.contains x = false → t.Defined I → D (t.eval I) = 0
  base {u v : K} : I.PowerDefined u v → u ≠ 0
  power {u v : K} : I.PowerDefined u v →
    D (I.power u v) = I.power u v * (D v * I.call "ln" [u] + v * D u / u)
  power_add {u v w : K} : I.PowerDefined u v → I.PowerDefined u w →
    I.PowerDefined u (v + w) ∧ I.power u (v + w) = I.power u v * I.power u w
  power_one {u : K} : u ≠ 0 → I.PowerDefined u 1 ∧ I.power u 1 = u
  sin {u : K} : I.CallDefined "sin" [u] → D (I.call "sin" [u]) = I.call "cos" [u] * D u
  cos {u : K} : I.CallDefined "cos" [u] → D (I.call "cos" [u]) = -I.call "sin" [u] * D u
  exp {u : K} : I.CallDefined "exp" [u] → D (I.call "exp" [u]) = I.call "exp" [u] * D u
  ln {u : K} : I.CallDefined "ln" [u] → u ≠ 0 → D (I.call "ln" [u]) = D u / u
  sinh {u : K} : I.CallDefined "sinh" [u] → D (I.call "sinh" [u]) = I.call "cosh" [u] * D u
  cosh {u : K} : I.CallDefined "cosh" [u] → D (I.call "cosh" [u]) = I.call "sinh" [u] * D u
  tan {u : K} : I.CallDefined "tan" [u] → (I.CallDefined "sin" [u] ∧ I.CallDefined "cos" [u]) ∧
    I.call "tan" [u] = I.call "sin" [u] / I.call "cos" [u]
  sec {u : K} : I.CallDefined "sec" [u] → I.CallDefined "cos" [u] ∧
    I.call "sec" [u] = 1 / I.call "cos" [u]
  circle {u : K} : I.CallDefined "sin" [u] → I.CallDefined "cos" [u] →
    I.call "sin" [u] ^ 2 + I.call "cos" [u] ^ 2 = 1

/-- The laws of the other functions that have a known derivative. -/
structure FunctionLaws {K : Type*} [Field K] (I : Interpretation K) (D : Derivation ℤ K K)
    (x : String) : Prop extends DifferentialLaws I D x where
  csc {u : K} : I.CallDefined "csc" [u] → I.CallDefined "sin" [u] ∧
    I.call "csc" [u] = 1 / I.call "sin" [u]
  cot {u : K} : I.CallDefined "cot" [u] → (I.CallDefined "sin" [u] ∧ I.CallDefined "cos" [u]) ∧
    I.call "cot" [u] = I.call "cos" [u] / I.call "sin" [u]
  tanh {u : K} : I.CallDefined "tanh" [u] →
    (I.CallDefined "sinh" [u] ∧ I.CallDefined "cosh" [u]) ∧
    I.call "tanh" [u] = I.call "sinh" [u] / I.call "cosh" [u]
  hyperbola {u : K} : I.CallDefined "sinh" [u] → I.CallDefined "cosh" [u] →
    I.call "cosh" [u] ^ 2 - I.call "sinh" [u] ^ 2 = 1
  sqrt {u : K} : I.CallDefined "sqrt" [u] → I.call "sqrt" [u] ^ 2 = u
  abs {u : K} : I.CallDefined "abs" [u] → I.call "abs" [u] ^ 2 = u ^ 2
  asin {u : K} : I.CallDefined "asin" [u] →
    D (I.call "asin" [u]) = D u / I.call "sqrt" [1 - u ^ 2]
  acos {u : K} : I.CallDefined "acos" [u] →
    D (I.call "acos" [u]) = -D u / I.call "sqrt" [1 - u ^ 2]
  atan {u : K} : I.CallDefined "atan" [u] → D (I.call "atan" [u]) = D u / (1 + u ^ 2)

/-- The laws of square roots as powers; with a power its reciprocal is defined. -/
structure RootLaws {K : Type*} [Field K] (I : Interpretation K) (D : Derivation ℤ K K)
    (x : String) : Prop extends DifferentialLaws I D x where
  power_neg {u v : K} : I.PowerDefined u v → I.PowerDefined u (-v)
  root {u : K} : u ≠ 0 → I.CallDefined "sqrt" [u] →
    I.PowerDefined u (1 / 2) ∧ I.power u (1 / 2) = I.call "sqrt" [u]

namespace DifferentialLaws

variable {K : Type*} [Field K] {I : Interpretation K} {D : Derivation ℤ K K} {x : String} {u v : K}

theorem ne_zero_of_deriv (hD : D u ≠ 0) : u ≠ 0 := by
  intro hu
  exact hD (by rw [hu, Derivation.map_zero])

theorem deriv_div (D : Derivation ℤ K K) (u : K) (hv : v ≠ 0) :
    D (u / v) = (D u * v - u * D v) / v ^ 2 := by
  rw [Derivation.leibniz_div]
  simp only [smul_eq_mul]
  field_simp

theorem power_zero (h : DifferentialLaws I D x) (hd : I.PowerDefined u 0) : I.power u 0 = 1 := by
  have hu := h.base hd
  obtain ⟨hone, hvalue⟩ := h.power_one hu
  have hsum := (h.power_add hd hone).2
  rw [zero_add, hvalue] at hsum
  exact mul_right_cancel₀ hu (by rw [one_mul, ← hsum])

theorem power_succ (h : DifferentialLaws I D x) (hu : u ≠ 0) (n : Nat) :
    I.PowerDefined u (n + 1) ∧ I.power u (n + 1) = u ^ (n + 1) := by
  obtain ⟨hone, hvalue⟩ := h.power_one hu
  induction n with
  | zero => simpa using ⟨hone, hvalue⟩
  | succ n ih =>
    obtain ⟨hd, hp⟩ := h.power_add ih.1 hone
    rw [Nat.cast_succ]
    exact ⟨hd, by rw [hp, ih.2, hvalue, pow_succ u (n + 1)]⟩

theorem power_nat (h : DifferentialLaws I D x) (n : Nat) (hd : I.PowerDefined u n) :
    I.power u n = u ^ n := by
  cases n with
  | zero => simpa using h.power_zero (by simpa using hd)
  | succ n => simpa using (h.power_succ (h.base hd) n).2

theorem power_two (h : DifferentialLaws I D x) (hu : u ≠ 0) : I.power u 2 = u ^ 2 := by
  have htwo := (h.power_succ hu 1).2
  rwa [Nat.cast_one, one_add_one_eq_two] at htwo

theorem power_sub_one (h : DifferentialLaws I D x) (hd : I.PowerDefined u (v - 1)) :
    I.power u v = I.power u (v - 1) * u := by
  obtain ⟨hone, hvalue⟩ := h.power_one (h.base hd)
  have hsum := (h.power_add hd hone).2
  rwa [sub_add_cancel, hvalue] at hsum

theorem deriv_power_add_one (h : DifferentialLaws I D x) (hd : I.PowerDefined u v) (hv : D v = 0) :
    D (I.power u (v + 1)) = (v + 1) * I.power u v * D u := by
  have hu := h.base hd
  obtain ⟨hone, hvalue⟩ := h.power_one hu
  obtain ⟨hsum, hpower⟩ := h.power_add hd hone
  rw [h.power hsum, hpower, hvalue, Derivation.map_add, hv, Derivation.map_one_eq_zero]
  field_simp
  ring

theorem deriv_sq (D : Derivation ℤ K K) (w : K) : D (w ^ 2) = 2 * w * D w := by
  rw [Derivation.leibniz_pow]
  simp [smul_eq_mul, mul_assoc]

theorem deriv_zpow (D : Derivation ℤ K K) (hu : u ≠ 0) (n : ℤ) :
    D (u ^ n) = u ^ n * (n * D u / u) := by
  rw [Derivation.leibniz_zpow, zpow_sub_one₀ hu]
  simp only [zsmul_eq_mul, smul_eq_mul]
  field_simp

theorem deriv_tan (h : DifferentialLaws I D x) (hd : I.CallDefined "tan" [u])
    (hcos : I.call "cos" [u] ≠ 0) : D (I.call "tan" [u]) = (1 / I.call "cos" [u]) ^ 2 * D u := by
  obtain ⟨⟨hs, hc⟩, hvalue⟩ := h.tan hd
  have hcircle := h.circle hs hc
  rw [hvalue, deriv_div D _ hcos, h.sin hs, h.cos hc]
  field_simp
  linear_combination D u * hcircle

theorem cos_ne_zero (h : DifferentialLaws I D x) (hs : I.CallDefined "sin" [u])
    (hc : I.CallDefined "cos" [u]) (hD : D u ≠ 0) : I.call "cos" [u] ≠ 0 := by
  intro hcos
  have hcircle := h.circle hs hc
  have hderiv := h.cos hc
  rw [hcos, Derivation.map_zero] at hderiv
  have hsin : I.call "sin" [u] = 0 := by simpa [hD] using hderiv.symm
  simp [hcos, hsin] at hcircle

theorem deriv_sec (h : DifferentialLaws I D x) (hd : I.CallDefined "sec" [u])
    (htan : I.CallDefined "tan" [u]) :
    D (I.call "sec" [u]) = I.call "sec" [u] * I.call "tan" [u] * D u := by
  obtain ⟨hc, hvalue⟩ := h.sec hd
  obtain ⟨-, hquotient⟩ := h.tan htan
  by_cases hcos : I.call "cos" [u] = 0
  · simp [hvalue, hcos]
  · rw [hvalue, hquotient, deriv_div D _ hcos, h.cos hc, Derivation.map_one_eq_zero]
    field_simp
    ring

end DifferentialLaws

namespace RootLaws

variable {K : Type*} [Field K] {I : Interpretation K} {D : Derivation ℤ K K} {x : String} {u v : K}

theorem power_mul_neg (h : RootLaws I D x) (hd : I.PowerDefined u v) :
    I.power u v * I.power u (-v) = 1 := by
  obtain ⟨hzero, hsum⟩ := h.power_add hd (h.power_neg hd)
  rw [add_neg_cancel] at hzero hsum
  rw [← hsum, h.power_zero hzero]

theorem power_neg_one (h : RootLaws I D x) (hu : u ≠ 0) :
    I.PowerDefined u (-1) ∧ I.power u (-1) = 1 / u := by
  obtain ⟨hone, hvalue⟩ := h.power_one hu
  have hproduct := h.power_mul_neg hone
  rw [hvalue] at hproduct
  exact ⟨h.power_neg hone, eq_one_div_of_mul_eq_one_right hproduct⟩

theorem deriv_three_halves [CharZero K] (h : RootLaws I D x) (hu : u ≠ 0)
    (hs : I.CallDefined "sqrt" [u]) :
    D (I.power u (3 / 2)) = 3 / 2 * I.call "sqrt" [u] * D u := by
  obtain ⟨hd, hroot⟩ := h.root hu hs
  have hhalf : D ((1 / 2 : K)) = 0 := by
    simpa using h.free (t := op .div (ofNat 1) (ofNat 2)) rfl (by simp)
  have hsum : (1 / 2 : K) + 1 = 3 / 2 := by norm_num
  have hderiv := h.deriv_power_add_one hd hhalf
  rwa [hsum, hroot] at hderiv

end RootLaws

namespace FunctionLaws

variable {K : Type*} [Field K] {I : Interpretation K} {D : Derivation ℤ K K} {x : String} {u v : K}

theorem deriv_sqrt (h : FunctionLaws I D x) (hd : I.CallDefined "sqrt" [u])
    (hw : 2 * I.call "sqrt" [u] ≠ 0) :
    D (I.call "sqrt" [u]) = 1 / (2 * I.call "sqrt" [u]) * D u := by
  have hsquare := congrArg D (h.sqrt hd)
  rw [DifferentialLaws.deriv_sq] at hsquare
  rw [one_div, inv_mul_eq_div, ← hsquare, mul_div_cancel_left₀ _ hw]

theorem deriv_abs [CharZero K] (h : FunctionLaws I D x) (hd : I.CallDefined "abs" [u])
    (hw : I.call "abs" [u] ≠ 0) : D (I.call "abs" [u]) = u / I.call "abs" [u] * D u := by
  have hsquare := congrArg D (h.abs hd)
  rw [DifferentialLaws.deriv_sq, DifferentialLaws.deriv_sq] at hsquare
  have htwo : (2 : K) ≠ 0 := two_ne_zero
  field_simp
  apply mul_left_cancel₀ htwo
  linear_combination hsquare

theorem deriv_cot (h : FunctionLaws I D x) (hd : I.CallDefined "cot" [u])
    (hsin : I.call "sin" [u] ≠ 0) : D (I.call "cot" [u]) = -(1 / I.call "sin" [u]) ^ 2 * D u := by
  obtain ⟨⟨hs, hc⟩, hvalue⟩ := h.cot hd
  have hcircle := h.circle hs hc
  rw [hvalue, DifferentialLaws.deriv_div D _ hsin, h.sin hs, h.cos hc]
  field_simp
  linear_combination -D u * hcircle

theorem deriv_tanh (h : FunctionLaws I D x) (hd : I.CallDefined "tanh" [u])
    (hcosh : I.call "cosh" [u] ≠ 0) :
    D (I.call "tanh" [u]) = 1 / I.call "cosh" [u] ^ 2 * D u := by
  obtain ⟨⟨hs, hc⟩, hvalue⟩ := h.tanh hd
  have hhyperbola := h.hyperbola hs hc
  rw [hvalue, DifferentialLaws.deriv_div D _ hcosh, h.sinh hs, h.cosh hc]
  field_simp
  linear_combination D u * hhyperbola

theorem deriv_csc (h : FunctionLaws I D x) (hd : I.CallDefined "csc" [u])
    (hcot : I.CallDefined "cot" [u]) :
    D (I.call "csc" [u]) = -(I.call "csc" [u] * I.call "cot" [u]) * D u := by
  obtain ⟨hs, hvalue⟩ := h.csc hd
  obtain ⟨-, hquotient⟩ := h.cot hcot
  by_cases hsin : I.call "sin" [u] = 0
  · simp [hvalue, hsin]
  · rw [hvalue, hquotient, DifferentialLaws.deriv_div D _ hsin, h.sin hs,
      Derivation.map_one_eq_zero]
    field_simp
    ring

end FunctionLaws

section RationalFunctions

open Polynomial (eval₂RingHom)

/-- The derivation that a homomorphism to the dual numbers carries beside the identity. -/
def derivationOfDual {K : Type*} [Field K] (φ : K →+* DualNumber K) (h : ∀ u, (φ u).fst = u) :
    Derivation ℤ K K :=
  Derivation.mk' (AddMonoidHom.toIntLinearMap
    ((TrivSqZeroExt.sndHom K K).toAddMonoidHom.comp φ.toAddMonoidHom)) (by
      intro a b
      simp [h, mul_comm])

theorem derivationOfDual_apply {K : Type*} [Field K] (φ : K →+* DualNumber K)
    (h : ∀ u, (φ u).fst = u) (u : K) : derivationOfDual φ h u = (φ u).snd := rfl

noncomputable def polynomialDual : Polynomial ℚ →+* DualNumber (RatFunc ℚ) :=
  eval₂RingHom ((TrivSqZeroExt.inlHom (RatFunc ℚ) (RatFunc ℚ)).comp (algebraMap ℚ (RatFunc ℚ)))
    (TrivSqZeroExt.inl RatFunc.X + DualNumber.eps)

theorem fst_polynomialDual (p : Polynomial ℚ) :
    (polynomialDual p).fst = algebraMap (Polynomial ℚ) (RatFunc ℚ) p := by
  have h : (TrivSqZeroExt.fstHom (RatFunc ℚ) (RatFunc ℚ) (RatFunc ℚ)).toRingHom.comp
      polynomialDual = algebraMap (Polynomial ℚ) (RatFunc ℚ) := by
    apply Polynomial.ringHom_ext
    · intro a
      simp [polynomialDual]
    · simp [polynomialDual]
  exact congrArg (fun f => f p) h

theorem isUnit_polynomialDual (p : nonZeroDivisors (Polynomial ℚ)) : IsUnit (polynomialDual p) := by
  rw [TrivSqZeroExt.isUnit_iff_isUnit_fst, fst_polynomialDual, isUnit_iff_ne_zero]
  simp

noncomputable def rationalDual : RatFunc ℚ →+* DualNumber (RatFunc ℚ) :=
  IsLocalization.lift isUnit_polynomialDual

theorem rationalDual_algebraMap (p : Polynomial ℚ) :
    rationalDual (algebraMap (Polynomial ℚ) (RatFunc ℚ) p) = polynomialDual p :=
  IsLocalization.lift_eq isUnit_polynomialDual p

theorem fst_rationalDual (f : RatFunc ℚ) : (rationalDual f).fst = f := by
  have h : (TrivSqZeroExt.fstHom (RatFunc ℚ) (RatFunc ℚ) (RatFunc ℚ)).toRingHom.comp
      rationalDual = RingHom.id (RatFunc ℚ) := by
    apply IsLocalization.ringHom_ext (nonZeroDivisors (Polynomial ℚ))
    apply RingHom.ext
    intro p
    simp [rationalDual_algebraMap, fst_polynomialDual]
  exact congrArg (fun g => g f) h

noncomputable def rationalDerivation := derivationOfDual rationalDual fst_rationalDual

theorem rationalDerivation_X : rationalDerivation RatFunc.X = 1 := by
  rw [rationalDerivation, derivationOfDual_apply, ← RatFunc.algebraMap_X, rationalDual_algebraMap]
  simp [polynomialDual]

theorem rationalDerivation_ratCast (q : ℚ) : rationalDerivation (q : RatFunc ℚ) = 0 := by
  have hconst : (q : RatFunc ℚ) = algebraMap (Polynomial ℚ) (RatFunc ℚ) (Polynomial.C q) := by
    rw [RatFunc.algebraMap_C]
    exact (map_ratCast (RatFunc.C : ℚ →+* RatFunc ℚ) q).symm
  rw [rationalDerivation, derivationOfDual_apply, hconst, rationalDual_algebraMap]
  simp [polynomialDual]

/-- The variable `x` over the rational functions with integer powers; the absolute value is taken
to be the identity, and no other function is defined. -/
noncomputable def Interpretation.rationalFunctions : Interpretation (RatFunc ℚ) where
  assign y := if y = "x" then RatFunc.X else 0
  power u v := open Classical in if h : ∃ n : ℤ, v = n then u ^ h.choose else 0
  PowerDefined u v := u ≠ 0 ∧ ∃ n : ℤ, v = n
  call _ as := as.headD 0
  CallDefined f as := f = "abs" ∧ as.length = 1

@[simp] theorem rationalFunctions_assign :
    Interpretation.rationalFunctions.assign "x" = RatFunc.X := by
  simp [Interpretation.rationalFunctions]

@[simp] theorem rationalFunctions_abs (u : RatFunc ℚ) :
    Interpretation.rationalFunctions.call "abs" [u] = u := rfl

@[simp] theorem rationalFunctions_abs_defined (u : RatFunc ℚ) :
    Interpretation.rationalFunctions.CallDefined "abs" [u] := ⟨rfl, rfl⟩

theorem rationalFunctions_power (u : RatFunc ℚ) (n : ℤ) :
    Interpretation.rationalFunctions.power u n = u ^ n := by
  have h : ∃ m : ℤ, (n : RatFunc ℚ) = m := ⟨n, rfl⟩
  have hn : h.choose = n := by exact_mod_cast h.choose_spec.symm
  simp only [Interpretation.rationalFunctions, dif_pos h, hn]

theorem rationalFunctions_free : ∀ {t : Expr Rat}, t.contains "x" = false →
    t.Defined .rationalFunctions → ∃ q : ℚ, t.eval .rationalFunctions = q
  | num q, _, _ => ⟨q, eval_num _ q⟩
  | var y, hy, _ => by
    have hne : y ≠ "x" := by simpa [contains] using hy
    exact ⟨0, by simp [Interpretation.rationalFunctions, hne]⟩
  | op o l r, hx, hd => by
    simp only [contains, Bool.or_eq_false_iff] at hx
    simp only [Defined] at hd
    obtain ⟨p, hp⟩ := rationalFunctions_free hx.1 hd.1.1
    obtain ⟨q, hq⟩ := rationalFunctions_free hx.2 hd.1.2
    cases o with
    | add => exact ⟨p + q, by simp [hp, hq]⟩
    | sub => exact ⟨p - q, by simp [hp, hq]⟩
    | mul => exact ⟨p * q, by simp [hp, hq]⟩
    | div => exact ⟨p / q, by simp [hp, hq]⟩
    | pow =>
      obtain ⟨n, hn⟩ := hd.2.2
      exact ⟨p ^ n, by rw [eval_pow, hn, rationalFunctions_power, hp, Rat.cast_zpow]⟩
  | fn f [], _, hd => by simp [Interpretation.rationalFunctions, evalArgs] at hd
  | fn f [u], hx, hd => by
    simp only [contains, anyContains, Bool.or_false] at hx
    simp only [Defined, DefinedArgs, and_true] at hd
    obtain ⟨q, hq⟩ := rationalFunctions_free hx hd.1
    exact ⟨q, by simp [Interpretation.rationalFunctions, evalArgs, ← hq]⟩
  | fn f (u :: v :: as), _, hd => by simp [Interpretation.rationalFunctions, evalArgs] at hd
  | eq l r, _, hd => absurd hd (not_defined_eq _ l r)
  | wild n k a, _, hd => absurd hd (not_defined_wild _ n k a)

theorem rationalFunctions_undefined {f : String} {u : RatFunc ℚ} (hf : f ≠ "abs") :
    ¬Interpretation.rationalFunctions.CallDefined f [u] := fun h => hf h.1

theorem rationalFunctions_laws :
    FunctionLaws .rationalFunctions rationalDerivation "x" where
  self := rationalDerivation_X
  free hx hd := by
    obtain ⟨q, hq⟩ := rationalFunctions_free hx hd
    rw [hq, rationalDerivation_ratCast]
  base hd := hd.1
  power {u v} hd := by
    obtain ⟨hu, n, rfl⟩ := hd
    have hn : rationalDerivation (n : RatFunc ℚ) = 0 := by
      exact_mod_cast rationalDerivation_ratCast n
    rw [rationalFunctions_power, DifferentialLaws.deriv_zpow _ hu, hn, zero_mul, zero_add]
  power_add {u v w} hv hw := by
    obtain ⟨hu, m, rfl⟩ := hv
    obtain ⟨-, n, rfl⟩ := hw
    refine ⟨⟨hu, m + n, by simp⟩, ?_⟩
    rw [← Int.cast_add, rationalFunctions_power, rationalFunctions_power, rationalFunctions_power,
      zpow_add₀ hu]
  power_one {u} hu := by
    have hone := rationalFunctions_power u 1
    rw [Int.cast_one, zpow_one] at hone
    exact ⟨⟨hu, 1, by simp⟩, hone⟩
  abs _ := rfl
  sqrt hd := absurd hd (rationalFunctions_undefined (by decide))
  tan hd := absurd hd (rationalFunctions_undefined (by decide))
  sec hd := absurd hd (rationalFunctions_undefined (by decide))
  csc hd := absurd hd (rationalFunctions_undefined (by decide))
  cot hd := absurd hd (rationalFunctions_undefined (by decide))
  tanh hd := absurd hd (rationalFunctions_undefined (by decide))
  circle hd := absurd hd (rationalFunctions_undefined (by decide))
  hyperbola hd := absurd hd (rationalFunctions_undefined (by decide))
  sin hd := absurd hd (rationalFunctions_undefined (by decide))
  cos hd := absurd hd (rationalFunctions_undefined (by decide))
  exp hd := absurd hd (rationalFunctions_undefined (by decide))
  ln hd := absurd hd (rationalFunctions_undefined (by decide))
  sinh hd := absurd hd (rationalFunctions_undefined (by decide))
  cosh hd := absurd hd (rationalFunctions_undefined (by decide))
  asin hd := absurd hd (rationalFunctions_undefined (by decide))
  acos hd := absurd hd (rationalFunctions_undefined (by decide))
  atan hd := absurd hd (rationalFunctions_undefined (by decide))

theorem rationalFunctions_rootLaws : RootLaws .rationalFunctions rationalDerivation "x" where
  toDifferentialLaws := rationalFunctions_laws.toDifferentialLaws
  power_neg hd := by
    obtain ⟨hu, n, rfl⟩ := hd
    exact ⟨hu, -n, by simp⟩
  root _ hd := absurd hd (rationalFunctions_undefined (by decide))

end RationalFunctions

end RuleAlgebra
