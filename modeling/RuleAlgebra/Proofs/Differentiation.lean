import RuleAlgebra.Proofs.DerivativeRules
import RuleAlgebra.Proofs.DifferentialLaws

/-!
The derivative of an expression has the derivative of its value: in every field with a derivation
that obeys the rules of calculus, wherever the expression and its derivative are defined.
-/

namespace RuleAlgebra.Expr

open Traced

variable {K : Type*} [Field K] {I : Interpretation K} {D : Derivation ℤ K K} {x : String}

section Parts

variable {u v : Expr Rat} {f : String}

theorem defined_call : (fn f [u]).Defined I ↔ u.Defined I ∧ I.CallDefined f [u.eval I] := by
  simp [DefinedArgs, evalArgs]

theorem eval_call : (fn f [u]).eval I = I.call f [u.eval I] := by
  simp [evalArgs]

theorem defined_negative : (negative u).Defined I ↔ u.Defined I := by
  simp [negative]

theorem eval_negative [CharZero K] : (negative u).eval I = -u.eval I := by
  simp [negative]

theorem defined_squared (h : DifferentialLaws I D x) (hd : (squared u).Defined I) :
    u.Defined I ∧ u.eval I ≠ 0 := by
  obtain ⟨⟨hu, -⟩, hpower⟩ := (defined_pow I _ _).mp hd
  exact ⟨hu, h.base hpower⟩

theorem eval_squared [CharZero K] (h : DifferentialLaws I D x) (hd : (squared u).Defined I) :
    (squared u).eval I = u.eval I ^ 2 := by
  rw [squared, eval_pow, eval_ofNat, Nat.cast_ofNat, h.power_two (defined_squared h hd).2]

theorem eval_sqrtOneMinusSquare [CharZero K] (h : DifferentialLaws I D x)
    (hd : (sqrtOneMinusSquare u).Defined I) :
    (sqrtOneMinusSquare u).eval I = I.call "sqrt" [1 - u.eval I ^ 2] := by
  have hsquared := ((defined_sub I _ _).mp (defined_call.mp hd).1).2
  rw [sqrtOneMinusSquare, eval_call, eval_sub, eval_ofNat, Nat.cast_one, eval_squared h hsquared]

end Parts

theorem outerDerivative?_eval [CharZero K] (h : FunctionLaws I D x) {f : String}
    {u outer : Expr Rat} (hf : outerDerivative? f u = some outer) (hd : (fn f [u]).Defined I)
    (ho : outer.Defined I) : D ((fn f [u]).eval I) = outer.eval I * D (u.eval I) := by
  have hlaws := h.toDifferentialLaws
  obtain ⟨hu, hcall⟩ := defined_call.mp hd
  rw [eval_call]
  unfold outerDerivative? at hf
  -- the cases are the functions of the table in its order: `sin`, `cos`, `tan`, `sec`, `csc`, `cot`,
  -- the three inverse functions, `sinh`, `cosh`, `tanh`, `ln`, `exp`, `sqrt` and `abs`
  split at hf
  all_goals try obtain rfl := Option.some.inj hf
  case h_1 => rw [h.sin hcall, eval_call]
  case h_2 => rw [h.cos hcall, eval_negative, eval_call]
  case h_3 =>
    obtain ⟨hsec, hne⟩ := defined_squared hlaws ho
    obtain ⟨-, hvalue⟩ := h.sec (defined_call.mp hsec).2
    rw [eval_call, hvalue] at hne
    have hcos : I.call "cos" [u.eval I] ≠ 0 := fun hzero => hne (by simp [hzero])
    rw [h.deriv_tan hcall hcos, eval_squared hlaws ho, eval_call, hvalue]
  case h_4 =>
    have htan := ((defined_mul I _ _).mp ho).2
    rw [h.deriv_sec hcall (defined_call.mp htan).2, eval_mul, eval_call, eval_call]
  case h_5 =>
    have hcot := ((defined_mul I _ _).mp (defined_negative.mp ho)).2
    rw [h.deriv_csc hcall (defined_call.mp hcot).2, eval_negative, eval_mul, eval_call, eval_call]
  case h_6 =>
    have hsquared := defined_negative.mp ho
    obtain ⟨hcsc, hne⟩ := defined_squared hlaws hsquared
    obtain ⟨-, hvalue⟩ := h.csc (defined_call.mp hcsc).2
    rw [eval_call, hvalue] at hne
    have hsin : I.call "sin" [u.eval I] ≠ 0 := fun hzero => hne (by simp [hzero])
    rw [h.deriv_cot hcall hsin, eval_negative, eval_squared hlaws hsquared, eval_call, hvalue]
  case h_7 =>
    obtain ⟨⟨-, hroot⟩, -⟩ := (defined_div I _ _).mp ho
    rw [h.asin hcall, eval_div, eval_ofNat, Nat.cast_one, eval_sqrtOneMinusSquare hlaws hroot,
      div_mul_eq_mul_div, one_mul]
  case h_8 =>
    obtain ⟨⟨-, hroot⟩, -⟩ := (defined_div I _ _).mp ho
    rw [h.acos hcall, eval_div, eval_ofInt, eval_sqrtOneMinusSquare hlaws hroot, div_mul_eq_mul_div,
      Int.cast_neg, Int.cast_one, neg_one_mul]
  case h_9 =>
    obtain ⟨⟨-, hsum⟩, -⟩ := (defined_div I _ _).mp ho
    have hsquared := ((defined_add I _ _).mp hsum).2
    rw [h.atan hcall, eval_div, eval_add, eval_ofNat, Nat.cast_one, eval_squared hlaws hsquared,
      div_mul_eq_mul_div, one_mul]
  case h_10 => rw [h.sinh hcall, eval_call]
  case h_11 => rw [h.cosh hcall, eval_call]
  case h_12 =>
    obtain ⟨⟨-, hsquared⟩, -⟩ := (defined_div I _ _).mp ho
    have hcosh := (defined_squared hlaws hsquared).2
    rw [eval_call] at hcosh
    rw [h.deriv_tanh hcall hcosh, eval_div, eval_ofNat, Nat.cast_one, eval_squared hlaws hsquared,
      eval_call]
  case h_13 =>
    have hne := ((defined_div I _ _).mp ho).2
    rw [h.ln hcall hne, eval_div, eval_ofNat, Nat.cast_one, div_mul_eq_mul_div, one_mul]
  case h_14 => rw [h.exp hcall, eval_call]
  case h_15 =>
    have hroot := ((defined_div I _ _).mp ho).2
    rw [eval_mul, eval_ofNat, Nat.cast_ofNat, eval_call] at hroot
    rw [h.deriv_sqrt hcall hroot, eval_div, eval_mul, eval_ofNat, eval_ofNat, Nat.cast_one,
      Nat.cast_ofNat, eval_call]
  case h_16 =>
    have habs := ((defined_div I _ _).mp ho).2
    rw [eval_call] at habs
    rw [h.deriv_abs hcall habs, eval_div, eval_call]
  case h_17 => simp at hf

/-- The value of `d` is the derivative of the value of `t` where both have one. -/
def HasDerivative (I : Interpretation K) (D : Derivation ℤ K K) (t d : Expr Rat) : Prop :=
  t.Defined I → d.Defined I → D (t.eval I) = d.eval I

section Operations

variable {a b a' b' : Expr Rat}

theorem hasDerivative_free [CharZero K] (h : DifferentialLaws I D x) {t : Expr Rat}
    (hx : t.contains x = false) : HasDerivative I D t (ofNat 0) := by
  intro ht _
  rw [h.free hx ht, eval_ofNat, Nat.cast_zero]

theorem hasDerivative_additive {o : Arithmetic} (ho : o = .add ∨ o = .sub)
    (ha : HasDerivative I D a a') (hb : HasDerivative I D b b') :
    HasDerivative I D (op o a b) (op o a' b') := by
  intro ht hd
  rcases ho with rfl | rfl
  · rw [defined_add] at ht hd
    rw [eval_add, eval_add, Derivation.map_add, ha ht.1 hd.1, hb ht.2 hd.2]
  · rw [defined_sub] at ht hd
    rw [eval_sub, eval_sub, Derivation.map_sub, ha ht.1 hd.1, hb ht.2 hd.2]

theorem hasDerivative_mul (ha : HasDerivative I D a a') (hb : HasDerivative I D b b') :
    HasDerivative I D (op .mul a b) (op .add (op .mul a' b) (op .mul a b')) := by
  intro ht hd
  simp only [defined_add, defined_mul] at ht hd
  rw [eval_add, eval_mul, eval_mul, eval_mul, Derivation.leibniz, ha ht.1 hd.1.1, hb ht.2 hd.2.2]
  simp only [smul_eq_mul]
  ring

theorem hasDerivative_div [CharZero K] (h : DifferentialLaws I D x) (ha : HasDerivative I D a a')
    (hb : HasDerivative I D b b') :
    HasDerivative I D (op .div a b)
      (op .div (op .sub (op .mul a' b) (op .mul a b')) (squared b)) := by
  intro ht hd
  have hsquared := ((defined_div I _ _).mp hd).1.2
  simp only [defined_div, defined_sub, defined_mul] at ht hd
  rw [eval_div, eval_div, eval_sub, eval_mul, eval_mul, eval_squared h hsquared,
    DifferentialLaws.deriv_div D _ ht.2, ha ht.1.1 hd.1.1.1.1, hb ht.1.2 hd.1.1.2.2]

theorem hasDerivative_power [CharZero K] (h : DifferentialLaws I D x) (hb : b.contains x = false)
    (ha : HasDerivative I D a a') :
    HasDerivative I D (op .pow a b)
      (op .mul (op .mul b (op .pow a (op .sub b (ofNat 1)))) a') := by
  intro ht hd
  simp only [defined_pow, defined_mul, eval_sub, eval_ofNat, Nat.cast_one] at ht hd
  have hbase := h.base ht.2
  rw [eval_pow, eval_mul, eval_mul, eval_pow, eval_sub, eval_ofNat, Nat.cast_one, h.power ht.2,
    h.free hb ht.1.2, ha ht.1.1 hd.2, h.power_sub_one hd.1.2.2]
  field_simp
  ring

theorem hasDerivative_exponential (h : DifferentialLaws I D x) (ha : a.contains x = false)
    (hb : HasDerivative I D b b') :
    HasDerivative I D (op .pow a b) (op .mul (op .mul (op .pow a b) (fn "ln" [a])) b') := by
  intro ht hd
  simp only [defined_pow, defined_mul] at ht hd
  rw [eval_mul, eval_mul, eval_pow, eval_call, h.power ht.2, h.free ha ht.1.1, hb ht.1.2 hd.2]
  ring

theorem hasDerivative_logarithmic (h : DifferentialLaws I D x) (ha : HasDerivative I D a a')
    (hb : HasDerivative I D b b') :
    HasDerivative I D (op .pow a b)
      (op .mul (op .pow a b) (op .add (op .mul b' (fn "ln" [a])) (op .div (op .mul b a') a))) := by
  intro ht hd
  simp only [defined_pow, defined_mul, defined_add, defined_div] at ht hd
  rw [eval_mul, eval_pow, eval_add, eval_mul, eval_div, eval_mul, eval_call, h.power ht.2,
    ha ht.1.1 hd.2.2.1.1.2, hb ht.1.2 hd.2.1.1]

theorem hasDerivative_call [CharZero K] (h : FunctionLaws I D x) {f : String}
    {u u' outer : Expr Rat} (hf : outerDerivative? f u = some outer) (hu : HasDerivative I D u u') :
    HasDerivative I D (fn f [u]) (op .mul outer u') := by
  intro ht hd
  rw [defined_mul] at hd
  rw [outerDerivative?_eval h hf ht hd.1, eval_mul, hu (defined_call.mp ht).1 hd.2]

end Operations

theorem Derives.hasDerivative [CharZero K] (h : FunctionLaws I D x) {t d : Expr Rat}
    (hd : Derives x t d) : HasDerivative I D t d := by
  have hlaws := h.toDifferentialLaws
  induction hd with
  | constant hx _ => exact hasDerivative_free hlaws hx
  | self =>
    intro _ _
    rw [eval_var, h.self, eval_ofNat, Nat.cast_one]
  | equation => exact fun ht _ => absurd ht (not_defined_eq I _ _)
  | sum ho _ _ iha ihb => exact hasDerivative_additive ho iha ihb
  | product _ _ iha ihb => exact hasDerivative_mul iha ihb
  | quotient _ _ iha ihb => exact hasDerivative_div hlaws iha ihb
  | power hb _ iha => exact hasDerivative_power hlaws hb iha
  | exponential ha _ ihb => exact hasDerivative_exponential hlaws ha ihb
  | logarithmic _ _ iha ihb => exact hasDerivative_logarithmic hlaws iha ihb
  | chain hf _ ih => exact hasDerivative_call h hf ih

theorem derivative_ensures [CharZero K] (h : FunctionLaws I D x) (t : Expr Rat) :
    Ensures (derivative x t) (HasDerivative I D t) fun _ => True :=
  ((derivative_derives t).mono fun _ hd => hd.hasDerivative h).weaken fun _ _ => trivial

/-- The derivative that is returned is the derivative; that of an equation is an equation of the
derivatives of its sides. -/
theorem derivative_eval [CharZero K] (h : FunctionLaws I D x) {t d : Expr Rat} {log : Log Rat}
    (hd : ((derivative x t).run.run log).1 = .ok d) :
    (t.Defined I → d.Defined I → D (t.eval I) = d.eval I) ∧
      ∀ l r, t = eq l r → ∃ l' r', d = eq l' r' ∧
        (l.Defined I → l'.Defined I → D (l.eval I) = l'.eval I) ∧
        (r.Defined I → r'.Defined I → D (r.eval I) = r'.eval I) := by
  constructor
  · have hderivative := derivative_ensures h t log
    rw [hd] at hderivative
    exact hderivative
  · rintro l r rfl
    have hsides : Ensures (derivative x (eq l r)) (fun d => ∃ l' r', d = eq l' r' ∧
        HasDerivative I D l l' ∧ HasDerivative I D r r') fun _ => True := by
      rw [derivative]
      apply (derivative_ensures h l).bind
      intro l' hl'
      apply (derivative_ensures h r).bind
      intro r' hr'
      exact ensures_pure ⟨l', r', rfl, hl', hr'⟩
    have hequation := hsides log
    rw [hd] at hequation
    exact hequation

/-- The quotient `x^2/abs(x)`. -/
def squareOverAbs : Expr Rat := op .div (op .pow (var "x") (num 2)) (fn "abs" [var "x"])

theorem derivative_eval_of_quotient : ∃ d, (derivative "x" squareOverAbs).result = .ok d ∧
    squareOverAbs.Defined .rationalFunctions ∧ d.Defined .rationalFunctions ∧
    rationalDerivation (squareOverAbs.eval .rationalFunctions) = d.eval .rationalFunctions := by
  have hX : (RatFunc.X : RatFunc ℚ) ≠ 0 := RatFunc.X_ne_zero
  have hpower (n : ℤ) : Interpretation.rationalFunctions.PowerDefined RatFunc.X n := ⟨hX, n, rfl⟩
  have hone : Interpretation.rationalFunctions.PowerDefined RatFunc.X (2 - 1) := by
    exact_mod_cast hpower (2 - 1)
  have htwo : Interpretation.rationalFunctions.PowerDefined RatFunc.X 2 := by
    exact_mod_cast hpower 2
  let power : Expr Rat := op .mul (num 2) (op .pow (var "x") (op .sub (num 2) (ofNat 1)))
  let chain : Expr Rat := op .mul (op .div (var "x") (fn "abs" [var "x"])) (ofNat 1)
  let d : Expr Rat := op .div (op .sub (op .mul (op .mul power (ofNat 1)) (fn "abs" [var "x"]))
    (op .mul (op .pow (var "x") (num 2)) chain)) (squared (fn "abs" [var "x"]))
  have hd : (derivative "x" squareOverAbs).result = .ok d := rfl
  have hdefined : squareOverAbs.Defined .rationalFunctions := by
    simp [squareOverAbs, DefinedArgs, evalArgs, htwo, hX]
  have hsquare : Interpretation.rationalFunctions.power RatFunc.X 2 ≠ 0 := by
    rw [rationalFunctions_laws.power_two hX]
    exact pow_ne_zero 2 hX
  have hdefined' : d.Defined .rationalFunctions := by
    simp [d, power, chain, squared, DefinedArgs, evalArgs, hone, htwo, hX, hsquare]
  exact ⟨d, hd, hdefined, hdefined',
    (derivative_eval rationalFunctions_laws hd).1 hdefined hdefined'⟩

end RuleAlgebra.Expr
