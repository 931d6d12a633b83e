import RuleAlgebra.Proofs.Differentiation
import RuleAlgebra.Proofs.IntegrationRules
import RuleAlgebra.Proofs.LinearArguments

/-!
The derivative of an antiderivative is the integrand: in every field with a derivation that obeys
the rules of calculus, wherever both are defined and no integral was left. Each rule divides by the
slope of a linear argument, which is the derivative of the argument and hence not zero.
-/

namespace RuleAlgebra.Expr

open Traced

variable {K : Type*} [Field K] {I : Interpretation K} {D : Derivation ℤ K K} {x : String}
  {simplify : Expr Rat → Except Failure (Expr Rat)} {t u k e F : Expr Rat}

section Integrals

def NoIntegral (F : Expr Rat) : Prop := ∀ as, fn integralName as ∉ F.walk

theorem noIntegral_op {o : Arithmetic} {l r : Expr Rat} (h : NoIntegral (op o l r)) :
    NoIntegral l ∧ NoIntegral r := by
  simp only [NoIntegral, walk, List.mem_cons, List.mem_append, not_or] at h
  exact ⟨fun as => (h as).2.1, fun as => (h as).2.2⟩

def OneArgument (t : Expr Rat) : Prop := ∀ f as, fn f as ∈ t.walk → ∃ u, as = [u]

theorem oneArgument_op {o : Arithmetic} {l r : Expr Rat} (h : OneArgument (op o l r)) :
    OneArgument l ∧ OneArgument r := by
  constructor
  · exact fun f as hl => h f as (by simp [walk, hl])
  · exact fun f as hr => h f as (by simp [walk, hr])

/-- An antiderivative, unless an integral was left in it. -/
def IsIntegral (I : Interpretation K) (D : Derivation ℤ K K) (t F : Expr Rat) : Prop :=
  NoIntegral F → HasDerivative I D F t

end Integrals

section Slopes

theorem HasSlope.isSlope [CharZero K] (hk : HasSlope simplify x u k)
    (h : DifferentialLaws I D x) (hs : PreservesValues I simplify) : IsSlope I D u k := by
  obtain ⟨c, hc⟩ := hk
  exact linearParts_slope h hs hc

theorem deriv_overSlope [CharZero K] (hk : IsSlope I D u k) (hu : u.Defined I)
    (hF : (overSlope e k).Defined I) :
    e.Defined I ∧ D (u.eval I) ≠ 0 ∧
      D ((overSlope e k).eval I) = D (e.eval I) / D (u.eval I) := by
  obtain ⟨hslope, hconstant⟩ := hk hu
  unfold overSlope at hF ⊢
  split at hF
  · rename_i hone
    rw [isNumber_iff.mp hone, eval_num, Int.cast_one, Rat.cast_one] at hslope
    rw [if_pos hone, hslope, div_one]
    exact ⟨hF, one_ne_zero, rfl⟩
  · rename_i hone
    obtain ⟨⟨he, -⟩, hne⟩ := (defined_div I _ _).mp hF
    rw [if_neg hone, eval_div, DifferentialLaws.deriv_div D _ hne, hconstant, hslope]
    refine ⟨he, hne, ?_⟩
    field_simp
    ring

end Slopes

theorem tableIntegral?_eval [CharZero K] (h : RootLaws I D x) {f : String} {outer : Expr Rat}
    (hf : tableIntegral? f u = some outer) (hd : (fn f [u]).Defined I) (hD : D (u.eval I) ≠ 0)
    (ho : outer.Defined I) : D (outer.eval I) = (fn f [u]).eval I * D (u.eval I) := by
  obtain ⟨hu, hcall⟩ := defined_call.mp hd
  have hne := DifferentialLaws.ne_zero_of_deriv hD
  rw [eval_call]
  unfold tableIntegral? at hf
  -- the cases are the functions of the table in its order: `sin`, `cos`, `tan`, `exp`, `ln`, `sqrt`,
  -- `sinh` and `cosh`
  split at hf
  all_goals try obtain rfl := Option.some.inj hf
  case h_1 =>
    have hcos := (defined_call.mp ((defined_mul I _ _).mp ho).2).2
    rw [eval_mul, eval_ofInt, eval_call, Derivation.leibniz, h.cos hcos]
    simp
  case h_2 => rw [eval_call, h.sin (defined_call.mp ho).2]
  case h_3 =>
    obtain ⟨hcos, hln⟩ := defined_call.mp ((defined_mul I _ _).mp ho).2
    obtain ⟨⟨hs, hc⟩, hvalue⟩ := h.tan hcall
    rw [eval_call] at hln
    rw [eval_mul, eval_ofInt, eval_call, eval_call, Derivation.leibniz,
      h.ln hln (h.cos_ne_zero hs hc hD), h.cos hc, hvalue]
    simp [neg_div, div_mul_eq_mul_div]
  case h_4 => rw [eval_call, h.exp hcall]
  case h_5 =>
    rw [eval_sub, eval_mul, eval_call, Derivation.map_sub, Derivation.leibniz, h.ln hcall hne]
    simp only [smul_eq_mul]
    field_simp
    ring
  case h_6 =>
    have hthree : ((3 : Nat) : K) ≠ 0 := by norm_num
    have hderiv := h.deriv_three_halves hne hcall
    rw [eval_div, eval_mul, eval_pow, eval_div, eval_ofNat, eval_ofNat,
      DifferentialLaws.deriv_div D _ hthree, Derivation.leibniz, Derivation.map_natCast,
      Derivation.map_natCast, Nat.cast_ofNat, Nat.cast_ofNat, hderiv]
    simp only [smul_eq_mul]
    field_simp
    ring
  case h_7 => rw [eval_call, h.cosh (defined_call.mp ho).2]
  case h_8 => rw [eval_call, h.sinh (defined_call.mp ho).2]
  case h_9 => simp at hf

section Rules

variable {a b : Expr Rat} {P : Expr Rat → Prop}

theorem not_noIntegral_unevaluated : ¬NoIntegral (fn integralName [e, var x]) :=
  fun hno => hno [e, var x] (self_mem_walk _)

theorem isIntegral_constant (h : DifferentialLaws I D x) (hx : t.contains x = false) :
    IsIntegral I D t (op .mul t (var x)) := by
  intro _ _ ht
  rw [eval_mul, eval_var, Derivation.leibniz, h.self, h.free hx ht]
  simp

theorem isIntegral_variable [CharZero K] (h : DifferentialLaws I D x) :
    IsIntegral I D (var x) (op .div (op .pow (var x) (ofNat 2)) (ofNat 2)) := by
  intro _ hF _
  have htwo : ((2 : Nat) : K) ≠ 0 := by norm_num
  have hpower := ((defined_pow I _ _).mp ((defined_div I _ _).mp hF).1.1).2
  rw [eval_div, eval_pow, eval_ofNat, h.power_nat 2 (by simpa using hpower),
    DifferentialLaws.deriv_div D _ htwo, DifferentialLaws.deriv_sq, eval_var, h.self,
    Derivation.map_natCast, Nat.cast_ofNat]
  field_simp
  ring

theorem isIntegral_additive {o : Arithmetic} (ho : o = .add ∨ o = .sub) {a' b' : Expr Rat}
    (ha : IsIntegral I D a a') (hb : IsIntegral I D b b') :
    IsIntegral I D (op o a b) (op o a' b') := by
  intro hno
  obtain ⟨hleft, hright⟩ := noIntegral_op hno
  exact hasDerivative_additive ho (ha hleft) (hb hright)

theorem isIntegral_factor (h : DifferentialLaws I D x) (hx : a.contains x = false) {b' : Expr Rat}
    (hb : IsIntegral I D b b') : IsIntegral I D (op .mul a b) (op .mul a b') := by
  intro hno hF ht
  rw [defined_mul] at hF ht
  rw [eval_mul, eval_mul, Derivation.leibniz, h.free hx ht.1, hb (noIntegral_op hno).2 hF.2 ht.2]
  simp

theorem isIntegral_mul_comm {e : Expr Rat} (h : IsIntegral I D (op .mul a b) e) :
    IsIntegral I D (op .mul b a) e := by
  intro hno hF ht
  rw [defined_mul] at ht
  rw [h hno hF ((defined_mul I _ _).mpr ht.symm), eval_mul, eval_mul, mul_comm]

theorem isIntegral_divisor (h : DifferentialLaws I D x) (hx : b.contains x = false) {a' : Expr Rat}
    (ha : IsIntegral I D a a') : IsIntegral I D (op .div a b) (op .div a' b) := by
  intro hno hF ht
  rw [defined_div] at hF ht
  rw [eval_div, eval_div, DifferentialLaws.deriv_div D _ ht.2, h.free hx ht.1.2,
    ha (noIntegral_op hno).1 hF.1.1 ht.1.1]
  have hne := ht.2
  field_simp
  ring

/-- An antiderivative of a power that is defined unless its base is zero. -/
def IsPowerIntegral (I : Interpretation K) (D : Derivation ℤ K K) (a b F : Expr Rat) : Prop :=
  NoIntegral F → F.Defined I → a.Defined I → b.Defined I →
    (a.eval I ≠ 0 → I.PowerDefined (a.eval I) (b.eval I)) →
      I.PowerDefined (a.eval I) (b.eval I) ∧ D (F.eval I) = I.power (a.eval I) (b.eval I)

theorem IsPowerIntegral.isIntegral (h : IsPowerIntegral I D a b F) :
    IsIntegral I D (op .pow a b) F := by
  intro hno hF ht
  obtain ⟨⟨ha, hb⟩, hd⟩ := (defined_pow I _ _).mp ht
  rw [eval_pow, (h hno hF ha hb fun _ => hd).2]

section Powers

theorem isPowerIntegral_logarithm [CharZero K] (h : RootLaws I D x) (hk : IsSlope I D a k) :
    IsPowerIntegral I D a (num (-1 : Int)) (overSlope (fn "ln" [a]) k) := by
  intro _ hF ha _ _
  obtain ⟨hln, hne, hderiv⟩ := deriv_overSlope hk ha hF
  have hbase := DifferentialLaws.ne_zero_of_deriv hne
  obtain ⟨hd, hvalue⟩ := h.power_neg_one hbase
  rw [defined_call] at hln
  rw [hderiv, eval_call, h.ln hln.2 hbase, eval_num, Int.cast_neg, Int.cast_one, Rat.cast_neg,
    Rat.cast_one]
  refine ⟨hd, ?_⟩
  rw [hvalue]
  field_simp

theorem isPowerIntegral_raised [CharZero K] (h : RootLaws I D x) (hb : b.contains x = false)
    (hk : IsSlope I D a k) :
    IsPowerIntegral I D a b (overSlope
      (op .div (op .pow a (op .add b (ofNat 1))) (op .add b (ofNat 1))) k) := by
  intro _ hF ha hbd hpower
  obtain ⟨hquotient, hne, hderiv⟩ := deriv_overSlope hk ha hF
  have hd := hpower (DifferentialLaws.ne_zero_of_deriv hne)
  have hconstant : D (b.eval I) = 0 := h.free hb hbd
  obtain ⟨-, hraised⟩ := (defined_div I _ _).mp hquotient
  rw [eval_add, eval_ofNat, Nat.cast_one] at hraised
  refine ⟨hd, ?_⟩
  rw [hderiv, eval_div, eval_pow, eval_add, eval_ofNat, Nat.cast_one,
    DifferentialLaws.deriv_div D _ hraised, h.deriv_power_add_one hd hconstant,
    Derivation.map_add, hconstant, Derivation.map_one_eq_zero]
  field_simp
  ring

theorem isPowerIntegral_secant [CharZero K] (h : RootLaws I D x) (hk : IsSlope I D u k) :
    IsPowerIntegral I D (fn "sec" [u]) (num (2 : Int)) (overSlope (fn "tan" [u]) k) := by
  intro _ hF ha _ hpower
  obtain ⟨hu, hsec⟩ := defined_call.mp ha
  obtain ⟨htan, hne, hderiv⟩ := deriv_overSlope hk hu hF
  rw [defined_call] at htan
  obtain ⟨⟨hsin, hcos⟩, -⟩ := h.tan htan.2
  have hcosine := h.cos_ne_zero hsin hcos hne
  obtain ⟨-, hvalue⟩ := h.sec hsec
  have hbase : (fn "sec" [u]).eval I ≠ 0 := by
    rw [eval_call, hvalue]
    exact one_div_ne_zero hcosine
  refine ⟨hpower hbase, ?_⟩
  rw [hderiv, eval_call, h.deriv_tan htan.2 hcosine, eval_num, Int.cast_ofNat, Rat.cast_ofNat,
    h.power_two hbase, eval_call, hvalue]
  field_simp

theorem isPowerIntegral_exponential [CharZero K] (h : RootLaws I D x) (ha : a.contains x = false)
    (hk : IsSlope I D b k) :
    IsPowerIntegral I D a b (overSlope (op .div (op .pow a b) (fn "ln" [a])) k) := by
  intro _ hF had hb _
  obtain ⟨hquotient, hne, hderiv⟩ := deriv_overSlope hk hb hF
  obtain ⟨⟨hpower, hln⟩, hlog⟩ := (defined_div I _ _).mp hquotient
  have hd := ((defined_pow I _ _).mp hpower).2
  have hconstant : D ((fn "ln" [a]).eval I) = 0 :=
    h.free (by simpa [contains, anyContains] using ha) hln
  refine ⟨hd, ?_⟩
  rw [hderiv, eval_div, DifferentialLaws.deriv_div D _ hlog, hconstant, eval_pow, h.power hd,
    h.free ha had, ← eval_call]
  field_simp
  ring

theorem IntegratesPower.isPowerIntegral [CharZero K] (hF : IntegratesPower simplify x a b F)
    (h : RootLaws I D x) (hs : PreservesValues I simplify) (hone : OneArgument a) :
    IsPowerIntegral I D a b F := by
  cases hF with
  | unevaluated => exact fun hno => absurd hno not_noIntegral_unevaluated
  | @secant u b k us hb hu =>
    obtain ⟨v, hv⟩ := hone "sec" (u :: us) (self_mem_walk _)
    obtain ⟨rfl, rfl⟩ := List.cons.inj hv
    obtain rfl := isNumber_iff.mp hb
    exact isPowerIntegral_secant h (hu.isSlope h.toDifferentialLaws hs)
  | reciprocal hb ha =>
    obtain rfl := isNumber_iff.mp hb
    exact isPowerIntegral_logarithm h (ha.isSlope h.toDifferentialLaws hs)
  | raised hb ha => exact isPowerIntegral_raised h hb (ha.isSlope h.toDifferentialLaws hs)
  | exponential ha hb => exact isPowerIntegral_exponential h ha (hb.isSlope h.toDifferentialLaws hs)

end Powers

section Reciprocals

theorem reciprocalPower?_eval [CharZero K] (h : RootLaws I D x) {n : Expr Rat}
    (hr : reciprocalPower? x b = some (u, n)) (hb : b.Defined I) :
    (u.Defined I ∧ n.Defined I) ∧ (u.eval I ≠ 0 → I.PowerDefined (u.eval I) (n.eval I) ∧
      b.eval I * I.power (u.eval I) (n.eval I) = 1) := by
  unfold reciprocalPower? at hr
  split at hr
  · rename_i f w
    split at hr
    · rename_i hsqrt
      cases hr
      subst hsqrt
      obtain ⟨hu, hcall⟩ := defined_call.mp hb
      refine ⟨⟨hu, by simp⟩, ?_⟩
      intro hne
      obtain ⟨hhalf, hroot⟩ := h.root hne hcall
      have hn : (op .div (ofInt (-1)) (ofNat 2) : Expr Rat).eval I = -(1 / 2) := by
        simp [neg_div]
      rw [hn, eval_call, ← hroot]
      exact ⟨h.power_neg hhalf, h.power_mul_neg hhalf⟩
    · cases hr
  · rename_i base m
    split at hr
    · obtain ⟨⟨hu, hm⟩, hd⟩ := (defined_pow I _ _).mp hb
      have hn : n.Defined I ∧ n.eval I = -m.eval I := by
        split at hr
        · cases hr
          simp
        · cases hr
          simpa using hm
      cases hr
      rw [hn.2, eval_pow]
      exact ⟨⟨hu, hn.1⟩, fun _ => ⟨h.power_neg hd, h.power_mul_neg hd⟩⟩
    · cases hr
  · cases hr

theorem reciprocalPower?_oneArgument {n : Expr Rat} (hr : reciprocalPower? x b = some (u, n))
    (hone : OneArgument b) : OneArgument u := by
  have hsub : ∀ e ∈ u.walk, e ∈ b.walk := by
    unfold reciprocalPower? at hr
    split at hr
    · split at hr
      · cases hr
        simp +contextual [walk, walkArgs]
      · cases hr
    · split at hr
      · cases hr
        simp +contextual [walk]
      · cases hr
    · cases hr
  exact fun f as hf => hone f as (hsub _ hf)

theorem isIntegral_logarithm [CharZero K] (h : RootLaws I D x) (ha : a.contains x = false)
    (hk : IsSlope I D b k) :
    IsIntegral I D (op .div a b) (overSlope (op .mul a (fn "ln" [b])) k) := by
  intro _ hF ht
  obtain ⟨⟨hda, hdb⟩, hne⟩ := (defined_div I _ _).mp ht
  obtain ⟨hproduct, hslope, hderiv⟩ := deriv_overSlope hk hdb hF
  have hln := (defined_call.mp ((defined_mul I _ _).mp hproduct).2).2
  rw [hderiv, eval_mul, eval_call, eval_div, Derivation.leibniz, h.free ha hda, h.ln hln hne]
  simp only [smul_eq_mul]
  field_simp
  ring

theorem isIntegral_reciprocal [CharZero K] (h : RootLaws I D x) (ha : a.contains x = false)
    {n : Expr Rat} (hr : reciprocalPower? x b = some (u, n)) (hF : IsPowerIntegral I D u n F) :
    IsIntegral I D (op .div a b) (op .mul a F) := by
  intro hno hd ht
  obtain ⟨⟨hda, hdb⟩, -⟩ := (defined_div I _ _).mp ht
  obtain ⟨⟨hu, hn⟩, hpower⟩ := reciprocalPower?_eval h hr hdb
  obtain ⟨hd', hderiv⟩ := hF (noIntegral_op hno).2 ((defined_mul I _ _).mp hd).2 hu hn
    fun hbase => (hpower hbase).1
  -- the base is not zero where the integral of its power has a derivative
  have hproduct := (hpower (h.base hd')).2
  rw [eval_mul, Derivation.leibniz, hderiv, h.free ha hda, eval_div,
    eq_one_div_of_mul_eq_one_right hproduct]
  simp [div_eq_mul_inv]

end Reciprocals

theorem isIntegral_table [CharZero K] (h : RootLaws I D x) {f : String} {outer : Expr Rat}
    (hf : tableIntegral? f u = some outer) (hk : IsSlope I D u k) :
    IsIntegral I D (fn f [u]) (overSlope outer k) := by
  intro _ hF ht
  obtain ⟨hdefined, hne, hderiv⟩ := deriv_overSlope hk (defined_call.mp ht).1 hF
  rw [hderiv, tableIntegral?_eval h hf ht hne hdefined, mul_div_cancel_right₀ _ hne]

end Rules

theorem Integrates.isIntegral [CharZero K] (h : RootLaws I D x) (hs : PreservesValues I simplify)
    (hF : Integrates simplify x t F) (hone : OneArgument t) : IsIntegral I D t F := by
  have hlaws := h.toDifferentialLaws
  induction hF with
  | unevaluated => exact fun hno => absurd hno not_noIntegral_unevaluated
  | constant hx => exact isIntegral_constant hlaws hx
  | self => exact isIntegral_variable hlaws
  | sum ho _ _ iha ihb =>
    obtain ⟨ha, hb⟩ := oneArgument_op hone
    exact isIntegral_additive ho (iha ha) (ihb hb)
  | leftFactor hx _ ihb => exact isIntegral_factor hlaws hx (ihb (oneArgument_op hone).2)
  | rightFactor hx _ iha =>
    exact isIntegral_mul_comm (isIntegral_factor hlaws hx (iha (oneArgument_op hone).1))
  | divisor hx _ iha => exact isIntegral_divisor hlaws hx (iha (oneArgument_op hone).1)
  | logarithm hx hk => exact isIntegral_logarithm h hx (hk.isSlope hlaws hs)
  | reciprocal hx hr hF =>
    have hbase := reciprocalPower?_oneArgument hr (oneArgument_op hone).2
    exact isIntegral_reciprocal h hx hr (hF.isPowerIntegral h hs hbase)
  | power hF => exact (hF.isPowerIntegral h hs (oneArgument_op hone).1).isIntegral
  | table hf hk => exact isIntegral_table h hf (hk.isSlope hlaws hs)

theorem antiderivative_ensures [CharZero K] (h : RootLaws I D x) (hs : PreservesValues I simplify)
    (t : Expr Rat) (hone : OneArgument t) :
    Ensures (antiderivative simplify x t) (IsIntegral I D t) fun _ => True :=
  (antiderivative_integrates t).mono fun _ hF => hF.isIntegral h hs hone

/-- Where both have a value, the derivative of an antiderivative without integrals is the
integrand. -/
theorem antiderivative_deriv [CharZero K] (h : RootLaws I D x) (hs : PreservesValues I simplify)
    (hone : OneArgument t) {log : Log Rat}
    (hF : ((antiderivative simplify x t).run.run log).1 = .ok F) (hno : NoIntegral F)
    (ht : t.Defined I) (hd : F.Defined I) : D (F.eval I) = t.eval I := by
  have hintegral := antiderivative_ensures h hs t hone log
  rw [hF] at hintegral
  exact hintegral hno hd ht

/-- The quotient `1/(2*x)^2`. -/
def inverseSquare : Expr Rat := op .div (num 1) (op .pow (op .mul (num 2) (var "x")) (num 2))

theorem antiderivative_deriv_of_inverse_square :
    ∃ F, (antiderivative .ok "x" inverseSquare).result = .ok F ∧
      PreservesValues .rationalFunctions .ok ∧ OneArgument inverseSquare ∧ NoIntegral F ∧
      inverseSquare.Defined .rationalFunctions ∧ F.Defined .rationalFunctions ∧
      rationalDerivation (F.eval .rationalFunctions) = inverseSquare.eval .rationalFunctions := by
  have hbase : (2 : RatFunc ℚ) * RatFunc.X ≠ 0 := mul_ne_zero two_ne_zero RatFunc.X_ne_zero
  have hpower (n : ℤ) : Interpretation.rationalFunctions.PowerDefined (2 * RatFunc.X) n :=
    ⟨hbase, n, rfl⟩
  have htwo : Interpretation.rationalFunctions.PowerDefined (2 * RatFunc.X) 2 := by
    exact_mod_cast hpower 2
  have hminus : Interpretation.rationalFunctions.PowerDefined (2 * RatFunc.X) (-2 + 1) := by
    exact_mod_cast hpower (-2 + 1)
  have hsquare : Interpretation.rationalFunctions.power (2 * RatFunc.X) 2 ≠ 0 := by
    rw [rationalFunctions_laws.power_two hbase]
    exact pow_ne_zero 2 hbase
  let raised : Expr Rat := op .add (num (-2)) (ofNat 1)
  let power : Expr Rat := op .div (op .pow (op .mul (num 2) (var "x")) raised) raised
  let F : Expr Rat := op .mul (num 1) (op .div power (op .mul (num 2) (ofNat 1)))
  have hF : (antiderivative .ok "x" inverseSquare).result = .ok F := by with_unfolding_all rfl
  have hs : PreservesValues .rationalFunctions .ok := by
    intro c d hcd _
    rw [Except.ok.inj hcd]
  have hone : OneArgument inverseSquare := by
    intro f as hf
    simp [inverseSquare, walk] at hf
  have hno : NoIntegral F := by
    intro as
    simp [F, power, raised, walk, ofNat]
  have ht : inverseSquare.Defined .rationalFunctions := by
    simp [inverseSquare, htwo, hsquare]
  have hd : F.Defined .rationalFunctions := by
    have hexponent : (-2 : RatFunc ℚ) + 1 ≠ 0 := by norm_num
    simp [F, power, raised, hminus, hexponent]
  exact ⟨F, hF, hs, hone, hno, ht, hd,
    antiderivative_deriv rationalFunctions_rootLaws hs hone hF hno ht hd⟩

end RuleAlgebra.Expr
