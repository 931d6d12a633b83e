import RuleAlgebra.Expr.Evaluation
import RuleAlgebra.Proofs.ArithmeticRules

/-!
Evaluation over fractions finds the exact value of an expression without functions.
-/

namespace RuleAlgebra.Expr

section Found

variable {α : Type} [Scalar α]

theorem operationValue_eq_ok {o : Arithmetic} {a b c : α} :
    operationValue o a b = .ok c ↔ o.value? a b = some c :=
  some_or_throw_eq_ok

theorem functionValue_eq_ok {name : String} {f : Elementary} {vs : List α} {c : α} :
    functionValue name f vs = .ok c ↔ f.onList? vs = some c :=
  some_or_throw_eq_ok

end Found

section Soundness

variable {K : Type*} [Field K] [CharZero K] {I : Interpretation K}

/-- What evaluation finds is the exact value, where the variables have exact values and functions
have none. -/
theorem evaluate_eval (hI : I.PowerLaws) (hcall : ∀ f vs, ¬I.CallDefined f vs)
    {env : Environment Rat} :
    ∀ {e : Expr Rat} {v : Rat}, (∀ x, e.contains x = true →
      ∀ u, variableValue env x = .ok u → I.assign x = u) → e.Defined I →
      e.evaluate env = .ok v → e.eval I = v
  | num q, v, _, _, hv => by
    obtain rfl := Except.ok.inj hv
    exact eval_num I q
  | var x, v, hx, _, hv => hx x (by simp [contains]) v hv
  | eq l r, v, _, hd, _ => absurd hd (not_defined_eq I l r)
  | wild n k a, v, _, hd, _ => absurd hd (not_defined_wild I n k a)
  | fn f as, v, _, hd, _ => absurd ((defined_fn I f as).mp hd).2 (hcall f _)
  | op o l r, v, hx, hd, hv => by
    simp only [evaluate, bind_eq_ok, operationValue_eq_ok] at hv
    obtain ⟨a, ha, b, hb, hvalue⟩ := hv
    simp only [contains, Bool.or_eq_true, or_imp, forall_and] at hx
    simp only [Defined] at hd
    have vl := evaluate_eval hI hcall hx.1 hd.1.1 ha
    have vr := evaluate_eval hI hcall hx.2 hd.1.2 hb
    have hnum : (op o (num a) (num b)).Defined I := by
      simp only [Defined, eval_num, ← vl, ← vr]
      exact ⟨⟨trivial, trivial⟩, hd.2⟩
    have key := (Rules.value?_refines hI hvalue hnum).2
    simp only [eval, ← vl, ← vr] at key ⊢
    exact key.symm

theorem closedValue?_eval (hI : I.PowerLaws) (hcall : ∀ f vs, ¬I.CallDefined f vs) {e : Expr Rat}
    {v : Rat} (hx : ∀ x, e.contains x = false) (hd : e.Defined I)
    (hv : e.closedValue? = some v) : e.eval I = v := by
  have hvalue : e.evaluate .empty = .ok v := by
    unfold closedValue? value? at hv
    cases h : e.evaluate .empty with
    | error f => simp [h, Except.toOption] at hv
    | ok w => simpa [h, Except.toOption] using hv
  exact evaluate_eval hI hcall (fun x h => by simp [hx x] at h) hd hvalue

end Soundness

theorem evaluate_rational (ρ : String → Rat) : ∀ {e : Expr Rat}, e.Defined (.rational ρ) →
    e.evaluate (fun x => some (ρ x)) = .ok (e.eval (.rational ρ))
  | num q, _ => by simp [evaluate, pure, Except.pure]
  | var x, _ => by simp [evaluate, variableValue, Interpretation.rational, pure, Except.pure]
  | eq l r, hd => absurd hd (not_defined_eq _ l r)
  | wild n k a, hd => absurd hd (not_defined_wild _ n k a)
  | fn f as, hd => (((defined_fn _ f as).mp hd).2).elim
  | op o l r, hd => by
    simp only [Defined] at hd
    simp only [evaluate, evaluate_rational ρ hd.1.1, evaluate_rational ρ hd.1.2, ok_bind,
      operationValue_eq_ok]
    cases o with
    | add => simp [Arithmetic.value?]
    | sub => simp [Arithmetic.value?]
    | mul => simp [Arithmetic.value?]
    | div =>
      have h0 : r.eval (.rational ρ) ≠ 0 := hd.2
      simp [Arithmetic.value?, h0]
    | pow =>
      have hp : Scalar.power? (l.eval (.rational ρ)) (r.eval (.rational ρ)) =
          some (l.eval (.rational ρ) ^ (r.eval (.rational ρ)).num) :=
        Rational.power?_eq_some.mpr ⟨hd.2, rfl⟩
      simp only [Arithmetic.value?, hp, Option.bind_some, Scalar.finite?_rat, eval_pow]
      rfl

end RuleAlgebra.Expr
