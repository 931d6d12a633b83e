import RuleAlgebra.Calculus.Antiderivative
import RuleAlgebra.Proofs.Occurrences
import RuleAlgebra.Proofs.TracedComputations

/-!
The rules of integration as relations between an integrand and an antiderivative. Whatever is
returned as an antiderivative is one by these rules, where an expression that no rule covers stays
an integral.
-/

namespace RuleAlgebra.Expr

open RuleAlgebra.Traced

variable {α : Type} [Scalar α]

/-- An argument that is linear in the variable, and its slope. -/
def HasSlope (simplify : Expr α → Except Failure (Expr α)) (x : String) (u k : Expr α) : Prop :=
  ∃ c, u.linearParts x simplify = .ok (some (k, c))

/-- Antiderivatives of the power of a base to an exponent. Further arguments of a secant are not
looked at. -/
inductive IntegratesPower (simplify : Expr α → Except Failure (Expr α)) (x : String) :
    Expr α → Expr α → Expr α → Prop
  | unevaluated (a b : Expr α) :
    IntegratesPower simplify x a b (fn integralName [op .pow a b, var x])
  | secant {u b k : Expr α} (us : List (Expr α)) (hb : b.isNumber 2 = true)
    (hu : HasSlope simplify x u k) :
    IntegratesPower simplify x (fn "sec" (u :: us)) b (overSlope (fn "tan" [u]) k)
  | reciprocal {a b k : Expr α} (hb : b.isNumber (-1) = true) (ha : HasSlope simplify x a k) :
    IntegratesPower simplify x a b (overSlope (fn "ln" [a]) k)
  | raised {a b k : Expr α} (hb : b.contains x = false) (ha : HasSlope simplify x a k) :
    IntegratesPower simplify x a b
      (overSlope (op .div (op .pow a (op .add b (ofNat 1))) (op .add b (ofNat 1))) k)
  | exponential {a b k : Expr α} (ha : a.contains x = false) (hb : HasSlope simplify x b k) :
    IntegratesPower simplify x a b (overSlope (op .div (op .pow a b) (fn "ln" [a])) k)

/-- Antiderivatives of an expression from those of its parts. -/
inductive Integrates (simplify : Expr α → Except Failure (Expr α)) (x : String) :
    Expr α → Expr α → Prop
  | unevaluated (t : Expr α) : Integrates simplify x t (fn integralName [t, var x])
  | constant {t : Expr α} (ht : t.contains x = false) :
    Integrates simplify x t (op .mul t (var x))
  | self : Integrates simplify x (var x) (op .div (op .pow (var x) (ofNat 2)) (ofNat 2))
  | sum {o : Arithmetic} {a b a' b' : Expr α} (ho : o = .add ∨ o = .sub)
    (ha : Integrates simplify x a a') (hb : Integrates simplify x b b') :
    Integrates simplify x (op o a b) (op o a' b')
  | leftFactor {a b b' : Expr α} (ha : a.contains x = false) (hb : Integrates simplify x b b') :
    Integrates simplify x (op .mul a b) (op .mul a b')
  | rightFactor {a b a' : Expr α} (hb : b.contains x = false) (ha : Integrates simplify x a a') :
    Integrates simplify x (op .mul a b) (op .mul b a')
  | divisor {a b a' : Expr α} (hb : b.contains x = false) (ha : Integrates simplify x a a') :
    Integrates simplify x (op .div a b) (op .div a' b)
  | logarithm {a b k : Expr α} (ha : a.contains x = false) (hb : HasSlope simplify x b k) :
    Integrates simplify x (op .div a b) (overSlope (op .mul a (fn "ln" [b])) k)
  | reciprocal {a b base n F : Expr α} (ha : a.contains x = false)
    (hb : reciprocalPower? x b = some (base, n)) (hF : IntegratesPower simplify x base n F) :
    Integrates simplify x (op .div a b) (op .mul a F)
  | power {a b F : Expr α} (hF : IntegratesPower simplify x a b F) :
    Integrates simplify x (op .pow a b) F
  | table {f : String} {u outer k : Expr α} (hf : tableIntegral? f u = some outer)
    (hu : HasSlope simplify x u k) : Integrates simplify x (fn f [u]) (overSlope outer k)

variable {simplify : Expr α → Except Failure (Expr α)} {x : String} {a b : Expr α}

theorem slope?_hasSlope (u : Expr α) :
    Ensures (slope? simplify x u : Traced α _) (fun o => ∀ k ∈ o, HasSlope simplify x u k)
      fun _ => True := by
  apply lift_bind_ensures
  intro parts hparts
  apply ensures_pure
  intro k hk
  obtain ⟨⟨k, c⟩, rfl, rfl⟩ := Option.map_eq_some_iff.mp hk
  exact ⟨c, hparts⟩

section Powers

theorem powerIntegral_integrates (hb : b.contains x = false) :
    Ensures (powerIntegral simplify x a b) (IntegratesPower simplify x a b) fun _ => True := by
  apply (slope?_hasSlope a).bind
  rintro (_ | k) hk
  · exact ensures_step (.unevaluated a b)
  · dsimp only
    split
    · rename_i hminus
      exact ensures_step (.reciprocal hminus (hk k rfl))
    · exact ensures_step (.raised hb (hk k rfl))

theorem secantSquare?_integrates :
    Ensures (secantSquare? simplify x a b) (∀ F ∈ ·, IntegratesPower simplify x a b F)
      fun _ => True := by
  have hnone : Ensures (pure none : Traced α (Option (Expr α)))
      (∀ F ∈ ·, IntegratesPower simplify x a b F) fun _ => True := ensures_pure (by simp)
  unfold secantSquare?
  split
  · rename_i u us
    split
    · rename_i htwo
      apply (slope?_hasSlope u).bind
      rintro (_ | k) hk
      · exact hnone
      · apply (ensures_step (IntegratesPower.secant us htwo (hk k rfl))).bind
        intro F hF
        apply ensures_pure
        simpa using hF
    · exact hnone
  · exact hnone

theorem exponentialIntegral_integrates (ha : a.contains x = false) :
    Ensures (exponentialIntegral simplify x a b) (IntegratesPower simplify x a b)
      fun _ => True := by
  apply (slope?_hasSlope b).bind
  rintro (_ | k) hk
  · exact ensures_step (.unevaluated a b)
  · exact ensures_step (.exponential ha (hk k rfl))

theorem anyPowerIntegral_integrates :
    Ensures (anyPowerIntegral simplify x a b) (IntegratesPower simplify x a b) fun _ => True := by
  unfold anyPowerIntegral
  split
  · rename_i hb
    apply secantSquare?_integrates.bind
    rintro (_ | F) hF
    · exact powerIntegral_integrates (isFreeOf_iff.mp hb)
    · exact ensures_pure (hF F rfl)
  split
  · rename_i ha
    exact exponentialIntegral_integrates (isFreeOf_iff.mp ha)
  · exact ensures_step (.unevaluated a b)

end Powers

theorem reciprocalIntegral_integrates (ha : a.contains x = false) :
    Ensures (reciprocalIntegral simplify x a b) (Integrates simplify x (op .div a b))
      fun _ => True := by
  apply (slope?_hasSlope b).bind
  rintro (_ | k) hk
  · dsimp only
    split
    · rename_i base n hr
      apply ensures_after
      intro product
      exact anyPowerIntegral_integrates.thenStep fun F hF => .reciprocal ha hr hF
    · exact ensures_step (.unevaluated _)
  · exact ensures_step (.logarithm ha (hk k rfl))

theorem functionIntegral_integrates (f : String) (as : List (Expr α)) :
    Ensures (functionIntegral simplify x f as) (Integrates simplify x (fn f as))
      fun _ => True := by
  unfold functionIntegral
  split
  · rename_i u
    split
    · exact ensures_step (.unevaluated _)
    · rename_i outer houter
      apply (slope?_hasSlope u).bind
      rintro (_ | k) hk
      · exact ensures_step (.unevaluated _)
      · exact ensures_step (.table houter (hk k rfl))
  · exact ensures_step (.unevaluated _)

theorem antiderivative_integrates : ∀ t : Expr α,
    Ensures (antiderivative simplify x t) (Integrates simplify x t) fun _ => True
  | num v => ensures_step (.constant rfl)
  | wild n k a => ensures_step (.constant rfl)
  -- integrating an equation throws, about which nothing is claimed
  | eq l r => fun _ => trivial
  | var y => by
    unfold antiderivative
    split
    · rename_i hy
      subst hy
      exact ensures_step .self
    · rename_i hy
      exact ensures_step (.constant (by simpa [contains] using hy))
  | op o a b => by
    have ia := antiderivative_integrates a
    have ib := antiderivative_integrates b
    unfold antiderivative
    dsimp only
    split
    · rename_i hfree
      exact ensures_step (.constant (isFreeOf_iff.mp hfree))
    cases o with
    | add => exact ia.thenStep₂ ib fun a' b' => .sum (.inl rfl)
    | sub => exact ia.thenStep₂ ib fun a' b' => .sum (.inr rfl)
    | mul =>
      dsimp only
      split
      · rename_i ha
        exact ib.thenStep fun b' => .leftFactor (isFreeOf_iff.mp ha)
      split
      · rename_i hb
        exact ia.thenStep fun a' => .rightFactor (isFreeOf_iff.mp hb)
      · exact ensures_step (.unevaluated _)
    | div =>
      dsimp only
      split
      · rename_i hb
        exact ia.thenStep fun a' => .divisor (isFreeOf_iff.mp hb)
      split
      · rename_i ha
        exact reciprocalIntegral_integrates (isFreeOf_iff.mp ha)
      · exact ensures_step (.unevaluated _)
    | pow => exact anyPowerIntegral_integrates.mono fun F => .power
  | fn f as => by
    unfold antiderivative
    split
    · exact functionIntegral_integrates f as
    · rename_i hfree
      exact ensures_step (.constant (by simpa [contains] using hfree))

end RuleAlgebra.Expr
