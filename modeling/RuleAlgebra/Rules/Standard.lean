import RuleAlgebra.Rule.Library
import RuleAlgebra.Rules.Arithmetic
import RuleAlgebra.Rules.Expansion
import RuleAlgebra.Rules.Exponential
import RuleAlgebra.Rules.Factoring
import RuleAlgebra.Rules.Trigonometric

/-!
The standard library of rules: identities given as pattern and skeleton, and the rules that compute.
In every category the identities come first.
-/

namespace RuleAlgebra.Rules

variable {α : Type} [Scalar α]

def computed (name category description : String) (f : Expr α → Except Failure (Expr α)) : Rule α :=
  ⟨⟨some name, some description, [category]⟩, f, none⟩

def computedAlways (name category description : String) (f : Expr α → Expr α) : Rule α :=
  computed name category description fun e => pure (f e)

def computedRules : List (Rule α) := [
  computed "fold-constants" "arithmetic" "Evaluate operations on numbers" foldConstants,
  computed "add-fractions" "arithmetic" "Add or subtract exact fractions" addFractions,
  computedAlways "constant-first" "arithmetic" "Move numeric factors to the front of a product"
    constantFirst,
  computedAlways "merge-coefficients" "arithmetic" "Multiply adjacent numeric factors"
    mergeCoefficients,
  computedAlways "zero-numerator" "arithmetic" "Zero divided by anything non-zero is zero"
    zeroNumerator,
  computedAlways "normalize-signs" "arithmetic" "Turn adding a negative into subtracting"
    normalizeSigns,
  computed "combine-like-terms" "algebraic" "Add the coefficients of equal terms" combineLikeTerms,
  computedAlways "self-division" "algebraic" "Anything non-zero divided by itself is one"
    selfDivision,
  computedAlways "associate-products" "algebraic" "Group products from the left" associateProducts,
  computedAlways "multiply-fractions" "algebraic" "Bring a factor into the numerator"
    multiplyFractions,
  computedAlways "nested-fractions" "algebraic" "Flatten fractions of fractions" nestedFractions,
  computedAlways "cancel-fraction" "algebraic" "Cancel common factors of a fraction" cancelFraction,
  computed "pythagorean-identity" "trigonometric" "sin(u)^2 + cos(u)^2 = 1" pythagoreanIdentity,
  computedAlways "combine-powers" "exponential" "x^a * x^b = x^(a+b)" combinePowers,
  computedAlways "power-of-power" "exponential" "(x^a)^n = x^(a*n) for integer n" powerOfPower,
  computedAlways "distribute" "expand" "Multiply out products of sums" distribute,
  computedAlways "expand-power" "expand" "Write small integer powers of sums as products"
    expandPower,
  computed "factor-common-term" "factor" "Pull shared factors out of a sum" factorCommonTerm,
  computed "factor-rational-roots" "factor" "Factor a polynomial over its rational roots"
    factorRationalRoots]

section Identities

def any (name : String) : Expr α := .wild name .anything none

def anyNumber (name : String) : Expr α := .wild name .constant none

def identity (tags : List String) (name : String) (description : Option String)
    (pattern skeleton : Expr α) : Rule α :=
  .ofPattern ⟨some name, description, tags⟩ pattern skeleton

def sum (l r : Expr α) : Expr α := .op .add l r

def difference (l r : Expr α) : Expr α := .op .sub l r

def product (l r : Expr α) : Expr α := .op .mul l r

def quotient (l r : Expr α) : Expr α := .op .div l r

def power (l r : Expr α) : Expr α := .op .pow l r

def call (f : String) (u : Expr α) : Expr α := .fn f [u]

def nat (n : Nat) : Expr α := Expr.ofNat n

def arithmeticIdentities : List (Rule α) :=
  let x : Expr α := any "x"
  let rule := identity ["arithmetic"]
  [rule "add-zero" (some "Adding zero has no effect") (sum x (nat 0)) x,
    rule "zero-add" none (sum (nat 0) x) x,
    rule "sub-zero" none (difference x (nat 0)) x,
    rule "zero-sub" (some "Subtracting from zero negates") (difference (nat 0) x)
      (Expr.negative x),
    rule "mul-one" (some "Multiplying by one has no effect") (product x (nat 1)) x,
    rule "one-mul" none (product (nat 1) x) x,
    rule "mul-zero" (some "Multiplying by zero gives zero") (product x (nat 0)) (nat 0),
    rule "zero-mul" none (product (nat 0) x) (nat 0),
    rule "div-one" none (quotient x (nat 1)) x,
    rule "pow-one" none (power x (nat 1)) x,
    rule "pow-zero" (some "Anything to the power zero is one") (power x (nat 0)) (nat 1),
    rule "one-pow" none (power (nat 1) x) (nat 1),
    rule "sub-self" none (difference x x) (nat 0)]

def trigonometricIdentities : List (Rule α) :=
  let x : Expr α := any "x"
  let pi : Expr α := .var "pi"
  let rule := identity ["trigonometric"]
  [rule "sin-over-cos" (some "sin/cos = tan") (quotient (call "sin" x) (call "cos" x))
      (call "tan" x),
    rule "cos-over-sin" (some "cos/sin = cot") (quotient (call "cos" x) (call "sin" x))
      (call "cot" x),
    rule "reciprocal-cos" none (quotient (nat 1) (call "cos" x)) (call "sec" x),
    rule "reciprocal-sin" none (quotient (nat 1) (call "sin" x)) (call "csc" x),
    rule "reciprocal-tan" none (quotient (nat 1) (call "tan" x)) (call "cot" x),
    rule "sin-odd" (some "sin is odd") (call "sin" (Expr.negative x))
      (Expr.negative (call "sin" x)),
    rule "cos-even" (some "cos is even") (call "cos" (Expr.negative x)) (call "cos" x),
    rule "tan-odd" none (call "tan" (Expr.negative x)) (Expr.negative (call "tan" x)),
    rule "sin-pi" none (call "sin" pi) (nat 0),
    rule "cos-pi" none (call "cos" pi) (Expr.ofInt (-1)),
    rule "tan-pi" none (call "tan" pi) (nat 0),
    rule "double-angle" (some "2 sin(u) cos(u) = sin(2u)")
      (product (product (nat 2) (call "sin" x)) (call "cos" x)) (call "sin" (product (nat 2) x))]

def exponentialIdentities : List (Rule α) :=
  let x : Expr α := any "x"
  let a : Expr α := any "a"
  let b : Expr α := any "b"
  let rule := identity ["exponential"]
  let real := identity ["exponential", "real"]
  [rule "exp-ln" (some "exp undoes ln") (call "exp" (call "ln" x)) x,
    rule "exp-product" (some "exp(a)*exp(b) = exp(a+b)") (product (call "exp" a) (call "exp" b))
      (call "exp" (sum a b)),
    rule "e-pow-ln" none (power (.var "e") (call "ln" x)) x,
    rule "quotient-of-powers" (some "x^a/x^b = x^(a-b)") (quotient (power x a) (power x b))
      (power x (difference a b)),
    rule "exp-zero" none (call "exp" (nat 0)) (nat 1),
    real "sqrt-squared" (some "sqrt(x)^2 = x for x >= 0") (power (call "sqrt" x) (nat 2)) x,
    real "sqrt-of-square" (some "sqrt(x^2) = |x|") (call "sqrt" (power x (nat 2)))
      (call "abs" x)]

def logarithmicIdentities : List (Rule α) :=
  let a : Expr α := any "a"
  let b : Expr α := any "b"
  let n : Expr α := any "n"
  let rule := identity ["logarithmic"]
  let real := identity ["logarithmic", "real"]
  [rule "ln-exp" (some "ln undoes exp") (call "ln" (call "exp" a)) a,
    rule "ln-e" none (call "ln" (.var "e")) (nat 1),
    rule "ln-e-pow" none (call "ln" (power (.var "e") a)) a,
    real "ln-product" (some "ln(a) + ln(b) = ln(a*b)") (sum (call "ln" a) (call "ln" b))
      (call "ln" (product a b)),
    real "ln-quotient" (some "ln(a) - ln(b) = ln(a/b)") (difference (call "ln" a) (call "ln" b))
      (call "ln" (quotient a b)),
    real "ln-power" (some "ln(a^n) = n*ln(a)") (call "ln" (power a (anyNumber "n")))
      (product n (call "ln" a))]

end Identities

def identities : List (Rule α) :=
  arithmeticIdentities ++ trigonometricIdentities ++ exponentialIdentities ++ logarithmicIdentities

end RuleAlgebra.Rules

namespace RuleAlgebra

/-- The library that holds every standard rule, by category. -/
def Library.standard {α : Type} [Scalar α] : Library α :=
  .ofRules ((categories ++ targetGroups).flatMap fun category =>
    (Rules.identities ++ Rules.computedRules).filter fun r => r.info.category == some category)

end RuleAlgebra
