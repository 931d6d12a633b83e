import RuleAlgebra.Scalar

/-!
Exact fractions as scalars. A power has a value when its exponent is an integer, and of the
elementary functions only the absolute value is rational.
-/

namespace RuleAlgebra

namespace Rational

def ofDecimal (digits : Nat) (exponent : Int) : Rat := (digits : Rat) * (10 : Rat) ^ exponent

/-- An integer power; zero has none to a negative exponent, and `0 ^ 0` is one. -/
def power? (u v : Rat) : Option Rat :=
  if v.den = 1 then
    if u = 0 ∧ v.num < 0 then none else some (u ^ v.num)
  else none

def text (q : Rat) : String :=
  if q.den = 1 then toString q.num else toString q.num ++ "/" ++ toString q.den

end Rational

instance : Scalar Rat where
  beq a b := decide (a = b)
  lt a b := decide (a < b)
  le a b := decide (a ≤ b)
  isNegative q := decide (q < 0)
  isFinite _ := true
  toRat? := some
  ofRat? := some
  ofDecimal := Rational.ofDecimal
  ofInfinity? _ := none
  power? := Rational.power?
  elementary?
    | .abs, q => some (if q < 0 then -q else q)
    | _, _ => none
  pi := 314159265358979 / 100000000000000
  e := 271828182845905 / 100000000000000
  shortest := Rational.text

end RuleAlgebra
