import RuleAlgebra.Decimal.Shortest

/-!
Binary64 numbers as scalars. The conversions from and to exact fractions go through the bits of the
number; the arithmetic and the elementary functions are those of the machine.
-/

namespace RuleAlgebra

namespace Binary64

/-- The least integer not below `log2` of a positive fraction, less at most one. -/
def scaleOf (num den : Nat) : Int := (num.log2 : Int) - (den.log2 : Int)

/-- The quotient of two naturals, a half going to the even neighbour. -/
def roundDiv (num den : Nat) : Nat :=
  let q := num / den
  let r := num % den
  if 2 * r < den then q
  else if den < 2 * r then q + 1
  else if q % 2 = 0 then q else q + 1

def multiple (num den : Nat) (e : Int) : Nat :=
  if 0 ≤ e then roundDiv num (den * Nat.pow 2 e.toNat)
  else roundDiv (num * Nat.pow 2 (-e).toNat) den

/-- The bits of the number nearest to a positive fraction; none when it rounds beyond the range. -/
def bitsOf? (num den : Nat) : Option Nat :=
  let top := scaleOf num den
  let atTop :=
    if 0 ≤ top then num < den * Nat.pow 2 top.toNat else num * Nat.pow 2 (-top).toNat < den
  let exponent := if atTop then top - 1 else top
  let unit := max (exponent - 52) (-1074)
  let m := multiple num den unit
  let bits := if exponent < -1022 then m else (unit + 1074).toNat * Nat.pow 2 52 + m
  if bits < 0x7ff0000000000000 then some bits else none

def ofRat? (q : Rat) : Option Float :=
  if q = 0 then some 0
  else (bitsOf? q.num.natAbs q.den).map fun bits =>
    let v := Float.ofBits (UInt64.ofNat bits)
    if q < 0 then -v else v

/-- Zero to a negative power and a fractional power of a negative number have no real value. -/
def power? (u v : Float) : Option Float :=
  if u == 0 && v < 0 then none
  else if u < 0 && !(v.isFinite && v.floor == v) then none
  else some (Float.pow u v)

def infinity (negative : Bool) : Float :=
  Float.ofBits (if negative then 0xfff0000000000000 else 0x7ff0000000000000)

/-- Far enough out, a decimal is infinite or zero without being computed. -/
def ofDecimal (digits : Nat) (exponent : Int) : Float :=
  let size : Int := (digits.log2 : Int) / 4 + exponent
  if digits = 0 then 0
  else if 400 < size then infinity false
  else if (digits.log2 : Int) / 3 + 1 + exponent < -400 then 0
  else (ofRat? (Rational.ofDecimal digits exponent)).getD (infinity false)

def apply (f : Elementary) (x : Float) : Float :=
  match f with
  | .sin => x.sin
  | .cos => x.cos
  | .tan => x.tan
  | .sec => 1 / x.cos
  | .csc => 1 / x.sin
  | .cot => 1 / x.tan
  | .asin => x.asin
  | .acos => x.acos
  | .atan => x.atan
  | .sinh => x.sinh
  | .cosh => x.cosh
  | .tanh => x.tanh
  | .exp => x.exp
  | .ln => x.log
  | .sqrt => x.sqrt
  | .abs => x.abs

end Binary64

instance : Scalar Float where
  beq a b := a == b
  lt a b := decide (a < b)
  le a b := decide (a ≤ b)
  isNegative := Binary64.signBit
  isFinite v := v.isFinite
  toRat? := Binary64.toRat?
  ofRat? := Binary64.ofRat?
  ofDecimal := Binary64.ofDecimal
  ofInfinity? negative := some (Binary64.infinity negative)
  power? := Binary64.power?
  elementary? f x := some (Binary64.apply f x)
  pi := Float.ofBits 0x400921fb54442d18
  e := Float.ofBits 0x4005bf0a8b145769
  shortest := Binary64.shortest

end RuleAlgebra
