/-!
The numbers that expressions carry. An expression is written over any type of scalars: binary64
numbers when the program runs, exact fractions when its laws are stated. Arithmetic is total; what
a scalar has no value for (a division by zero, a complex power) is told by `Arithmetic.value?` and
`Elementary.value?`, which answer only with a finite number.
-/

namespace RuleAlgebra

inductive Elementary where
  | sin | cos | tan | sec | csc | cot | asin | acos | atan | sinh | cosh | tanh
  | exp | ln | sqrt | abs
  deriving DecidableEq, Repr

namespace Elementary

def all : List Elementary :=
  [sin, cos, tan, sec, csc, cot, asin, acos, atan, sinh, cosh, tanh, exp, ln, sqrt, abs]

def name : Elementary → String
  | sin => "sin" | cos => "cos" | tan => "tan" | sec => "sec" | csc => "csc" | cot => "cot"
  | asin => "asin" | acos => "acos" | atan => "atan" | sinh => "sinh" | cosh => "cosh"
  | tanh => "tanh" | exp => "exp" | ln => "ln" | sqrt => "sqrt" | abs => "abs"

def ofName? : String → Option Elementary
  | "sin" => some sin | "cos" => some cos | "tan" => some tan | "sec" => some sec
  | "csc" => some csc | "cot" => some cot | "asin" => some asin | "acos" => some acos
  | "atan" => some atan | "sinh" => some sinh | "cosh" => some cosh | "tanh" => some tanh
  | "exp" => some exp | "ln" => some ln | "sqrt" => some sqrt | "abs" => some abs
  | _ => none

end Elementary

/-- Arithmetic, order and conversions of the numbers in an expression. -/
class Scalar (α : Type) extends BEq α, Add α, Sub α, Neg α, Mul α, Div α where
  lt : α → α → Bool
  le : α → α → Bool
  /-- Whether the number is written with a minus sign. -/
  isNegative : α → Bool
  isFinite : α → Bool
  toRat? : α → Option Rat
  /-- The nearest number, unless the value lies beyond the range of the type. -/
  ofRat? : Rat → Option α
  /-- The number that the decimal `digits * 10 ^ exponent` is read as. -/
  ofDecimal : (digits : Nat) → (exponent : Int) → α
  ofInfinity? : (negative : Bool) → Option α
  /-- A real power where there is one: not of zero to a negative exponent, nor of a negative base to
  a fraction. The result may lie beyond the range of the type. -/
  power? : α → α → Option α
  elementary? : Elementary → α → Option α
  pi : α
  e : α
  /-- The shortest text that reads back as the number. -/
  shortest : α → String

namespace Scalar

variable {α : Type} [Scalar α]

def ofNat (n : Nat) : α := ofDecimal n 0

def ofInt : Int → α
  | .ofNat n => ofNat n
  | .negSucc n => -ofNat (n + 1)

def zero : α := ofNat 0

def one : α := ofNat 1

def abs (v : α) : α := if isNegative v then -v else v

def max (a b : α) : α := if lt a b then b else a

def min (a b : α) : α := if lt b a then b else a

def finite? (v : α) : Option α := if isFinite v then some v else none

def toInt? (v : α) : Option Int := (toRat? v).bind fun q => if q.den = 1 then some q.num else none

def isInteger (v : α) : Bool := (toInt? v).isSome

end Scalar

/-- The nearest integer, a half going to the even neighbour. -/
def roundHalfEven (q : Rat) : Int :=
  let low := q.floor
  let twice := 2 * (q - low)
  if twice < 1 then low
  else if 1 < twice then low + 1
  else if low % 2 = 0 then low else low + 1

/-- The integer part, toward zero. -/
def truncate (q : Rat) : Int := Int.tdiv q.num q.den

namespace Scalar

variable {α : Type} [Scalar α]

def nearest? (v : α) : Option Int := (toRat? v).map roundHalfEven

end Scalar

inductive Arithmetic where
  | add | sub | mul | div | pow
  deriving DecidableEq, Repr

namespace Arithmetic

def all : List Arithmetic := [add, sub, mul, div, pow]

def symbol : Arithmetic → String
  | add => "+" | sub => "-" | mul => "*" | div => "/" | pow => "^"

def ofSymbol? : String → Option Arithmetic
  | "+" => some add | "-" => some sub | "*" => some mul | "/" => some div | "^" => some pow
  | _ => none

def isAdditive : Arithmetic → Bool
  | add | sub => true
  | _ => false

variable {α : Type} [Scalar α]

def value? : Arithmetic → α → α → Option α
  | add, a, b => Scalar.finite? (a + b)
  | sub, a, b => Scalar.finite? (a - b)
  | mul, a, b => Scalar.finite? (a * b)
  | div, a, b => if b == Scalar.zero then none else Scalar.finite? (a / b)
  | pow, a, b => (Scalar.power? a b).bind Scalar.finite?

/-- The value of an operation on a list of arguments: none unless there are two. -/
def onList? (o : Arithmetic) : List α → Option α
  | [a, b] => o.value? a b
  | _ => none

end Arithmetic

namespace Elementary

variable {α : Type} [Scalar α]

def value? (f : Elementary) (a : α) : Option α := (Scalar.elementary? f a).bind Scalar.finite?

def onList? (f : Elementary) : List α → Option α
  | [a] => f.value? a
  | _ => none

end Elementary

end RuleAlgebra
