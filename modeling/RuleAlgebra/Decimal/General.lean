import RuleAlgebra.Scalar

/-!
A number with a given count of significant digits: positional when its exponent is at least -4 and
below the count, otherwise with an exponent of at least two digits; trailing zeros are dropped.
-/

namespace RuleAlgebra.Decimal

def digitsOf (n : Nat) : List Char := Nat.toDigits 10 n

def dropTrailingZeros (cs : List Char) : List Char := (cs.reverse.dropWhile (· == '0')).reverse

/-- The exponent of the leading digit of a positive fraction. -/
def leadExponent (q : Rat) : Int :=
  let whole := q.floor.toNat
  if 0 < whole then (digitsOf whole).length - 1
  else
    let inverse := (1 / q).ceil.toNat
    Int.negOfNat (digitsOf (inverse - 1)).length

/-- The first `count` digits of a positive fraction, rounded with halves to even, and the exponent
of the first of them. -/
def significant (count : Nat) (q : Rat) : Nat × Int :=
  let x := leadExponent q
  let d := (roundHalfEven (q * (10 : Rat) ^ ((count : Int) - 1 - x))).toNat
  if Nat.pow 10 count ≤ d then (d / 10, x + 1) else (d, x)

def withPoint (whole fraction : List Char) : List Char :=
  if fraction.isEmpty then whole else whole ++ '.' :: fraction

def positive (count : Nat) (q : Rat) : List Char :=
  let (d, x) := significant count q
  let digits := digitsOf d
  if -4 ≤ x ∧ x < count then
    if 0 ≤ x then
      withPoint (digits.take (x.toNat + 1)) (dropTrailingZeros (digits.drop (x.toNat + 1)))
    else withPoint ['0'] (List.replicate (-x - 1).toNat '0' ++ dropTrailingZeros digits)
  else
    let size := digitsOf x.natAbs
    withPoint (digits.take 1) (dropTrailingZeros (digits.drop 1)) ++
      'e' :: (if x < 0 then '-' else '+') :: (if size.length < 2 then '0' :: size else size)

variable {α : Type} [Scalar α]

/-- A number with `count` significant digits. A zero with a minus sign shows it. -/
def general (count : Nat) (v : α) : String :=
  let sign := if Scalar.isNegative v then "-" else ""
  match Scalar.toRat? v with
  | none => sign ++ "inf"
  | some q =>
    sign ++ (if q = 0 then "0" else String.ofList (positive count (if q < 0 then -q else q)))

/-- A number in an expression: integers below `10 ^ 16` in full, all else with twelve digits. -/
def text (v : α) : String :=
  match Scalar.toInt? v with
  | some n => if n.natAbs < Nat.pow 10 16 then toString n else general 12 v
  | none => general 12 v

def brief (v : α) : String := general 6 v

end RuleAlgebra.Decimal
