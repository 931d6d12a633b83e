import RuleAlgebra.Scalar.Exact

/-!
The exact value of a binary64 number, and the shortest decimal that reads back as it. Decimals that
read back are those in the interval of values nearest to the number; of the shortest ones the
nearest to the number is taken, and of two as near the even one.
-/

namespace RuleAlgebra.Binary64

def signBit (v : Float) : Bool := Nat.pow 2 63 ≤ v.toBits.toNat

/-- The significand and exponent of the magnitude, `significand * 2 ^ exponent`; none when the
number is not finite. -/
def parts? (v : Float) : Option (Nat × Int) :=
  let bits := v.toBits.toNat
  let fraction : Nat := bits % Nat.pow 2 52
  let biased : Nat := bits / Nat.pow 2 52 % Nat.pow 2 11
  if biased = 2047 then none
  else if biased = 0 then some (fraction, -1074)
  else some (Nat.pow 2 52 + fraction, (biased : Int) - 1075)

def toRat? (v : Float) : Option Rat :=
  (parts? v).map fun (m, e) =>
    let magnitude : Rat :=
      if 0 ≤ e then ((m * Nat.pow 2 e.toNat : Nat) : Rat) else mkRat m (Nat.pow 2 (-e).toNat)
    if signBit v then -magnitude else magnitude

/-- The decimals `d * 10 ^ p` next to `value` on either side. -/
def neighbours (value : Rat) (p : Int) : List Nat :=
  let d := (value / (10 : Rat) ^ p).floor.toNat
  [d, d + 1]

/-- The nearest neighbour of `value` on the grid of multiples of `10 ^ p` that lies in the interval
from `low` to `high`. -/
def onGrid? (value low high : Rat) (ends : Bool) (p : Int) : Option Nat :=
  let within (d : Nat) : Bool :=
    let x := (d : Rat) * (10 : Rat) ^ p
    if ends then low ≤ x && x ≤ high else low < x && x < high
  let distance (d : Nat) : Rat := ((d : Rat) * (10 : Rat) ^ p - value).abs
  match (neighbours value p).filter within with
  | [a, b] =>
    if distance a < distance b then some a
    else if distance b < distance a then some b
    else some (if a % 2 = 0 then a else b)
  | [a] => some a
  | _ => none

def search (value low high : Rat) (ends : Bool) : (fuel : Nat) → (p : Int) → Nat × Int
  | 0, p => (0, p)
  | fuel + 1, p =>
    match onGrid? value low high ends p with
    | some d => (d, p)
    | none => search value low high ends fuel (p - 1)

def decimalLength (n : Nat) : Nat := (Nat.toDigits 10 n).length

/-- The shortest digits and exponent of a positive magnitude `m * 2 ^ e`. -/
def shortestDigits (m : Nat) (e : Int) : Nat × Int :=
  let unit : Rat := (2 : Rat) ^ e
  let value := (m : Rat) * unit
  let below := if m = Nat.pow 2 52 ∧ -1074 < e then unit / 4 else unit / 2
  let top : Int := if 1 ≤ value then decimalLength value.floor.toNat
    else 1 - (decimalLength (1 / value).ceil.toNat : Int) + 1
  search value (value - below) (value + unit / 2) (m % 2 = 0) 40 top

def trimZeros : (fuel : Nat) → Nat × Int → Nat × Int
  | 0, dp => dp
  | fuel + 1, (d, p) => if d ≠ 0 ∧ d % 10 = 0 then trimZeros fuel (d / 10, p + 1) else (d, p)

def zeros (n : Nat) : String := String.ofList (List.replicate n '0')

/-- Positional below `10 ^ 16` and from `10 ^ (-4)` on, with a point always; otherwise with an
exponent of at least two digits. -/
def layOut (d : Nat) (p : Int) : String :=
  let digits := toString d
  let n := digits.length
  let lead := p + n
  if -4 < lead ∧ lead ≤ 16 then
    if 0 ≤ p then digits ++ zeros p.toNat ++ ".0"
    else if 0 < lead then
      String.ofList (digits.toList.take lead.toNat) ++ "." ++
        String.ofList (digits.toList.drop lead.toNat)
    else "0." ++ zeros (-lead).toNat ++ digits
  else
    let x := lead - 1
    let mantissa := match digits.toList with
      | [] => ""
      | [c] => String.ofList [c]
      | c :: cs => String.ofList (c :: '.' :: cs)
    let size := toString x.natAbs
    mantissa ++ "e" ++ (if x < 0 then "-" else "+") ++ (if size.length < 2 then "0" else "") ++ size

def shortest (v : Float) : String :=
  let sign := if signBit v then "-" else ""
  match parts? v with
  | none => if v.isNaN then "nan" else sign ++ "inf"
  | some (0, _) => sign ++ "0.0"
  | some (m, e) =>
    let (d, p) := trimZeros 400 (shortestDigits m e)
    sign ++ layOut d p

end RuleAlgebra.Binary64
