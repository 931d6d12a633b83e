import RuleAlgebra.Scalar
import RuleAlgebra.Text.Digit

/-!
Reading numerals. A decimal is a run of digits with an optional point and exponent; it is read as
digits and a power of ten. Typed numbers may also have a sign, white space around them, underscores
between digits, and be infinite.
-/

namespace RuleAlgebra.Numeral

open RuleAlgebra.Text

def signed (cs : List Char) : Int × List Char :=
  let read (cs : List Char) : Nat × List Char :=
    (digitsValue (cs.takeWhile isDigit), cs.dropWhile isDigit)
  match cs with
  | '-' :: cs => let (n, rest) := read cs; (-(n : Int), rest)
  | '+' :: cs => let (n, rest) := read cs; (n, rest)
  | cs => let (n, rest) := read cs; (n, rest)

def decimal (cs : List Char) : Nat × Int :=
  let whole := cs.takeWhile isDigit
  let rest := cs.dropWhile isDigit
  let (fraction, rest) := match rest with
    | '.' :: r => (r.takeWhile isDigit, r.dropWhile isDigit)
    | r => ([], r)
  let exponent := match rest with
    | c :: r => if c = 'e' ∨ c = 'E' then (signed r).1 else 0
    | [] => 0
  (digitsValue (whole ++ fraction), exponent - fraction.length)

def exponentLength : List Char → Nat
  | c :: rest =>
    if c = 'e' ∨ c = 'E' then
      let sign := match rest with
        | d :: _ => if d = '+' ∨ d = '-' then 1 else 0
        | [] => 0
      let digits := ((rest.drop sign).takeWhile isDigit).length
      if digits = 0 then 0 else 1 + sign + digits
    else 0
  | [] => 0

/-- The length of the decimal that a text starts with: digits with an optional point and more
digits, or a point and digits, with an optional exponent. -/
def length (cs : List Char) : Nat :=
  let whole := (cs.takeWhile isDigit).length
  let point := match cs.drop whole with
    | '.' :: rest =>
      let fraction := (rest.takeWhile isDigit).length
      if whole = 0 ∧ fraction = 0 then 0 else 1 + fraction
    | _ => 0
  if whole + point = 0 then 0 else whole + point + exponentLength (cs.drop (whole + point))

def isDecimal (cs : List Char) : Bool := length cs == cs.length && !cs.isEmpty

/-- Removes the underscores, each of which has to stand between two digits. -/
def withoutUnderscores? : (afterDigit : Bool) → List Char → Option (List Char)
  | _, [] => some []
  | afterDigit, c :: cs =>
    if c = '_' then
      if afterDigit && cs.head?.any isDigit then withoutUnderscores? false cs else none
    else (withoutUnderscores? (isDigit c) cs).map (c :: ·)

def sign : List Char → Bool × List Char
  | '-' :: cs => (true, cs)
  | '+' :: cs => (false, cs)
  | cs => (false, cs)

def integer? (s : String) : Option Int := do
  let cs ← withoutUnderscores? false (stripChars s.toList)
  let (negative, digits) := sign cs
  guard (!digits.isEmpty && digits.all isDigit)
  let n : Int := digitsValue digits
  pure (if negative then -n else n)

def isInfinity (cs : List Char) : Bool :=
  let small := cs.map Char.toLower
  small == "inf".toList || small == "infinity".toList

variable {α : Type} [Scalar α]

def value (cs : List Char) : α := let (d, x) := decimal cs; Scalar.ofDecimal d x

def number? (s : String) : Option α := do
  let cs ← withoutUnderscores? false (stripChars s.toList)
  let (negative, magnitude) := sign cs
  if isInfinity magnitude then Scalar.ofInfinity? negative
  else
    guard (isDecimal magnitude)
    let v : α := value magnitude
    pure (if negative then -v else v)

end RuleAlgebra.Numeral
