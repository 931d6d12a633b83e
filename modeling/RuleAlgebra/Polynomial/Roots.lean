import RuleAlgebra.Polynomial.Term

/-!
Rational roots of integer polynomials, found by the rational root theorem and divided out; rounding
to a nearby integer; and factoring a polynomial over its rational roots. Coefficient lists called
`desc` start at the highest degree, all others at degree zero.
-/

namespace RuleAlgebra.Roots

/-- Larger leading or lowest coefficients are not searched for roots. -/
def maxSearch : Nat := 1000000

def horner (desc : List Rat) (x : Rat) : Rat := desc.foldl (fun v c => v * x + c) 0

/-- The running values of Horner's scheme after `acc`. -/
def hornerSteps (x : Rat) : (acc : Rat) → List Rat → List Rat
  | acc, [] => [acc]
  | acc, c :: cs => acc :: hornerSteps x (acc * x + c) cs

/-- Divides by `x - root`; the remainder is dropped. -/
def deflate (desc : List Rat) (root : Rat) : List Rat :=
  match desc with
  | [] => []
  | c :: cs => hornerSteps root c cs.dropLast

/-- The largest `r` with `r * r ≤ n` that agrees with the given one above its lowest `bits` bits. -/
def sqrtFrom (n : Nat) : (bits r : Nat) → Nat
  | 0, r => r
  | bits + 1, r =>
    let next := r + Nat.pow 2 bits
    sqrtFrom n bits (if next * next ≤ n then next else r)

def floorSqrt (n : Nat) : Nat := sqrtFrom n (n.log2 / 2 + 1) 0

def divisors (n : Nat) : List Nat :=
  let small := (List.range (floorSqrt n + 1)).filter fun d => 0 < d && n % d == 0
  let large := (small.filter fun d => d * d != n).reverse.map fun d => n / d
  small ++ large

def distinct (sorted : List Rat) : List Rat :=
  sorted.foldr (fun q rest => if rest.head? = some q then rest else q :: rest) []

/-- The possible rational roots, ascending: divisors of the constant over divisors of the leading
coefficient, with either sign. -/
def candidates (lead const : Nat) : List Rat :=
  let magnitudes := (divisors const).flatMap fun (p : Nat) => (divisors lead).map fun q => mkRat p q
  distinct ((magnitudes ++ magnitudes.map (- ·)).mergeSort (· ≤ ·))

/-- Divides a root out as often as it occurs, at most `fuel` times: how often, and what is left. -/
def divideOut (root : Rat) : (fuel : Nat) → List Rat → Nat × List Rat
  | 0, desc => (0, desc)
  | fuel + 1, desc =>
    if 1 < desc.length ∧ horner desc root = 0 then
      let (n, rest) := divideOut root fuel (deflate desc root)
      (n + 1, rest)
    else (0, desc)

def divideOutAll : List Rat → List Rat → List Rat × List Rat
  | [], desc => ([], desc)
  | c :: cs, desc =>
    let (n, rest) := divideOut c desc.length desc
    let (roots, rest) := divideOutAll cs rest
    (List.replicate n c ++ roots, rest)

/-- Splits zeros off the lower end while more than one coefficient is left: how many there were. -/
def splitZeros (desc : List Rat) : Nat × List Rat :=
  let zeros := (desc.reverse.takeWhile (· = 0)).length
  let n := min zeros (desc.length - 1)
  (n, desc.take (desc.length - n))

/-- The rational roots of an integer polynomial, ascending and with multiplicity, and what is left
when they are divided out, from the highest degree on. Coefficients that are no integers, or are too
large at either end, give no roots but zero. -/
def ofIntegers (coeffs : List Rat) : List Rat × List Rat :=
  let desc := coeffs.reverse
  if desc.isEmpty || desc.any (·.den != 1) then ([], desc)
  else
    let (zeros, desc) := splitZeros desc
    let none := List.replicate zeros 0
    match desc.head?, desc.getLast? with
    | some lead, some const =>
      if desc.length < 2 then (none, desc)
      else if maxSearch < lead.num.natAbs ∨ maxSearch < const.num.natAbs then (none, desc)
      else
        let (roots, rest) := divideOutAll (candidates lead.num.natAbs const.num.natAbs) desc
        ((none ++ roots).mergeSort (· ≤ ·), rest)
    | _, _ => (none, desc)

variable {α : Type} [Scalar α]

def exactValues (vs : List α) : Except Failure (List Rat) :=
  vs.mapM fun v =>
    match Scalar.toRat? v with
    | some q => pure q
    | none => throw .overflow

def rational (coeffs : List α) : Except Failure (List Rat × List Rat) := do
  let qs ← exactValues coeffs
  pure (ofIntegers qs)

/-- The nearest integer when it is within the tolerance, else the number itself. -/
def snap (tolerance v : α) : Except Failure α :=
  match Scalar.nearest? v with
  | none => throw (if v == v then .overflow else .request .notANumber)
  | some n => do
    let nearest ← Coefficient.round n
    pure (if Scalar.lt (Scalar.abs (v - nearest)) tolerance then nearest else v)

def snapTolerance : α := Scalar.ofDecimal 1 (-9)

def powerOf (x : Expr α) (degree : Nat) : Expr α :=
  if degree = 1 then x else .op .pow x (Expr.ofNat degree)

/-- The polynomial in `x` with the given coefficients, highest degree first. -/
def build (coeffs : List α) (x : String) : Except Failure (Expr α) :=
  let terms := (coeffs.zipIdx.map fun (c, d) =>
    (⟨.inexact c, if d = 0 then none else some (powerOf (.var x) d)⟩ : Term α)).reverse
  Term.sum terms

/-- The factor `q * x - p` of a root `p / q`. -/
def linearFactor (root : Rat) (x : Expr α) : Except Failure (Expr α) :=
  if root = 0 then pure x
  else do
    let p ← Expr.ofRat? (root.num.natAbs : Rat)
    let q ← Expr.ofRat? (root.den : Rat)
    let lhs := if root.den = 1 then x else .op .mul q x
    pure (if root.num < 0 then .op .add lhs p else .op .sub lhs p)

def rootFactors (x : Expr α) (roots : List Rat) : Except Failure (List (Expr α)) :=
  (distinct roots).mapM fun root => do
    let linear ← linearFactor root x
    let n := roots.countP (· = root)
    pure (if n = 1 then linear else .op .pow linear (Expr.ofNat n))

/-- A product of linear factors over the rational roots, with a constant in front or the remaining
polynomial at the end; none when there is no rational root. -/
def factor (coeffs : List α) (x : String) : Except Failure (Option (Expr α)) := do
  let (roots, rest) ← rational coeffs
  if roots.isEmpty then pure none
  else do
    let scale : Rat := roots.foldl (fun s r => s * r.den) 1
    let rest := rest.map (· / scale)
    let factors ← rootFactors (.var x) roots
    match rest with
    | [constant] =>
      if constant = 1 then pure (some (Term.product factors))
      else do
        let c ← Expr.ofRat? constant
        pure (some (Term.product (c :: factors)))
    | rest => do
      let values ← rest.reverse.mapM fun q => Coefficient.round q
      let remainder ← build values x
      pure (some (Term.product (factors ++ [remainder])))

end RuleAlgebra.Roots
