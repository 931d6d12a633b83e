import RuleAlgebra.Calculus.Derivative
import RuleAlgebra.Polynomial.Roots
import RuleAlgebra.Scalar.Extended
import RuleAlgebra.Simplifier
import RuleAlgebra.Expr.Evaluation

/-!
Taylor series. Each derivative is taken from the simplified one before it; numeric coefficients
close to a small fraction are written as that fraction. The remainder is the first term left out, and the
radius of convergence is estimated from the ratios of successive coefficients.
-/

namespace RuleAlgebra

structure Series (α : Type) where
  source : String
  variableName : String
  center : α
  order : Int
  terms : List (Expr α)
  remainder : Expr α
  radius : Extended α
  total : Option (Expr α)

namespace Series

variable {α : Type} [Scalar α]

def polynomial (s : Series α) : Expr α :=
  match s.total with
  | some e => e
  | none =>
    match s.terms.filter (!·.isNumber 0) with
    | [] => Expr.ofNat 0
    | t :: ts => ts.foldl (Expr.op .add) t

def evaluateAt (s : Series α) (v : α) : Except ValueFault α :=
  (s.polynomial.substitute s.variableName (.num v)).evaluate .empty

def display (s : Series α) : String :=
  "SeriesExpansion(" ++ Text.quoted s.source ++ " about " ++ Decimal.brief s.center ++
    s!", order {s.order}: " ++ s.polynomial.text ++ ", R≈" ++
    (match s.radius with | .infinite _ => "inf" | r => r.brief) ++ ")"

/-- Convergents of a continued fraction, up to the first whose denominator exceeds `bound`: the last
two before it. -/
def convergents (bound : Nat) : (fuel : Nat) → (n d p₀ q₀ p₁ q₁ : Int) → Int × Int × Int × Int
  | 0, _, _, p₀, q₀, p₁, q₁ => (p₀, q₀, p₁, q₁)
  | fuel + 1, n, d, p₀, q₀, p₁, q₁ =>
    if d = 0 then (p₀, q₀, p₁, q₁)
    else
      let a := n / d
      if bound < q₀ + a * q₁ then (p₀, q₀, p₁, q₁)
      else convergents bound fuel d (n - a * d) p₁ q₁ (p₀ + a * p₁) (q₀ + a * q₁)

/-- The fraction nearest to `q` among those with a denominator of at most `bound`; of two equally
near ones the last convergent. -/
def limitDenominator (bound : Nat) (q : Rat) : Rat :=
  if q.den ≤ bound then q
  else
    let (p₀, q₀, p₁, q₁) := convergents bound q.den q.num q.den 0 1 1 0
    let k := ((bound : Int) - q₀) / q₁
    let first : Rat := (p₀ + k * p₁ : Int) / (q₀ + k * q₁ : Int)
    let second : Rat := (p₁ : Rat) / (q₁ : Rat)
    if (second - q).abs ≤ (first - q).abs then second else first

def maxDenominator : Nat := 1000000

/-- A number as an integer or a small fraction when it lies within `10 ^ (-12)` of it. -/
def rational (v : α) : Except Failure (Expr α) :=
  match Scalar.toRat? v with
  | none => throw .overflow
  | some q =>
    if q.den = 1 then pure (.num v)
    else do
      let r := limitDenominator maxDenominator q
      let nearest : α ← Coefficient.round r
      let tolerance := Scalar.ofDecimal 1 (-12) * Scalar.max Scalar.one (Scalar.abs v)
      if Scalar.lt tolerance (Scalar.abs (nearest - v)) then pure (.num v)
      else Term.toExpr ⟨.exact r, none⟩

def radiusEstimates : List (Nat × α) → List α
  | (i, a) :: (j, b) :: rest =>
    let ratio := a / b
    let estimate := (Scalar.power? ratio (Scalar.one / Scalar.ofNat (j - i))).getD ratio
    estimate :: radiusEstimates ((j, b) :: rest)
  | _ => []

def increasing : List α → Bool
  | a :: b :: rest => Scalar.lt a b && increasing (b :: rest)
  | _ => true

/-- The radius of convergence estimated from coefficients, of which some may be unknown: the last
estimate, or infinity when there is none or they keep growing. -/
def radiusOf (coefficients : List (Option α)) : Extended α :=
  let known := coefficients.zipIdx.filterMap fun (a, n) =>
    (a.filter fun v => !(v == Scalar.zero)).map fun v => (n, Scalar.abs v)
  let estimates := radiusEstimates known
  match estimates.getLast? with
  | none => .infinite false
  | some last =>
    if 2 ≤ estimates.length && increasing estimates then .infinite false
    else .ofScalar last

def factorial : Nat → Nat
  | 0 => 1
  | n + 1 => (n + 1) * factorial n

section Expansion

variable (s : Simplifier α) (x : String) (center : α)

/-- The coefficient of degree `n` from the derivative of that order; symbolic when other variables
occur in it. -/
def coefficient (nth : Expr α) (n : Nat) : Traced α (Expr α) := do
  let atCenter ← Traced.lift (s.simplify (nth.substitute x (.num center)))
  let value : Except ValueFault α := atCenter.evaluate .empty
  let c ←
    if atCenter.variableNames.any fun y => !constants.contains y then do
      let divisor ← Traced.lift (Expr.ofRat? (factorial n : Rat))
      Traced.lift (s.simplify (.op .div atCenter divisor))
    else
      match value with
      | .error fault => throw (.noValue (.derivative n x (Decimal.brief center) fault))
      | .ok v => do
        let divisor : α ← Traced.lift (Coefficient.round (factorial n : Rat))
        Traced.lift (rational (v / divisor))
  Traced.step "series" nth c "taylor-coefficient" s!"f^({n})({Decimal.brief center})/{n}!"

def shiftedPower (n : Nat) : Expr α :=
  let shifted := if center == Scalar.zero then .var x else .op .sub (.var x) (.num center)
  if n = 1 then shifted else .op .pow shifted (Expr.ofNat n)

/-- The coefficient of degree `order + 1`, or none when it has no value. -/
def firstOmitted (nth : Expr α) (n : Nat) : Traced α (Option (Expr α)) :=
  Traced.recover
    (do
      let c ← coefficient s x center nth n
      pure (some c))
    fun
      | .engine (.noValue _) => some do
        let remainder := Expr.fn "O" [shiftedPower x center n]
        let _ ← Traced.step "series" nth remainder "remainder-order"
          s!"f^({n}) is undefined at {Decimal.brief center}"
        pure none
      | _ => none

/-- The coefficients of degrees `n` and on, `count` of them, and the first one after them. -/
def coefficients : (count n : Nat) → (nth : Expr α) → Traced α (List (Expr α) × Option (Expr α))
  | 0, n, nth => do
    let last ← firstOmitted s x center nth n
    pure ([], last)
  | count + 1, n, nth => do
    let c ← coefficient s x center nth n
    let derived ← nth.derivative x
    let next ← Traced.lift (s.simplify derived)
    let (rest, last) ← coefficients count (n + 1) next
    pure (c :: rest, last)

def term (c : Expr α) (n : Nat) : Except Failure (Expr α) :=
  if n = 0 then pure c else s.simplify (.op .mul c (shiftedPower x center n))

end Expansion

def expand (s : Simplifier α) (e : Expr α) (x : String) (center : α) (order : Int)
    (source : String) : Traced α (Series α) := do
  if order < 0 then throw (.request (.seriesOrder order))
  else do
    let first ← Traced.lift (s.simplify e)
    let degree := order.toNat
    let (cs, last) ← coefficients s x center (degree + 1) 0 first
    let terms ← Traced.lift (cs.zipIdx.mapM fun (c, n) => term s x center c n)
    let remainder ← match last with
      | some c => Traced.lift (term s x center c (degree + 1))
      | none => pure (Expr.fn "O" [shiftedPower x center (degree + 1)])
    let radius := radiusOf ((cs ++ last.toList).map Expr.closedValue?)
    let kept := (terms.filter (!·.isNumber 0)).map fun t =>
      (⟨.inexact Scalar.one, some t⟩ : Term α)
    let sum ← Traced.lift (Term.sum kept)
    let total ← Traced.lift (s.simplify sum)
    let source := if source.isEmpty then e.text else source
    pure ⟨source, x, center, order, terms, remainder, radius, some total⟩

end Series

end RuleAlgebra
