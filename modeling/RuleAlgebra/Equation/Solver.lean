import RuleAlgebra.Equation.Numeric
import RuleAlgebra.Equation.Solution
import RuleAlgebra.Polynomial.Coefficients
import RuleAlgebra.Scalar.Exact
import RuleAlgebra.Simplifier

/-!
Solving one equation. Everything is moved to one side and simplified; the shape of the result in the
unknown then decides: linear, quadratic, a polynomial of higher degree, or anything else, which is
searched for changes of sign.
-/

namespace RuleAlgebra

structure Solver (α : Type) where
  simplifier : Simplifier α
  methods : NumericMethods α
  allowNumeric : Bool
  low : α
  high : α
  /-- The smallest pivot that elimination divides by. -/
  tolerance : α

namespace Solver

variable {α : Type} [Scalar α]

def create (simplifier : Simplifier α) (methods : NumericMethods α) (allowNumeric : Bool)
    (low high tolerance : α) : Except Failure (Solver α) :=
  if Scalar.lt low high then pure ⟨simplifier, methods, allowNumeric, low, high, tolerance⟩
  else throw (.request (.interval (Scalar.shortest low) (Scalar.shortest high)))

def logSolve (before after : Expr α) (rule explanation : String) : Traced α (Expr α) :=
  Traced.step "solve" before after rule explanation

/-- The difference of both sides, simplified; an expression is read as being equal to zero. -/
def normalize (s : Simplifier α) (equation : Expr α) : Traced α (Expr α) :=
  match equation with
  | .eq l r => do
    let difference ← Traced.step "normalize" (.eq l r) (.op .sub l r) "move-terms"
      "Subtract the right-hand side from both sides"
    s.runLogged difference
  | e => s.runLogged e

def kindOf (coeffs : Option (List (Expr α))) : EquationKind :=
  match coeffs with
  | none => .transcendental
  | some cs =>
    if cs.length ≤ 2 then .linear else if cs.length = 3 then .quadratic else .polynomial

def classify (s : Simplifier α) (e : Expr α) (x : String) : Except Failure EquationKind := do
  let coeffs ← e.symbolicCoefficients x s.simplify
  pure (kindOf coeffs)

def snapped (vs : List α) : Except Failure (List α) := vs.mapM (Roots.snap Roots.snapTolerance)

def numbers (vs : List α) : Except Failure (List (Expr α)) := do
  let vs ← snapped vs
  pure (vs.map .num)

/-- The quotient, which fails for a zero divisor. -/
def quotient (a b : α) : Except Failure α :=
  if b == Scalar.zero then throw (.arithmetic .divisionByZero) else pure (a / b)

/-- The verdict on an equation without the unknown. -/
def constantDomain (coeffs : List (Expr α)) : SolutionDomain :=
  match coeffs with
  | [] => .allReals
  | c :: _ =>
    match c.closedValue? with
    | some v => if v == Scalar.zero then .allReals else .noSolution
    | none => .noSolution

def solveLinear (s : Simplifier α) (coeffs : List (Expr α)) (x : String) :
    Traced α (Solution α) :=
  match coeffs with
  | [b, a] => do
    let raw := Expr.op .div (Expr.negative b) a
    let solution ← s.runLogged raw
    let _ ← logSolve raw solution "linear-solution" s!"{x} = -b/a"
    pure (.ofOne x [solution] .linear .real)
  | coeffs => pure (.ofOne x [] .linear (constantDomain coeffs))

/-- The roots `(-b ∓ √d) / 2a`. -/
def quadraticRoots (methods : NumericMethods α) (a b d : α) : Except Failure (List α) := do
  let root := methods.squareRoot d
  let twice := Scalar.ofNat 2 * a
  let first ← quotient (-b - root) twice
  let second ← quotient (-b + root) twice
  pure [first, second]

def ascending (vs : List α) : List α := vs.mergeSort fun a b => Scalar.le a b

def solveQuadratic (s : Solver α) (a b c : Expr α) (x : String) : Traced α (Solution α) := do
  match a.closedValue?, b.closedValue?, c.closedValue? with
  | some na, some nb, some nc => do
    let d := nb * nb - Scalar.ofNat 4 * na * nc
    let polynomial ← Traced.lift (Roots.build [nc, nb, na] x)
    let _ ← logSolve polynomial (.num d) "discriminant" "b^2 - 4ac"
    if Scalar.lt d Scalar.zero then pure (.ofOne x [] .quadratic .noRealSolution)
    else do
      let roots ← Traced.lift (quadraticRoots s.methods na nb d)
      let solutions ← Traced.lift (numbers (ascending roots))
      pure (.ofOne x solutions .quadratic .real)
  | _, _, _ => do
    let d := Expr.op .sub (Expr.squared b) (.op .mul (.op .mul (Expr.ofNat 4) a) c)
    let formula (o : Arithmetic) : Traced α (Expr α) := do
      let raw := Expr.op .div (.op o (Expr.negative b) (.fn "sqrt" [d]))
        (.op .mul (Expr.ofNat 2) a)
      let solution ← s.simplifier.runLogged raw
      logSolve raw solution "quadratic-formula" s!"{x} = (-b {o.symbol} sqrt(b^2 - 4ac))/(2a)"
    let first ← formula .sub
    let second ← formula .add
    pure (.ofOne x [first, second] .quadratic .real)

/-- Leaves out each number that is within `10 ^ (-9)` of the last one kept. -/
def dropRepeated : (last : Option α) → List α → List α
  | _, [] => []
  | none, v :: vs => v :: dropRepeated (some v) vs
  | some u, v :: vs =>
    if Scalar.lt Roots.snapTolerance (Scalar.abs (v - u)) then v :: dropRepeated (some v) vs
    else dropRepeated (some u) vs

/-- The roots of what is left of a polynomial when its rational roots, if there were `any`, have
been divided out; its coefficients start at degree zero. -/
def remainingRoots (s : Solver α) (any : Bool) (coeffs : List α) (x : String) :
    Traced α (List α) := do
  match coeffs with
  | [c, b, a] => do
    let d := b * b - Scalar.ofNat 4 * a * c
    if Scalar.le Scalar.zero d then Traced.lift (quadraticRoots s.methods a b d) else pure []
  | [c, b] =>
    if any then do
      let root ← Traced.lift (quotient (-c) b)
      pure [root]
    else numeric
  | coeffs => if 3 < coeffs.length then numeric else pure []
where
  numeric : Traced α (List α) := do
    if !s.allowNumeric then throw (.engine (.unsolvable (.noClosedForm (coeffs.length - 1))))
    else do
      let found := s.methods.realRoots coeffs
      let polynomial ← Traced.lift (Roots.build coeffs x)
      let _ ← logSolve polynomial (Expr.ofNat found.length) "numeric-roots"
        "Real roots from numpy.roots"
      pure found

def solvePolynomial (s : Solver α) (coeffs : List (Expr α)) (x : String) :
    Traced α (Solution α) := do
  match coeffs.mapM Expr.closedValue? with
  | none => throw (.engine (.unsolvable (.symbolicPolynomial (coeffs.length - 1))))
  | some values => do
    let (roots, remainder) ← Traced.lift (Roots.rational values)
    let found ← Traced.lift (roots.mapM Coefficient.round)
    let remaining ← Traced.lift (remainder.reverse.mapM Coefficient.round)
    if !roots.isEmpty then do
      let before ← Traced.lift (Roots.build values x)
      let after ← Traced.lift (Roots.build remaining x)
      let _ ← logSolve before after "rational-roots"
        ("Divide out roots " ++ ", ".intercalate (roots.map Rational.text))
    let others ← s.remainingRoots (!roots.isEmpty) remaining x
    let all ← Traced.lift (snapped (found ++ others))
    let solutions ← Traced.lift (numbers (dropRepeated none (ascending all)))
    pure (.ofOne x solutions .polynomial .real)

def scanPoints : Nat := 4001

/-- Values above this at a sign change tell of a pole or a jump. -/
def residualTolerance : α := Scalar.ofDecimal 1 (-6)

/-- Evenly spaced sample points, the ends of the interval included. A step that is too small to be a
number is not formed. -/
def samplePoints (low high : α) : List α :=
  let width := high - low
  let steps : α := Scalar.ofNat (scanPoints - 1)
  let step := width / steps
  (List.range scanPoints).map fun i =>
    if i = scanPoints - 1 then high
    else if step == Scalar.zero then Scalar.ofNat i / steps * width + low
    else Scalar.ofNat i * step + low

def addRoot (found : List α) (x : α) : List α :=
  match found.getLast? with
  | none => [x]
  | some last =>
    if Scalar.lt Roots.snapTolerance (Scalar.abs (x - last)) then found ++ [x] else found

/-- A root at the first of two neighbouring samples or between them. -/
def rootBetween (methods : NumericMethods α) (f : α → Option α) (a b : α × Option α) :
    Except Failure (Option α) :=
  match a.2.bind Scalar.finite?, b.2.bind Scalar.finite? with
  | some ya, some yb =>
    if ya == Scalar.zero then pure (some a.1)
    else if Scalar.lt (ya * yb) Scalar.zero then do
      let x ← methods.bracketed f a.1 b.1
      pure (some x)
    else pure none
  | _, _ => pure none

/-- Whether a value counts as zero; no value does. -/
def isResidual (v : Option α) : Bool :=
  match v with
  | some y => !Scalar.lt residualTolerance (Scalar.abs y)
  | none => true

def scanSamples (methods : NumericMethods α) (f : α → Option α) :
    (found : List α) → List (α × Option α) → Except Failure (List α)
  | found, a :: b :: rest => do
    match ← rootBetween methods f a b with
    | some x =>
      scanSamples methods f (if isResidual (f x) then addRoot found x else found) (b :: rest)
    | none => scanSamples methods f found (b :: rest)
  | found, [(x, y)] =>
    match y with
    | some v => pure (if v == Scalar.zero then addRoot found x else found)
    | none => pure found
  | found, [] => pure found

def scan (s : Solver α) (e : Expr α) (x : String) : Except Failure (List α) :=
  let f := e.at? x
  scanSamples s.methods f [] ((samplePoints s.low s.high).map fun v => (v, f v))

def solveTranscendental (s : Solver α) (e : Expr α) (x : String) : Traced α (Solution α) := do
  match e.functionNames.find? fun f => (Elementary.ofName? f).isNone with
  | some f => throw (.engine (.unsupported f .solving))
  | none =>
    let others := e.variableNames.filter fun y => y != x && !constants.contains y
    if !others.isEmpty then throw (.engine (.unsolvable (.parameters others)))
    else if !s.allowNumeric then throw (.engine (.unsolvable (.transcendental x)))
    else do
      let roots ← Traced.lift (s.scan e x)
      let _ ← logSolve e (Expr.ofNat roots.length) "numeric-scan"
        s!"Sign changes on [{Decimal.brief s.low}, {Decimal.brief s.high}] refined with brentq"
      let solutions ← Traced.lift (numbers roots)
      pure (.ofOne x solutions .transcendental .real)

def solve (s : Solver α) (equation : Expr α) (x : String) : Traced α (Solution α) := do
  let e ← normalize s.simplifier equation
  match ← Traced.lift (e.symbolicCoefficients x s.simplifier.simplify) with
  | none => s.solveTranscendental e x
  | some [c, b, a] => s.solveQuadratic a b c x
  | some coeffs =>
    if coeffs.length ≤ 2 then solveLinear s.simplifier coeffs x else s.solvePolynomial coeffs x

end Solver

end RuleAlgebra
