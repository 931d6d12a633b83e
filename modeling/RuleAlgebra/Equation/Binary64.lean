import RuleAlgebra.Equation.Numeric
import RuleAlgebra.Scalar.Binary64

/-!
Numerical methods on binary64 numbers: Aberth's simultaneous iteration for the roots of polynomials,
and Brent's method for a root in an interval.
-/

namespace RuleAlgebra.Binary64

structure Complex where
  re : Float
  im : Float

namespace Complex

def add (a b : Complex) : Complex := ⟨a.re + b.re, a.im + b.im⟩

def sub (a b : Complex) : Complex := ⟨a.re - b.re, a.im - b.im⟩

def mul (a b : Complex) : Complex := ⟨a.re * b.re - a.im * b.im, a.re * b.im + a.im * b.re⟩

def abs (a : Complex) : Float :=
  let x := a.re.abs
  let y := a.im.abs
  let m := if x < y then y else x
  if m == 0 then 0 else m * Float.sqrt ((x / m) * (x / m) + (y / m) * (y / m))

/-- The quotient, scaled by the larger part of the divisor. -/
def div (a b : Complex) : Complex :=
  if b.im.abs ≤ b.re.abs then
    let r := b.im / b.re
    let d := b.re + b.im * r
    ⟨(a.re + a.im * r) / d, (a.im - a.re * r) / d⟩
  else
    let r := b.re / b.im
    let d := b.re * r + b.im
    ⟨(a.re * r + a.im) / d, (a.im * r - a.re) / d⟩

def ofReal (x : Float) : Complex := ⟨x, 0⟩

def isFinite (a : Complex) : Bool := a.re.isFinite && a.im.isFinite

end Complex

/-- Value and derivative of a polynomial by Horner's scheme. -/
def hornerBoth (desc : List Float) (z : Complex) : Complex × Complex :=
  desc.foldl
    (fun (p, d) c => ((p.mul z).add (.ofReal c), (d.mul z).add p))
    (.ofReal 0, .ofReal 0)

/-- The Newton correction of a root. Outside the unit circle the reversed polynomial is used. -/
def newtonCorrection (desc : List Float) (z : Complex) : Complex :=
  if z.abs ≤ 1 then
    let (p, d) := hornerBoth desc z
    p.div d
  else
    let w := (Complex.ofReal 1).div z
    let n := Float.ofNat (desc.length - 1)
    let (p, d) := hornerBoth desc.reverse w
    -- `p(z) = z^n * r(w)`, so `p'/p = (n - w * r'(w)/r(w)) / z`
    let ratio := (w.mul d).div p
    z.div ((Complex.ofReal n).sub ratio)

/-- One round of Aberth's iteration over all roots; whether all of them have settled. -/
def aberthRound (desc : List Float) (roots : Array Complex) : Array Complex × Bool :=
  (List.range roots.size).foldl
    (fun (rs, settled) i =>
      let z := rs.getD i (.ofReal 0)
      let n := newtonCorrection desc z
      if n.abs == 0 || !n.isFinite then (rs, settled)
      else
        let repulsion := (List.range rs.size).foldl
          (fun s j =>
            if j == i then s
            else s.add ((Complex.ofReal 1).div (z.sub (rs.getD j (.ofReal 0)))))
          (Complex.ofReal 0)
        let step := n.div ((Complex.ofReal 1).sub (n.mul repulsion))
        let step := if step.isFinite then step else n
        (rs.setIfInBounds i (z.sub step), settled && step.abs ≤ 1e-16 * z.abs))
    (roots, true)

def aberth (desc : List Float) : (rounds : Nat) → Array Complex → Array Complex
  | 0, roots => roots
  | rounds + 1, roots =>
    let (next, settled) := aberthRound desc roots
    if settled then next else aberth desc rounds next

def complexRoots (desc : List Float) : List (Float × Float) :=
  match desc.head?, desc.getLast? with
  | some lead, some const =>
    let n := desc.length - 1
    let radius := Float.pow (const / lead).abs (1 / Float.ofNat n)
    let start := (Array.range n).map fun k =>
      let angle := 6.283185307179586 * Float.ofNat k / Float.ofNat n + 0.4
      Complex.mk (radius * angle.cos) (radius * angle.sin)
    (aberth desc 500 start).toList.map fun z => (z.re, z.im)
  | _, _ => []

/-- The state of Brent's method: the last two points and the one that brackets the root with the
current one, each with its value, and the last two steps. -/
structure Bracket where
  previous : Float
  current : Float
  block : Float
  previousValue : Float
  currentValue : Float
  blockValue : Float
  lastStep : Float
  step : Float

def valueAt (f : Float → Option Float) (x : Float) : Except Failure Float :=
  match f x with
  | some y => pure y
  | none => throw (.request (.bracket (shortest x)))

def brentTolerance (x : Float) : Float := (1e-14 + 8.881784197001252e-16 * x.abs) / 2

/-- Restores the bracket and makes the current point the better end. -/
def Bracket.arrange (b : Bracket) : Bracket :=
  let b :=
    if b.previousValue != 0 && b.currentValue != 0 &&
        signBit b.previousValue != signBit b.currentValue then
      { b with
        block := b.previous
        blockValue := b.previousValue
        lastStep := b.current - b.previous
        step := b.current - b.previous }
    else b
  if b.blockValue.abs < b.currentValue.abs then
    { b with
      previous := b.current
      current := b.block
      block := b.current
      previousValue := b.currentValue
      currentValue := b.blockValue
      blockValue := b.currentValue }
  else b

/-- The step from the current point: by interpolation when it is short enough, else to the
middle. -/
def Bracket.nextStep (b : Bracket) (delta half : Float) : Float × Float :=
  if delta < b.lastStep.abs && b.currentValue.abs < b.previousValue.abs then
    let trial :=
      if b.previous == b.block then
        (-b.currentValue) * (b.current - b.previous) / (b.currentValue - b.previousValue)
      else
        let dp := (b.previousValue - b.currentValue) / (b.previous - b.current)
        let db := (b.blockValue - b.currentValue) / (b.block - b.current)
        let slope := db * dp * (b.blockValue - b.previousValue)
        (-b.currentValue) * (b.blockValue * db - b.previousValue * dp) / slope
    let bound :=
      if b.lastStep.abs < 3 * half.abs - delta then b.lastStep.abs else 3 * half.abs - delta
    if 2 * trial.abs < bound then (b.step, trial) else (half, half)
  else (half, half)

def brentSteps (f : Float → Option Float) : (fuel : Nat) → Bracket → Except Failure Float
  | 0, b => pure b.current
  | fuel + 1, b => do
    let b := b.arrange
    let delta := brentTolerance b.current
    let half := (b.block - b.current) / 2
    if b.currentValue == 0 || half.abs < delta then pure b.current
    else do
      let (last, step) := b.nextStep delta half
      let next :=
        if delta < step.abs then b.current + step
        else b.current + (if 0 < half then delta else -delta)
      let value ← valueAt f next
      brentSteps f fuel
        { b with
          previous := b.current
          previousValue := b.currentValue
          current := next
          currentValue := value
          lastStep := last
          step := step }

def bracketedRoot (f : Float → Option Float) (a b : Float) : Except Failure Float := do
  let fa ← valueAt f a
  if fa == 0 then pure a
  else do
    let fb ← valueAt f b
    if fb == 0 then pure b
    else brentSteps f 100 ⟨a, b, 0, fa, fb, 0, 0, 0⟩

def numericMethods : NumericMethods Float where
  squareRoot := Float.sqrt
  modulus re im := (Complex.mk re im).abs
  complexRoots := complexRoots
  bracketed := bracketedRoot

end RuleAlgebra.Binary64
