import RuleAlgebra.Calculus.Derivative
import RuleAlgebra.Polynomial.Roots
import RuleAlgebra.Scalar.Extended
import RuleAlgebra.Simplifier
import RuleAlgebra.Expr.Evaluation

/-!
Limits in one variable: by substitution where the expression is defined, by differentiating both
sides of a quotient `0/0`, and otherwise from samples on either side of the point. An infinite point
is approached along powers of two.
-/

namespace RuleAlgebra

inductive LimitStatus where
  | existing | infinite | jump | oneSided | undefined
  deriving DecidableEq, Repr

def LimitStatus.name : LimitStatus → String
  | existing => "exists"
  | infinite => "infinite"
  | jump => "jump"
  | oneSided => "one-sided"
  | undefined => "undefined"

inductive LimitMethod where
  | substitution | differentiation | sampling
  deriving DecidableEq, Repr

def LimitMethod.name : LimitMethod → String
  | substitution => "substitution"
  | differentiation => "lhopital"
  | sampling => "numeric"

structure Limit (α : Type) where
  source : String
  variableName : String
  point : Extended α
  value : Option (Extended α)
  status : LimitStatus
  left : Option (Extended α)
  right : Option (Extended α)
  method : LimitMethod

namespace Limit

variable {α : Type} [Scalar α]

def shown (v : Option (Extended α)) : String := v.elim "undefined" Extended.text

def text (l : Limit α) : String :=
  match l.status with
  | .jump => "jump: left " ++ shown l.left ++ ", right " ++ shown l.right
  | .oneSided =>
    shown l.value ++ " (from the " ++ (if l.left.isNone then "right" else "left") ++ " only)"
  | _ => shown l.value

def display (l : Limit α) : String :=
  "LimitResult(" ++ Text.quoted l.source ++ " as " ++ l.variableName ++ " -> " ++
    l.point.text ++ ": " ++ l.text ++ ")"

def settleTolerance : α := Scalar.ofDecimal 1 (-5)

/-- Aitken's estimate of where three samples are heading, unless it is far off the last one. -/
def accelerate (a b c : α) : α :=
  let d₁ := b - a
  let d₂ := c - b
  if d₂ == d₁ then c
  else
    let estimate := c - d₂ * d₂ / (d₂ - d₁)
    let far := Scalar.lt (Scalar.ofNat 10 * Scalar.abs d₂) (Scalar.abs (estimate - c))
    if !Scalar.isFinite estimate || far then c else estimate

def agrees (previous current : α) : Bool :=
  Scalar.le (Scalar.abs (current - previous))
    (settleTolerance * Scalar.max Scalar.one (Scalar.abs current))

/-- The first sample that agrees with the one before it, accelerated when there are two before
it. -/
def settled? : (before : Option α) → List α → Option α
  | before, a :: b :: rest =>
    if agrees a b then
      some (match before with
        | some z => accelerate z a b
        | none => b)
    else settled? (some a) (b :: rest)
  | _, _ => none

def differences : List α → List α
  | a :: b :: rest => (b - a) :: differences (b :: rest)
  | _ => []

def steady : List α → Bool
  | a :: b :: rest =>
    Scalar.le (Scalar.ofDecimal 5 (-1) * Scalar.abs a) (Scalar.abs b) && steady (b :: rest)
  | _ => true

/-- The infinity that samples run to: five of them at least, the last one of magnitude ten at least,
the last four differences of one sign and steady. -/
def divergence? (samples : List α) : Option (Extended α) :=
  match samples.getLast? with
  | none => none
  | some last =>
    if samples.length ≤ 4 || Scalar.lt (Scalar.abs last) (Scalar.ofNat 10) then none
    else
      let all := differences samples
      let recent := all.drop (all.length - 4)
      let up := recent.all (Scalar.lt Scalar.zero ·)
      let down := recent.all (Scalar.lt · Scalar.zero)
      if (up || down) && steady recent then some (.infinite down) else none

def settle (samples : List α) : Except Failure (Option (Extended α)) :=
  match settled? none samples with
  | some v => do
    let r ← Roots.snap (Scalar.ofDecimal 1 (-6)) v
    pure (some (.ofScalar r))
  | none => pure (divergence? samples)

def same : Extended α → Extended α → Bool
  | .infinite m, .infinite n => m == n
  | .finite a, .finite b =>
    let d := Scalar.abs (a - b)
    let relative := Scalar.ofDecimal 1 (-6)
    a == b || Scalar.le d (relative * Scalar.abs b) || Scalar.le d (relative * Scalar.abs a) ||
      Scalar.le d (Scalar.ofDecimal 1 (-9))
  | _, _ => false

def ofSides (source x : String) (point : Extended α) (left right : Option (Extended α))
    (method : LimitMethod) : Limit α :=
  let (status, value) : LimitStatus × Option (Extended α) := match left, right with
    | none, none => (.undefined, none)
    | some l, none => (.oneSided, some l)
    | none, some r => (.oneSided, some r)
    | some l, some r =>
      if same l r then (if r.isInfinite then .infinite else .existing, some r) else (.jump, none)
  ⟨source, x, point, value, status, left, right, method⟩

def offsets : List α := (List.range 7).map fun (k : Nat) => Scalar.ofDecimal 1 (-(k : Int) - 2)

def farPoints : List α := (List.range 60).map fun k => Scalar.ofNat (Nat.pow 2 (k + 1))

def samples (e : Expr α) (x : String) (points : List α) : List α := points.filterMap (e.at? x)

/-- Values this close to zero count as zero in a quotient `0/0`. -/
def vanishes (v : α) : Bool := Scalar.le (Scalar.abs v) (Scalar.ofDecimal 1 (-12))

/-- The quotient of the derivatives, or none when one of them is not known. -/
def ratioOfDerivatives? (top bottom : Expr α) (x : String) : Traced α (Option (Expr α)) :=
  Traced.recover
    (do
      let t ← top.derivative x
      let b ← bottom.derivative x
      pure (some (.op .div t b)))
    fun
      | .engine (.unsupported ..) => some (pure none)
      | _ => none

/-- The value of a quotient at a point where both parts vanish, by differentiating them at most
`rounds` times. -/
def byDifferentiation? (s : Simplifier α) (x : String) (point : α) :
    (rounds : Nat) → Expr α → Traced α (Option α)
  | 0, _ => pure none
  | rounds + 1, e =>
    match e with
    | .op .div top bottom =>
      if (top.at? x point).any vanishes && (bottom.at? x point).any vanishes then do
        match ← ratioOfDerivatives? top bottom x with
        | none => pure none
        | some raw => do
          let ratio ← s.runLogged raw
          let _ ← Traced.step "limit" e ratio "lhopital" "0/0: differentiate top and bottom"
          match ratio.at? x point with
          | some v => pure (some v)
          | none => byDifferentiation? s x point rounds ratio
      else pure none
    | _ => pure none

def maxRounds : Nat := 5

def logLimit (before after : Expr α) (rule explanation : String) : Traced α (Expr α) :=
  Traced.step "limit" before after rule explanation

def atInfinity (e : Expr α) (source x : String) (negative : Bool) : Traced α (Limit α) := do
  let point : Extended α := .infinite negative
  let points : List α := if negative then farPoints.map (- ·) else farPoints
  let value ← Traced.lift (settle (samples e x points))
  let _ ← logLimit e e "numeric-approach" s!"Sampled {x} = ±2^k towards {point.brief}"
  pure (ofSides source x point value value .sampling)

def bySampling (e : Expr α) (source x : String) (point : α) : Traced α (Limit α) := do
  let scale := Scalar.max Scalar.one (Scalar.abs point)
  let left ← Traced.lift (settle (samples e x (offsets.map fun h => point - h * scale)))
  let right ← Traced.lift (settle (samples e x (offsets.map fun h => point + h * scale)))
  let _ ← logLimit e e "numeric-approach" s!"Sampled {x} = {Decimal.brief point} ± 10^-k"
  pure (ofSides source x (.finite point) left right .sampling)

/-- The limit at a point where the expression has the value `v`: a side counts when the expression
is defined close to the point on it. -/
def bySubstitution (e : Expr α) (source x : String) (point v : α) : Traced α (Limit α) := do
  let h := Scalar.ofDecimal 1 (-8) * Scalar.max Scalar.one (Scalar.abs point)
  let _ ← logLimit e (.num v) "substitution" s!"Defined at {x} = {Decimal.brief point}"
  let side (p : α) : Option (Extended α) := (e.at? x p).map fun _ => .ofScalar v
  pure (ofSides source x (.finite point) (side (point - h)) (side (point + h)) .substitution)

def atPoint (s : Simplifier α) (e : Expr α) (source x : String) (point : α) :
    Traced α (Limit α) := do
  match e.at? x point with
  | some v => bySubstitution e source x point v
  | none =>
    match ← byDifferentiation? s x point maxRounds e with
    | some v =>
      let value := some (Extended.ofScalar v)
      pure (ofSides source x (.finite point) value value .differentiation)
    | none => bySampling e source x point

def find (s : Simplifier α) (e : Expr α) (x : String) (point : Extended α) (source : String) :
    Traced α (Limit α) := do
  let source := if source.isEmpty then e.text else source
  match e.functionNames.find? fun f => (Elementary.ofName? f).isNone with
  | some f => throw (.engine (.unsupported f .limits))
  | none =>
    let others := e.variableNames.filter fun y => y != x && !constants.contains y
    if !others.isEmpty then throw (.noValue (.parameters others))
    else do
      let e ← s.runLogged e
      match point with
      | .infinite negative => atInfinity e source x negative
      | .finite p => atPoint s e source x p

end Limit

end RuleAlgebra
