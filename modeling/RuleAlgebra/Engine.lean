import RuleAlgebra.Calculus.Antiderivative
import RuleAlgebra.Calculus.Limit
import RuleAlgebra.Calculus.Series
import RuleAlgebra.Equation.LinearSystem
import RuleAlgebra.Expr.Domain
import RuleAlgebra.Rules.Standard

/-!
The entry points. Each takes text or an expression, does its task and gives a fresh answer together
with the steps that led to it; a failure comes with the steps up to it.
-/

namespace RuleAlgebra

structure Engine (α : Type) where
  simplifier : Simplifier α
  methods : NumericMethods α
  tolerance : α
  low : α
  high : α
  allowNumeric : Bool

inductive Input (α : Type) where
  | text (s : String)
  | tree (e : Expr α)

namespace Input

variable {α : Type} [Scalar α]

def expr : Input α → Except Failure (Expr α)
  | text s => Expr.parse s
  | tree e => pure e

def source : Input α → String
  | text s => s
  | tree e => e.text

end Input

inductive Details (α : Type) where
  | simplified (conditions : List String)
  | differentiated (variableName : String) (order : Int)
  | integrated (variableName antiderivative : String)
  | definite (variableName antiderivative : String) (low high : α) (status : String)

structure Answer (α : Type) where
  source : String
  result : Expr α
  numeric : Option α
  /-- Whether simplification came to an end before its limit. -/
  settled : Bool
  details : Details α
  trace : Trace α

namespace Answer

variable {α : Type} [Scalar α]

def text (a : Answer α) : String := a.result.text

def display (a : Answer α) : String :=
  "CASResult(" ++ Text.quoted a.source ++ " -> " ++ Text.quoted a.text ++
    s!", {a.trace.steps.length} steps)"

end Answer

namespace Engine

variable {α : Type} [Scalar α]

def defaultTolerance : α := Scalar.ofDecimal 1 (-9)

def defaultHigh : α := Scalar.ofNat 100

def ofLibrary (library : Library α) (methods : NumericMethods α) : Engine α :=
  ⟨⟨library, Simplifier.defaultMaxSteps⟩, methods, defaultTolerance, -defaultHigh, defaultHigh,
    true⟩

def standard (methods : NumericMethods α) : Engine α := ofLibrary .standard methods

def answer (source : String) (initial : Expr α) (settled : Bool) (details : Details α)
    (numeric : Option α) (result : Expr α) : Traced α (Answer α) := do
  let log ← get
  pure {
    source, result, settled, details
    numeric := numeric.or result.closedValue?
    trace := .ofLog initial result log }

def simplify (g : Engine α) (input : Input α) (maxSteps : Option Int) (form : Option String)
    (domain : String) : Traced α (Answer α) := do
  let e ← Traced.lift input.expr
  let form ← Traced.lift (TargetForm.ofName? form)
  let domain ← Traced.lift (NumberDomain.ofName? domain)
  let limit := (maxSteps.map Int.toNat).getD g.simplifier.maxSteps
  let (result, settled) ← Traced.recording (g.simplifier.run form domain limit e)
  answer input.source e settled (.simplified (e.conditions.map Condition.text)) none result

def differentiate (g : Engine α) (input : Input α) (x : String) (order : Int) :
    Traced α (Answer α) := do
  if order < 0 then throw (.request (.derivativeOrder order))
  else do
    let e ← Traced.lift input.expr
    let (result, settled) ← Traced.recording do
      let derived ← e.derivativeTimes x order.toNat
      g.simplifier.runPlain derived
    answer input.source e settled (.differentiated x order) none result

def constantName : String := "C"

/-- The difference of the values at two bounds, or why there is none. -/
def boundsValue (anti upper lower : Expr α) : Option α × String :=
  if anti.functionNames.contains Expr.integralName then
    (none, "undefined: antiderivative contains an unevaluated integral")
  else
    let values : Except ValueFault (α × α) := do
      let high ← upper.evaluate .empty
      let low ← lower.evaluate .empty
      pure (high, low)
    match values with
    | .ok (high, low) => (some (high - low), "ok")
    | .error fault => (none, "undefined: " ++ fault.message)

/-- Integrates; between bounds when they are given, otherwise with a constant. -/
def integrate (g : Engine α) (input : Input α) (x : String) (bounds : Option (α × α)) :
    Traced α (Answer α) := do
  let e ← Traced.lift input.expr
  let (anti, settled) ← Traced.recording do
    let raw ← e.antiderivative g.simplifier.simplify x
    g.simplifier.runPlain raw
  match bounds with
  | none => do
    let result ← Expr.logIntegral anti (.op .add anti (.var constantName))
      "constant-of-integration" "Add an arbitrary constant"
    answer input.source e settled (.integrated x anti.text) none result
  | some (a, b) => do
    let upper := anti.substitute x (.num b)
    let lower := anti.substitute x (.num a)
    let difference ← Expr.logIntegral anti (.op .sub upper lower) "fundamental-theorem"
      "F(b) - F(a)"
    let (numeric, status) := boundsValue anti upper lower
    let result ← match numeric with
      | some v => pure (.num v)
      | none => g.simplifier.runLogged difference
    answer input.source e settled (.definite x anti.text a b status) numeric result

def solver (g : Engine α) (allowNumeric : Option Bool) : Except Failure (Solver α) :=
  Solver.create g.simplifier g.methods (allowNumeric.getD g.allowNumeric) g.low g.high g.tolerance

def solve (g : Engine α) (input : Input α) (x : String) (allowNumeric : Option Bool) :
    Traced α (Solution α) := do
  let e ← Traced.lift input.expr
  Traced.recording do
    let s ← Traced.lift (g.solver allowNumeric)
    s.solve e x

def solveSystem (g : Engine α) (inputs : List (Input α)) (unknowns : List String) :
    Traced α (Solution α) := do
  let es ← Traced.lift (inputs.mapM Input.expr)
  Traced.recording do
    let s ← Traced.lift (g.solver none)
    s.solveSystem es unknowns

def series (g : Engine α) (input : Input α) (x : String) (center : α) (order : Int) :
    Traced α (Series α) := do
  let e ← Traced.lift input.expr
  Traced.recording (Series.expand g.simplifier e x center order input.source)

def limit (g : Engine α) (input : Input α) (x : String) (point : Extended α) :
    Traced α (Limit α) := do
  let e ← Traced.lift input.expr
  Traced.recording (Limit.find g.simplifier e x point input.source)

end Engine

end RuleAlgebra
