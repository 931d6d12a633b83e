import RuleAlgebra.Equation.Solver

/-!
Linear systems with as many equations as unknowns, by Gaussian elimination with partial pivoting.
-/

namespace RuleAlgebra

/-- An equation of a linear system: the coefficients of the unknowns and the right-hand side. -/
structure Row (α : Type) where
  coefficients : List α
  rhs : α

namespace Row

variable {α : Type} [Scalar α]

def ofForm (unknowns : List String) (f : LinearForm α) : Row α where
  coefficients := unknowns.map fun x => (f.slope? x).getD Scalar.zero
  rhs := -(f.constant.getD Scalar.zero)

def head (r : Row α) : α := r.coefficients.headD Scalar.zero

def tail (r : Row α) : Row α := { r with coefficients := r.coefficients.tail }

/-- Subtracts the multiple of the pivot row that makes the first coefficient vanish. -/
def eliminate (pivot r : Row α) : Row α :=
  let factor := r.head / pivot.head
  ⟨List.zipWith (fun c p => c - factor * p) r.coefficients pivot.coefficients,
    r.rhs - factor * pivot.rhs⟩

end Row

namespace LinearSystem

variable {α : Type} [Scalar α]

/-- The place of the first row whose first coefficient has the largest magnitude. -/
def pivotIndex (rows : List (Row α)) : Nat :=
  (rows.zipIdx.foldl
    (fun (best : Option (α × Nat)) (r, i) =>
      let size := Scalar.abs r.head
      match best with
      | none => some (size, i)
      | some (largest, k) => if Scalar.lt largest size then some (size, i) else some (largest, k))
    none).elim 0 (·.2)

def bringToFront {β : Type} (i : Nat) : List β → List β
  | [] => []
  | a :: as =>
    match i with
    | 0 => a :: as
    | i + 1 =>
      match as[i]? with
      | some b => b :: as.set i a
      | none => a :: as

/-- Brings the rows to triangular form: the pivot rows from the first column on, each without the
columns before it. A pivot below the tolerance fails. -/
def triangle (tolerance : α) : (column : Nat) → (rows : List (Row α)) → (fuel : Nat) →
    Except SystemFault (List (Row α))
  | _, _, 0 => pure []
  | column, rows, fuel + 1 =>
    match bringToFront (pivotIndex rows) rows with
    | [] => pure []
    | pivot :: others =>
      if Scalar.lt (Scalar.abs pivot.head) tolerance then
        throw (.singular (Decimal.brief pivot.head) column)
      else do
        let rest ← triangle tolerance (column + 1)
          (others.map fun r => (Row.eliminate pivot r).tail) fuel
        pure (pivot :: rest)

def solveRow (r : Row α) (values : List α) : α :=
  let known := (List.zipWith (· * ·) r.coefficients.tail values).foldl (· + ·) Scalar.zero
  (r.rhs - known) / r.head

def backSubstitute (rows : List (Row α)) : List α :=
  rows.foldr (fun r values => solveRow r values :: values) []

def eliminate (tolerance : α) (rows : List (Row α)) : Except SystemFault (List α) := do
  let rows ← triangle tolerance 1 rows rows.length
  pure (backSubstitute rows)

end LinearSystem

namespace Solver

variable {α : Type} [Scalar α]

def systemRows (s : Solver α) (unknowns : List String) :
    (row : Nat) → List (Expr α) → Traced α (List (Row α))
  | _, [] => pure []
  | row, equation :: rest => do
    let e ← normalize s.simplifier equation
    match e.linearForm? unknowns with
    | none => throw (.engine (.noUniqueSolution (.notLinear row unknowns e.text)))
    | some f => do
      let rows ← systemRows s unknowns (row + 1) rest
      pure (Row.ofForm unknowns f :: rows)

def solveSystem (s : Solver α) (equations : List (Expr α)) (unknowns : List String) :
    Traced α (Solution α) := do
  if equations.length ≠ unknowns.length ∨ unknowns.isEmpty = true then
    throw (.engine (.noUniqueSolution (.shape equations.length unknowns.length)))
  else do
    let rows ← s.systemRows unknowns 1 equations
    match LinearSystem.eliminate s.tolerance rows with
    | .error fault => throw (.engine (.noUniqueSolution fault))
    | .ok values => do
      for (x, v) in unknowns.zip values do
        let snapped ← Traced.lift (Roots.snap Roots.snapTolerance v)
        let _ ← logSolve (.var x) (.num snapped) "back-substitution" s!"Solve for {x}"
      let solutions ← Traced.lift (numbers values)
      pure ⟨"system", unknowns, solutions, .system, .real⟩

end Solver

end RuleAlgebra
