import RuleAlgebra.Expr.Evaluation
import RuleAlgebra.Trace

/-!
Solutions of equations and of linear systems.
-/

namespace RuleAlgebra

inductive EquationKind where
  | linear | quadratic | polynomial | transcendental | system
  deriving DecidableEq, Repr

def EquationKind.name : EquationKind → String
  | linear => "linear"
  | quadratic => "quadratic"
  | polynomial => "polynomial"
  | transcendental => "transcendental"
  | system => "system"

inductive SolutionDomain where
  | real | allReals | noSolution | noRealSolution
  deriving DecidableEq, Repr

def SolutionDomain.name : SolutionDomain → String
  | real => "real"
  | allReals => "all real numbers"
  | noSolution => "no solution"
  | noRealSolution => "no real solution"

structure Solution (α : Type) where
  unknown : String
  unknowns : List String
  solutions : List (Expr α)
  kind : EquationKind
  domain : SolutionDomain

namespace Solution

variable {α : Type}

def ofOne (unknown : String) (solutions : List (Expr α)) (kind : EquationKind)
    (domain : SolutionDomain) : Solution α :=
  ⟨unknown, [unknown], solutions, kind, domain⟩

/-- The value of each unknown of a system; a repeated name keeps its first place and its last
value. -/
def values (s : Solution α) : Except Failure (List (String × Expr α)) :=
  if s.kind = .system then
    pure ((s.unknowns.zip s.solutions).foldl
      (fun out (x, e) =>
        if out.any (·.1 == x) then out.map fun (y, d) => if y == x then (y, e) else (y, d)
        else out ++ [(x, e)])
      [])
  else throw (.request .valuesOfOne)

variable [Scalar α]

def numeric (s : Solution α) : List α := s.solutions.filterMap Expr.closedValue?

def display (s : Solution α) : String :=
  "EquationSolution(" ++ s.kind.name ++ ", " ++ s.unknown ++ " ∈ \x7b" ++
    ", ".intercalate (s.solutions.map Expr.text) ++ "\x7d)"

end Solution

end RuleAlgebra
