import RuleAlgebra.Proofs.ExactCoefficients
import RuleAlgebra.Proofs.LinearEquations
import RuleAlgebra.Proofs.RealSimplification

/-!
Equations that are answered without a solution. The verdict is read off what is left of the
difference of both sides, an expression without the unknown: all numbers solve the equation if it
evaluates to zero, and none do otherwise. Where it evaluates, the verdict is right over the real
numbers. What is left with other variables, or with parts that do not evaluate, may be zero all the
same, and is answered as if it were not.
-/

namespace RuleAlgebra

open RuleAlgebra.Expr
open Interpretation
open scoped RealScalar

namespace Expr

section ExactValues

variable {env : Environment ℝ} {env₀ : Environment Rat}

end ExactValues

end Expr

namespace Solver

open Traced

/-- What is left of an equation without the unknown. -/
def remainder (cs : List (Expr Rat)) : Expr Rat := cs.headD (ofNat 0)

section Answers

end Answers

section Values

variable {s : Simplifier Rat} (hs : s.library = .standard) {equation e : Expr Rat} {x : String}
  {env : Environment ℝ} {u v : ℝ}

def difference : Expr Rat → Expr Rat
  | .eq l r => .op .sub l r
  | e => e

include hs

end Values

-- exact arithmetic is computed, so the operations on fractions have to unfold
attribute [local semireducible] Rat.add Rat.sub Rat.mul Rat.inv

end Solver

end RuleAlgebra
