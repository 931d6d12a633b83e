import RuleAlgebra.Decimal.General

/-!
Numbers and the two infinities.
-/

namespace RuleAlgebra

inductive Extended (α : Type) where
  | finite (v : α)
  | infinite (negative : Bool)

namespace Extended

variable {α : Type} [Scalar α]

def ofScalar (v : α) : Extended α :=
  if Scalar.isFinite v then finite v else infinite (Scalar.isNegative v)

def isInfinite : Extended α → Bool
  | finite _ => false
  | infinite _ => true

/-- The number as `finiteText` shows it, or `inf` with its sign. -/
def textBy (finiteText : α → String) : Extended α → String
  | finite v => finiteText v
  | infinite negative => if negative then "-inf" else "inf"

def text (v : Extended α) : String := v.textBy Decimal.text

def brief (v : Extended α) : String := v.textBy Decimal.brief

end Extended

end RuleAlgebra
