import RuleAlgebra.Expr.Basic

/-!
Coefficients of terms: exact fractions as long as all that enters them is an integer or a quotient
by one, scalars otherwise. A fraction that meets a scalar becomes one, which fails when it lies
beyond the range of scalars.
-/

namespace RuleAlgebra

inductive Coefficient (α : Type) where
  | exact (q : Rat)
  | inexact (v : α)

namespace Coefficient

variable {α : Type} [Scalar α]

/-- An integral scalar as a fraction, so that sums of integers stay exact. -/
def ofScalar (v : α) : Coefficient α :=
  match Scalar.toInt? v with
  | some n => exact n
  | none => inexact v

/-- A coefficient whose scalar, if it is one, is no integer. -/
def normal : Coefficient α → Coefficient α
  | exact q => exact q
  | inexact v => ofScalar v

def round (q : Rat) : Except Failure α :=
  match Scalar.ofRat? q with
  | some v => pure v
  | none => throw .overflow

def toScalar : Coefficient α → Except Failure α
  | exact q => round q
  | inexact v => pure v

def neg : Coefficient α → Coefficient α
  | exact q => exact (-q)
  | inexact v => inexact (-v)

def scale (n : Int) : Coefficient α → Coefficient α
  | exact q => exact (n * q)
  | inexact v => inexact (Scalar.ofInt n * v)

def add : Coefficient α → Coefficient α → Except Failure (Coefficient α)
  | exact p, exact q => pure (exact (p + q))
  | a, b => do
    let u ← a.toScalar
    let v ← b.toScalar
    pure (inexact (u + v))

def divide (c : Coefficient α) (n : Int) : Except Failure (Coefficient α) :=
  match c with
  | exact q => pure (exact (q / n))
  | inexact v => do
    let d : α ← round n
    pure (inexact (v / d))

def toRat? : Coefficient α → Option Rat
  | exact q => some q
  | inexact v => Scalar.toRat? v

/-- Whether two coefficients are equal; a fraction is compared with a scalar exactly. -/
def same : Coefficient α → Coefficient α → Bool
  | exact p, exact q => p = q
  | inexact u, inexact v => u == v
  | exact p, inexact v => Scalar.toRat? v = some p
  | inexact u, exact q => Scalar.toRat? u = some q

instance : BEq (Coefficient α) := ⟨same⟩

def isZero : Coefficient α → Bool
  | exact q => q = 0
  | inexact v => v == Scalar.zero

def isOne : Coefficient α → Bool
  | exact q => q = 1
  | inexact v => v == Scalar.one

def isNegative : Coefficient α → Bool
  | exact q => q < 0
  | inexact v => Scalar.lt v Scalar.zero

def text (shown : α → String) : Coefficient α → String
  | exact q => toString q.num ++ "/" ++ toString q.den
  | inexact v => shown v

end Coefficient

end RuleAlgebra
