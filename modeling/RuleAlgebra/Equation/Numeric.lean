import RuleAlgebra.Polynomial.Roots

/-!
Numerical methods that the solver uses and says nothing about: square roots, the complex roots of a
polynomial, and a root in an interval at whose ends a function has opposite signs. What the solver
does with their answers does not depend on how they are found.
-/

namespace RuleAlgebra

structure NumericMethods (α : Type) where
  squareRoot : α → α
  modulus : α → α → α
  /-- Real and imaginary parts of the roots of a polynomial, its coefficients from the highest
  degree on, neither the first nor the last of them zero. -/
  complexRoots : List α → List (α × α)
  /-- A root between two points. The function has no value where it answers with none. -/
  bracketed : (α → Option α) → α → α → Except Failure α

namespace NumericMethods

variable {α : Type} [Scalar α]

/-- How far off the real axis a root may lie, relative to the largest root, to count as real. -/
def imaginaryTolerance : α := Scalar.ofDecimal 1 (-6)

def realParts (m : NumericMethods α) (found : List (α × α)) : List α :=
  let largest := found.foldl (fun s z => Scalar.max s (m.modulus z.1 z.2)) Scalar.one
  let near (z : α × α) : Bool := Scalar.le (Scalar.abs z.2) (imaginaryTolerance * largest)
  ((found.filter near).map (·.1)).mergeSort fun a b => Scalar.le a b

/-- The real roots of a polynomial, ascending; its coefficients start at degree zero. Zeros at
either end are split off, those at the lower end being roots. -/
def realRoots (m : NumericMethods α) (coeffs : List α) : List α :=
  let isZero (v : α) : Bool := v == Scalar.zero
  let lowZeros := (coeffs.takeWhile isZero).length
  let core := ((coeffs.dropWhile isZero).reverse).dropWhile isZero
  if core.isEmpty then []
  else
    let zeros := List.replicate lowZeros (Scalar.zero, Scalar.zero)
    let others := if core.length < 2 then [] else m.complexRoots core
    m.realParts (others ++ zeros)

end NumericMethods

end RuleAlgebra
