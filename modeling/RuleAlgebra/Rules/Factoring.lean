import RuleAlgebra.Polynomial.Coefficients
import RuleAlgebra.Polynomial.Roots
import RuleAlgebra.Rules.Algebraic

/-!
Rules that factor a sum: pulling out what all terms share, and splitting a polynomial over its
rational roots.
-/

namespace RuleAlgebra.Rules

variable {α : Type} [Scalar α]

/-- The greatest common divisor of the integer parts of coefficients that are all integers when
written as scalars; one otherwise. -/
def commonDivisor : (g : Nat) → List (Coefficient α) → Except Failure Nat
  | g, [] => pure (if g ≤ 1 then 1 else g)
  | g, c :: cs => do
    let v ← c.toScalar
    match Scalar.isInteger v, c.toRat? with
    | true, some q => commonDivisor (Nat.gcd g (truncate q).natAbs) cs
    | _, _ => pure 1

def exponentsOf (base : Expr α) (powers : List (Expr α × Expr α)) : List α :=
  powers.filterMap fun (b, e) => if b == base then e.number? else none

/-- The least of an exponent and the greatest exponents of the base in other terms; none when one of
them lacks the base. -/
def lowestExponent? (base : Expr α) : (lowest : α) → List (List (Expr α × Expr α)) → Option α
  | lowest, [] => some lowest
  | lowest, powers :: rest =>
    match exponentsOf base powers with
    | [] => none
    | v :: vs => lowestExponent? base (Scalar.min lowest (vs.foldl Scalar.max v)) rest

/-- Bases that all terms share with positive exponents, each with the lowest exponent. -/
def sharedPowers (perTerm : List (List (Expr α × Expr α))) : List (Expr α × α) :=
  match perTerm with
  | [] => []
  | first :: rest =>
    first.foldl
      (fun shared (base, exponent) =>
        match exponent.number? with
        | some v =>
          if !Scalar.lt Scalar.zero v then shared
          else
            match lowestExponent? base v rest with
            | some lowest =>
              if Scalar.lt Scalar.zero lowest && !shared.any (·.1 == base) then
                shared ++ [(base, lowest)]
              else shared
            | none => shared
        | none => shared)
      []

/-- Lowers the first exponent of the base that is not below `lowest`. -/
def lowerPower (base : Expr α) (lowest : α) :
    List (Expr α × Expr α) → List (Expr α × Expr α)
  | [] => []
  | (b, e) :: ps =>
    match e.number? with
    | some v =>
      if b == base && Scalar.le lowest v then (b, .num (v - lowest)) :: ps
      else (b, e) :: lowerPower base lowest ps
    | none => (b, e) :: lowerPower base lowest ps

def withoutShared (shared : List (Expr α × α)) (rest : Option (Expr α)) : Option (Expr α) :=
  if shared.isEmpty then rest
  else
    let powers := shared.foldl (fun ps (base, lowest) => lowerPower base lowest ps)
      ((factorsOf rest).map Term.powerParts)
    match powers.filterMap factorOf? with
    | [] => none
    | kept => some (Term.product kept)

/-- Pulls the common integer divisor and the lowest common powers out of a sum. -/
def factorCommonTerm (e : Expr α) : Except Failure (Expr α) :=
  match e with
  | .op o _ _ =>
    if !o.isAdditive then pure e
    else do
      let terms ← Term.terms e
      let g ← commonDivisor 0 (terms.map (·.coefficient))
      let shared :=
        if terms.all (·.rest.isSome) then
          sharedPowers (terms.map fun t => (factorsOf t.rest).map Term.powerParts)
        else []
      if g = 1 ∧ shared.isEmpty = true then pure e
      else do
        let reduced ← terms.mapM fun t => do
          let c ← t.coefficient.divide g
          pure (⟨c, withoutShared shared t.rest⟩ : Term α)
        let divisor ← Expr.ofRat? (g : Rat)
        let powers := shared.filterMap fun (base, lowest) => powerFactor? base lowest
        let outside := if g = 1 then powers else divisor :: powers
        let inside ← Term.sum reduced
        pure (.op .mul (Term.product outside) inside)
  | e => pure e

/-- Splits a polynomial in one variable with integer coefficients, of degree two at least, over its
rational roots. -/
def factorRationalRoots (e : Expr α) : Except Failure (Expr α) :=
  match e with
  | .op o _ _ =>
    if !o.isAdditive then pure e
    else
      match e.variableNames with
      | [x] =>
        match e.numericCoefficients x with
        | some coeffs =>
          if coeffs.length < 3 || !coeffs.all Scalar.isInteger then pure e
          else do
            let factored ← Roots.factor coeffs x
            pure (factored.getD e)
        | none => pure e
      | _ => pure e
  | e => pure e

end RuleAlgebra.Rules
