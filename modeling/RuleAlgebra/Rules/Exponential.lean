import RuleAlgebra.Rules.Algebraic

/-!
Rules of powers: equal bases of a product are merged, and an integer power of a power is one power.
-/

namespace RuleAlgebra.Rules

variable {α : Type} [Scalar α]

/-- Bases in order of first appearance, each with its exponents. -/
abbrev Powers (α : Type) := List (Expr α × List (Expr α))

def addPower : Powers α → Expr α × Expr α → Powers α
  | [], (base, exponent) => [(base, [exponent])]
  | (b, es) :: ps, (base, exponent) =>
    if b == base then (b, es ++ [exponent]) :: ps else (b, es) :: addPower ps (base, exponent)

def mergedPower? (p : Expr α × List (Expr α)) : Option (Expr α) :=
  match p.2.mapM Expr.number? with
  | some vs => powerFactor? p.1 (vs.foldl (· + ·) Scalar.zero)
  | none =>
    match p.2 with
    | [] => some p.1
    | e :: es => some (.op .pow p.1 (es.foldl (Expr.op .add) e))

def combinePowers (e : Expr α) : Expr α :=
  match e with
  | .op .mul _ _ =>
    let factors := Term.factors e
    let numbers := factors.filterMap Expr.number?
    let powers : Powers α :=
      ((factors.filter (!·.isNum)).map Term.powerParts).foldl addPower []
    if numbers.length < 2 && powers.all fun p => p.2.length == 1 then e
    else
      let c := numbers.foldl (· * ·) Scalar.one
      if c == Scalar.zero then Expr.ofNat 0
      else withCoefficient c (powers.filterMap mergedPower?)
  | e => e

def powerOfPower (e : Expr α) : Expr α :=
  match e with
  | .op .pow (.op .pow base inner) (.num n) =>
    if Scalar.isInteger n then .op .pow base (.op .mul inner (.num n)) else e
  | e => e

end RuleAlgebra.Rules
