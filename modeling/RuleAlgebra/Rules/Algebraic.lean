import RuleAlgebra.Polynomial.Term

/-!
Rules of algebra: collecting like terms, grouping products, and writing quotients as one fraction
without common factors.
-/

namespace RuleAlgebra.Rules

variable {α : Type} [Scalar α]

def mergeTerm : List (Term α) → Term α → Except Failure (List (Term α))
  | [], t => pure [t]
  | s :: ss, t =>
    if s.rest == t.rest then do
      let c ← s.coefficient.add t.coefficient
      pure (⟨c, t.rest⟩ :: ss)
    else do
      let rest ← mergeTerm ss t
      pure (s :: rest)

def combineLikeTerms (e : Expr α) : Except Failure (Expr α) :=
  match e with
  | .op o _ _ =>
    if !o.isAdditive then pure e
    else do
      let terms ← Term.terms e
      let merged ← terms.foldlM mergeTerm []
      if merged.length = terms.length then pure e else Term.sum merged
  | e => pure e

def selfDivision (e : Expr α) : Expr α :=
  match e with
  | .op .div l r => if l == r && !l.isNumber 0 then Expr.ofNat 1 else e
  | e => e

def associateProducts : Expr α → Expr α
  | .op .mul a (.op .mul b c) => .op .mul (.op .mul a b) c
  | e => e

def multiplyFractions : Expr α → Expr α
  | .op .mul a (.op .div n d) => .op .div (.op .mul a n) d
  | .op .mul (.op .div n d) b => .op .div (.op .mul n b) d
  | e => e

def nestedFractions : Expr α → Expr α
  | .op .div (.op .div a b) c => .op .div a (.op .mul b c)
  | .op .div a (.op .div b c) => .op .div (.op .mul a c) b
  | e => e

def powerFactor? (base : Expr α) (exponent : α) : Option (Expr α) :=
  if exponent == Scalar.zero then none
  else if exponent == Scalar.one then some base
  else some (.op .pow base (.num exponent))

def factorOf? (p : Expr α × Expr α) : Option (Expr α) :=
  match p.2 with
  | .num v => powerFactor? p.1 v
  | exponent => some (.op .pow p.1 exponent)

def withCoefficient (c : α) (factors : List (Expr α)) : Expr α :=
  if c == Scalar.one then Term.product factors else Term.product (.num c :: factors)

/-- Cancels a power `base ^ d` against the first power of the base with a numeric exponent: the
powers after that, and the exponent that is left of `d`. -/
def cancelPower? (base : Expr α) (d : α) :
    List (Expr α × Expr α) → Option (List (Expr α × Expr α) × α)
  | [] => none
  | (b, exponent) :: ps =>
    match exponent.number? with
    | some n =>
      if b == base then
        let common := Scalar.min n d
        some ((b, .num (n - common)) :: ps, d - common)
      else (cancelPower? base d ps).map fun (ps, left) => ((b, exponent) :: ps, left)
    | none => (cancelPower? base d ps).map fun (ps, left) => ((b, exponent) :: ps, left)

/-- Cancels the factors of a denominator against the powers of a numerator: the powers after that,
the factors that are left, and whether anything was cancelled. -/
def cancelFactors (powers : List (Expr α × Expr α)) :
    List (Expr α) → List (Expr α × Expr α) × List (Expr α) × Bool
  | [] => (powers, [], false)
  | f :: fs =>
    let (base, exponent) := Term.powerParts f
    match exponent.number?.bind fun d => cancelPower? base d powers with
    | some (powers, left) =>
      let (powers, kept, _) := cancelFactors powers fs
      (powers, (powerFactor? base left).toList ++ kept, true)
    | none =>
      let (powers, kept, changed) := cancelFactors powers fs
      (powers, f :: kept, changed)

/-- Two integer coefficients without their common divisor, the second one positive; none when
nothing changes. -/
def cancelIntegers? (a b : α) : Option (α × α) :=
  match Scalar.toInt? a, Scalar.toInt? b with
  | some m, some n =>
    let g : Int := if n < 0 then -(Int.gcd m n : Int) else Int.gcd m n
    if g = 1 then none else some (a / Scalar.ofInt g, b / Scalar.ofInt g)
  | _, _ => none

def factorsOf : Option (Expr α) → List (Expr α)
  | none => []
  | some e => Term.factors e

/-- Cancels integer coefficients, and bases that numerator and denominator share with numeric
exponents. -/
def cancelFraction (e : Expr α) : Expr α :=
  match e with
  | .op .div l r =>
    let (a, numerator) := Term.splitNumbers l
    let (b, denominator) := Term.splitNumbers r
    if a == Scalar.zero || b == Scalar.zero then e
    else
      let coefficients := cancelIntegers? a b
      let (a, b) := coefficients.getD (a, b)
      let (powers, kept, changed) :=
        cancelFactors ((factorsOf numerator).map Term.powerParts) (factorsOf denominator)
      if coefficients.isNone && !changed then e
      else
        let numerator := withCoefficient a (powers.filterMap factorOf?)
        let denominator := withCoefficient b kept
        if denominator.isNumber 1 then numerator else .op .div numerator denominator
  | e => e

end RuleAlgebra.Rules
