import RuleAlgebra.Polynomial.Coefficient

/-!
Sums as lists of terms with signs, and products as lists of factors: reading them off an expression
and building the expression again.
-/

namespace RuleAlgebra

/-- A coefficient times an expression, or a constant when there is no expression. -/
structure Term (α : Type) where
  coefficient : Coefficient α
  rest : Option (Expr α)

namespace Term

variable {α : Type} [Scalar α]

def factors : Expr α → List (Expr α)
  | .op .mul l r => factors l ++ factors r
  | e => [e]

def product : List (Expr α) → Expr α
  | [] => Expr.ofNat 1
  | f :: fs => fs.foldl (Expr.op .mul) f

/-- The product of the numeric factors, and the product of the others. -/
def splitNumbers (e : Expr α) : α × Option (Expr α) :=
  match e with
  | .num v => (v, none)
  | e =>
    let fs := factors e
    let numbers := fs.filterMap Expr.number?
    let others := fs.filter (!·.isNum)
    if numbers.isEmpty then (Scalar.one, some e)
    else (numbers.foldl (· * ·) Scalar.one, if others.isEmpty then none else some (product others))

def integerDivisor? : Expr α → Option Int
  | .num v => (Scalar.toInt? v).filter (· != 0)
  | _ => none

/-- One term: quotients by integers and numeric factors make up the coefficient. -/
def ofExpr : Expr α → Except Failure (Term α)
  | .op .div l r =>
    match integerDivisor? r with
    | some n => do
      let t ← ofExpr l
      let c ← t.coefficient.normal.divide n
      pure { t with coefficient := c }
    | none =>
      let (v, rest) := splitNumbers (Expr.op .div l r)
      pure ⟨.ofScalar v, rest⟩
  | e =>
    let (v, rest) := splitNumbers e
    pure ⟨.ofScalar v, rest⟩

def ofSum (sign : Int) : Expr α → Except Failure (List (Term α))
  | .op .add l r => do
    let ls ← ofSum sign l
    let rs ← ofSum sign r
    pure (ls ++ rs)
  | .op .sub l r => do
    let ls ← ofSum sign l
    let rs ← ofSum (-sign) r
    pure (ls ++ rs)
  | e => do
    let t ← ofExpr e
    pure [{ t with coefficient := t.coefficient.scale sign }]

def terms (e : Expr α) : Except Failure (List (Term α)) := ofSum 1 e

def powerParts : Expr α → Expr α × Expr α
  | .op .pow base exponent => (base, exponent)
  | e => (e, Expr.ofNat 1)

def times (v : α) : Option (Expr α) → Expr α
  | none => .num v
  | some rest => if v == Scalar.one then rest else .op .mul (.num v) rest

/-- The expression of a term; a fraction `p/q` as coefficient divides by `q`. -/
def toExpr (t : Term α) : Except Failure (Expr α) :=
  match t.coefficient with
  | .inexact v => pure (times v t.rest)
  | .exact q => do
    let p : α ← Coefficient.round q.num
    if q.den = 1 then pure (times p t.rest)
    else do
      let d ← Coefficient.round q.den
      pure (.op .div (times p t.rest) (.num d))

/-- Adds a term to a sum; a negative one is subtracted. -/
def addTo (sum : Expr α) (t : Term α) : Except Failure (Expr α) :=
  if t.coefficient.isNegative then do
    let e ← toExpr { t with coefficient := t.coefficient.neg }
    pure (.op .sub sum e)
  else do
    let e ← toExpr t
    pure (.op .add sum e)

def sum (ts : List (Term α)) : Except Failure (Expr α) :=
  match ts.filter (!·.coefficient.isZero) with
  | [] => pure (Expr.ofNat 0)
  | t :: ts => do
    let first ← toExpr t
    ts.foldlM addTo first

end Term

end RuleAlgebra
