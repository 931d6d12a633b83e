import RuleAlgebra.Expr.Basic

/-!
Rules that multiply out: products and quotients of sums, and small powers of sums.
-/

namespace RuleAlgebra.Rules

variable {α : Type}

def additive? : Expr α → Option (Arithmetic × Expr α × Expr α)
  | .op o l r => if o.isAdditive then some (o, l, r) else none
  | _ => none

def distribute (e : Expr α) : Expr α :=
  match e with
  | .op .mul l r =>
    match additive? r, additive? l with
    | some (o, a, b), _ => .op o (.op .mul l a) (.op .mul l b)
    | none, some (o, a, b) => .op o (.op .mul a r) (.op .mul b r)
    | none, none => e
  | .op .div l r =>
    match additive? l with
    | some (o, a, b) => .op o (.op .div a r) (.op .div b r)
    | none => e
  | e => e

/-- The largest power of a sum that is multiplied out. -/
def maxExpandPower : Nat := 6

/-- An integer power of a sum, from the square on, becomes a product. -/
def expandPower [Scalar α] (e : Expr α) : Expr α :=
  match e with
  | .op .pow base (.num v) =>
    match additive? base, Scalar.toInt? v with
    | some _, some n =>
      if 2 ≤ n ∧ n ≤ maxExpandPower then
        .op .mul base (if n = 2 then base else .op .pow base (Expr.ofInt (n - 1)))
      else e
    | _, _ => e
  | e => e

end RuleAlgebra.Rules
