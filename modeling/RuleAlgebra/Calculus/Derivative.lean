import RuleAlgebra.Trace

/-!
The derivative of an expression by the rules of calculus, not simplified. Parts without the variable
have the derivative zero whatever functions occur in them.
-/

namespace RuleAlgebra.Expr

variable {α : Type} [Scalar α]

def sqrtOneMinusSquare (u : Expr α) : Expr α := fn "sqrt" [op .sub (ofNat 1) (squared u)]

/-- The derivative of a function with respect to its argument `u`. -/
def outerDerivative? (f : String) (u : Expr α) : Option (Expr α) :=
  match f with
  | "sin" => some (fn "cos" [u])
  | "cos" => some (negative (fn "sin" [u]))
  | "tan" => some (squared (fn "sec" [u]))
  | "sec" => some (op .mul (fn "sec" [u]) (fn "tan" [u]))
  | "csc" => some (negative (op .mul (fn "csc" [u]) (fn "cot" [u])))
  | "cot" => some (negative (squared (fn "csc" [u])))
  | "asin" => some (op .div (ofNat 1) (sqrtOneMinusSquare u))
  | "acos" => some (op .div (ofInt (-1)) (sqrtOneMinusSquare u))
  | "atan" => some (op .div (ofNat 1) (op .add (ofNat 1) (squared u)))
  | "sinh" => some (fn "cosh" [u])
  | "cosh" => some (fn "sinh" [u])
  | "tanh" => some (op .div (ofNat 1) (squared (fn "cosh" [u])))
  | "ln" => some (op .div (ofNat 1) u)
  | "exp" => some (fn "exp" [u])
  | "sqrt" => some (op .div (ofNat 1) (op .mul (ofNat 2) (fn "sqrt" [u])))
  | "abs" => some (op .div u (fn "abs" [u]))
  | _ => none

def logDerivative (before after : Expr α) (rule explanation : String) : Traced α (Expr α) :=
  Traced.step "differentiate" before after rule explanation

/-- Differentiates with respect to `x`, logging each rule after those of the parts. -/
def derivative (x : String) : Expr α → Traced α (Expr α)
  | num _ => pure (ofNat 0)
  | var y => pure (ofNat (if y = x then 1 else 0))
  | eq l r => do
    let l' ← derivative x l
    let r' ← derivative x r
    pure (eq l' r')
  | wild n k a => throw (.engine (.unsupported (wild n k a : Expr α).kindName .differentiation))
  | op o a b =>
    let e := op o a b
    if !contains x e then
      logDerivative e (ofNat 0) "constant-rule" s!"Free of {x}, derivative is zero"
    else
      match o with
      | .add | .sub => do
        let a' ← derivative x a
        let b' ← derivative x b
        logDerivative e (op o a' b') "sum-rule" "Differentiate term by term"
      | .mul => do
        let a' ← derivative x a
        let b' ← derivative x b
        logDerivative e (op .add (op .mul a' b) (op .mul a b')) "product-rule" "(uv)' = u'v + uv'"
      | .div => do
        let a' ← derivative x a
        let b' ← derivative x b
        logDerivative e (op .div (op .sub (op .mul a' b) (op .mul a b')) (squared b))
          "quotient-rule" "(u/v)' = (u'v - uv')/v^2"
      | .pow =>
        if !contains x b then do
          let a' ← derivative x a
          let power := op .mul b (op .pow a (op .sub b (ofNat 1)))
          logDerivative e (op .mul power a') "power-rule" "(u^n)' = n*u^(n-1)*u'"
        else if !contains x a then do
          let b' ← derivative x b
          logDerivative e (op .mul (op .mul e (fn "ln" [a])) b') "exponential-rule"
            "(a^v)' = a^v*ln(a)*v'"
        else do
          let b' ← derivative x b
          let a' ← derivative x a
          let inner := op .add (op .mul b' (fn "ln" [a])) (op .div (op .mul b a') a)
          logDerivative e (op .mul e inner) "logarithmic-differentiation"
            "(u^v)' = u^v*(v'*ln(u) + v*u'/u)"
  | fn f as =>
    if !anyContains x as then
      logDerivative (fn f as) (ofNat 0) "constant-rule" s!"Free of {x}, derivative is zero"
    else
      match as with
      | [u] =>
        match outerDerivative? f u with
        | none => throw (.engine (.unsupported f .differentiation))
        | some outer => do
          let u' ← derivative x u
          logDerivative (fn f [u]) (op .mul outer u') (f ++ "-chain-rule")
            s!"d/du {f}(u) times du/d{x}"
      | _ => throw (.engine (.unsupported f .differentiation))

def derivativeTimes (x : String) : (order : Nat) → Expr α → Traced α (Expr α)
  | 0, e => pure e
  | order + 1, e => do
    let d ← derivative x e
    derivativeTimes x order d

end RuleAlgebra.Expr
