import RuleAlgebra.Polynomial.Coefficients
import RuleAlgebra.Trace

/-!
Antiderivatives by a table of integration rules, not simplified and without a constant. An
expression that no rule covers becomes the function `integral` of the expression and the variable.
-/

namespace RuleAlgebra.Expr

variable {α : Type} [Scalar α]

/-- The name of the function that stands for an integral that was not found. -/
def integralName : String := "integral"

def tableIntegral? (f : String) (u : Expr α) : Option (Expr α) :=
  match f with
  | "sin" => some (op .mul (ofInt (-1)) (fn "cos" [u]))
  | "cos" => some (fn "sin" [u])
  | "tan" => some (op .mul (ofInt (-1)) (fn "ln" [fn "cos" [u]]))
  | "exp" => some (fn "exp" [u])
  | "ln" => some (op .sub (op .mul u (fn "ln" [u])) u)
  | "sqrt" =>
    some (op .div (op .mul (ofNat 2) (op .pow u (op .div (ofNat 3) (ofNat 2)))) (ofNat 3))
  | "sinh" => some (fn "cosh" [u])
  | "cosh" => some (fn "sinh" [u])
  | _ => none

def overSlope (e slope : Expr α) : Expr α := if slope.isNumber 1 then e else op .div e slope

/-- The reciprocal of a power or of a square root as a power: its base and exponent. -/
def reciprocalPower? (x : String) : Expr α → Option (Expr α × Expr α)
  | fn f [u] => if f = "sqrt" then some (u, op .div (ofInt (-1)) (ofNat 2)) else none
  | op .pow base n =>
    if n.isFreeOf x then
      some (base, match n with
        | num v => num (-v)
        | n => op .mul (ofInt (-1)) n)
    else none
  | _ => none

def logIntegral (before after : Expr α) (rule explanation : String) : Traced α (Expr α) :=
  Traced.step "integrate" before after rule explanation

def giveUp (x : String) (e : Expr α) : Traced α (Expr α) :=
  logIntegral e (fn integralName [e, var x]) "unevaluated"
    "No rule applies; left as an unevaluated integral"

def constantIntegral (x : String) (e : Expr α) : Traced α (Expr α) :=
  logIntegral e (op .mul e (var x)) "constant-rule" s!"Integral of a constant c is c*{x}"

section Linear

variable (simplify : Expr α → Except Failure (Expr α)) (x : String)

def slope? (e : Expr α) : Traced α (Option (Expr α)) := do
  let parts ← Traced.lift (e.linearParts x simplify)
  pure (parts.map (·.1))

/-- The integral of a power with an exponent without the variable, for a linear base. -/
def powerIntegral (a b : Expr α) : Traced α (Expr α) := do
  let e := op .pow a b
  match ← slope? simplify x a with
  | none => giveUp x e
  | some k =>
    if b.isNumber (-1) then
      logIntegral e (overSlope (fn "ln" [a]) k) "reciprocal-rule" "u^-1 -> ln(u)/u'"
    else
      let raised := op .add b (ofNat 1)
      logIntegral e (overSlope (op .div (op .pow a raised) raised) k) "power-rule"
        "x^n -> x^(n+1)/(n+1)"

def secantSquare? (a b : Expr α) : Traced α (Option (Expr α)) :=
  match a with
  | fn "sec" (u :: _) =>
    if b.isNumber 2 then do
      match ← slope? simplify x u with
      | some k => do
        let r ← logIntegral (op .pow a b) (overSlope (fn "tan" [u]) k) "sec-squared-rule"
          "sec(u)^2 -> tan(u)"
        pure (some r)
      | none => pure none
    else pure none
  | _ => pure none

def baseIntegral (a b : Expr α) : Traced α (Expr α) := do
  match ← secantSquare? simplify x a b with
  | some r => pure r
  | none => powerIntegral simplify x a b

/-- The integral of a power whose base does not have the variable. -/
def exponentialIntegral (a b : Expr α) : Traced α (Expr α) := do
  let e := op .pow a b
  match ← slope? simplify x b with
  | some k =>
    logIntegral e (overSlope (op .div e (fn "ln" [a])) k) "exponential-rule" "a^u -> a^u/(ln(a)*u')"
  | none => giveUp x e

def anyPowerIntegral (a b : Expr α) : Traced α (Expr α) :=
  if b.isFreeOf x then baseIntegral simplify x a b
  else if a.isFreeOf x then exponentialIntegral simplify x a b
  else giveUp x (op .pow a b)

/-- The integral of a constant over an expression with the variable. -/
def reciprocalIntegral (a b : Expr α) : Traced α (Expr α) := do
  let e := op .div a b
  match ← slope? simplify x b with
  | some k =>
    logIntegral e (overSlope (op .mul a (fn "ln" [b])) k) "reciprocal-rule" "c/u -> c*ln(u)/u'"
  | none =>
    match reciprocalPower? x b with
    | some (base, n) => do
      let product := op .mul a (op .pow base n)
      let _ ← logIntegral e product "reciprocal-power" "c/u^n -> c*u^(-n)"
      let inner ← anyPowerIntegral simplify x base n
      logIntegral product (op .mul a inner) "constant-factor" "Move the constant factor outside"
    | none => giveUp x e

def functionIntegral (f : String) (as : List (Expr α)) : Traced α (Expr α) := do
  match as with
  | [u] =>
    match tableIntegral? f u with
    | none => giveUp x (fn f as)
    | some outer =>
      match ← slope? simplify x u with
      | none => giveUp x (fn f as)
      | some k =>
        logIntegral (fn f as) (overSlope outer k) (f ++ "-rule")
          s!"Table integral of {f}, divided by the inner slope"
  | _ => giveUp x (fn f as)

/-- Integrates with respect to `x`, logging each rule after those of the parts. The coefficients of
linear arguments are brought to a simple form by `simplify`. -/
def antiderivative : Expr α → Traced α (Expr α)
  | eq _ _ => throw (.engine (.unsupported "=" .integration))
  | var y =>
    if y = x then
      logIntegral (var y) (op .div (op .pow (var y) (ofNat 2)) (ofNat 2)) "power-rule"
        "x^n -> x^(n+1)/(n+1)"
    else constantIntegral x (var y)
  | op o a b =>
    let e := op o a b
    if e.isFreeOf x then constantIntegral x e
    else
      match o with
      | .add | .sub => do
        let a' ← antiderivative a
        let b' ← antiderivative b
        logIntegral e (op o a' b') "sum-rule" "Integrate term by term"
      | .mul =>
        if a.isFreeOf x then do
          let b' ← antiderivative b
          logIntegral e (op .mul a b') "constant-factor" "Move the constant factor outside"
        else if b.isFreeOf x then do
          let a' ← antiderivative a
          logIntegral e (op .mul b a') "constant-factor" "Move the constant factor outside"
        else giveUp x e
      | .div =>
        if b.isFreeOf x then do
          let a' ← antiderivative a
          logIntegral e (op .div a' b) "constant-divisor" "Move the constant divisor outside"
        else if a.isFreeOf x then reciprocalIntegral simplify x a b
        else giveUp x e
      | .pow => anyPowerIntegral simplify x a b
  | fn f as =>
    if anyContains x as then functionIntegral simplify x f as else constantIntegral x (fn f as)
  | e => constantIntegral x e

end Linear

end RuleAlgebra.Expr
