import RuleAlgebra.Expr.Printer

/-!
The value of an expression in an environment. It is defined where every part has a finite real
value; the constants `pi` and `e` are known unless the environment gives them another value.
-/

namespace RuleAlgebra

def constantValue? {α : Type} [Scalar α] (name : String) : Option α :=
  if name = "pi" then some Scalar.pi else if name = "e" then some Scalar.e else none

abbrev Environment (α : Type) := String → Option α

namespace Environment

variable {α : Type}

def empty : Environment α := fun _ => none

def update (env : Environment α) (x : String) (v : α) : Environment α :=
  fun y => if y = x then some v else env y

def single (x : String) (v : α) : Environment α := empty.update x v

end Environment

namespace Expr

variable {α : Type} [Scalar α]

def variableValue (env : Environment α) (x : String) : Except ValueFault α :=
  match env x with
  | some v => pure v
  | none =>
    match constantValue? x with
    | some v => pure v
    | none => throw (.unbound x)

def operationValue (o : Arithmetic) (a b : α) : Except ValueFault α :=
  match o.value? a b with
  | some v => pure v
  | none => throw (.operation (Decimal.brief a) o.symbol (Decimal.brief b))

def functionValue (name : String) (f : Elementary) (args : List α) : Except ValueFault α :=
  match f.onList? args with
  | some v => pure v
  | none => throw (.function name (args.map Decimal.brief))

mutual

def evaluate (env : Environment α) : Expr α → Except ValueFault α
  | num v => pure v
  | var x => variableValue env x
  | op o l r => do
    let a ← evaluate env l
    let b ← evaluate env r
    operationValue o a b
  | fn f as =>
    match Elementary.ofName? f with
    | none => throw (.unknownFunction f)
    | some g => do
      let vs ← evaluateArgs env as
      functionValue f g vs
  | eq _ _ => throw .equation
  | wild n k a => throw (.pattern (displayWild n k a))

def evaluateArgs (env : Environment α) : List (Expr α) → Except ValueFault (List α)
  | [] => pure []
  | a :: as => do
    let v ← evaluate env a
    let vs ← evaluateArgs env as
    pure (v :: vs)

end

def value? (t : Expr α) (env : Environment α) : Option α := (t.evaluate env).toOption

/-- The value of an expression without variables other than the constants, if it has one. -/
def closedValue? (t : Expr α) : Option α := t.value? .empty

def at? (t : Expr α) (x : String) (v : α) : Option α := t.value? (.single x v)

end Expr

end RuleAlgebra
