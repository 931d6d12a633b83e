import RuleAlgebra.Grammar.Parser

/-!
Building expressions from parts that are given by name, with a failure for what is not known.
-/

namespace RuleAlgebra.Expr

variable {α : Type}

def operation (symbol : String) (l r : Expr α) : Except Failure (Expr α) :=
  match Arithmetic.ofSymbol? symbol with
  | some o => pure (op o l r)
  | none => throw (.request (.operator symbol))

/-- A wildcard given by the name of its kind; one that avoids a variable has to name a wildcard. -/
def wildcard (name kind : String) (avoids : Option String) : Except Failure (Expr α) :=
  match WildcardKind.ofName? kind with
  | none => throw (.request (.wildcardKind kind))
  | some .free =>
    if (avoids.getD "").isEmpty then throw (.request .freeWithoutName)
    else pure (wild name .free avoids)
  | some k => pure (wild name k avoids)

/-- No part of an expression can be replaced or removed in place. -/
def refuseChange (e : Expr α) : Failure := .immutable e.kindName

end RuleAlgebra.Expr
