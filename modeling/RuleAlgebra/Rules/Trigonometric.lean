import RuleAlgebra.Polynomial.Term

/-!
The Pythagorean identity inside a sum.
-/

namespace RuleAlgebra.Rules

variable {α : Type} [Scalar α]

def squareArgument? (name : String) : Option (Expr α) → Option (Expr α)
  | some (.op .pow (.fn f [u]) two) => if f = name ∧ two.isNumber 2 = true then some u else none
  | _ => none

def squareOf (name : String) (u : Expr α) : Expr α := Expr.squared (.fn name [u])

/-- The list without the places `i` and `j`, with `t` where the first of them was. -/
def mergeAt (ts : List (Term α)) (i j : Nat) (t : Term α) : List (Term α) :=
  let others := (ts.zipIdx.filter fun (_, k) => k != i && k != j).map (·.1)
  others.insertIdx (min i j) t

/-- Terms in which `c*sin(u)^2 + c*cos(u)^2` is replaced by `c`. -/
def sumOfSquares? (ts : List (Term α)) : Option (List (Term α)) :=
  ts.zipIdx.findSome? fun (s, i) =>
    (squareArgument? "sin" s.rest).bind fun u =>
      ts.zipIdx.findSome? fun (t, j) =>
        if t.coefficient == s.coefficient && squareArgument? "cos" t.rest == some u then
          some (mergeAt ts i j ⟨s.coefficient, none⟩)
        else none

def otherSquare? (rest : Option (Expr α)) : Option (Expr α) :=
  match squareArgument? "sin" rest with
  | some u => some (squareOf "cos" u)
  | none => (squareArgument? "cos" rest).map (squareOf "sin")

/-- Terms in which `c - c*sin(u)^2` is replaced by `c*cos(u)^2`, and the other way round. -/
def oneMinusSquare? (ts : List (Term α)) : Option (List (Term α)) :=
  ts.zipIdx.findSome? fun (s, k) =>
    if s.rest.isSome then none
    else
      ts.zipIdx.findSome? fun (t, i) =>
        if t.coefficient == s.coefficient.neg then
          (otherSquare? t.rest).map fun square => mergeAt ts i k ⟨s.coefficient, some square⟩
        else none

def pythagoreanIdentity (e : Expr α) : Except Failure (Expr α) :=
  match e with
  | .op o _ _ =>
    if !o.isAdditive then pure e
    else do
      let terms ← Term.terms e
      match (sumOfSquares? terms).or (oneMinusSquare? terms) with
      | some terms => Term.sum terms
      | none => pure e
  | e => pure e

end RuleAlgebra.Rules
