import RuleAlgebra.Expr.Evaluation

/-!
Conditions on the variables under which an expression has a value: divisors and poles, even roots
and logarithms, inverse functions. Parts without variables are left out.
-/

namespace RuleAlgebra

inductive Condition (α : Type) where
  | nonzero (e : Expr α)
  | positive (e : Expr α)
  | nonnegative (e : Expr α)
  | cosNonzero (e : Expr α)
  | sinNonzero (e : Expr α)
  | atMostOne (e : Expr α)

namespace Condition

variable {α : Type} [Scalar α]

def text : Condition α → String
  | nonzero e => e.text ++ " != 0"
  | positive e => e.text ++ " > 0"
  | nonnegative e => e.text ++ " >= 0"
  | cosNonzero e => s!"cos({e.text}) != 0"
  | sinNonzero e => s!"sin({e.text}) != 0"
  | atMostOne e => s!"abs({e.text}) <= 1"

end Condition

namespace Expr

variable {α : Type} [Scalar α]

/-- Whether a variable other than the constants occurs. -/
def varies (t : Expr α) : Bool := t.variableNames.any fun x => !constants.contains x

def exponentValue? : Expr α → Option α
  | num v => some v
  | op .div (num a) (num b) => if b == Scalar.zero then none else some (a / b)
  | _ => none

def powerCondition? (l r : Expr α) : Option (Condition α) :=
  (exponentValue? r).bind fun v =>
    if !Scalar.isInteger v then
      some (if Scalar.lt v Scalar.zero then .positive l else .nonnegative l)
    else if Scalar.lt v Scalar.zero then some (.nonzero l) else none

def argumentCondition? (f : String) (a : Expr α) : Option (Condition α) :=
  match f with
  | "ln" => some (.positive a)
  | "sqrt" => some (.nonnegative a)
  | "tan" | "sec" => some (.cosNonzero a)
  | "cot" | "csc" => some (.sinNonzero a)
  | "asin" | "acos" => some (.atMostOne a)
  | _ => none

def rootCondition? : Expr α → Option (Condition α)
  | op .div _ r => if r.varies then some (.nonzero r) else none
  | op .pow l r => if l.varies then powerCondition? l r else none
  | fn f [a] => if a.varies then argumentCondition? f a else none
  | _ => none

/-- The conditions of all parts, each text once, in the order of `walk`. -/
def conditions (t : Expr α) : List (Condition α) :=
  t.walk.foldl
    (fun found part =>
      match part.rootCondition? with
      | some c => if found.any (·.text == c.text) then found else found ++ [c]
      | none => found)
    []

end Expr

end RuleAlgebra
