import RuleAlgebra.Expr.Basic

/-!
Replacing parts of an expression: bottom-up application of a function that may fail, and
substitution of an expression for a variable.
-/

namespace RuleAlgebra.Expr

variable {α : Type}

mutual

/-- Applies `f` to every node, the parts of a node before the node that is rebuilt from them. -/
def transform {ε : Type} (f : Expr α → Except ε (Expr α)) : Expr α → Except ε (Expr α)
  | op o l r => do
    let l' ← transform f l
    let r' ← transform f r
    f (op o l' r')
  | fn g as => do
    let as' ← transformArgs f as
    f (fn g as')
  | eq l r => do
    let l' ← transform f l
    let r' ← transform f r
    f (eq l' r')
  | leaf => f leaf

def transformArgs {ε : Type} (f : Expr α → Except ε (Expr α)) :
    List (Expr α) → Except ε (List (Expr α))
  | [] => pure []
  | a :: as => do
    let a' ← transform f a
    let as' ← transformArgs f as
    pure (a' :: as')

end

mutual

def substitute : (t : Expr α) → (x : String) → (s : Expr α) → Expr α
  | var y, x, s => if y = x then s else var y
  | op o l r, x, s => op o (substitute l x s) (substitute r x s)
  | fn g as, x, s => fn g (substituteArgs as x s)
  | eq l r, x, s => eq (substitute l x s) (substitute r x s)
  | leaf, _, _ => leaf

def substituteArgs : List (Expr α) → (x : String) → (s : Expr α) → List (Expr α)
  | [], _, _ => []
  | a :: as, x, s => substitute a x s :: substituteArgs as x s

end

end RuleAlgebra.Expr
