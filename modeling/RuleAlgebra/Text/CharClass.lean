/-!
Classes of characters, given by the code points at which membership changes.
-/

namespace RuleAlgebra.Text

/-- A set of code points: outside it before the first change, inside it up to the second, and so
on. -/
structure CharClass where
  changes : List Nat

namespace CharClass

def contains (k : CharClass) (c : Char) : Bool :=
  (k.changes.takeWhile (· ≤ c.toNat)).length % 2 = 1

end CharClass

end RuleAlgebra.Text
