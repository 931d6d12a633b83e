import RuleAlgebra.Text.CharClass

/-!
White space: the separators and the control characters that stand for one.
-/

namespace RuleAlgebra.Text

def blanks : CharClass where
  changes := [
    9, 14, 28, 33, 133, 134, 160, 161, 5760, 5761, 8192, 8203, 8232, 8234, 8239, 8240, 8287,
    8288, 12288, 12289]

def isBlank (c : Char) : Bool := blanks.contains c

def stripChars (cs : List Char) : List Char :=
  ((cs.dropWhile isBlank).reverse.dropWhile isBlank).reverse

def strip (s : String) : String := String.ofList (stripChars s.toList)

def stripLeft (s : String) : String := String.ofList (s.toList.dropWhile isBlank)

end RuleAlgebra.Text
