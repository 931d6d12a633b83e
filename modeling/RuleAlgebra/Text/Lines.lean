import RuleAlgebra.Text.Blank

/-!
Lines of a text, and cutting a text at a separator.
-/

namespace RuleAlgebra.Text

def isLineEnd (c : Char) : Bool :=
  c = '\n' || c = '\r' || c.toNat = 0x0b || c.toNat = 0x0c || (0x1c ≤ c.toNat && c.toNat ≤ 0x1e) ||
    c.toNat = 0x85 || c.toNat = 0x2028 || c.toNat = 0x2029

/-- Lines ended by any character of the class `ends`, the ends left out. `line` holds what has been
read of the current line, in reverse; `fresh` says that the line feed of a pair is still to come. -/
def cutLines (ends : Char → Bool) : (line : List Char) → (fresh : Bool) → List Char → List String
  | line, _, [] => if line.isEmpty then [] else [String.ofList line.reverse]
  | line, fresh, c :: cs =>
    if fresh && c == '\n' then cutLines ends line false cs
    else if ends c then String.ofList line.reverse :: cutLines ends [] (c == '\r') cs
    else cutLines ends (c :: line) false cs

def lines (s : String) : List String := cutLines isLineEnd [] false s.toList

def inputLines (s : String) : List String :=
  cutLines (fun c => c == '\n' || c == '\r') [] false s.toList

def cutChars? (sep : List Char) : List Char → Option (List Char × List Char)
  | [] => if sep.isEmpty then some ([], []) else none
  | c :: cs =>
    if sep.isPrefixOf (c :: cs) then some ([], (c :: cs).drop sep.length)
    else (cutChars? sep cs).map fun (a, b) => (c :: a, b)

def cut? (sep s : String) : Option (String × String) :=
  (cutChars? sep.toList s.toList).map fun (a, b) => (String.ofList a, String.ofList b)

def splitChars (sep : Char) : List Char → List (List Char)
  | [] => [[]]
  | c :: cs =>
    match splitChars sep cs with
    | [] => [[c]]
    | part :: rest => if c = sep then [] :: part :: rest else (c :: part) :: rest

def splitOn (sep : Char) (s : String) : List String := (splitChars sep s.toList).map String.ofList

end RuleAlgebra.Text
