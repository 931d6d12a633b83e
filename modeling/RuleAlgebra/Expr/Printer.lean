import RuleAlgebra.Expr.Basic
import RuleAlgebra.Decimal.General

/-!
The text of an expression, in the notation that the parser reads; its LaTeX; and a structural form
for messages.
-/

namespace RuleAlgebra

def Arithmetic.rank : Arithmetic → Nat
  | add | sub => 1
  | mul | div => 2
  | pow => 3

namespace Expr

variable {α : Type} [Scalar α]

/-- How tightly the root binds: a negative number like a product, names and calls tightest. -/
def rank : Expr α → Nat
  | num v => if Scalar.lt v Scalar.zero then 2 else 4
  | op o _ _ => o.rank
  | eq _ _ => 0
  | _ => 4

/-- The operand of a negation, written `-1` times something that is no number. -/
def negated? : Expr α → Option (Expr α)
  | op .mul (num v) r =>
    if v == Scalar.ofInt (-1) then (match r with | num _ => none | _ => some r) else none
  | _ => none

def parens (text : String) : String := "(" ++ text ++ ")"

def parensIf (c : Bool) (text : String) : String := if c then parens text else text

def wildText (name : String) : WildcardKind → Option String → String
  | .anything, _ => "?" ++ name
  | .free, avoids => "?" ++ name ++ ":free(" ++ avoids.getD "None" ++ ")"
  | kind, _ => "?" ++ name ++ ":" ++ kind.name

def negationText (r : Expr α) (text : String) : String :=
  "-" ++ parensIf (r.rank ≤ 2 || text.startsWith "-") text

/-- The text of an operation from the texts of its operands: powers group to the right, all else to
the left, and a right operand that starts with a minus sign is put in parentheses. -/
def operationText (o : Arithmetic) (l r : Expr α) (left right : String) : String :=
  if o = .pow then
    parensIf (l.rank ≤ o.rank) left ++ "^" ++ parensIf (r.rank < o.rank) right
  else
    let left := parensIf (l.rank < o.rank) left
    let right := parensIf (r.rank ≤ o.rank || right.startsWith "-") right
    if o.isAdditive then left ++ " " ++ o.symbol ++ " " ++ right
    else left ++ o.symbol ++ right

mutual

def text : Expr α → String
  | num v => Decimal.text v
  | var x => x
  | wild n k a => wildText n k a
  | fn f as => f ++ parens (", ".intercalate (texts as))
  | eq l r => text l ++ " = " ++ text r
  | op o l r =>
    match negated? (op o l r) with
    | some _ => negationText r (text r)
    | none => operationText o l r (text l) (text r)

def texts : List (Expr α) → List String
  | [] => []
  | a :: as => text a :: texts as

end

def latexParens (text : String) : String := "\\left(" ++ text ++ "\\right)"

def latexParensIf (c : Bool) (text : String) : String := if c then latexParens text else text

def braces (text : String) : String := "\x7b" ++ text ++ "\x7d"

def latexName (f : String) : String :=
  match f with
  | "sin" => "\\sin" | "cos" => "\\cos" | "tan" => "\\tan"
  | "sec" => "\\sec" | "csc" => "\\csc" | "cot" => "\\cot"
  | "asin" => "\\arcsin" | "acos" => "\\arccos" | "atan" => "\\arctan"
  | "sinh" => "\\sinh" | "cosh" => "\\cosh" | "tanh" => "\\tanh"
  | "ln" => "\\ln" | "exp" => "\\exp"
  | f => "\\operatorname" ++ braces f

def latexCall (f : String) (args : List String) : String :=
  match f, args with
  | "sqrt", [u] => "\\sqrt" ++ braces u
  | "integral", [u, x] => "\\int " ++ u ++ " \\, d" ++ x
  | f, args => latexName f ++ latexParens (", ".intercalate args)

def latexOperation (o : Arithmetic) (l r : Expr α) (left right : String) : String :=
  match o with
  | .div => "\\frac" ++ braces left ++ braces right
  | .pow => latexParensIf (l.rank ≤ o.rank) left ++ "^" ++ braces right
  | .mul =>
    latexParensIf (l.rank < o.rank) left ++ " \\cdot " ++ latexParensIf (r.rank ≤ o.rank) right
  | .add =>
    latexParensIf (l.rank < o.rank) left ++ " + " ++ latexParensIf (r.rank < o.rank) right
  | .sub =>
    latexParensIf (l.rank < o.rank) left ++ " - " ++ latexParensIf (r.rank ≤ o.rank) right

mutual

def latex : Expr α → String
  | num v => Decimal.text v
  | var x => if x = "pi" then "\\pi" else x
  | wild n k a => wildText n k a
  | eq l r => latex l ++ " = " ++ latex r
  | fn f as => latexCall f (latexArgs as)
  | op o l r =>
    match negated? (op o l r) with
    | some _ => "-" ++ latexParensIf (r.rank ≤ 2) (latex r)
    | none => latexOperation o l r (latex l) (latex r)

def latexArgs : List (Expr α) → List String
  | [] => []
  | a :: as => latex a :: latexArgs as

end

def displayWild (name : String) (kind : WildcardKind) (avoids : Option String) : String :=
  "Wildcard(" ++ Text.quoted name ++ ", " ++ Text.quoted kind.name ++
    (if kind = .free then ", " ++ (avoids.map Text.quoted).getD "None" else "") ++ ")"

mutual

/-- The structure of an expression, for messages: numbers with six digits, names quoted. -/
def display : Expr α → String
  | num v => "Number(" ++ Decimal.brief v ++ ")"
  | var x => "Variable(" ++ Text.quoted x ++ ")"
  | op o l r => "Operator(" ++ Text.quoted o.symbol ++ ", " ++ display l ++ ", " ++ display r ++ ")"
  | fn f as => "Function(" ++ Text.quoted f ++ ", [" ++ ", ".intercalate (displays as) ++ "])"
  | eq l r => "Equation(" ++ display l ++ ", " ++ display r ++ ")"
  | wild n k a => displayWild n k a

def displays : List (Expr α) → List String
  | [] => []
  | a :: as => display a :: displays as

end

end Expr

end RuleAlgebra
