import RuleAlgebra.Text.Printable

/-!
Text as a quoted literal. The quote is a single one unless the text has a single and no double one;
the quote, the backslash and all that is not printable are escaped.
-/

namespace RuleAlgebra.Text

def hexDigit (n : Nat) : Char := (Nat.toDigits 16 n).headD '0'

def hex (width n : Nat) : List Char :=
  ((List.range width).reverse).map fun i => hexDigit (n / Nat.pow 16 i % 16)

def escapeCode (n : Nat) : List Char :=
  if n < 0x100 then '\\' :: 'x' :: hex 2 n
  else if n < 0x10000 then '\\' :: 'u' :: hex 4 n
  else '\\' :: 'U' :: hex 8 n

def escapeChar (quote c : Char) : List Char :=
  if c = quote ∨ c = '\\' then ['\\', c]
  else if c = '\n' then ['\\', 'n']
  else if c = '\t' then ['\\', 't']
  else if c = '\r' then ['\\', 'r']
  else if isPrintable c then [c]
  else escapeCode c.toNat

def quoteOf (cs : List Char) : Char := if '\'' ∈ cs ∧ '"' ∉ cs then '"' else '\''

def quotedChars (cs : List Char) : List Char :=
  let q := quoteOf cs
  q :: (cs.flatMap (escapeChar q) ++ [q])

def quoted (s : String) : String := String.ofList (quotedChars s.toList)

def quotedList (ss : List String) : String := "[" ++ ", ".intercalate (ss.map quoted) ++ "]"

end RuleAlgebra.Text
