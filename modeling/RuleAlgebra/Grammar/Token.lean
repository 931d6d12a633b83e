import RuleAlgebra.Decimal.Numeral
import RuleAlgebra.Failure
import RuleAlgebra.Text.Word

/-!
Tokens of infix text. A text is cut into the lexemes it starts with, one after the other; white
space separates tokens and is dropped. Wildcards are lexemes of patterns only.
-/

namespace RuleAlgebra

inductive Token.Kind where
  | number | name | wildcard | operator | equals | comma | leftParen | rightParen
  deriving DecidableEq, Repr

def Token.Kind.label : Token.Kind → String
  | .number => "NUMBER" | .name => "NAME" | .wildcard => "WILDCARD" | .operator => "OPERATOR"
  | .equals => "EQUALS" | .comma => "COMMA" | .leftParen => "LPAREN" | .rightParen => "RPAREN"

/-- A lexeme with its place in the text; two stars are read as the power sign. -/
structure Token where
  kind : Token.Kind
  text : String
  position : Nat
  deriving DecidableEq, Repr

structure TokenStream where
  tokens : List Token
  ending : Nat
  deriving DecidableEq, Repr

namespace Lexeme

open RuleAlgebra.Text

def nameLength : List Char → Nat
  | c :: cs => if isNameStart c then 1 + (cs.takeWhile isNameChar).length else 0
  | [] => 0

/-- The length of `free(name)`, with blanks allowed inside the parentheses. -/
def freeLength (cs : List Char) : Nat :=
  let head := "free(".toList
  if head.isPrefixOf cs then
    let inner := cs.drop head.length
    let before := (inner.takeWhile isBlank).length
    let name := nameLength (inner.drop before)
    let after := ((inner.drop (before + name)).takeWhile isBlank).length
    match inner.drop (before + name + after) with
    | ')' :: _ => if name = 0 then 0 else head.length + before + name + after + 1
    | _ => 0
  else 0

def kindLength : List Char → Nat
  | ':' :: cs =>
    match ["const", "var", "expr"].find? fun k => k.toList.isPrefixOf cs with
    | some k => 1 + k.length
    | none => let n := freeLength cs; if n = 0 then 0 else 1 + n
  | _ => 0

/-- The length of a wildcard: `?name` with an optional kind, or `:name`. -/
def wildcardLength : List Char → Nat
  | '?' :: cs =>
    let n := nameLength cs
    if n = 0 then 0 else 1 + n + kindLength (cs.drop n)
  | ':' :: cs => let n := nameLength cs; if n = 0 then 0 else 1 + n
  | _ => 0

def sign? : List Char → Option (Token.Kind × Nat)
  | '*' :: '*' :: _ => some (.operator, 2)
  | c :: _ =>
    if c = '+' ∨ c = '-' ∨ c = '*' ∨ c = '/' ∨ c = '^' then some (.operator, 1)
    else if c = '=' then some (.equals, 1)
    else if c = ',' then some (.comma, 1)
    else if c = '(' then some (.leftParen, 1)
    else if c = ')' then some (.rightParen, 1)
    else none
  | [] => none

/-- The kind and length of the lexeme that a text starts with; white space is a lexeme without a
kind. -/
def first? (wild : Bool) (cs : List Char) : Option (Option Token.Kind × Nat) :=
  let number := Numeral.length cs
  let wildcard := if wild then wildcardLength cs else 0
  let name := nameLength cs
  let blank := (cs.takeWhile isBlank).length
  if 0 < number then some (some .number, number)
  else if 0 < wildcard then some (some .wildcard, wildcard)
  else if 0 < name then some (some .name, name)
  else match sign? cs with
    | some (kind, n) => some (some kind, n)
    | none => if 0 < blank then some (none, blank) else none

/-- The tokens of a text from `position` on; the first `skip` characters belong to the lexeme that
has been read. -/
def scan (wild : Bool) : (skip position : Nat) → List Char → Except SyntaxFault TokenStream
  | _, position, [] => pure ⟨[], position⟩
  | skip + 1, position, _ :: cs => scan wild skip (position + 1) cs
  | 0, position, c :: cs =>
    match first? wild (c :: cs) with
    | none => throw (.character c position)
    | some (none, n) => scan wild (n - 1) (position + 1) cs
    | some (some kind, n) => do
      let lexeme := String.ofList ((c :: cs).take n)
      let rest ← scan wild (n - 1) (position + 1) cs
      pure ⟨⟨kind, if lexeme = "**" then "^" else lexeme, position⟩ :: rest.tokens, rest.ending⟩

end Lexeme

namespace TokenStream

def ofText (text : String) (wild : Bool) : Except SyntaxFault TokenStream :=
  Lexeme.scan wild 0 0 text.toList

structure Entry where
  label : String
  text : String
  position : Nat
  deriving DecidableEq, Repr

def Entry.display (e : Entry) : String := s!"Token({e.label}, '{e.text}', {e.position})"

def last (s : TokenStream) : Entry := ⟨"EOF", "", s.ending⟩

def entries (s : TokenStream) : List Entry :=
  s.tokens.map (fun t => ⟨t.kind.label, t.text, t.position⟩) ++ [s.last]

def entryAt (s : TokenStream) (i : Nat) : Entry := s.entries.getD i s.last

end TokenStream

end RuleAlgebra
