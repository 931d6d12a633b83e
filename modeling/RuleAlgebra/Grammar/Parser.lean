import RuleAlgebra.Expr.Printer
import RuleAlgebra.Grammar.Token
import RuleAlgebra.Text.Lines

/-!
The grammar of expressions, from the loosest to the tightest binding:

    equation   := expression ['=' expression]
    expression := term (('+' | '-') term)*
    term       := unary (('*' | '/') unary | unary)*
    unary      := ('-' | '+') unary | power
    power      := primary ['^' unary]
    primary    := NUMBER | WILDCARD | NAME | '(' expression ')'
                | NAME '(' expression (',' expression)* ')'

Juxtaposition multiplies. A name is called when it is longer than one character, is no constant and
a parenthesis follows. Each function reads from the front of the tokens and hands back the rest;
its first argument bounds the depth, and a depth of six for each token is never exceeded.
-/

namespace RuleAlgebra

namespace Grammar

variable {α : Type} [Scalar α]

abbrev Parsed (α : Type) := Expr α × List Token

def negate : Expr α → Expr α
  | .num v => .num (-v)
  | e => Expr.negative e

/-- The wildcard that a lexeme such as `?x`, `?x:const`, `?x:free(y)` or `:x` stands for. -/
def wildcard (lexeme : String) : Expr α :=
  match Text.cut? ":" (String.ofList (lexeme.toList.drop 1)) with
  | none => .wild (String.ofList (lexeme.toList.drop 1)) .anything none
  | some (name, kind) =>
    match WildcardKind.ofName? kind with
    | some kind => .wild name kind none
    | none =>
      let inside := (kind.toList.drop "free(".length).dropLast
      .wild name .free (some (String.ofList (Text.stripChars inside)))

def startsOperand : Token.Kind → Bool
  | .number | .name | .leftParen | .wildcard => true
  | _ => false

def isOperator (t : Token) (symbols : List String) : Bool :=
  t.kind == .operator && symbols.contains t.text

def operation (t : Token) : Arithmetic := (Arithmetic.ofSymbol? t.text).getD .add

/-- Whether a name before a parenthesis is called. -/
def isCallable (name : String) : Bool := 1 < name.length && !constants.contains name

def functionName (name : String) : String := if name = "log" then "ln" else name

def close : List Token → Except SyntaxFault (List Token)
  | [] => throw (.endingFor "')'")
  | t :: ts => if t.kind = .rightParen then pure ts else throw (.tokenFor "')'" t.text t.position)

mutual

def expression : Nat → List Token → Except SyntaxFault (Parsed α)
  | 0, _ => throw .ending
  | n + 1, ts => do
    let (l, ts) ← term n ts
    sumRest n l ts

/-- The terms after the sum `l`. -/
def sumRest : Nat → Expr α → List Token → Except SyntaxFault (Parsed α)
  | 0, _, _ => throw .ending
  | _ + 1, l, [] => pure (l, [])
  | n + 1, l, t :: ts =>
    if isOperator t ["+", "-"] then do
      let (r, ts) ← term n ts
      sumRest n (.op (operation t) l r) ts
    else pure (l, t :: ts)

def term : Nat → List Token → Except SyntaxFault (Parsed α)
  | 0, _ => throw .ending
  | n + 1, ts => do
    let (l, ts) ← unary n ts
    productRest n l ts

def productRest : Nat → Expr α → List Token → Except SyntaxFault (Parsed α)
  | 0, _, _ => throw .ending
  | _ + 1, l, [] => pure (l, [])
  | n + 1, l, t :: ts =>
    if isOperator t ["*", "/"] then do
      let (r, ts) ← unary n ts
      productRest n (.op (operation t) l r) ts
    else if startsOperand t.kind then do
      let (r, ts) ← unary n (t :: ts)
      productRest n (.op .mul l r) ts
    else pure (l, t :: ts)

def unary : Nat → List Token → Except SyntaxFault (Parsed α)
  | 0, _ => throw .ending
  | n + 1, ts =>
    match ts with
    | t :: rest =>
      if isOperator t ["-"] then do
        let (e, ts) ← unary n rest
        pure (negate e, ts)
      else if isOperator t ["+"] then unary n rest
      else power n ts
    | [] => power n ts

def power : Nat → List Token → Except SyntaxFault (Parsed α)
  | 0, _ => throw .ending
  | n + 1, ts => do
    let (base, ts) ← primary n ts
    match ts with
    | t :: rest =>
      if isOperator t ["^"] then do
        let (exponent, ts) ← unary n rest
        pure (.op .pow base exponent, ts)
      else pure (base, ts)
    | [] => pure (base, ts)

def primary : Nat → List Token → Except SyntaxFault (Parsed α)
  | 0, _ => throw .ending
  | _ + 1, [] => throw .ending
  | n + 1, t :: ts =>
    match t.kind with
    | .number => pure (.num (Numeral.value t.text.toList), ts)
    | .wildcard => pure (wildcard t.text, ts)
    | .leftParen => do
      let (e, ts) ← expression n ts
      let ts ← close ts
      pure (e, ts)
    | .name =>
      match ts with
      | p :: rest =>
        if p.kind = .leftParen ∧ isCallable t.text = true then do
          let (a, ts) ← expression n rest
          let (as, ts) ← arguments n ts
          let ts ← close ts
          pure (.fn (functionName t.text) (a :: as), ts)
        else pure (.var t.text, p :: rest)
      | [] => pure (.var t.text, [])
    | _ => throw (.token t.text t.position)

def arguments : Nat → List Token → Except SyntaxFault (List (Expr α) × List Token)
  | 0, _ => throw .ending
  | _ + 1, [] => pure ([], [])
  | n + 1, t :: ts =>
    if t.kind = .comma then do
      let (a, ts) ← expression n ts
      let (as, ts) ← arguments n ts
      pure (a :: as, ts)
    else pure ([], t :: ts)

end

/-- A depth that reading `ts` does not exceed. -/
def depthBound (ts : List Token) : Nat := 6 * ts.length + 7

def finish (e : Expr α) : List Token → Except SyntaxFault (Expr α)
  | [] => pure e
  | t :: _ => throw (.token t.text t.position)

def parse (ts : List Token) : Except SyntaxFault (Expr α) :=
  if ts.isEmpty then throw .empty
  else do
    let (l, rest) ← expression (depthBound ts) ts
    match rest with
    | [] => pure l
    | t :: rest =>
      if t.kind = .equals then
        if rest.isEmpty then throw .noRightSide
        else do
          let (r, rest) ← expression (depthBound rest) rest
          match rest with
          | t :: _ =>
            if t.kind = .equals then throw (.secondEquals t.position)
            else finish (.eq l r) rest
          | [] => finish (.eq l r) rest
      else finish l (t :: rest)

end Grammar

namespace Expr

variable {α : Type} [Scalar α]

def read (wild : Bool) (text : String) : Except SyntaxFault (Expr α) := do
  let stream ← TokenStream.ofText text wild
  Grammar.parse stream.tokens

def ofText (text : String) : Except SyntaxFault (Expr α) := read false text

def ofPattern (text : String) : Except SyntaxFault (Expr α) := read true text

def parse (text : String) : Except Failure (Expr α) :=
  match ofText text with
  | .ok e => pure e
  | .error fault => throw (.engine (.parse [fault]))

def describeReading : Except SyntaxFault (Expr α) → String
  | .ok e => "ParseResult(valid, " ++ e.display ++ ")"
  | .error fault => "ParseResult(invalid, " ++ Text.quotedList [fault.message] ++ ")"

end Expr

end RuleAlgebra
