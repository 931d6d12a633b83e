import RuleAlgebra.Rule.Basic
import RuleAlgebra.Text.Lines

/-!
Rules as text, one on a line: `@name "description": pattern => skeleton`, where the name and the
description may be left out. A line `[category, tag, ...]` tags the rules below it; lines that start
with `#` are comments.
-/

namespace RuleAlgebra

structure RuleLine (α : Type) where
  info : RuleInfo
  pattern : Expr α
  skeleton : Expr α

namespace RuleLine

open RuleAlgebra.Text

/-- A description in quotes at the start of a text, and what follows the quotes. -/
def quotedStart? : List Char → Option (List Char × List Char)
  | '"' :: cs =>
    let inside := cs.takeWhile (· != '"')
    match cs.drop inside.length with
    | '"' :: rest => if inside.isEmpty then none else some (inside, rest)
    | _ => none
  | _ => none

/-- Name, description and body of a text that starts with `@name:` or `@name "description":`. The
body has to be on one line. -/
def header? (cs : List Char) : Option (String × Option String × String) :=
  match cs with
  | '@' :: cs =>
    let isNameChar (c : Char) : Bool := isWordChar c || c == '-'
    let name := cs.takeWhile isNameChar
    let rest := (cs.drop name.length).dropWhile isBlank
    let (description, rest) := match quotedStart? rest with
      | some (d, rest) => (some (String.ofList d), rest.dropWhile isBlank)
      | none => (none, rest)
    match rest with
    | ':' :: body =>
      let body := body.dropWhile isBlank
      if name.isEmpty || body.isEmpty || body.contains '\n' then none
      else some (String.ofList name, description, String.ofList body)
    | _ => none
  | _ => none

variable {α : Type} [Scalar α]

/-- Reads a line. Comments, blank lines and what is no rule give none. -/
def ofText? (line : String) : Option (RuleLine α) :=
  let text := strip line
  if text.isEmpty || text.startsWith "#" then none
  else
    let (info, body) : RuleInfo × String := match header? text.toList with
      | some (name, description, body) => (⟨some name, description, []⟩, body)
      | none => (⟨none, none, []⟩, text)
    match cut? "=>" body with
    | none => none
    | some (lhs, rhs) =>
      match (Expr.ofPattern (strip lhs)).toOption, (Expr.ofPattern (strip rhs)).toOption with
      | some pattern, some skeleton => some ⟨info, pattern, skeleton⟩
      | _, _ => none

end RuleLine

namespace RuleText

open RuleAlgebra.Text

def isHeader (line : String) : Bool := line.startsWith "[" && line.endsWith "]"

def inside (line : String) : String := String.ofList ((line.toList.drop 1).dropLast)

def tags (line : String) : List String :=
  ((splitOn ',' (inside line)).map strip).filter (!·.isEmpty)

variable {α : Type} [Scalar α]

def unbound (pattern skeleton : Expr α) : List String :=
  (skeleton.wildcards.filter fun x => !pattern.wildcards.contains x).mergeSort

/-- The rules of the lines from number `n` on, below a header with the given tags. -/
def rulesFrom : (n : Nat) → (tags : List String) → List String → Except Failure (List (Rule α))
  | _, _, [] => pure []
  | n, current, raw :: rest => do
    let line := strip raw
    if isHeader line then rulesFrom (n + 1) (tags line) rest
    else
      match (RuleLine.ofText? line : Option (RuleLine α)) with
      | none =>
        if (cut? "=>" line).isSome && !line.startsWith "#" then
          throw (.request (.ruleLine n line))
        else rulesFrom (n + 1) current rest
      | some r =>
        let missing := unbound r.pattern r.skeleton
        if missing.isEmpty then do
          let rules ← rulesFrom (n + 1) current rest
          let info := { r.info with tags := Expr.firsts current }
          pure (Rule.ofPattern info r.pattern r.skeleton :: rules)
        else throw (.request (.unboundInRule n missing))

end RuleText

def rulesOfText {α : Type} [Scalar α] (text : String) : Except Failure (List (Rule α)) :=
  RuleText.rulesFrom 1 [] (Text.lines text)

end RuleAlgebra
