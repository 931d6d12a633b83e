import RuleAlgebra.Expr.Pattern
import RuleAlgebra.Grammar.Parser

/-!
Rules. A rule maps an expression to an expression and hands back its input, or an equal one, when
it has nothing to do. It looks at the expression it is given and does not walk into its parts.
-/

namespace RuleAlgebra

/-- What is said about a rule. The first tag is the category that the rule is scheduled under. -/
structure RuleInfo where
  name : Option String
  description : Option String
  tags : List String
  deriving DecidableEq, Repr

namespace RuleInfo

def description? (i : RuleInfo) : Option String := i.description.filter (· != "")

def name? (i : RuleInfo) : Option String := i.name.filter (· != "")

def category (i : RuleInfo) : Option String := i.tags.head?

/-- The start of the rule's line: `@name` or `@name "description"`. -/
def header (i : RuleInfo) : String :=
  let name := i.name.getD "None"
  match i.description? with
  | some d => s!"@{name} \"{d}\""
  | none => s!"@{name}"

def display (i : RuleInfo) : String := if i.name?.isSome then i.header else "<anonymous>"

end RuleInfo

structure Rule (α : Type) where
  info : RuleInfo
  apply : Expr α → Except Failure (Expr α)
  /-- Pattern and skeleton, when the rule was written as such. -/
  form : Option (Expr α × Expr α)

/-- The function of a rule that puts the skeleton for whatever the pattern matches. -/
def patternRule {α : Type} [BEq α] (pattern skeleton e : Expr α) : Except Failure (Expr α) :=
  match Expr.match? pattern e with
  | none => pure e
  | some b => skeleton.instantiate b

namespace Skeleton

open RuleAlgebra.Text

/-- The length of the kind after a wildcard's name: a colon, a word, and perhaps parentheses. -/
def kindLength : List Char → Nat
  | ':' :: cs =>
    let word := (cs.takeWhile isWordChar).length
    if word = 0 then 0
    else
      match cs.drop word with
      | '(' :: rest =>
        let inside := (rest.takeWhile (· != ')')).length
        if (rest.drop inside).isEmpty then 1 + word else 1 + word + inside + 2
      | _ => 1 + word
  | _ => 0

def nameLength : List Char → Nat
  | c :: cs => if isNameStart c then 1 + (cs.takeWhile isWordChar).length else 0
  | [] => 0

/-- Writes every wildcard `?name` of a text as `:name`, without its kind. The first `skip`
characters belong to a kind that is left out. -/
def colons : (skip : Nat) → List Char → List Char
  | _, [] => []
  | skip + 1, _ :: cs => colons skip cs
  | 0, c :: cs =>
    let name := if c = '?' then nameLength cs else 0
    if name = 0 then c :: colons 0 cs
    else ':' :: (cs.take name ++ colons (name + kindLength (cs.drop name)) cs)

end Skeleton

variable {α : Type} [Scalar α]

def skeletonText (e : Expr α) : String := String.ofList (Skeleton.colons 0 e.text.toList)

namespace Rule

def ofPattern (info : RuleInfo) (pattern skeleton : Expr α) : Rule α :=
  ⟨info, patternRule pattern skeleton, some (pattern, skeleton)⟩

def name (r : Rule α) : String := r.info.name?.getD "<anonymous>"

def description (r : Rule α) : String := r.info.description?.getD ""

def hasTag (r : Rule α) (tag : String) : Bool := r.info.tags.contains tag

/-- The line that defines the rule, when it has a pattern. -/
def line? (r : Rule α) : Option String :=
  r.form.map fun (pattern, skeleton) =>
    let body := pattern.text ++ " => " ++ skeletonText skeleton
    if r.info.name?.isSome then r.info.header ++ ": " ++ body else body

def display (r : Rule α) : String := "<Rule " ++ r.info.display ++ ">"

def listing (r : Rule α) : String :=
  "[" ++ r.info.category.getD "None" ++ "] " ++ r.line?.getD (r.info.display ++ " <python>")

end Rule

end RuleAlgebra
