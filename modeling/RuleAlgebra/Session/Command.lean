import RuleAlgebra.Text.LowerCase
import RuleAlgebra.Text.Lines

/-!
The lines of a session. A line is a comment, a command, a header that names a group, a rule, or an
expression; `Line.ofText` decides which. Commands of mathematics take arguments separated by
semicolons, commands of the session take one argument.
-/

namespace RuleAlgebra.Session

open RuleAlgebra.Text

inductive MathCommand where
  | simplify | expand | factor | diff | integrate | solve | system | series | limit | latex
  deriving DecidableEq, Repr

namespace MathCommand

/-- In the order of the help text. -/
def all : List MathCommand :=
  [simplify, expand, factor, diff, integrate, solve, system, series, limit, latex]

def name : MathCommand → String
  | simplify => "simplify" | expand => "expand" | factor => "factor" | diff => "diff"
  | integrate => "integrate" | solve => "solve" | system => "system" | series => "series"
  | limit => "limit" | latex => "latex"

def arguments : MathCommand → String
  | simplify | expand | factor | latex => "EXPR"
  | diff => "EXPR [; VAR [; ORDER]]"
  | integrate => "EXPR [; VAR [; A, B]]"
  | solve => "EQUATION [; VAR]"
  | system => "EQ; EQ; ..."
  | series => "EXPR [; VAR [; CENTER [; ORDER]]]"
  | limit => "EXPR [; VAR [; POINT]]"

def ofName? (name : String) : Option MathCommand := all.find? (·.name == name)

def usage (c : MathCommand) : String := s!"Usage: :{c.name} {c.arguments}"

end MathCommand

inductive SessionCommand where
  | help | quit | trace | load | rules | groups | enable | disable
  deriving DecidableEq, Repr

namespace SessionCommand

def names : List (String × SessionCommand) :=
  [("trace", trace), ("load", load), ("rules", rules), ("groups", groups), ("enable", enable),
    ("disable", disable), ("help", help), ("quit", quit), ("exit", quit), ("q", quit)]

def ofName? (name : String) : Option SessionCommand := (names.find? (·.1 == name)).map (·.2)

end SessionCommand

inductive Command where
  | session (c : SessionCommand) (argument : String)
  | math (c : MathCommand) (argument : String)
  | unnamed
  | unknown (name : String)
  deriving DecidableEq, Repr

namespace Command

/-- Reads what follows the colon: a name in any case, a space, and the argument. -/
def ofText (text : String) : Command :=
  let text := strip text
  let (name, argument) := (cut? " " text).getD (text, "")
  let name := lower name
  let argument := strip argument
  if name.isEmpty then .unnamed
  else
    match SessionCommand.ofName? name, MathCommand.ofName? name with
    | some c, _ => .session c argument
    | none, some c => .math c argument
    | none, none => .unknown name

end Command

inductive Line where
  | comment
  | command (c : Command)
  | group (name : String)
  | rule (text : String)
  | expression (text : String)
  deriving DecidableEq, Repr

def Line.ofText (text : String) : Line :=
  let text := strip text
  let inside := text.toList.drop 1
  if text.isEmpty || text.startsWith "#" then .comment
  else if text.startsWith ":" then .command (.ofText (String.ofList inside))
  else if text.startsWith "[" && text.endsWith "]" then
    .group (strip (String.ofList inside.dropLast))
  else if (cut? "=>" text).isSome then .rule text
  else .expression text

def parts (argument : String) : List String := (splitOn ';' argument).map strip

/-- The part at a place unless it is missing or blank. -/
def part? (ps : List String) (i : Nat) : Option String := ps[i]?.filter (· != "")

def helpLines : List String := [
  "Commands:",
  "  :simplify EXPR                        Simplify (same as a bare expression)",
  "  :expand EXPR                          Simplify to expanded form",
  "  :factor EXPR                          Simplify to factored form",
  "  :diff EXPR [; VAR [; ORDER]]          Differentiate",
  "  :integrate EXPR [; VAR [; A, B]]      Indefinite or definite integral",
  "  :solve EQUATION [; VAR]               Solve one equation",
  "  :system EQ; EQ; ...                   Solve a linear system",
  "  :series EXPR [; VAR [; CENTER [; ORDER]]]  Taylor expansion",
  "  :limit EXPR [; VAR [; POINT]]         Limit (POINT may be inf or -inf)",
  "  :latex EXPR                           LaTeX of the simplified expression",
  "  :trace [on|off]                       Show the rules behind each result",
  "  :load FILE                            Read rules from a file",
  "  :rules                                List the rules",
  "  :groups                               List the rule groups",
  "  :enable GROUP / :disable GROUP        Switch a group on or off",
  "  :help                                 This text",
  "  :quit                                 Leave",
  "",
  "Input lines:",
  "  @name: pattern => skeleton            New rule (?x binds, :x substitutes)",
  "  [group]                               Group for the rules that follow",
  "  # text                                Comment",
  "  anything else                         Expression to simplify",
  ""]

def helpText : String := "\n".intercalate helpLines

end RuleAlgebra.Session
