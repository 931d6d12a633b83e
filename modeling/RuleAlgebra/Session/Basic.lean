import RuleAlgebra.Decimal.Numeral
import RuleAlgebra.Engine
import RuleAlgebra.Session.Command
import RuleAlgebra.Session.Files

/-!
Sessions. A session has an engine, whether it shows the rules behind an answer, whether it still
runs, and the group that typed rules go to. `process` takes it through one line: a line is
answered, refused with a reason, or passed over in silence. Only the commands of the session and
typed rules change it, and only when they succeed.
-/

namespace RuleAlgebra

structure Session (α : Type) where
  engine : Engine α
  tracing : Bool
  running : Bool
  group : String

inductive Reply where
  | silence
  | answer (text : String)
  | refusal (text : String)
  deriving DecidableEq, Repr

def Reply.text? : Reply → Option String
  | silence => none
  | answer text | refusal text => some text

namespace Session

variable {α : Type} [Scalar α]

def defaultGroup : String := "algebraic"

def ofEngine (engine : Engine α) : Session α := ⟨engine, false, true, defaultGroup⟩

def library (s : Session α) : Library α := s.engine.simplifier.library

def withLibrary (s : Session α) (library : Library α) : Session α :=
  { s with engine := { s.engine with simplifier := { s.engine.simplifier with library } } }

def withTrace (s : Session α) (text : String) (t : Trace α) : String :=
  if s.tracing && !t.steps.isEmpty then text ++ "\n" ++ t.ruleChain else text

section Math

def unknownPart (ps : List String) : String := (part? ps 1).getD "x"

/-- An argument as an integer, or as it stands when it is missing. -/
def integerPart (ps : List String) (i : Nat) (missing : Int) : Except Failure Int :=
  match part? ps i with
  | none => pure missing
  | some text =>
    match Numeral.integer? text with
    | some n => pure n
    | none => throw (.request (.integerText text))

def readNumber (text : String) : Except Failure α :=
  match Numeral.number? text with
  | some v => pure v
  | none => throw (.request (.numberText text))

def numberPart (ps : List String) (i : Nat) : Except Failure α :=
  match part? ps i with
  | none => pure Scalar.zero
  | some text => readNumber text

/-- Two bounds separated by a comma, when there is a third argument. -/
def bounds (ps : List String) : Except Failure (Option (α × α)) :=
  match ps[2]? with
  | none => pure none
  | some text => do
    let vs : List α ← (Text.splitOn ',' text).mapM readNumber
    match vs with
    | [a, b] => pure (some (a, b))
    | _ => throw (.request .bounds)

def simplified (s : Session α) (argument : String) (form : Option String) :
    Except Failure String := do
  let a ← (s.engine.simplify (.text argument) none form "real").result
  pure (s.withTrace a.text a.trace)

def latexOf (s : Session α) (argument : String) : Except Failure String := do
  let a ← (s.engine.simplify (.text argument) none none "real").result
  pure a.result.latex

def differentiated (s : Session α) (ps : List String) : Except Failure String := do
  let order ← integerPart ps 2 1
  let a ← (s.engine.differentiate (.text (ps.headD "")) (unknownPart ps) order).result
  pure (s.withTrace a.text a.trace)

/-- The reason why a definite integral has no value follows it in parentheses. -/
def integrated (s : Session α) (ps : List String) : Except Failure String := do
  let between ← bounds ps
  let a ← (s.engine.integrate (.text (ps.headD "")) (unknownPart ps) between).result
  let note := match a.details, a.numeric with
    | .definite _ _ _ _ status, none => s!"  ({status})"
    | _, _ => ""
  pure (s.withTrace (a.text ++ note) a.trace)

def logged {β : Type} (m : Traced α β) : Except Failure (β × Trace α) := do
  let r ← m.result
  pure (r, .ofSteps m.start.2.toList)

def solved (s : Session α) (ps : List String) : Except Failure String := do
  let x := unknownPart ps
  let (solution, trace) ← logged (s.engine.solve (.text (ps.headD "")) x none)
  let found := solution.solutions.map fun v => x ++ " = " ++ v.text
  let text := if found.isEmpty then solution.domain.name else ", ".intercalate found
  pure (s.withTrace (text ++ "  [" ++ solution.kind.name ++ "]") trace)

/-- The system is solved for all variables in it. -/
def systemSolved (s : Session α) (ps : List String) : Except Failure String := do
  let equations : List (Expr α) ← (ps.filter (· != "")).mapM Expr.parse
  let unknowns := (Expr.firsts (equations.flatMap Expr.variableNames)).filter fun x =>
    !constants.contains x
  let (solution, trace) ← logged (s.engine.solveSystem (equations.map .tree) unknowns.mergeSort)
  let values ← solution.values
  let text := ", ".intercalate (values.map fun (x, v) => x ++ " = " ++ v.text)
  pure (s.withTrace text trace)

def expanded (s : Session α) (ps : List String) : Except Failure String := do
  let center ← numberPart ps 2
  let order ← integerPart ps 3 5
  let expansion ← (s.engine.series (.text (ps.headD "")) (unknownPart ps) center order).result
  pure (expansion.polynomial.text ++ "  (radius ~ " ++ expansion.radius.brief ++ ")")

def limitFound (s : Session α) (ps : List String) : Except Failure String := do
  let point ← numberPart ps 2
  let x := unknownPart ps
  let (found, trace) ← logged (s.engine.limit (.text (ps.headD "")) x (.ofScalar point))
  let note := if found.status = .infinite then "  [" ++ found.status.name ++ "]" else ""
  pure (s.withTrace (found.text ++ note) trace)

def mathAnswer (s : Session α) (c : MathCommand) (argument : String) : Except Failure String :=
  match c with
  | .simplify => s.simplified argument none
  | .expand => s.simplified argument (some "expanded")
  | .factor => s.simplified argument (some "factored")
  | .latex => s.latexOf argument
  | .diff => s.differentiated (parts argument)
  | .integrate => s.integrated (parts argument)
  | .solve => s.solved (parts argument)
  | .system => s.systemSolved (parts argument)
  | .series => s.expanded (parts argument)
  | .limit => s.limitFound (parts argument)

end Math

def isEngineFault : Failure → Bool
  | .engine _ => true
  | _ => false

def isRequestFault : Failure → Bool
  | .request _ => true
  | _ => false

def isFileFault : Failure → Bool
  | .file _ => true
  | _ => false

/-- A text as an answer; a failure of the kinds that are reported becomes a refusal that starts with
`heading`, any other one stays. -/
def reply (heading : String) (reported : Failure → Bool) :
    Except Failure String → Except Failure Reply
  | .ok text => pure (.answer text)
  | .error f => if reported f then pure (.refusal (heading ++ ": " ++ f.message)) else throw f

def mathReply (s : Session α) (c : MathCommand) (argument : String) : Except Failure Reply :=
  if argument.isEmpty then pure (.answer c.usage)
  else reply "Error" (fun f => isEngineFault f || isRequestFault f) (s.mathAnswer c argument)

def expressionReply (s : Session α) (text : String) : Except Failure Reply :=
  reply "Error" isEngineFault (s.simplified text none)

abbrev Change (α : Type) := Except Failure Reply × Session α

/-- Replaces the library and answers, or reports the failure and changes nothing. -/
def extendLibrary (s : Session α) (heading : String) (extended : Except Failure (Library α))
    (answer : Library α → String) : Change α :=
  match extended with
  | .ok library => (.ok (.answer (answer library)), s.withLibrary library)
  | .error f =>
    (reply heading (fun f => isFileFault f || isRequestFault f) (.error f), s)

def loadFile (read : String → Except FileFault String) (library : Library α) (path : String) :
    Except Failure (Library α) :=
  match read path with
  | .ok text => library.load text
  | .error fault => throw (.file fault)

def load (read : String → Except FileFault String) (s : Session α) (path : String) : Change α :=
  if path.isEmpty then (.ok (.answer "Usage: :load FILE"), s)
  else
    s.extendLibrary s!"Error loading {path}" (loadFile read s.library path) fun library =>
      s!"Loaded {path} ({library.size} rules)"

def setTrace (s : Session α) (argument : String) : Change α :=
  let switch := Text.lower argument
  let tracing :=
    if ["on", "true", "1"].contains switch then true
    else if ["off", "false", "0"].contains switch then false
    else !s.tracing
  (.ok (.answer (if tracing then "Tracing enabled" else "Tracing disabled")), { s with tracing })

def rulesText (s : Session α) : String :=
  if s.library.rules.isEmpty then "No rules loaded" else "\n".intercalate s.library.listing

def groupsText (s : Session α) : String :=
  let groups := s.library.groups
  if groups.isEmpty then "No groups defined" else "Groups: " ++ ", ".intercalate groups

def switchGroup (s : Session α) (argument usage done : String)
    (change : Library α → String → Library α) : Change α :=
  if argument.isEmpty then (.ok (.answer usage), s)
  else (.ok (.answer (done ++ " group: " ++ argument)), s.withLibrary (change s.library argument))

def command (read : String → Except FileFault String) (s : Session α) (c : SessionCommand)
    (argument : String) : Change α :=
  match c with
  | .help => (.ok (.answer helpText), s)
  | .quit => (.ok .silence, { s with running := false })
  | .trace => s.setTrace argument
  | .load => load read s argument
  | .rules => (.ok (.answer s.rulesText), s)
  | .groups => (.ok (.answer s.groupsText), s)
  | .enable => s.switchGroup argument "Usage: :enable GROUP" "Enabled" Library.enable
  | .disable => s.switchGroup argument "Usage: :disable GROUP" "Disabled" Library.disable

def typedRules (s : Session α) (line : String) : Except Failure (List (Rule α)) :=
  rulesOfText ("[" ++ s.group ++ "]\n" ++ line)

def define (s : Session α) (line : String) : Change α :=
  match s.typedRules line with
  | .ok [] => (.ok (.refusal "Error: failed to parse rule"), s)
  | .ok rules =>
    (.ok (.answer s!"Added {rules.length} rule(s)"), s.withLibrary (s.library.addAll rules))
  | .error f => (reply "Error" isRequestFault (.error f), s)

def unknownCommand (name : String) : String :=
  "Unknown command" ++ (if name.isEmpty then "" else ": " ++ name) ++ ". Type :help for help."

/-- Takes the session through one line. Files are read by `read`. -/
def process (read : String → Except FileFault String) (s : Session α) (line : String) : Change α :=
  match Line.ofText line with
  | .comment => (.ok .silence, s)
  | .command (.session c argument) => command read s c argument
  | .command (.math c argument) => (s.mathReply c argument, s)
  | .command .unnamed => (.ok (.refusal (unknownCommand "")), s)
  | .command (.unknown name) => (.ok (.refusal (unknownCommand name)), s)
  | .group name => (.ok (.answer ("Group: " ++ name)), { s with group := name })
  | .rule text => s.define text
  | .expression text => (s.expressionReply text, s)

end Session

end RuleAlgebra
