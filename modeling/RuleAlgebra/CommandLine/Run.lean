import RuleAlgebra.CommandLine.Options
import RuleAlgebra.Session.Basic

/-!
Runs of the program: a script, one line, the lines of the input, or a conversation. A run prints to
two channels and ends with a status, or with a failure that no line reports. A line counts as failed
when its text starts like a refusal (`isFailure`).
-/

namespace RuleAlgebra.CommandLine

inductive Channel where
  | out | err
  deriving DecidableEq, Repr

abbrev Printed := List (Channel × String)

structure Run where
  printed : Printed
  status : Except Failure Nat

namespace Run

def done (status : Nat) : Run := ⟨[], .ok status⟩

def print (channel : Channel) (text : String) (r : Run) : Run :=
  { r with printed := (channel, text) :: r.printed }

def printLine (channel : Channel) (text : String) (r : Run) : Run := r.print channel (text ++ "\n")

def textOf (r : Run) (channel : Channel) : String :=
  String.join ((r.printed.filter (·.1 == channel)).map (·.2))

end Run

def version : String := "0.1.0"

def programName : String := "cascade"

def banner : List String :=
  [s!"CASCADE {version} - rule-based computer algebra",
    ":help lists the commands, :quit leaves", ""]

def prompt : String := programName ++ "> "

def usage : String :=
  "usage: " ++ programName ++
    " [-h] [-r FILE] [-e EXPR] [-c COMMAND] [-t] [-q] [-v] [--version] [script]"

def isFailure (text : String) : Bool := text.startsWith "Error" || text.startsWith "Unknown"

def printedText? (r : Reply) : Option String := r.text?.filter (!·.isEmpty)

/-- Scripts print the results of expressions and of commands of mathematics only. -/
def isEchoed (line : String) : Bool :=
  match Session.Line.ofText line with
  | .expression _ => true
  | .command (.math _ _) => (Text.cut? "=>" line).isNone
  | _ => false

variable {α : Type} [Scalar α]

section

variable (read : String → Except FileFault String)

/-- Runs the lines of a script from number `n` on, up to the first that fails. -/
def runLines (quiet : Bool) (shown : String) : (n : Nat) → Session α → List String → Run
  | _, _, [] => .done 0
  | n, s, line :: rest =>
    match s.process read line with
    | (.error f, _) => ⟨[], .error f⟩
    | (.ok reply, s) =>
      match printedText? reply with
      | none => runLines quiet shown (n + 1) s rest
      | some text =>
        if isFailure text then (Run.done 1).printLine .err s!"{shown}:{n}: {text}"
        else
          let others := runLines quiet shown (n + 1) s rest
          if !quiet && isEchoed line then others.printLine .out text else others

def runScript (quiet : Bool) (s : Session α) (path : String) : Run :=
  let shown := (FileName.ofText path).text
  match read path with
  | .ok source => runLines read quiet shown 1 s (Text.lines source)
  | .error fault => (Run.done 1).printLine .err (s!"Error reading {shown}: " ++ fault.message)

def runLine (s : Session α) (line : String) : Run :=
  match (s.process read line).1 with
  | .error f => ⟨[], .error f⟩
  | .ok reply =>
    match printedText? reply with
    | none => .done 0
    | some text => (Run.done (if isFailure text then 1 else 0)).printLine .out text

/-- Runs all lines of the input; the status tells whether one failed. -/
def runInput : (failed : Bool) → Session α → List String → Run
  | failed, _, [] => .done (if failed then 1 else 0)
  | failed, s, line :: rest =>
    match s.process read line with
    | (.error f, _) => ⟨[], .error f⟩
    | (.ok reply, s) =>
      match printedText? reply with
      | none => runInput failed s rest
      | some text => (runInput (failed || isFailure text) s rest).printLine .out text

def converse : Session α → List String → Run
  | _, [] => ((Run.done 0).printLine .out "").print .out prompt
  | s, line :: rest =>
    match s.process read line with
    | (.error f, _) => (Run.mk [] (.error f)).print .out prompt
    | (.ok reply, s) =>
      let others := if s.running then converse s rest else .done 0
      let others := match printedText? reply with
        | none => others
        | some text => others.printLine .out text
      others.print .out prompt

/-- Loads rule files, each of which is announced unless the run is quiet, and goes on. -/
def loadRules (quiet : Bool) (next : Session α → Run) : Session α → List String → Run
  | s, [] => next s
  | s, path :: rest =>
    match Session.loadFile read s.library path with
    | .ok library =>
      let others := loadRules quiet next (s.withLibrary library) rest
      if quiet then others else others.printLine .err s!"Loaded rules from {path}"
    | .error f =>
      if Session.isFileFault f || Session.isRequestFault f then
        (Run.done 1).printLine .err (s!"Error loading {path}: " ++ f.message)
      else ⟨[], .error f⟩

def given (text : Option String) : Option String := text.filter (!·.isEmpty)

/-- The line that a command stands for: one colon before it is enough. -/
def commandLine (command : String) : String :=
  ":" ++ String.ofList (command.toList.dropWhile (· == ':'))

/-- What the options ask for; without a script, an expression or a command it is the input. -/
def runOptions (interactive : Bool) (input : List String) (o : Options) (s : Session α) : Run :=
  match given o.script, given o.expr, given o.command with
  | some path, _, _ => runScript read o.quiet s path
  | none, some text, _ => runLine read s text
  | none, none, some command => runLine read s (commandLine command)
  | none, none, none =>
    if interactive then banner.foldr (Run.printLine .out) (converse read s input)
    else runInput read false s input

def start (methods : NumericMethods α) (o : Options) : Session α :=
  { Session.ofEngine (Engine.standard methods) with tracing := o.tracing }

def run (methods : NumericMethods α) (interactive : Bool) (input arguments : List String) : Run :=
  match Request.ofArguments arguments with
  | .showVersion => (Run.done 0).printLine .out (programName ++ " " ++ version)
  | .showHelp => (Run.done 0).printLine .out usage
  | .misuse reason =>
    ((Run.done 2).printLine .err (programName ++ ": error: " ++ reason)).printLine .err usage
  | .run o =>
    loadRules read o.quiet (runOptions read interactive input o) (start methods o) o.rules

end

end RuleAlgebra.CommandLine
