import RuleAlgebra.CommandLine.Run
import RuleAlgebra.Equation.Binary64

/-!
The program. Files and lines are read here; what they mean is decided by `CommandLine.run` and
`Session.process`.
-/

namespace RuleAlgebra

def fileFault (path : String) : IO.Error → FileFault
  | .inappropriateType .. => .directory path
  | _ => .missing path

/-- Reads a file once and for all. -/
def readFile (path : String) : IO (String → Except FileFault String) := do
  let shown := (FileName.ofText path).text
  let content ← (IO.FS.readFile shown).toBaseIO
  pure fun _ =>
    match content with
    | .ok text => .ok text
    | .error e => .error (fileFault shown e)

def filesOf (lines : List String) : List String :=
  lines.filterMap fun line =>
    match Session.Line.ofText line with
    | .command (.session .load path) => some path
    | _ => none

def readFiles (paths : List String) : IO (String → Except FileFault String) := do
  let contents ← paths.mapM fun path => do
    let read ← readFile path
    pure (path, read path)
  pure fun path => ((contents.find? (·.1 == path)).map (·.2)).getD (.error (.missing path))

def printAll (printed : CommandLine.Printed) : IO Unit := do
  for (channel, text) in printed do
    match channel with
    | .out => IO.print text
    | .err => IO.eprint text

def exitStatus : Except Failure Nat → IO UInt32
  | .ok status => pure status.toUInt32
  | .error f => do
    IO.eprintln f.message
    pure 1

partial def converse (s : Session Float) : IO UInt32 := do
  IO.print CommandLine.prompt
  let input ← IO.getStdin
  let line ← input.getLine
  if line.isEmpty then
    IO.println ""
    pure 0
  else
    let read ← readFiles (filesOf [line])
    match s.process read line with
    | (.error f, _) => exitStatus (.error f)
    | (.ok reply, s) =>
      if let some text := CommandLine.printedText? reply then IO.println text
      if s.running then converse s else pure 0

/-- Whether the arguments leave it to the input to say what to do. -/
def readsInput : CommandLine.Request → Bool
  | .run o => (CommandLine.given o.script).isNone && (CommandLine.given o.expr).isNone &&
      (CommandLine.given o.command).isNone
  | _ => false

def filesOfRequest : CommandLine.Request → IO (List String)
  | .run o => do
    let script := (CommandLine.given o.script).toList
    let read ← readFiles script
    let sources := script.filterMap fun path => (read path).toOption
    let lines := sources.flatMap Text.lines ++ o.expr.toList ++
      o.command.toList.map CommandLine.commandLine
    pure (o.rules ++ script ++ filesOf lines)
  | _ => pure []

end RuleAlgebra

open RuleAlgebra in
def main (arguments : List String) : IO UInt32 := do
  let request := CommandLine.Request.ofArguments arguments
  let input ← IO.getStdin
  let interactive ← input.isTty
  let lines ← if readsInput request && !interactive then
      pure (Text.inputLines (← input.readToEnd))
    else pure []
  let named ← filesOfRequest request
  let read ← readFiles (named ++ filesOf lines)
  let methods := Binary64.numericMethods
  if readsInput request && interactive then
    -- the run stops where the conversation starts
    let opening := CommandLine.run read methods true [] arguments
    match request, opening.status with
    | .run o, .ok 0 =>
      let s := o.rules.foldl
        (fun s path => ((Session.loadFile read s.library path).map s.withLibrary).toOption.getD s)
        (CommandLine.start methods o)
      printAll (opening.printed.filter (·.1 == .err))
      for line in CommandLine.banner do IO.println line
      converse s
    | _, status =>
      printAll opening.printed
      exitStatus status
  else
    let r := CommandLine.run read methods interactive lines arguments
    printAll r.printed
    exitStatus r.status
