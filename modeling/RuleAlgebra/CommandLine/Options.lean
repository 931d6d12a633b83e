import RuleAlgebra.Text.Digit
import RuleAlgebra.Text.Lines

/-!
The arguments of the command line. Options are given by a letter or by a word, of which a beginning
that fits no other word is enough. Letters may share a dash; a value follows its option, or is
joined to it, to a word with an equals sign. At most one operand, the script, may stand anywhere;
after two dashes all that follows is an operand.
-/

namespace RuleAlgebra.CommandLine

inductive Switch where
  | help | rules | expr | command | trace | quiet | verbose | version
  deriving DecidableEq, Repr

namespace Switch

def letters : List (Char × Switch) :=
  [('h', help), ('r', rules), ('e', expr), ('c', command), ('t', trace), ('q', quiet),
    ('v', verbose)]

def words : List (String × Switch) :=
  [("--help", help), ("--rules", rules), ("--expr", expr), ("--command", command),
    ("--trace", trace), ("--quiet", quiet), ("--verbose", verbose), ("--version", version)]

def takesValue : Switch → Bool
  | rules | expr | command => true
  | _ => false

def ofLetter? (c : Char) : Option Switch := (letters.find? (·.1 == c)).map (·.2)

end Switch

structure Options where
  script : Option String
  rules : List String
  expr : Option String
  command : Option String
  tracing : Bool
  quiet : Bool
  deriving DecidableEq, Repr

inductive Request where
  | run (o : Options)
  | showHelp
  | showVersion
  | misuse (reason : String)
  deriving DecidableEq, Repr

inductive Argument where
  | operand (text : String)
  | letter (s : Switch) (joined : Option String)
  | word (s : Switch) (joined : Option String)
  | ambiguous
  | unknown
  deriving DecidableEq, Repr

namespace Argument

def isNegativeNumber : List Char → Bool
  | '-' :: cs =>
    let whole := cs.takeWhile Text.isDigit
    match cs.dropWhile Text.isDigit with
    | [] => !whole.isEmpty
    | '.' :: fraction => !fraction.isEmpty && fraction.all Text.isDigit
    | _ => false
  | _ => false

/-- An argument without an option's name: an operand if it may be a number or has a space in it. -/
def unnamed (text : String) : Argument :=
  if isNegativeNumber text.toList || text.toList.contains ' ' then .operand text else .unknown

def splitValue (text : String) : String × Option String :=
  match Text.cut? "=" text with
  | some (name, value) => (name, some value)
  | none => (text, none)

def ofWord (text : String) : Argument :=
  let (name, joined) := splitValue text
  match Switch.words.find? (·.1 == name) with
  | some (_, s) => .word s joined
  | none =>
    match Switch.words.filter fun w => name.toList.isPrefixOf w.1.toList with
    | [] => unnamed text
    | [(_, s)] => .word s joined
    | _ => .ambiguous

def ofText (text : String) : Argument :=
  match text.toList with
  | '-' :: '-' :: _ => ofWord text
  | '-' :: c :: rest =>
    match Switch.ofLetter? c with
    | none => unnamed text
    | some s =>
      match rest with
      | [] => .letter s none
      | '=' :: value => .letter s (some (String.ofList value))
      | value => .letter s (some (String.ofList value))
  | _ => .operand text

end Argument

namespace Options

def unset : Options := ⟨none, [], none, none, false, false⟩

def assign (o : Options) (s : Switch) (value : String) : Options :=
  match s with
  | .rules => { o with rules := o.rules ++ [value] }
  | .expr => { o with expr := some value }
  | .command => { o with command := some value }
  | _ => o

/-- The options with one set that takes no value, or what it asks for instead. -/
def turnOn (o : Options) : Switch → Except Request Options
  | .help => throw .showHelp
  | .version => throw .showVersion
  | .trace => pure { o with tracing := true }
  | .quiet => pure { o with quiet := true }
  | _ => pure o

def expectedValue : Request := .misuse "expected one argument"

/-- Letters that share a dash: the options, and the one that still lacks its value. -/
def letters (o : Options) (s : Switch) : List Char → Except Request (Options × Option Switch)
  | [] => if s.takesValue then pure (o, some s) else return (← o.turnOn s, none)
  | c :: cs =>
    if s.takesValue then pure (o.assign s (String.ofList (c :: cs)), none)
    else
      match Switch.ofLetter? c with
      | none => throw (.misuse "ignored explicit argument")
      | some next => do
        let o ← o.turnOn s
        letters o next cs

def named (o : Options) (s : Switch) (joined : Option String) (isWord : Bool) :
    Except Request (Options × Option Switch) :=
  match joined with
  | none => letters o s []
  | some value =>
    if s.takesValue then pure (o.assign s value, none)
    else if isWord || value.isEmpty then throw (.misuse "ignored explicit argument")
    else letters o s value.toList

/-- The options after one more argument; `pending` lacks its value. -/
def step (o : Options) (pending : Option Switch) (a : Argument) :
    Except Request (Options × Option Switch) :=
  match a, pending with
  | .operand text, some s => pure (o.assign s text, none)
  | .operand text, none =>
    if o.script.isSome then throw (.misuse s!"unrecognized arguments: {text}")
    else pure ({ o with script := some text }, none)
  | _, some _ => throw expectedValue
  | .letter s joined, none => o.named s joined false
  | .word s joined, none => o.named s joined true
  | .ambiguous, none => throw (.misuse "ambiguous option")
  | .unknown, none => throw (.misuse "unrecognized arguments")

/-- Reads arguments; after two dashes all of them are operands. -/
def read (o : Options) (pending : Option Switch) : (operandsOnly : Bool) → List String → Request
  | _, [] => if pending.isSome then expectedValue else .run o
  | operandsOnly, text :: rest =>
    if !operandsOnly && text == "--" then read o pending true rest
    else
      match o.step pending (if operandsOnly then .operand text else .ofText text) with
      | .ok (o, pending) => read o pending operandsOnly rest
      | .error request => request

end Options

def Request.ofArguments (arguments : List String) : Request :=
  Options.unset.read none false arguments

end RuleAlgebra.CommandLine
