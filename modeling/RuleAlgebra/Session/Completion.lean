import RuleAlgebra.Session.Basic

/-!
Completion of the last word of a line: names of commands, the switches of `:trace`, and the groups
of the library.
-/

namespace RuleAlgebra.Session

def commandNames : List String :=
  let names := MathCommand.all.map MathCommand.name ++ SessionCommand.names.map (·.1)
  (names.map (":" ++ ·)).mergeSort

variable {α : Type}

def wordsFor (s : Session α) (word line : String) : List String :=
  let commandsIf (text : String) : List String := if text.startsWith ":" then commandNames else []
  match Text.cut? " " (Text.stripLeft line) with
  | none => commandsIf (Text.stripLeft line)
  | some (head, _) =>
    if head = ":trace" then ["on", "off"]
    else if head = ":enable" ∨ head = ":disable" then s.engine.simplifier.library.groups
    else commandsIf word

def completions (s : Session α) (word line : String) : List String :=
  (s.wordsFor word line).filter fun w => word.toList.isPrefixOf w.toList

end RuleAlgebra.Session
