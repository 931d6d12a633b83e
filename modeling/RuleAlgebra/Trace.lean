import RuleAlgebra.Expr.Printer

/-!
Steps of a computation, the log that they are appended to, and the ways in which a trace of steps is
shown. A computation that fails keeps the log up to the failure.
-/

namespace RuleAlgebra

/-- One application of a rule: what it made of what, and why. -/
structure Step (α : Type) where
  index : Nat
  operation : String
  before : Expr α
  after : Expr α
  rule : String
  explanation : String

abbrev Log (α : Type) := Array (Step α)

structure Raised (α : Type) where
  failure : Failure
  steps : List (Step α)

/-- A fault of the engine without steps is given those of the log. -/
def Raised.recorded {α : Type} (log : Log α) : Raised α → Raised α
  | ⟨.engine fault, []⟩ => ⟨.engine fault, log.toList⟩
  | raised => raised

/-- A computation that logs its steps and fails with a record of them. -/
def Traced (α β : Type) : Type := ExceptT (Raised α) (StateM (Log α)) β

def Log.add {α : Type} (log : Log α) (operation : String) (before after : Expr α)
    (rule explanation : String) : Log α :=
  log.push ⟨log.size + 1, operation, before, after, rule, explanation⟩

namespace Traced

variable {α β : Type}

instance : Monad (Traced α) := inferInstanceAs (Monad (ExceptT (Raised α) (StateM (Log α))))

instance : LawfulMonad (Traced α) :=
  inferInstanceAs (LawfulMonad (ExceptT (Raised α) (StateM (Log α))))

instance : MonadStateOf (Log α) (Traced α) :=
  inferInstanceAs (MonadStateOf (Log α) (ExceptT (Raised α) (StateM (Log α))))

def outcome (m : Traced α β) : StateM (Log α) (Except (Raised α) β) := ExceptT.run m

def ofOutcome (m : StateM (Log α) (Except (Raised α) β)) : Traced α β := ExceptT.mk m

/-- Goes on after the failures that are handled; others are passed on as they were raised. -/
def recover (m : Traced α β) (handle : Failure → Option (Traced α β)) : Traced α β :=
  ofOutcome do
    match ← m.outcome with
    | .ok b => pure (.ok b)
    | .error raised =>
      match handle raised.failure with
      | some m' => m'.outcome
      | none => pure (.error raised)

/-- What fails here carries the steps so far. -/
instance : MonadExceptOf Failure (Traced α) where
  throw failure := ofOutcome do
    let log ← get
    pure (.error ⟨failure, log.toList⟩)
  tryCatch m handle := m.recover fun failure => some (handle failure)

/-- Passes failures on with the steps so far for those faults of the engine that carry none. -/
def recording (m : Traced α β) : Traced α β :=
  ofOutcome do
    let r ← m.outcome
    let log ← get
    pure (r.mapError (Raised.recorded log))

def step (operation : String) (before after : Expr α) (rule explanation : String) :
    Traced α (Expr α) := do
  modify fun log => Log.add log operation before after rule explanation
  pure after

/-- A computation without steps; its failure carries none. -/
def lift (r : Except Failure β) : Traced α β :=
  ofOutcome (pure (r.mapError fun failure => ⟨failure, []⟩))

def run (m : Traced α β) : StateM (Log α) (Except Failure β) := do
  let r ← m.outcome
  pure (r.mapError (·.failure))

def start (m : Traced α β) : Except Failure β × Log α := m.run.run #[]

def result (m : Traced α β) : Except Failure β := m.start.1

end Traced

structure Trace (α : Type) where
  initial : Option (Expr α)
  final : Option (Expr α)
  steps : List (Step α)

namespace Trace

variable {α : Type}

def ofSteps (steps : List (Step α)) : Trace α :=
  ⟨steps.head?.map (·.before), steps.getLast?.map (·.after), steps⟩

def ofLog (initial final : Expr α) (log : Log α) : Trace α := ⟨some initial, some final, log.toList⟩

def rules (t : Trace α) : List String := t.steps.map (·.rule)

def counts (t : Trace α) : List (String × Nat) :=
  (Expr.firsts t.rules).map fun r => (r, t.rules.count r)

def favourite? (t : Trace α) : Option (String × Nat) :=
  t.counts.foldl
    (fun best c =>
      match best with
      | none => some c
      | some b => if b.2 < c.2 then some c else some b)
    none

def summary (t : Trace α) : String :=
  match t.favourite? with
  | none => "No rewriting performed"
  | some (rule, uses) =>
    s!"{t.steps.length} steps using {t.counts.length} unique rules. Most used: {rule} ({uses}x)"

variable [Scalar α]

def endText : Option (Expr α) → String
  | none => "?"
  | some e => e.text

end Trace

namespace Step

variable {α : Type} [Scalar α]

def display (s : Step α) : String := s.rule ++ ": " ++ s.before.text ++ " → " ++ s.after.text

def line (s : Step α) : String :=
  s!"  {s.index}. [{s.operation}] {s.display}" ++
    (if s.explanation = "" then "" else s!" ({s.explanation})")

end Step

namespace Trace

variable {α : Type} [Scalar α]

def verbose (t : Trace α) : String :=
  "\n".intercalate
    (["Initial: " ++ endText t.initial] ++ t.steps.map Step.line ++ ["Final: " ++ endText t.final])

def compact (t : Trace α) : String :=
  endText t.initial ++ " --[" ++ ", ".intercalate t.rules ++ "]--> " ++ endText t.final

def ruleChain (t : Trace α) : String :=
  let names := " -> ".intercalate t.rules
  if names = "" then "(no rules applied)" else names

def chain (t : Trace α) : String :=
  match t.steps with
  | [] => endText t.initial
  | s :: _ =>
    "\n".intercalate
      (s.before.text :: t.steps.flatMap fun s => [s!"  --({s.rule})-->", s.after.text])

/-- The trace in one of four styles; other names stand for `verbose`. -/
def format (t : Trace α) (style : String) : String :=
  match style with
  | "compact" => t.compact
  | "rules" => t.ruleChain
  | "chain" => t.chain
  | _ => t.verbose

end Trace

end RuleAlgebra
