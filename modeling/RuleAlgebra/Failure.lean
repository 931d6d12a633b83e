import RuleAlgebra.Text.Quoted

/-!
What can go wrong, as causes. Each cause has its wording in one `message` function. Faults of the
engine (`EngineFault`) are told apart from requests that make no sense (`RequestFault`), names that
are not there (`LookupFault`), files (`FileFault`) and arithmetic without a result
(`ArithmeticFault`).
-/

namespace RuleAlgebra

/-- Why a text is not an expression. Positions count characters from zero. -/
inductive SyntaxFault where
  | notText (given : String)
  | character (c : Char) (position : Nat)
  | empty
  | noRightSide
  | secondEquals (position : Nat)
  | token (text : String) (position : Nat)
  | tokenFor (expected : String) (text : String) (position : Nat)
  | ending
  | endingFor (expected : String)
  deriving DecidableEq, Repr

namespace SyntaxFault

def message : SyntaxFault → String
  | notText given => s!"Expected a string, got {given}"
  | character c position => s!"Unexpected character '{c}' at position {position}"
  | empty => "Empty expression"
  | noRightSide => "Missing right-hand side of equation"
  | secondEquals position => s!"Unexpected '=' at position {position}; only one '=' is allowed"
  | token text position => s!"Unexpected '{text}' at position {position}"
  | tokenFor expected text position =>
    s!"Unexpected '{text}' at position {position}, expected {expected}"
  | ending => "Unexpected end of input"
  | endingFor expected => s!"Unexpected end of input, expected {expected}"

end SyntaxFault

/-- Why an expression has no real value. Numbers and expressions are given by their text. -/
inductive ValueFault where
  | unbound (variableName : String)
  | unknownFunction (name : String)
  | operation (left symbol right : String)
  | function (name : String) (arguments : List String)
  | equation
  | pattern (shown : String)
  | derivative (order : Nat) (variableName center : String) (cause : ValueFault)
  | parameters (names : List String)
  deriving DecidableEq, Repr

namespace ValueFault

def message : ValueFault → String
  | unbound name => s!"Variable '{name}' has no value"
  | unknownFunction name => s!"Unknown function '{name}'"
  | operation left symbol right => s!"Cannot evaluate {left} {symbol} {right}"
  | function name arguments => name ++ " is undefined at " ++ ", ".intercalate arguments
  | equation => "Cannot evaluate an equation"
  | pattern shown => s!"Cannot evaluate {shown}"
  | derivative order name center cause =>
    s!"Derivative {order} cannot be evaluated at {name} = {center}: " ++ cause.message
  | parameters names => "Limit needs values for " ++ ", ".intercalate names

end ValueFault

inductive Task where
  | differentiation | integration | solving | limits
  deriving DecidableEq, Repr

def Task.name : Task → String
  | differentiation => "differentiation"
  | integration => "integration"
  | solving => "solving"
  | limits => "limits"

inductive SystemFault where
  | shape (equations unknowns : Nat)
  | notLinear (row : Nat) (unknowns : List String) (shown : String)
  | singular (pivot : String) (column : Nat)
  deriving DecidableEq, Repr

namespace SystemFault

def message : SystemFault → String
  | shape equations unknowns =>
    s!"Need one equation per variable, got {equations} equations for {unknowns} variables"
  | notLinear row unknowns shown =>
    s!"Equation {row} is not linear in " ++ ", ".intercalate unknowns ++ ": " ++ shown
  | singular pivot column => s!"Singular system: pivot {pivot} in column {column}"

end SystemFault

inductive Obstacle where
  | symbolicPolynomial (degree : Nat)
  | noClosedForm (degree : Nat)
  | parameters (names : List String)
  | transcendental (variableName : String)
  deriving DecidableEq, Repr

namespace Obstacle

/-- Whether a numerical method would get past it. -/
def needsNumeric : Obstacle → Bool
  | symbolicPolynomial _ | parameters _ => false
  | noClosedForm _ | transcendental _ => true

def message (o : Obstacle) : String :=
  let problem := match o with
    | symbolicPolynomial degree => s!"Polynomial of degree {degree} with symbolic coefficients"
    | noClosedForm degree => s!"Polynomial of degree {degree} has no closed-form roots"
    | parameters names => "Transcendental equation with parameters " ++ ", ".intercalate names
    | transcendental name => s!"Transcendental equation in {name}"
  problem ++ (if o.needsNumeric then " (needs numerical method)" else " (no known method)")

end Obstacle

/-- Faults of the engine: what an entry point reports together with the steps it had taken. -/
inductive EngineFault where
  | parse (faults : List SyntaxFault)
  | unsupported (symbol : String) (task : Task)
  | noUniqueSolution (fault : SystemFault)
  | unsolvable (obstacle : Obstacle)
  | noValue (fault : ValueFault)
  deriving DecidableEq, Repr

namespace EngineFault

def message : EngineFault → String
  | parse faults => "Parse error: " ++ "; ".intercalate (faults.map SyntaxFault.message)
  | unsupported symbol task => s!"Unsupported {task.name} of '{symbol}'"
  | noUniqueSolution fault => fault.message
  | unsolvable obstacle => obstacle.message
  | noValue fault => fault.message

end EngineFault

inductive RequestFault where
  | operator (symbol : String)
  | wildcardKind (kind : String)
  | freeWithoutName
  | maxSteps
  | targetForm (name : String)
  | domain (name : String)
  | derivativeOrder (order : Int)
  | seriesOrder (order : Int)
  | interval (low high : String)
  | valuesOfOne
  | pattern (text : String)
  | ruleLine (number : Nat) (line : String)
  | unboundInRule (number : Nat) (names : List String)
  | bounds
  | integerText (text : String)
  | numberText (text : String)
  | bracket (position : String)
  | notANumber
  deriving DecidableEq, Repr

namespace RequestFault

def message : RequestFault → String
  | operator symbol => "Unknown operator: " ++ Text.quoted symbol
  | wildcardKind kind => "Unknown wildcard kind: " ++ Text.quoted kind
  | freeWithoutName => "free wildcards need the name of the excluded variable"
  | maxSteps => "max_steps must be at least 1"
  | targetForm name => s!"Unknown target form: {name}. Valid options: expanded, factored"
  | domain name => s!"Unknown domain: {name}. Valid options: real, complex"
  | derivativeOrder order => s!"Derivative order must be non-negative, got {order}"
  | seriesOrder order => s!"Series order must be non-negative, got {order}"
  | interval low high => s!"Empty search interval: ({low}, {high})"
  | valuesOfOne => "values() is only defined for systems; use solutions"
  | pattern text => s!"Invalid pattern: {text}"
  | ruleLine number line => s!"Line {number}: cannot parse rule: {line}"
  | unboundInRule number names =>
    s!"Line {number}: skeleton uses unbound " ++ ", ".intercalate (names.map (":" ++ ·))
  | bounds => "Bounds must be given as A, B"
  | integerText text => "invalid literal for int() with base 10: " ++ Text.quoted text
  | numberText text => "could not convert string to float: " ++ Text.quoted text
  | bracket position =>
    s!"The function value at x={position} is NaN; solver cannot continue."
  | notANumber => "cannot convert float NaN to integer"

end RequestFault

inductive LookupFault where
  | unboundWildcard (name : String)
  | noMatch (name : String)
  | binding (name : String)
  | rule (name : String)
  deriving DecidableEq, Repr

namespace LookupFault

def message : LookupFault → String
  | unboundWildcard name => s!"Unbound pattern variable '{name}'"
  | noMatch name => s!"No match, so nothing is bound to '{name}'"
  | binding name => name
  | rule name => s!"No rule named '{name}'"

end LookupFault

inductive FileFault where
  | missing (path : String)
  | notDirectory (path : String)
  | directory (path : String)
  deriving DecidableEq, Repr

namespace FileFault

def message : FileFault → String
  | missing path => "[Errno 2] No such file or directory: " ++ Text.quoted path
  | notDirectory path => "[Errno 20] Not a directory: " ++ Text.quoted path
  | directory path => "[Errno 21] Is a directory: " ++ Text.quoted path

end FileFault

inductive ArithmeticFault where
  | overflow | divisionByZero | depth
  deriving DecidableEq, Repr

inductive Failure where
  | engine (fault : EngineFault)
  | request (fault : RequestFault)
  | lookup (fault : LookupFault)
  | file (fault : FileFault)
  | arithmetic (fault : ArithmeticFault)
  | immutable (kind : String)
  deriving DecidableEq, Repr

namespace Failure

def message : Failure → String
  | engine fault => fault.message
  | request fault => fault.message
  | lookup fault => fault.message
  | file fault => fault.message
  | arithmetic .overflow => "result too large"
  | arithmetic .divisionByZero => "division by zero"
  | arithmetic .depth => "expression too deep"
  | immutable kind => s!"{kind} nodes are immutable"

def overflow : Failure := arithmetic .overflow

def noValue (fault : ValueFault) : Failure := engine (.noValue fault)

end Failure

end RuleAlgebra
