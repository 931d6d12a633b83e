import RuleAlgebra.Expr.Substitution
import RuleAlgebra.Rule.Library
import RuleAlgebra.Trace

/-!
Simplification. A pass applies every active rule of every category, bottom-up, to the whole
expression; passes are repeated until one leaves the expression as it was, or the limit is reached.
For the expanded form the rules that expand follow, for the factored form those that factor are
applied top-down, and then the categories are visited again.
-/

namespace RuleAlgebra

inductive TargetForm where
  | plain | expanded | factored
  deriving DecidableEq, Repr

def TargetForm.ofName? : Option String → Except Failure TargetForm
  | none => pure .plain
  | some "expanded" => pure .expanded
  | some "factored" => pure .factored
  | some name => throw (.request (.targetForm name))

/-- The numbers that the variables stand for; rules tagged `real` do not hold over complex ones. -/
inductive NumberDomain where
  | real | complex
  deriving DecidableEq, Repr

def NumberDomain.ofName? : String → Except Failure NumberDomain
  | "real" => pure .real
  | "complex" => pure .complex
  | name => throw (.request (.domain name))

structure Simplifier (α : Type) where
  library : Library α
  maxSteps : Nat

namespace Simplifier

variable {α : Type}

def defaultMaxSteps : Nat := 50

def create (library : Library α) (maxSteps : Int) : Except Failure (Simplifier α) :=
  if maxSteps < 1 then throw (.request .maxSteps) else pure ⟨library, maxSteps.toNat⟩

def rulesFor (s : Simplifier α) (domain : NumberDomain) (category : String) : List (Rule α) :=
  (s.library.rulesIn category).filter fun r => domain == .real || !r.hasTag "real"

def record [BEq α] (category : String) (r : Rule α) (e d : Expr α) : Traced α (Expr α) :=
  if d == e then pure e else Traced.step category e d r.name r.description

def applyUp [BEq α] (category : String) (e : Expr α) (r : Rule α) : Traced α (Expr α) := do
  let d ← Traced.lift (e.transform r.apply)
  record category r e d

def pass [BEq α] (s : Simplifier α) (domain : NumberDomain) (categories : List String)
    (e : Expr α) : Traced α (Expr α) :=
  categories.foldlM
    (fun e category => (s.rulesFor domain category).foldlM (applyUp category) e) e

/-- Repeats passes, at most `limit` of them, until one changes nothing; whether one did not. -/
def fixpoint [BEq α] (s : Simplifier α) (domain : NumberDomain) (categories : List String) :
    (limit : Nat) → Expr α → Traced α (Expr α × Bool)
  | 0, e => pure (e, false)
  | limit + 1, e => do
    let d ← s.pass domain categories e
    if d == e then pure (e, true) else s.fixpoint domain categories limit d

/-- Applies a function to an expression before its parts, and then to the parts of the result. It
fails when the result is deeper than `depth`. -/
def transformDown (f : Expr α → Except Failure (Expr α)) :
    (depth : Nat) → Expr α → Except Failure (Expr α)
  | 0, _ => throw (.arithmetic .depth)
  | depth + 1, e => do
    match ← f e with
    | .op o l r => do
      let l' ← transformDown f depth l
      let r' ← transformDown f depth r
      pure (.op o l' r')
    | .fn g as => do
      let as' ← as.mapM (transformDown f depth)
      pure (.fn g as')
    | .eq l r => do
      let l' ← transformDown f depth l
      let r' ← transformDown f depth r
      pure (.eq l' r')
    | leaf => pure leaf

def maxDepth : Nat := 10000

def applyDown [BEq α] (e : Expr α) (r : Rule α) : Traced α (Expr α) := do
  let d ← Traced.lift (transformDown r.apply maxDepth e)
  record "factor" r e d

def factorPass [BEq α] (s : Simplifier α) (domain : NumberDomain) (e : Expr α) :
    Traced α (Expr α) :=
  (s.rulesFor domain "factor").foldlM applyDown e

/-- Simplifies to a form, with at most `limit` passes in each loop; whether all loops ended on their
own. -/
def run [BEq α] (s : Simplifier α) (form : TargetForm) (domain : NumberDomain) (limit : Nat)
    (e : Expr α) : Traced α (Expr α × Bool) := do
  let (e, settled) ← s.fixpoint domain categories limit e
  match form with
  | .plain => pure (e, settled)
  | .expanded => do
    let (e, expanded) ← s.fixpoint domain ["expand"] limit e
    let (e, again) ← s.fixpoint domain categories limit e
    pure (e, settled && expanded && again)
  | .factored => do
    let d ← s.factorPass domain e
    if d == e then pure (e, settled)
    else do
      let (e, again) ← s.fixpoint domain categories limit d
      pure (e, settled && again)

def runPlain [BEq α] (s : Simplifier α) (e : Expr α) : Traced α (Expr α × Bool) :=
  s.run .plain .real s.maxSteps e

def runLogged [BEq α] (s : Simplifier α) (e : Expr α) : Traced α (Expr α) := do
  let (d, _) ← s.runPlain e
  pure d

def simplify [BEq α] (s : Simplifier α) (e : Expr α) : Except Failure (Expr α) :=
  (s.runLogged e).result

end Simplifier

end RuleAlgebra
