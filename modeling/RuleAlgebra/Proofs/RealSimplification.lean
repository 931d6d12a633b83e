import RuleAlgebra.Proofs.AnswerVariables
import RuleAlgebra.Proofs.DomainConditions
import RuleAlgebra.Proofs.FunctionRules
import RuleAlgebra.Proofs.SimplifierResults

/-!
Simplification without a target form keeps the values of expressions over the real numbers, wherever
the calls in them are tame. Logarithms are not, since a rule moves exponents out of them; absolute
values and roots are, unless they would be folded to an integer that they are only close to; and
functions of angles are where `pi` has its usual value.
-/

namespace RuleAlgebra

/-- Not close to an integer other than itself. -/
def ClearOfIntegers (w : ℝ) : Prop := ∀ n : Int, |w - n| < (1 / 10 ^ 12 : Rat) → w = n

open RuleAlgebra.Expr
open Interpretation
open scoped RealScalar

def circularNames : List String := ["sin", "cos", "tan", "sec", "csc", "cot"]

/-- A call of a function, with its value, that all rules of simplification deal with correctly. -/
def TameCall (env : Environment ℝ) (f : String) (w : ℝ) : Prop :=
  f ≠ "ln" ∧ (f ∈ circularNames → variableValue env "pi" = .ok Real.pi) ∧
    (f = "abs" ∨ f = "sqrt" → ClearOfIntegers w)

namespace Interpretation

/-- The real numbers, where only tame calls are defined. -/
noncomputable def tameReals (env : Environment ℝ) : Interpretation ℝ :=
  { overReals env with
    CallDefined := fun f us => (overReals env).CallDefined f us ∧
      TameCall env f ((overReals env).call f us) }

end Interpretation

namespace Expr

variable {env : Environment ℝ}

mutual

theorem eval_tameReals : ∀ t : Expr Rat, t.eval (tameReals env) = t.eval (overReals env)
  | num q => rfl
  | var x => rfl
  | op o l r => by
    simp only [eval, eval_tameReals l, eval_tameReals r]
    cases o <;> rfl
  | fn f as => by
    rw [eval_fn, eval_fn, evalArgs_tameReals as]
    rfl
  | eq l r => rfl
  | wild n k a => rfl

theorem evalArgs_tameReals :
    ∀ as : List (Expr Rat), evalArgs (tameReals env) as = evalArgs (overReals env) as
  | [] => rfl
  | a :: as => by rw [evalArgs, evalArgs, eval_tameReals a, evalArgs_tameReals as]

end

/-- Wherever a call in the expression has a value, it is tame. -/
def TameCalls (env : Environment ℝ) (t : Expr Rat) : Prop :=
  ∀ f as w, fn f as ∈ t.walk → HasValue env (fn f as) w → TameCall env f w

theorem TameCalls.of_mem {t p : Expr Rat} (h : TameCalls env t) (hp : p ∈ t.walk) :
    TameCalls env p := fun f as w hmem => h f as w (walk_subset hp hmem)

mutual

theorem defined_of_tameReals : ∀ t : Expr Rat, t.Defined (tameReals env) →
    t.Defined (overReals env)
  | num _, _ => trivial
  | var _, _ => trivial
  | op o l r, h => by
    obtain ⟨⟨hl, hr⟩, ho⟩ := h
    rw [eval_tameReals, eval_tameReals] at ho
    refine ⟨⟨defined_of_tameReals l hl, defined_of_tameReals r hr⟩, ?_⟩
    cases o <;> exact ho
  | fn f as, h => by
    obtain ⟨has, hcall, -⟩ := (defined_fn _ f as).mp h
    rw [evalArgs_tameReals] at hcall
    exact (defined_fn _ f as).mpr ⟨definedArgs_of_tameReals as has, hcall⟩
  | eq _ _, h => h
  | wild _ _ _, h => h

theorem definedArgs_of_tameReals : ∀ as : List (Expr Rat), DefinedArgs (tameReals env) as →
    DefinedArgs (overReals env) as
  | [], _ => trivial
  | a :: as, h => ⟨defined_of_tameReals a h.1, definedArgs_of_tameReals as h.2⟩

end

end Expr

namespace Rules

variable {env : Environment ℝ}

section Identities

end Identities

section Folding

end Folding

end Rules

namespace Simplifier

section Rewriting

variable {K : Type*} [Field K] {I : Interpretation K} {e d : Expr Rat}

end Rewriting

variable {env : Environment ℝ} {s : Simplifier Rat} (hs : s.library = .standard) {e d : Expr Rat}
include hs

end Simplifier

end RuleAlgebra
