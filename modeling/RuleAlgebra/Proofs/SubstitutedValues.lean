import RuleAlgebra.Engine
import RuleAlgebra.Proofs.ExactCoefficients

/-!
Substitution and evaluation. The value after a substitution is the value at what is substituted, and
it depends on nothing but the variables that occur.
-/

namespace RuleAlgebra.Expr

variable {α : Type} [Scalar α] {env env' : Environment α} {s : Expr α} {x : String} {v : α}

theorem variableValue_update (y : String) : variableValue (env.update x v) y =
    if y = x then .ok v else variableValue env y := by
  unfold variableValue Environment.update
  split_ifs <;> rfl

mutual

theorem evaluate_substitute (hs : s.evaluate env = .ok v) :
    ∀ t : Expr α, (t.substitute x s).evaluate env = t.evaluate (env.update x v)
  | num _ => rfl
  | var y => by
    rw [substitute, evaluate, variableValue_update]
    split_ifs
    · exact hs
    · rfl
  | op o l r => by
    simp only [substitute, evaluate, evaluate_substitute hs l, evaluate_substitute hs r]
  | fn f as => by simp only [substitute, evaluate, evaluateArgs_substitute hs as]
  | eq _ _ => rfl
  | wild _ _ _ => rfl

theorem evaluateArgs_substitute (hs : s.evaluate env = .ok v) : ∀ as : List (Expr α),
    evaluateArgs env (substituteArgs as x s) = evaluateArgs (env.update x v) as
  | [] => rfl
  | a :: as => by
    simp only [substituteArgs, evaluateArgs, evaluate_substitute hs a,
      evaluateArgs_substitute hs as]

end

theorem evaluate_of_agree {t : Expr α} (h : ∀ y ∈ t.variableNames, env y = env' y) :
    t.evaluate env = t.evaluate env' := by
  apply evaluate_congr
  intro y hy
  unfold variableValue
  rw [h y (mem_variableNames.mpr hy)]

theorem closedValue?_substitute_num (t : Expr α) (x : String) (v : α) :
    (t.substitute x (num v)).closedValue? = t.at? x v :=
  congrArg Except.toOption (evaluate_substitute rfl t)

theorem boundsValue_substitute (t : Expr α) (x : String) (low high : α)
    (h : t.functionNames.contains integralName = false) :
    (Engine.boundsValue t (t.substitute x (num high)) (t.substitute x (num low))).1 =
      (t.at? x high).bind fun b => (t.at? x low).map fun a => b - a := by
  have hvalue (w : α) : (t.substitute x (num w)).evaluate .empty = t.evaluate (.single x w) :=
    evaluate_substitute rfl t
  simp only [Engine.boundsValue, h, Bool.false_eq_true, if_false, hvalue, at?, value?]
  cases t.evaluate (.single x high) with
  | error f => rfl
  | ok b =>
    cases t.evaluate (.single x low) with
    | error f => rfl
    | ok a => rfl

/-- Putting an expression that has a value for a variable, or giving the variable that value, leads
to the same value or to the same fault. Environments that agree on the variables of an expression
give it the same value or the same fault. -/
theorem substitution_gives_value (t : Expr α) :
    (∀ (s : Expr α) (x : String) (env : Environment α) (v : α), s.evaluate env = .ok v →
      (t.substitute x s).evaluate env = t.evaluate (env.update x v)) ∧
    ∀ env env' : Environment α, (∀ y ∈ t.variableNames, env y = env' y) →
      t.evaluate env = t.evaluate env' :=
  ⟨fun _ _ _ _ hs => evaluate_substitute hs t, fun _ _ h => evaluate_of_agree h⟩

/-- The name of the constant can be given another value, and what is put for a variable can mention
it again. -/
theorem substitution_gives_value_of_ownVariable :
    let x : Expr Rat := .var "x"
    let t : Expr Rat := .op .div (.fn "abs" [.op .sub x (.var "pi")]) x
    let s : Expr Rat := .op .mul (.ofInt (-2)) x
    let env : Environment Rat := (Environment.single "x" 2).update "pi" 3
    s.evaluate env = .ok (-4) ∧ (t.substitute "x" s).evaluate env = .ok (-7 / 4) ∧
      t.evaluate (env.update "x" (-4)) = .ok (-7 / 4) ∧
      ∀ w : Rat, t.evaluate (env.update "y" w) = t.evaluate env := by
  intro x t s env
  have hs : s.evaluate env = .ok (-4) := by decide +kernel
  have ht : t.evaluate (env.update "x" (-4)) = .ok (-7 / 4) := by decide +kernel
  obtain ⟨hvalue, hagree⟩ := substitution_gives_value t
  refine ⟨hs, (hvalue s "x" env (-4) hs).trans ht, ht, fun w => hagree _ _ fun y hy => ?_⟩
  have hne : y ≠ "y" := by
    rintro rfl
    exact absurd hy (by decide +kernel)
  exact if_neg hne

end RuleAlgebra.Expr
