import RuleAlgebra.Proofs.SimplifierInvariants
import RuleAlgebra.Proofs.StandardRules

/-!
Simplification with rules that keep values keeps values, in every form, domain and number of passes.
-/

namespace RuleAlgebra.Simplifier

open RuleAlgebra.Expr RuleAlgebra.Traced

variable {K : Type*} [Field K] {I : Interpretation K}

section Descent

/-- What a function that keeps values makes of an expression and its parts keeps values too; the
only failure is that of the depth. -/
theorem transformDown_outcome {f : Expr Rat → Except Failure (Expr Rat)} (hf : KeepsValue I f)
    (depth : Nat) (e : Expr Rat) :
    Outcome (Refines I e) (· = .arithmetic .depth) (transformDown f depth e) := by
  induction depth generalizing e with
  | zero => rfl
  | succ depth ih =>
    obtain ⟨d, hd, href⟩ := hf e
    rw [transformDown, hd, ok_bind]
    cases d with
    | num q => exact href
    | var x => exact href
    | wild n k a => exact href
    | op o l r =>
      refine (ih l).bind fun l' hl => (ih r).bind fun r' hr => outcome_pure ?_
      exact href.trans (Refines.op o hl hr)
    | eq l r =>
      refine (ih l).bind fun l' _ => (ih r).bind fun r' _ => outcome_pure ?_
      exact href.trans (Refines.ofEq l r _)
    | fn g as =>
      refine (outcome_mapM ih as).bind fun as' has => outcome_pure ?_
      exact href.trans (Refines.fn g has)

variable {s : Simplifier Rat} (hs : ∀ r ∈ s.library.rules, KeepsValue I r.apply)
include hs

theorem run_ensures (form : TargetForm) (domain : NumberDomain) (limit : Nat) (e : Expr Rat) :
    Ensures (s.run form domain limit e) (fun d => Refines I e d.1)
      (fun f => form = .factored ∧ f = .arithmetic .depth) := by
  refine run_preserves ?_ ?_ limit (Refines.refl e)
  · intro r hr c hc
    obtain ⟨d, hd, href⟩ := (hs r hr).transform c
    rw [hd]
    exact hc.trans href
  · intro hform r hr c hc
    have hdown := transformDown_outcome (hs r hr) maxDepth c
    exact (hdown.mono fun d hd => hc.trans hd).weaken fun f hf => ⟨hform, hf⟩

end Descent

section Standard

theorem rules_keepValue {s : Simplifier Rat} (hs : s.library = .standard) (ρ : String → Rat) :
    ∀ r ∈ s.library.rules, KeepsValue (.rational ρ) r.apply := by
  rw [hs]
  exact Library.standard_keepsValue (Interpretation.rational_powerLaws ρ) fun _ _ => id

theorem run_refines {s : Simplifier Rat} (hs : s.library = .standard) (ρ : String → Rat)
    {form : TargetForm} {domain : NumberDomain} {limit : Nat} {e d : Expr Rat} {settled : Bool}
    (h : (s.run form domain limit e).result = .ok (d, settled)) : Refines (.rational ρ) e d := by
  have hrun := (run_ensures (rules_keepValue hs ρ) form domain limit e).result
  rw [h] at hrun
  exact hrun

/-- Over the fractions no rule of the standard library loses a value, in any form and any number of
passes: the result is defined wherever the expression is, with the same value. -/
theorem run_standard_keeps_value (ρ : String → Rat) (maxSteps limit : Nat) (form : TargetForm)
    (domain : NumberDomain) (t : Expr Rat) (ht : t.Defined (.rational ρ)) :
    match ((⟨.standard, maxSteps⟩ : Simplifier Rat).run form domain limit t).result with
    | .ok (d, _) => d.Defined (.rational ρ) ∧ d.eval (.rational ρ) = t.eval (.rational ρ)
    | .error f => form = .factored ∧ f = .arithmetic .depth := by
  have hrules := Library.standard_keepsValue (Interpretation.rational_powerLaws ρ) fun _ _ => id
  have hrun := (run_ensures (s := ⟨.standard, maxSteps⟩) hrules form domain limit t).result
  generalize Traced.result _ = r at hrun ⊢
  cases r with
  | error f => exact hrun
  | ok d => exact hrun ht

theorem run_standard_keeps_value_of_quotient :
    let x : Expr Rat := .var "x"
    let t : Expr Rat := .op .div (.op .sub (.squared x) (.ofNat 1)) (.op .sub x (.ofNat 1))
    let ρ : String → Rat := fun _ => 3
    t.Defined (.rational ρ) ∧
      match ((⟨.standard, 50⟩ : Simplifier Rat).run .factored .real 50 t).result with
      | .ok (d, _) => d.Defined (.rational ρ) ∧ d.eval (.rational ρ) = t.eval (.rational ρ)
      | .error f => TargetForm.factored = .factored ∧ f = .arithmetic .depth := by
  intro x t ρ
  have ht : t.Defined (.rational ρ) := by
    simp [t, x, ρ, squared, Interpretation.rational]
    norm_num
  exact ⟨ht, run_standard_keeps_value ρ 50 50 .factored .real t ht⟩

end Standard

end RuleAlgebra.Simplifier
