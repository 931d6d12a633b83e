import RuleAlgebra.Proofs.BestFractions
import RuleAlgebra.Proofs.ExactCoefficients
import RuleAlgebra.Proofs.LinearEquations
import RuleAlgebra.Proofs.Variables

/-!
The coefficients of Taylor expansions. Each term comes from the derivative of its degree, the
derivatives simplified one after the other, and where this evaluates at the center, the coefficient
is its value over the factorial, or a small fraction that lies within the tolerance of it. The
tolerance is absolute for values below one, so coefficients of no more than `10 ^ (-12)` are lost.
-/

namespace RuleAlgebra

open Traced
open RuleAlgebra.Expr

section Logs

variable {α : Type} [Scalar α]

end Logs

section Evaluation

namespace Expr

variable {α : Type} [Scalar α] {env : Environment α}

mutual

theorem within_of_evaluate : ∀ {e : Expr α} {v : α}, e.evaluate env = .ok v →
    e.Within {y | ∃ u, variableValue env y = .ok u}
  | num v, _, _ => within_num v
  | var x, v, h => (within_var x).mpr ⟨v, h⟩
  | op o l r, v, h => by
    obtain ⟨a, ha, b, hb, -⟩ := evaluate_op_eq_ok.mp h
    exact (within_op o l r).mpr ⟨within_of_evaluate ha, within_of_evaluate hb⟩
  | fn f as, v, h => by
    rw [evaluate] at h
    split at h
    · cases h
    · obtain ⟨vs, hvs, -⟩ := bind_eq_ok.mp h
      exact (within_fn f as).mpr (within_of_evaluateArgs hvs)
  | eq _ _, _, h => by cases h
  | wild _ _ _, _, h => by cases h

theorem within_of_evaluateArgs : ∀ {as : List (Expr α)} {vs : List α},
    evaluateArgs env as = .ok vs → ∀ a ∈ as, a.Within {y | ∃ u, variableValue env y = .ok u}
  | [], _, _ => by simp
  | a :: as, vs, h => by
    obtain ⟨v, hv, h⟩ := bind_eq_ok.mp h
    obtain ⟨ws, hws, -⟩ := bind_eq_ok.mp h
    exact List.forall_mem_cons.mpr ⟨within_of_evaluate hv, within_of_evaluateArgs hws⟩

end

end Expr

end Evaluation

namespace Series

section Fractions

/-- What is written for the number `q`: zero up to the tolerance, and a number of the same sign
above it. -/
structure WrittenFor (q w : Rat) : Prop where
  lost : |q| ≤ 1 / 10 ^ 12 → w = 0
  kept : 1 / 10 ^ 12 < |q| → 0 < w * q
  near : |w - q| ≤ 1 / 10 ^ 12 * max 1 |q|

def IsFraction (c : Expr Rat) (w : Rat) : Prop :=
  c = num w ∨ c = .op .div (num (w.num : Rat)) (num (w.den : Rat))

variable {c : Expr Rat} {q w : Rat}

theorem WrittenFor.refl (h : q = 0 ∨ 1 / 10 ^ 12 < |q|) : WrittenFor q q where
  lost hle := h.resolve_right hle.not_gt
  kept hlt := mul_self_pos.mpr (abs_pos.mp (lt_trans (by norm_num) hlt))
  near := by
    rw [sub_self, abs_zero]
    positivity

theorem IsFraction.closedValue? (h : IsFraction c w) : c.closedValue? = some w := by
  rw [closedValue?_eq_some]
  rcases h with rfl | rfl
  · rfl
  · refine evaluate_op_eq_ok.mpr ⟨w.num, rfl, w.den, rfl, ?_⟩
    simp [Arithmetic.value?, Rat.num_div_den]

theorem IsFraction.eval (h : IsFraction c w) (ρ : String → Rat) :
    c.Defined (.rational ρ) ∧ c.eval (.rational ρ) = w := by
  rcases h with rfl | rfl
  · exact ⟨trivial, by simp⟩
  · simp [Rat.num_div_den]

end Fractions

section Terms

variable {α : Type} [Scalar α] (s : Simplifier α) (x : String) (center : α)

/-- The derivative of a degree, simplified like all before it. -/
def simplifiedDerivative : (n : Nat) → Expr α → Except Failure (Expr α)
  | 0, e => s.simplify e
  | n + 1, e => do
    let d ← s.simplify e
    let derived ← (d.derivative x).result
    simplifiedDerivative n derived

/-- A term of the expansion of `e` with its degree and coefficient, and the derivative at the center
that the coefficient comes from. -/
structure IsTerm (e : Expr α) (n : Nat) (atCenter c t : Expr α) : Prop where
  derivative : ∃ nth, simplifiedDerivative s x n e = .ok nth ∧
    s.simplify (nth.substitute x (.num center)) = .ok atCenter ∧
    (coefficient s x center nth n).result = .ok c
  term : term s x center c n = .ok t

variable {s x center}

end Terms

section Values

variable {s : Simplifier Rat} {x : String} {center : Rat} {e a c t : Expr Rat} {n : Nat}

theorem shiftedPower_eval (x : String) (center : Rat) (hn : n ≠ 0) (ρ : String → Rat) :
    (shiftedPower x center n).Defined (.rational ρ) ∧
      (shiftedPower x center n).eval (.rational ρ) = (ρ x - center) ^ n := by
  have hshifted : ∃ d : Expr Rat, d.Defined (.rational ρ) ∧ d.eval (.rational ρ) = ρ x - center ∧
      shiftedPower x center n = if n = 1 then d else .op .pow d (.ofNat n) := by
    by_cases hzero : center = 0
    · refine ⟨.var x, trivial, ?_, ?_⟩
      · simp [hzero, Interpretation.rational]
      · simp [shiftedPower, hzero]
    · refine ⟨.op .sub (.var x) (.num center), ?_, ?_, ?_⟩
      · simp
      · simp [Interpretation.rational]
      · simp [shiftedPower, hzero]
  obtain ⟨d, hd, hvalue, heq⟩ := hshifted
  rw [heq]
  split_ifs with h1
  · subst h1
    exact ⟨hd, by rw [hvalue, pow_one]⟩
  · rw [defined_pow, eval_pow, eval_ofNat, hvalue]
    have hpower := (Interpretation.rational_powerLaws ρ).nat (ρ x - center) n
    exact ⟨⟨⟨hd, defined_ofNat _ n⟩, hpower.1⟩, hpower.2⟩

theorem IsTerm.value (hs : s.library = .standard) (h : IsTerm s x center e n a c t) {w : Rat}
    (hc : IsFraction c w) (ρ : String → Rat) :
    t.Defined (.rational ρ) ∧ t.eval (.rational ρ) = w * (ρ x - center) ^ n := by
  obtain ⟨hdefined, hvalue⟩ := hc.eval ρ
  have hterm := h.term
  unfold Series.term at hterm
  split_ifs at hterm with hn
  · obtain rfl := Except.ok.inj hterm
    exact ⟨hdefined, by rw [hvalue, hn, pow_zero, mul_one]⟩
  · obtain ⟨dp, vp⟩ := shiftedPower_eval x center hn ρ
    have hproduct := Simplifier.simplify_refines hs ρ hterm ((defined_mul _ _ _).mpr ⟨hdefined, dp⟩)
    rwa [eval_mul, hvalue, vp] at hproduct

end Values

-- exact arithmetic is computed, so the operations on fractions have to unfold
attribute [local semireducible] Rat.add Rat.sub Rat.mul Rat.inv

end Series

end RuleAlgebra
