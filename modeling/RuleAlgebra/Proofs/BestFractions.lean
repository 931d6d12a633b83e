import Mathlib
import RuleAlgebra.Calculus.Series

/-!
Limiting the denominator of a fraction finds the nearest one. The search runs through the convergents
of the continued fraction; the last one and the fraction before the next have neighbouring values,
on both sides of the fraction that is looked for, and every fraction between neighbours has a
denominator that is at least the sum of theirs.
-/

namespace RuleAlgebra.Series

section Neighbours

variable {a b c d : Int}

variable {q r : Rat} {bound : Nat}

end Neighbours

section Convergents

variable {q : Rat} {bound : Nat} {n d p₀ q₀ p₁ q₁ : Int}

/-- What holds in every step of the search for the fraction `q`: `n` and `d` are what is left of it
by the two last convergents `p₀/q₀` and `p₁/q₁`. -/
structure Searching (q : Rat) (bound : Nat) (n d p₀ q₀ p₁ q₁ : Int) : Prop where
  num : q.num = p₁ * n + p₀ * d
  den : q.den = q₁ * n + q₀ * d
  det : p₁ * q₀ - p₀ * q₁ = 1 ∨ p₁ * q₀ - p₀ * q₁ = -1
  first : 0 ≤ q₀
  second : 0 ≤ q₁ ∧ q₁ ≤ bound
  left : 0 ≤ d ∧ (q₁ = 0 ∨ 0 < n)

theorem Searching.step (h : Searching q bound n d p₀ q₀ p₁ q₁) (hd : 0 < d)
    (hbound : q₀ + n / d * q₁ ≤ bound) :
    Searching q bound d (n - n / d * d) p₁ q₁ (p₀ + n / d * p₁) (q₀ + n / d * q₁) where
  num := by rw [h.num]; ring
  den := by rw [h.den]; ring
  det := by
    have hdet : (p₀ + n / d * p₁) * q₁ - p₁ * (q₀ + n / d * q₁) = -(p₁ * q₀ - p₀ * q₁) := by ring
    rw [hdet]
    rcases h.det with h | h <;> omega
  first := h.second.1
  second := by
    refine ⟨?_, hbound⟩
    rcases h.left.2 with hq | hn
    · rw [hq, mul_zero, add_zero]
      exact h.first
    · exact add_nonneg h.first (mul_nonneg (Int.ediv_nonneg hn.le hd.le) h.second.1)
  left := by
    have hmod := Int.emod_add_mul_ediv n d
    have hnonneg := Int.emod_nonneg n hd.ne'
    refine ⟨?_, Or.inr hd⟩
    rw [mul_comm (n / d)]
    omega

end Convergents

variable {bound : Nat} (q : Rat)

section Signs

end Signs

end RuleAlgebra.Series
