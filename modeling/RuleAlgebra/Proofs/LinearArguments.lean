import RuleAlgebra.Proofs.DifferentialLaws
import RuleAlgebra.Proofs.Outcomes
import RuleAlgebra.Proofs.SparsePolynomials

/-!
The slope and the intercept of an expression that is linear in a variable. The simplified
coefficients of an expression make up its value, and each has the value of an expression without
the variable.
-/

namespace RuleAlgebra

namespace Expr

variable {K : Type*} [Field K] {I : Interpretation K} {x : String} {e : Expr Rat}
  {simplify : Expr Rat → Except Failure (Expr Rat)}

def IsConstantValue (I : Interpretation K) (x : String) (v : K) : Prop :=
  ∃ c : Expr Rat, c.contains x = false ∧ c.Defined I ∧ c.eval I = v

/-- A rewrite under which no defined expression changes its value. -/
def PreservesValues (I : Interpretation K) (simplify : Expr Rat → Except Failure (Expr Rat)) :
    Prop :=
  ∀ c d, simplify c = .ok d → c.Defined I → d.eval I = c.eval I

/-- The coefficients are simplified from expressions without the variable, which make up the value
of the expression wherever it has one. -/
theorem symbolicCoefficients_sources [CharZero K] {cs : List (Expr Rat)}
    (h : e.symbolicCoefficients x simplify = .ok (some cs)) :
    ∃ ds bs : List (Expr Rat), cs = trimEnd (·.isNumber 0) bs ∧
      List.Forall₂ (fun d b => simplify d = .ok b ∨ d = ofNat 0 ∧ b = ofNat 0) ds bs ∧
      (∀ d ∈ ds, d.contains x = false) ∧
      ∀ I : Interpretation K, (∀ (u : K) (n : Nat), I.PowerDefined u n → I.power u n = u ^ n) →
        e.Defined I → (∀ d ∈ ds, d.Defined I) ∧
          ascendingValue (I.assign x) (ds.map (eval I)) = e.eval I := by
  obtain ⟨p, bs, hexpands, hcs, hpairs⟩ := symbolicCoefficients_dense h
  exact ⟨p.dense, bs, hcs, hpairs, hexpands.dense_free, fun I hpow he =>
    hexpands.dense_total (polynomialValues_interpretation hpow) he⟩

theorem ascendingValue_trimmed [CharZero K] (u : K) (bs : List (Expr Rat)) :
    ascendingValue u ((trimEnd (·.isNumber 0) bs).map (eval I)) =
      ascendingValue u (bs.map (eval I)) := by
  apply ascendingValue_trimEnd
  intro b hb
  rw [isNumber_iff.mp hb]
  simp

theorem symbolicCoefficients_eval [CharZero K]
    (hpow : ∀ (u : K) (n : Nat), I.PowerDefined u n → I.power u n = u ^ n)
    (hs : PreservesValues I simplify) (he : e.Defined I) {cs : List (Expr Rat)}
    (h : e.symbolicCoefficients x simplify = .ok (some cs)) :
    (∀ c ∈ cs, IsConstantValue I x (c.eval I)) ∧
      ascendingValue (I.assign x) (cs.map (eval I)) = e.eval I := by
  obtain ⟨ds, bs, rfl, hsimp, hfree, hall⟩ := symbolicCoefficients_sources (K := K) h
  obtain ⟨hdefined, hvalue⟩ := hall I hpow he
  have hsame : List.Forall₂ (fun d b => IsConstantValue I x (b.eval I) ∧ b.eval I = d.eval I)
      ds bs := by
    apply ((List.forall₂_and_left ds bs).mpr ⟨fun _ hd => hd, hsimp⟩).imp
    rintro d b ⟨hd, hb⟩
    have hvb : b.eval I = d.eval I := by
      rcases hb with hb | ⟨rfl, rfl⟩
      · exact hs d b hb (hdefined d hd)
      · rfl
    exact ⟨⟨d, hfree d hd, hdefined d hd, hvb.symm⟩, hvb⟩
  have hconstant := forall_mem_of_forall₂ hsame fun d b hd => hd.1
  have hmap := map_eq_of_forall₂ hsame fun d b hd => hd.2
  constructor
  · exact fun c hc => hconstant c (mem_trimEnd hc)
  · rw [ascendingValue_trimmed, hmap, hvalue]

section Slopes

variable {D : Derivation ℤ K K}

/-- A constant that is the derivative of an expression. -/
def IsSlope (I : Interpretation K) (D : Derivation ℤ K K) (u k : Expr Rat) : Prop :=
  u.Defined I → D (u.eval I) = k.eval I ∧ D (k.eval I) = 0

theorem IsConstantValue.deriv {v : K} (h : DifferentialLaws I D x) (hv : IsConstantValue I x v) :
    D v = 0 := by
  obtain ⟨c, hc, hd, rfl⟩ := hv
  exact h.free hc hd

theorem symbolicCoefficients_slope [CharZero K] (h : DifferentialLaws I D x)
    (hs : PreservesValues I simplify) {b k : Expr Rat}
    (he : e.symbolicCoefficients x simplify = .ok (some [b, k])) : IsSlope I D e k := by
  intro hd
  obtain ⟨hconstant, hvalue⟩ := symbolicCoefficients_eval (fun _ n => h.power_nat n) hs hd he
  have hb : D (b.eval I) = 0 := (hconstant b (by simp)).deriv h
  have hk : D (k.eval I) = 0 := (hconstant k (by simp)).deriv h
  refine ⟨?_, hk⟩
  rw [← hvalue]
  simp [ascendingValue, Derivation.leibniz, h.self, hb, hk]

theorem linearParts_slope [CharZero K] (h : DifferentialLaws I D x)
    (hs : PreservesValues I simplify) {k b : Expr Rat}
    (he : e.linearParts x simplify = .ok (some (k, b))) : IsSlope I D e k := by
  have hpolynomial (hcs : (e.symbolicCoefficients x simplify >>= linearParts.slope) =
      .ok (some (k, b))) : IsSlope I D e k := by
    obtain ⟨cs, hcs, hslope⟩ := bind_eq_ok.mp hcs
    unfold linearParts.slope at hslope
    split at hslope
    · cases hslope
      exact symbolicCoefficients_slope h hs hcs
    · cases hslope
  unfold linearParts at he
  split at he
  · split at he
    · rename_i y hy
      cases he
      intro _
      rw [eval_var, eq_of_beq hy, h.self]
      simp
    · exact hpolynomial he
  · exact hpolynomial he

end Slopes

end Expr

end RuleAlgebra
