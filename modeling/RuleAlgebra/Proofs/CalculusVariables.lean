import RuleAlgebra.Proofs.DerivativeRules
import RuleAlgebra.Proofs.IntegrationRules
import RuleAlgebra.Proofs.SparsePolynomials
import RuleAlgebra.Proofs.Variables

/-!
The parts of derivatives and antiderivatives. Differentiating adds no variable, an antiderivative
has every inherited property of the integrand, the variable of integration and the integrals that
are left, and the coefficients of a polynomial do not contain the variable that they belong to.
-/

namespace RuleAlgebra.Expr

open RuleAlgebra.Traced

variable {α : Type} {s : Set String} {x : String}

variable [Scalar α]

section Derivatives

theorem outerDerivative?_within {f : String} {u d : Expr α} (hu : u.Within s)
    (h : outerDerivative? f u = some d) : d.Within s := by
  unfold outerDerivative? at h
  split at h <;> cases h <;> simp [sqrtOneMinusSquare, hu]

theorem Derives.within {t d : Expr α} (h : Derives x t d) (ht : t.Within s) : d.Within s := by
  induction h with
  | constant => exact within_ofNat 0
  | self => exact within_ofNat 1
  | equation _ _ ihl ihr =>
    obtain ⟨hl, hr⟩ := (within_eq _ _).mp ht
    exact (within_eq _ _).mpr ⟨ihl hl, ihr hr⟩
  | chain hf _ ih =>
    have hu := (within_fn _ _).mp ht _ (List.mem_singleton_self _)
    exact (within_op _ _ _).mpr ⟨outerDerivative?_within hu hf, ih hu⟩
  | sum _ _ _ iha ihb | product _ _ iha ihb | quotient _ _ iha ihb | logarithmic _ _ iha ihb =>
    obtain ⟨ha, hb⟩ := (within_op _ _ _).mp ht
    simp [ha, hb, iha ha, ihb hb]
  | power _ _ iha =>
    obtain ⟨ha, hb⟩ := (within_op _ _ _).mp ht
    simp [ha, hb, iha ha]
  | exponential _ _ ihb =>
    obtain ⟨ha, hb⟩ := (within_op _ _ _).mp ht
    simp [ha, hb, ihb hb]

theorem derivative_within (t : Expr α) (h : t.Within s) :
    Ensures (derivative x t) (Within s) fun _ => True :=
  ((derivative_derives t).mono fun _ hd => hd.within h).weaken fun _ _ => trivial

theorem derivativeTimes_within (order : Nat) {t : Expr α} (h : t.Within s) :
    Ensures (derivativeTimes x order t) (Within s) fun _ => True := by
  induction order generalizing t with
  | zero => exact ensures_pure h
  | succ order ih =>
    apply (derivative_within t h).bind
    intro d hd
    exact ih hd

end Derivatives

section Coefficients

variable {simplify : Expr α → Except Failure (Expr α)} (hsimplify : KeepsVariables simplify)
  {e : Expr α}
include hsimplify

theorem symbolicCoefficients_within (he : e.Within s) :
    Yields (∀ cs ∈ ·, ∀ c ∈ cs, c.Within (s \ {x})) (e.symbolicCoefficients x simplify) := by
  unfold symbolicCoefficients
  split
  · rintro _ ⟨⟩
  · rename_i p hp
    have hexpands := sparse?_expands hp
    have hsources (d : Nat) : ∀ c ∈ p.get? d, c.Within (s \ {x}) := by
      intro c hc y hy
      have hmem := Sparse.mem_of_get? hc
      refine ⟨hexpands.coefficients_variables he _ hmem y hy, ?_⟩
      rintro rfl
      simp [hexpands.coefficients_free _ hmem] at hy
    apply Outcome.bind (P := (∀ c ∈ ·, c.Within (s \ {x})))
    · apply outcome_forall_mapM
      intro d _
      split
      · rename_i c hc
        exact hsimplify _ c (hsources d c hc)
      · exact within_ofNat 0
    · rintro cs hcs _ ⟨⟩ c hc
      exact hcs c (mem_trimEnd hc)

end Coefficients

section Linear

variable {P : Expr α → Prop} (hP : Inherited P) {simplify : Expr α → Except Failure (Expr α)}
  (hsimplify : ∀ e, P e → Yields P (simplify e)) {e : Expr α}
include hP hsimplify

theorem symbolicCoefficients_inherit (he : P e) :
    Yields (∀ cs ∈ ·, ∀ c ∈ cs, P c) (e.symbolicCoefficients x simplify) := by
  unfold symbolicCoefficients
  split
  · rintro _ ⟨⟩
  · rename_i p hp
    have hsources := (sparse?_expands hp).coefficients_forall hP.num hP.op he
    apply Outcome.bind (P := (∀ c ∈ ·, P c))
    · apply outcome_forall_mapM
      intro d _
      split
      · rename_i c hc
        exact hsimplify c (hsources _ (Sparse.mem_of_get? hc))
      · exact hP.ofNat 0
    · rintro cs hcs _ ⟨⟩ c hc
      exact hcs c (mem_trimEnd hc)

theorem linearParts_inherit (he : P e) : Yields (∀ q ∈ ·, P q.1) (e.linearParts x simplify) := by
  have hslope : Yields (∀ q ∈ ·, P q.1)
      (e.symbolicCoefficients x simplify >>= linearParts.slope) := by
    apply (symbolicCoefficients_inherit hP hsimplify he).bind
    intro cs hcs
    unfold linearParts.slope
    split
    · rename_i b k
      rintro _ ⟨⟩
      exact hcs [b, k] rfl k (by simp)
    · rintro _ ⟨⟩
  unfold linearParts
  split
  · split_ifs
    · rintro _ ⟨⟩
      exact hP.ofNat 1
    · exact hslope
  · exact hslope

end Linear

section Antiderivatives

variable {P : Expr α → Prop} (hP : Inherited P)

section Table

include hP

theorem overSlope_inherits {e k : Expr α} (he : P e) (hk : P k) : P (overSlope e k) := by
  unfold overSlope
  split_ifs
  · exact he
  · exact hP.op.mpr ⟨he, hk⟩

theorem tableIntegral?_inherits {f : String} {u d : Expr α} (hu : P u)
    (h : tableIntegral? f u = some d) : P d := by
  unfold tableIntegral? at h
  split at h <;> cases h <;>
    simp (disch := decide) [hP.op, hP.ofNat, hP.ofInt, hP.call_iff, hu]

theorem reciprocalPower?_inherits {e base n : Expr α} (he : P e)
    (h : reciprocalPower? x e = some (base, n)) : P base ∧ P n := by
  unfold reciprocalPower? at h
  split at h
  · split_ifs at h
    cases h
    exact ⟨hP.args he _ (by simp), hP.op.mpr ⟨hP.num _, hP.num _⟩⟩
  · obtain ⟨hbase, hn⟩ := hP.op.mp he
    split_ifs at h
    cases h
    refine ⟨hbase, ?_⟩
    split
    · exact hP.num _
    · exact hP.op.mpr ⟨hP.num _, hn⟩
  · cases h

end Table

variable {simplify : Expr α → Except Failure (Expr α)}
  (hsimplify : ∀ e, P e → Yields P (simplify e)) {a b : Expr α}

section Slopes

include hP hsimplify

theorem HasSlope.inherits {u k : Expr α} (hk : HasSlope simplify x u k) (hu : P u) : P k := by
  obtain ⟨c, hc⟩ := hk
  have hparts := linearParts_inherit (x := x) hP hsimplify hu
  rw [hc] at hparts
  exact hparts _ rfl

end Slopes

/-- The variable of integration has the property, and so have the integrals that are left. -/
structure IntegralsHave (P : Expr α → Prop) (x : String) : Prop where
  self : P (var x)
  integral {e : Expr α} : P e → P (fn integralName [e, var x])

variable (hx : IntegralsHave P x)

include hP hsimplify hx

theorem IntegratesPower.inherits {F : Expr α} (h : IntegratesPower simplify x a b F) (ha : P a)
    (hb : P b) : P F := by
  cases h with
  | unevaluated => exact hx.integral (hP.op.mpr ⟨ha, hb⟩)
  | secant us _ hu =>
    have harg := hP.args ha _ List.mem_cons_self
    exact overSlope_inherits hP ((hP.call_iff (by decide)).mpr harg)
      (hu.inherits hP hsimplify harg)
  | reciprocal _ hk =>
    exact overSlope_inherits hP ((hP.call_iff (by decide)).mpr ha) (hk.inherits hP hsimplify ha)
  | raised _ hk =>
    have hpower : P (op .div (op .pow a (op .add b (ofNat 1))) (op .add b (ofNat 1))) := by
      simp [hP.op, hP.ofNat, ha, hb]
    exact overSlope_inherits hP hpower (hk.inherits hP hsimplify ha)
  | exponential _ hk =>
    have hlog : P (fn "ln" [a]) := (hP.call_iff (by decide)).mpr ha
    have hquotient : P (op .div (op .pow a b) (fn "ln" [a])) := by simp [hP.op, ha, hb, hlog]
    exact overSlope_inherits hP hquotient (hk.inherits hP hsimplify hb)

theorem Integrates.inherits {t F : Expr α} (h : Integrates simplify x t F) (ht : P t) : P F := by
  induction h with
  | unevaluated => exact hx.integral ht
  | constant => exact hP.op.mpr ⟨ht, hx.self⟩
  | self => simp [hP.op, hP.ofNat, ht]
  | sum _ _ _ iha ihb =>
    obtain ⟨ha, hb⟩ := hP.op.mp ht
    exact hP.op.mpr ⟨iha ha, ihb hb⟩
  | leftFactor _ _ ihb =>
    obtain ⟨ha, hb⟩ := hP.op.mp ht
    exact hP.op.mpr ⟨ha, ihb hb⟩
  | rightFactor _ _ iha =>
    obtain ⟨ha, hb⟩ := hP.op.mp ht
    exact hP.op.mpr ⟨hb, iha ha⟩
  | divisor _ _ iha =>
    obtain ⟨ha, hb⟩ := hP.op.mp ht
    exact hP.op.mpr ⟨iha ha, hb⟩
  | @logarithm a b k _ hk =>
    obtain ⟨ha, hb⟩ := hP.op.mp ht
    have hlog : P (fn "ln" [b]) := (hP.call_iff (by decide)).mpr hb
    exact overSlope_inherits hP (hP.op.mpr ⟨ha, hlog⟩) (hk.inherits hP hsimplify hb)
  | reciprocal _ hpower hF =>
    obtain ⟨ha, hb⟩ := hP.op.mp ht
    obtain ⟨hbase, hn⟩ := reciprocalPower?_inherits hP hb hpower
    exact hP.op.mpr ⟨ha, hF.inherits hP hsimplify hx hbase hn⟩
  | power hF =>
    obtain ⟨ha, hb⟩ := hP.op.mp ht
    exact hF.inherits hP hsimplify hx ha hb
  | table hf hu =>
    have harg := hP.args ht _ (List.mem_singleton_self _)
    exact overSlope_inherits hP (tableIntegral?_inherits hP harg hf)
      (hu.inherits hP hsimplify harg)

theorem antiderivative_inherits (t : Expr α) (ht : P t) :
    Ensures (antiderivative simplify x t) P fun _ => True :=
  (antiderivative_integrates t).mono fun _ h => h.inherits hP hsimplify hx ht

end Antiderivatives

theorem antiderivative_within {simplify : Expr α → Except Failure (Expr α)}
    (hsimplify : KeepsVariables simplify) (hx : x ∈ s) (t : Expr α) (ht : t.Within s) :
    Ensures (antiderivative simplify x t) (Within s) fun _ => True :=
  antiderivative_inherits (within_inherited s) (hsimplify s)
    { self := (within_var x).mpr hx
      integral := fun he => (within_fn _ _).mpr (by simp [he, hx]) } t ht

end RuleAlgebra.Expr
