import Mathlib
import RuleAlgebra.Expr.Evaluation
import RuleAlgebra.Proofs.ExactEvaluation
import RuleAlgebra.Proofs.Occurrences

/-!
Evaluation over the real numbers. Powers and elementary functions have a value exactly where they
are real, and an expression over fractions is evaluated without rounding: its value is built up from
those of its parts.
-/

namespace RuleAlgebra

namespace RealScalar

open Classical in
/-- A real power: none of zero to a negative exponent, nor of a negative base to an exponent that
is no integer. -/
noncomputable def power? (u v : ℝ) : Option ℝ :=
  if u = 0 ∧ v < 0 ∨ u < 0 ∧ ∀ n : Int, v ≠ n then none else some (u ^ v)

open Classical in
noncomputable def elementary? : Elementary → ℝ → Option ℝ
  | .sin, u => some (Real.sin u)
  | .cos, u => some (Real.cos u)
  | .tan, u => if Real.cos u = 0 then none else some (Real.tan u)
  | .sec, u => if Real.cos u = 0 then none else some (1 / Real.cos u)
  | .csc, u => if Real.sin u = 0 then none else some (1 / Real.sin u)
  | .cot, u => if Real.sin u = 0 then none else some (Real.cos u / Real.sin u)
  | .asin, u => if |u| ≤ 1 then some (Real.arcsin u) else none
  | .acos, u => if |u| ≤ 1 then some (Real.arccos u) else none
  | .atan, u => some (Real.arctan u)
  | .sinh, u => some (Real.sinh u)
  | .cosh, u => some (Real.cosh u)
  | .tanh, u => some (Real.tanh u)
  | .exp, u => some (Real.exp u)
  | .ln, u => if 0 < u then some (Real.log u) else none
  | .sqrt, u => if 0 ≤ u then some (Real.sqrt u) else none
  | .abs, u => some |u|

open Classical in
noncomputable scoped instance : Scalar ℝ where
  beq a b := decide (a = b)
  lt a b := decide (a < b)
  le a b := decide (a ≤ b)
  isNegative v := decide (v < 0)
  isFinite _ := true
  toRat? v := if h : ∃ q : Rat, (q : ℝ) = v then some h.choose else none
  ofRat? q := some q
  ofDecimal digits exponent := digits * 10 ^ exponent
  ofInfinity? _ := none
  power? := power?
  elementary? := elementary?
  pi := Real.pi
  e := Real.exp 1
  shortest _ := ""

end RealScalar

open scoped RealScalar

section Values

variable {u v w : ℝ}

@[simp] theorem finite?_real (u : ℝ) : Scalar.finite? u = some u := rfl

@[simp] theorem zero_real : (Scalar.zero : ℝ) = 0 := by
  change ((0 : Nat) : ℝ) * 10 ^ (0 : Int) = 0
  simp

@[simp] theorem beq_real (u v : ℝ) : (u == v) = true ↔ u = v := decide_eq_true_iff

theorem div_value?_real : Arithmetic.div.value? u v = some w ↔ v ≠ 0 ∧ u / v = w := by
  simp [Arithmetic.value?]

theorem pow_value?_real : Arithmetic.pow.value? u v = some w ↔
    ¬(u = 0 ∧ v < 0 ∨ u < 0 ∧ ∀ n : Int, v ≠ n) ∧ u ^ v = w := by
  have hpower : Arithmetic.pow.value? u v = RealScalar.power? u v := Option.bind_fun_some _
  rw [hpower, RealScalar.power?, Option.ite_none_left_eq_some, Option.some.injEq]

theorem value?_real (g : Elementary) (u : ℝ) : g.value? u = RealScalar.elementary? g u :=
  Option.bind_fun_some _

end Values

namespace Expr

mutual

noncomputable def real : Expr Rat → Expr ℝ
  | num q => num q
  | var x => var x
  | op o l r => op o (real l) (real r)
  | fn f as => fn f (reals as)
  | eq l r => eq (real l) (real r)
  | wild n k a => wild n k a

noncomputable def reals : List (Expr Rat) → List (Expr ℝ)
  | [] => []
  | a :: as => real a :: reals as

end

/-- Evaluation over the reals finds the value `v`. -/
def HasValue (env : Environment ℝ) (t : Expr Rat) (v : ℝ) : Prop := t.real.evaluate env = .ok v

variable {env : Environment ℝ} {v w : ℝ} {t l r a : Expr Rat}

theorem HasValue.unique (h : HasValue env t v) (h' : HasValue env t w) : v = w :=
  Except.ok.inj (h.symm.trans h')

@[simp] theorem hasValue_num {q : Rat} : HasValue env (num q) v ↔ (q : ℝ) = v := by
  change Except.ok (q : ℝ) = .ok v ↔ _
  rw [Except.ok.injEq]

theorem hasValue_var {x : String} :
    HasValue env (var x) v ↔ variableValue env x = .ok v := Iff.rfl

theorem hasValue_op {o : Arithmetic} : HasValue env (op o l r) v ↔
    ∃ a b, HasValue env l a ∧ HasValue env r b ∧ o.value? a b = some v := by
  simp only [HasValue, real, evaluate, bind_eq_ok, operationValue_eq_ok, exists_and_left]

theorem evaluateArgs_eq_ok {as : List (Expr Rat)} {us : List ℝ} :
    evaluateArgs env (reals as) = .ok us ↔ List.Forall₂ (HasValue env) as us := by
  induction as generalizing us with
  | nil => simp [reals, evaluateArgs, pure, Except.pure, eq_comm]
  | cons a as ih =>
    simp only [reals, evaluateArgs, bind_eq_ok, ih, pure, Except.pure, Except.ok.injEq,
      List.forall₂_cons_left_iff]
    constructor
    · rintro ⟨u, hu, us, hus, rfl⟩
      exact ⟨u, us, hu, hus, rfl⟩
    · rintro ⟨u, us, hu, hus, rfl⟩
      exact ⟨u, hu, us, hus, rfl⟩

theorem hasValue_fn {f : String} {as : List (Expr Rat)} : HasValue env (fn f as) v ↔
    ∃ g a u, Elementary.ofName? f = some g ∧ as = [a] ∧ HasValue env a u ∧
      RealScalar.elementary? g u = some v := by
  rw [HasValue, real, evaluate]
  cases hg : Elementary.ofName? f with
  | none => simp [throw, throwThe, MonadExceptOf.throw]
  | some g =>
    simp only [bind_eq_ok, evaluateArgs_eq_ok, functionValue_eq_ok, Option.some.injEq]
    constructor
    · rintro ⟨us, hus, hv⟩
      cases hus with
      | nil => simp [Elementary.onList?] at hv
      | cons hu hus =>
        cases hus with
        | nil => exact ⟨g, _, _, rfl, rfl, hu, value?_real g _ ▸ hv⟩
        | cons _ _ => simp [Elementary.onList?] at hv
    · rintro ⟨g, a, u, rfl, rfl, hu, hv⟩
      exact ⟨[u], .cons hu .nil, (value?_real g u).trans hv⟩

theorem not_hasValue_eq : ¬HasValue env (eq l r) v := by
  rintro ⟨⟩

theorem not_hasValue_wild {n : String} {k : WildcardKind} {a : Option String} :
    ¬HasValue env (wild n k a) v := by
  rintro ⟨⟩

theorem HasValue.parts : ∀ {t : Expr Rat} {v : ℝ}, HasValue env t v →
    ∀ p ∈ t.walk, ∃ u, HasValue env p u
  | num q, v, h, p, hp => by
    obtain rfl := List.mem_singleton.mp hp
    exact ⟨v, h⟩
  | var x, v, h, p, hp => by
    obtain rfl := List.mem_singleton.mp hp
    exact ⟨v, h⟩
  | eq l r, v, h, p, hp => absurd h not_hasValue_eq
  | wild n k a, v, h, p, hp => absurd h not_hasValue_wild
  | op o l r, v, h, p, hp => by
    obtain ⟨a, b, ha, hb, -⟩ := hasValue_op.mp h
    rcases List.mem_cons.mp hp with rfl | hp
    · exact ⟨v, h⟩
    · rcases List.mem_append.mp hp with hp | hp
      · exact ha.parts p hp
      · exact hb.parts p hp
  | fn f as, v, h, p, hp => by
    obtain ⟨g, a, u, -, rfl, hu, -⟩ := hasValue_fn.mp h
    rcases List.mem_cons.mp hp with rfl | hp
    · exact ⟨v, h⟩
    · rw [walkArgs, walkArgs, List.append_nil] at hp
      exact hu.parts p hp

end Expr

end RuleAlgebra
