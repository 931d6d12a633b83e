import Mathlib
import RuleAlgebra.Proofs.Interpretation
import RuleAlgebra.Proofs.RealEvaluation
import RuleAlgebra.Proofs.Variables

/-!
Evaluation over the real numbers as an interpretation. Real powers satisfy the laws that rewriting
relies on, so that what refines an expression over the reals, and has no other variables, has the
same value wherever the expression has one.
-/

namespace RuleAlgebra

open scoped RealScalar

namespace RealScalar

/-- Where a power is real: not at zero to a negative exponent, and at a negative base only to an
integer. -/
def PowerDefined (u v : ℝ) : Prop := ¬(u = 0 ∧ v < 0 ∨ u < 0 ∧ ∀ n : Int, v ≠ n)

section Powers

variable {u v a b : ℝ} {n : Int}

theorem powerDefined_of_pos (hu : 0 < u) : PowerDefined u v := by
  rintro (⟨rfl, -⟩ | ⟨hneg, -⟩)
  · exact hu.ne rfl
  · exact hneg.not_gt hu

theorem powerDefined_zero : PowerDefined 0 v ↔ 0 ≤ v := by simp [PowerDefined]

theorem powerDefined_neg (hu : u < 0) : PowerDefined u v ↔ ∃ n : Int, v = n := by
  simp [PowerDefined, hu, hu.ne]

theorem powerDefined_nat (u : ℝ) (n : Nat) : PowerDefined u n := by
  rcases lt_trichotomy u 0 with hu | rfl | hu
  · exact (powerDefined_neg hu).mpr ⟨n, by simp⟩
  · rw [powerDefined_zero]
    exact n.cast_nonneg
  · exact powerDefined_of_pos hu

theorem power_add (ha : PowerDefined u a) (hb : PowerDefined u b) :
    PowerDefined u (a + b) ∧ u ^ (a + b) = u ^ a * u ^ b := by
  rcases lt_trichotomy u 0 with hu | rfl | hu
  · obtain ⟨m, rfl⟩ := (powerDefined_neg hu).mp ha
    obtain ⟨n, rfl⟩ := (powerDefined_neg hu).mp hb
    refine ⟨(powerDefined_neg hu).mpr ⟨m + n, by push_cast; rfl⟩, ?_⟩
    rw [← Int.cast_add, Real.rpow_intCast, Real.rpow_intCast, Real.rpow_intCast,
      zpow_add₀ hu.ne]
  · rw [powerDefined_zero] at ha hb ⊢
    exact ⟨add_nonneg ha hb, Real.rpow_add_of_nonneg le_rfl ha hb⟩
  · exact ⟨powerDefined_of_pos hu, Real.rpow_add hu a b⟩

theorem power_sub (ha : PowerDefined u a) (hb : PowerDefined u b) (h0 : u ^ b ≠ 0) :
    PowerDefined u (a - b) ∧ u ^ (a - b) = u ^ a / u ^ b := by
  rcases lt_trichotomy u 0 with hu | rfl | hu
  · obtain ⟨m, rfl⟩ := (powerDefined_neg hu).mp ha
    obtain ⟨n, rfl⟩ := (powerDefined_neg hu).mp hb
    refine ⟨(powerDefined_neg hu).mpr ⟨m - n, by push_cast; rfl⟩, ?_⟩
    rw [← Int.cast_sub, Real.rpow_intCast, Real.rpow_intCast, Real.rpow_intCast,
      zpow_sub₀ hu.ne]
  · obtain rfl : b = 0 := by
      by_contra hb0
      exact h0 (Real.zero_rpow hb0)
    simpa using ha
  · exact ⟨powerDefined_of_pos hu, Real.rpow_sub hu a b⟩

theorem power_mul (ha : PowerDefined u a) (hn : PowerDefined (u ^ a) n) :
    PowerDefined u (a * n) ∧ u ^ (a * n) = (u ^ a) ^ (n : ℝ) := by
  rcases lt_trichotomy u 0 with hu | rfl | hu
  · obtain ⟨m, rfl⟩ := (powerDefined_neg hu).mp ha
    refine ⟨(powerDefined_neg hu).mpr ⟨m * n, by push_cast; rfl⟩, ?_⟩
    rw [← Int.cast_mul, Real.rpow_intCast, Real.rpow_intCast, Real.rpow_intCast, zpow_mul]
  · rw [powerDefined_zero] at ha ⊢
    refine ⟨?_, Real.rpow_mul le_rfl a n⟩
    rcases ha.eq_or_lt with rfl | hpos
    · simp
    · rw [Real.zero_rpow hpos.ne', powerDefined_zero] at hn
      exact mul_nonneg ha hn
  · exact ⟨powerDefined_of_pos hu, Real.rpow_mul hu.le a n⟩

theorem power_split (hba : b ≤ a) (h0 : 0 < b ∨ u ^ a ≠ 0) (ha : PowerDefined u a)
    (hb : PowerDefined u b) :
    PowerDefined u (a - b) ∧ u ^ a = u ^ b * u ^ (a - b) := by
  have hsub : PowerDefined u (a - b) := by
    rcases lt_trichotomy u 0 with hu | rfl | hu
    · obtain ⟨m, rfl⟩ := (powerDefined_neg hu).mp ha
      obtain ⟨n, rfl⟩ := (powerDefined_neg hu).mp hb
      exact (powerDefined_neg hu).mpr ⟨m - n, by push_cast; rfl⟩
    · rw [powerDefined_zero]
      exact sub_nonneg.mpr hba
    · exact powerDefined_of_pos hu
  have hadd := (power_add hb hsub).2
  rw [add_sub_cancel] at hadd
  exact ⟨hsub, hadd⟩

end Powers

end RealScalar

namespace Interpretation

open RuleAlgebra.Expr

/-- What variables, powers and functions stand for over the reals. A variable without a value counts
as zero. -/
noncomputable def overReals (env : Environment ℝ) : Interpretation ℝ where
  assign x := (variableValue env x).toOption.getD 0
  power u v := u ^ v
  PowerDefined := RealScalar.PowerDefined
  call f us := ((Elementary.ofName? f).bind (·.onList? us)).getD 0
  CallDefined f us := ((Elementary.ofName? f).bind (·.onList? us)).isSome

theorem overReals_powerLaws (env : Environment ℝ) : (overReals env).PowerLaws where
  nat u n := ⟨RealScalar.powerDefined_nat u n, Real.rpow_natCast u n⟩
  one_base _ := Real.one_rpow _
  number {a b c} h := by
    obtain ⟨⟨hden, -⟩, rfl⟩ := Rational.power?_eq_some.mp h
    obtain ⟨n, rfl⟩ : ∃ n : Int, b = n := ⟨b.num, ((Rat.den_eq_one_iff b).mp hden).symm⟩
    change (a : ℝ) ^ ((n : Rat) : ℝ) = _
    rw [Rat.cast_intCast, Real.rpow_intCast, Rat.num_intCast, Rat.cast_zpow]
  add := RealScalar.power_add
  sub := RealScalar.power_sub
  mul := RealScalar.power_mul
  split {u a b} hba h0 ha hb := by
    have h0 : (0 : ℝ) < b ∨ u ^ (a : ℝ) ≠ 0 := h0.imp_left fun h => by exact_mod_cast h
    rw [Rat.cast_sub]
    exact RealScalar.power_split (by exact_mod_cast hba) h0 ha hb

end Interpretation

namespace Expr

open Interpretation

variable {env : Environment ℝ}

def Assigned (env : Environment ℝ) (t : Expr Rat) : Prop :=
  t.Within {x | ∃ u, variableValue env x = .ok u}

theorem assign_overReals {x : String} {v : ℝ} (h : variableValue env x = .ok v) :
    (overReals env).assign x = v := by
  simp [overReals, h, Except.toOption]

theorem operation_overReals (env : Environment ℝ) {o : Arithmetic} {a b v : ℝ} :
    o.value? a b = some v ↔
      (overReals env).OperationDefined o a b ∧ (overReals env).operation o a b = v := by
  cases o with
  | div => exact div_value?_real
  | pow => exact pow_value?_real
  | _ => simp [Arithmetic.value?, Interpretation.OperationDefined, Interpretation.operation]

theorem call_overReals (env : Environment ℝ) {g : Elementary} {f : String} {u v : ℝ}
    (hg : Elementary.ofName? f = some g) :
    RealScalar.elementary? g u = some v ↔
      (overReals env).CallDefined f [u] ∧ (overReals env).call f [u] = v := by
  simp only [overReals, hg, Option.bind_some, Elementary.onList?, value?_real]
  cases RealScalar.elementary? g u <;> simp

section Calls

variable {u : ℝ}

noncomputable def callValue? (f : String) (u : ℝ) : Option ℝ :=
  (Elementary.ofName? f).bind (RealScalar.elementary? · u)

theorem defined_call_overReals (f : String) (a : Expr Rat) : (fn f [a]).Defined (overReals env) ↔
    a.Defined (overReals env) ∧ (callValue? f (a.eval (overReals env))).isSome := by
  simp [DefinedArgs, evalArgs, overReals, callValue?, Elementary.onList?, value?_real]

theorem eval_call_overReals (f : String) (a : Expr Rat) : (fn f [a]).eval (overReals env) =
    (callValue? f (a.eval (overReals env))).getD 0 := by
  simp [evalArgs, overReals, callValue?, Elementary.onList?, value?_real]

@[simp] theorem callValue?_sin : callValue? "sin" u = some (Real.sin u) := rfl

@[simp] theorem callValue?_cos : callValue? "cos" u = some (Real.cos u) := rfl

@[simp] theorem callValue?_tan :
    callValue? "tan" u = if Real.cos u = 0 then none else some (Real.tan u) := rfl

@[simp] theorem callValue?_sec :
    callValue? "sec" u = if Real.cos u = 0 then none else some (1 / Real.cos u) := rfl

@[simp] theorem callValue?_csc :
    callValue? "csc" u = if Real.sin u = 0 then none else some (1 / Real.sin u) := rfl

@[simp] theorem callValue?_cot :
    callValue? "cot" u = if Real.sin u = 0 then none else some (Real.cos u / Real.sin u) := rfl

@[simp] theorem callValue?_exp : callValue? "exp" u = some (Real.exp u) := rfl

@[simp] theorem callValue?_ln :
    callValue? "ln" u = if 0 < u then some (Real.log u) else none := rfl

@[simp] theorem callValue?_sqrt :
    callValue? "sqrt" u = if 0 ≤ u then some (Real.sqrt u) else none := rfl

@[simp] theorem callValue?_abs : callValue? "abs" u = some |u| := rfl

end Calls

/-- An expression has a value over the reals where its variables have and where it is defined. -/
theorem hasValue_iff_eval : ∀ {t : Expr Rat} {v : ℝ}, HasValue env t v ↔
    Assigned env t ∧ t.Defined (overReals env) ∧ t.eval (overReals env) = v
  | num q, v => by simp [Assigned]
  | var x, v => by
    simp only [hasValue_var, Assigned, within_var, Set.mem_ofPred_eq, defined_var, true_and,
      eval_var]
    constructor
    · exact fun h => ⟨⟨v, h⟩, assign_overReals h⟩
    · rintro ⟨⟨u, hu⟩, rfl⟩
      rw [assign_overReals hu, hu]
  | op o l r, v => by
    simp only [hasValue_op, hasValue_iff_eval (t := l), hasValue_iff_eval (t := r), Assigned,
      within_op, Defined, eval, operation_overReals env]
    constructor
    · rintro ⟨a, b, ⟨al, dl, rfl⟩, ⟨ar, dr, rfl⟩, ho, rfl⟩
      exact ⟨⟨al, ar⟩, ⟨⟨dl, dr⟩, ho⟩, rfl⟩
    · rintro ⟨⟨al, ar⟩, ⟨⟨dl, dr⟩, ho⟩, rfl⟩
      exact ⟨_, _, ⟨al, dl, rfl⟩, ⟨ar, dr, rfl⟩, ho, rfl⟩
  | eq l r, v => by simp [not_hasValue_eq]
  | wild n k a, v => by simp [not_hasValue_wild]
  | fn f [a], v => by
    simp only [hasValue_fn, List.cons.injEq, and_true, Assigned, within_fn,
      List.forall_mem_singleton, defined_fn, DefinedArgs, eval_fn, evalArgs]
    constructor
    · rintro ⟨g, _, u, hg, rfl, hu, hv⟩
      obtain ⟨ha, hd, rfl⟩ := hasValue_iff_eval.mp hu
      obtain ⟨hcall, hv⟩ := (call_overReals env hg).mp hv
      exact ⟨ha, ⟨hd, hcall⟩, hv⟩
    · rintro ⟨ha, ⟨hd, hcall⟩, hv⟩
      obtain ⟨g, hg⟩ : ∃ g, Elementary.ofName? f = some g := by
        cases hg : Elementary.ofName? f with
        | none => simp [overReals, hg] at hcall
        | some g => exact ⟨g, rfl⟩
      exact ⟨g, a, _, hg, rfl, hasValue_iff_eval.mpr ⟨ha, hd, rfl⟩,
        (call_overReals env hg).mpr ⟨hcall, hv⟩⟩
  -- every elementary function takes one argument
  | fn f [], v => by
    have hcall : ¬(overReals env).CallDefined f [] := by
      cases hg : Elementary.ofName? f <;> simp [overReals, hg, Elementary.onList?]
    simp [hasValue_fn, evalArgs, hcall]
  | fn f (a :: b :: as), v => by
    have hcall (us : List ℝ) (u w : ℝ) : ¬(overReals env).CallDefined f (u :: w :: us) := by
      cases hg : Elementary.ofName? f <;> simp [overReals, hg, Elementary.onList?]
    simp [hasValue_fn, evalArgs, hcall]

theorem Refines.hasValue {e d : Expr Rat} {v : ℝ} (h : Refines (overReals env) e d)
    (hd : Assigned env e → Assigned env d) (hv : HasValue env e v) : HasValue env d v := by
  obtain ⟨ha, he, rfl⟩ := hasValue_iff_eval.mp hv
  obtain ⟨hdefined, heval⟩ := h he
  exact hasValue_iff_eval.mpr ⟨hd ha, hdefined, heval⟩

end Expr

end RuleAlgebra
