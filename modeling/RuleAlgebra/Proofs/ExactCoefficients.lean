import RuleAlgebra.Proofs.ExactEvaluation
import RuleAlgebra.Proofs.LinearForms
import RuleAlgebra.Proofs.SparsePolynomials
import RuleAlgebra.Proofs.Variables

/-!
The coefficients of an expression as a polynomial in one variable, read without rounding. They do not
contain the variable, have a value wherever the expression has one, and make up its value together
with the powers of the variable.
-/

namespace RuleAlgebra

/-- Powers to natural exponents are products of exact values. -/
def Scalar.NaturalPowers {α : Type} {K : Type*} [Scalar α] [Field K] (value : α → K) : Prop :=
  ∀ {a b c : α} {n : Nat}, Scalar.toInt? b = some (n : Int) → Scalar.power? a b = some c →
    value c = value a ^ n

theorem Scalar.naturalPowers_rat : Scalar.NaturalPowers (id : Rat → Rat) := by
  intro a b c n hb hc
  obtain rfl := Scalar.toInt?_eq_some.mp hb
  obtain ⟨-, rfl⟩ := Rational.power?_eq_some.mp hc
  simp

theorem ascendingValue_eq_sum {β : Type} {K : Type*} [Field K] (u : K) (f : β → K) (bs : List β) :
    ascendingValue u (bs.map f) = ∑ i : Fin bs.length, f bs[i] * u ^ (i : Nat) := by
  induction bs with
  | nil => rfl
  | cons b bs ih =>
    rw [List.map_cons, ascendingValue_cons, ih, Finset.mul_sum]
    refine Eq.trans ?_ (Fin.sum_univ_succ (n := bs.length)
      fun i => f (b :: bs)[i] * u ^ (i : Nat)).symm
    congr 1
    · simp
    · refine Finset.sum_congr rfl fun i _ => ?_
      simp only [Fin.val_succ, pow_succ, Fin.getElem_fin, List.getElem_cons_succ]
      ring

namespace Expr

variable {α : Type} [Scalar α]

section Agreement

variable {env env' : Environment α}

mutual

theorem evaluate_congr : ∀ {e : Expr α},
    (∀ x, e.contains x = true → variableValue env x = variableValue env' x) →
      e.evaluate env = e.evaluate env'
  | num _, _ => rfl
  | var x, h => h x (by simp [contains])
  | op o l r, h => by
    simp only [contains, Bool.or_eq_true, or_imp, forall_and] at h
    simp only [evaluate, evaluate_congr h.1, evaluate_congr h.2]
  | fn f as, h => by
    simp only [evaluate, evaluateArgs_congr h]
  | eq _ _, _ => rfl
  | wild _ _ _, _ => rfl

theorem evaluateArgs_congr : ∀ {as : List (Expr α)},
    (∀ x, anyContains x as = true → variableValue env x = variableValue env' x) →
      evaluateArgs env as = evaluateArgs env' as
  | [], _ => rfl
  | a :: as, h => by
    simp only [anyContains, Bool.or_eq_true, or_imp, forall_and] at h
    simp only [evaluateArgs, evaluate_congr h.1, evaluateArgs_congr h.2]

end

theorem evaluate_of_closedValue? {e : Expr α} {v : α} (hv : e.closedValue? = some v)
    (henv : ∀ y ∈ constants, e.contains y = true → variableValue env y = variableValue .empty y) :
    e.evaluate env = .ok v := by
  let plain : Environment α := fun y => if y ∈ constants then none else env y
  have hplain : e.evaluate plain = .ok v :=
    evaluate_closed (closedValue?_eq_some.mp hv) fun y _ hy => if_pos hy
  rw [← hplain]
  apply evaluate_congr
  intro y hy
  by_cases hconstant : y ∈ constants
  · rw [henv y hconstant hy]
    simp [variableValue, plain, hconstant, Environment.empty]
  · simp [variableValue, plain, hconstant]

end Agreement

section Coefficients

variable {K : Type*} [Field K] [LinearOrder K] {value : α → K} {env : Environment α} {x : String}
  {e : Expr α}

/-- The exact value of an expression that has one. -/
def exactValue (value : α → K) (env : Environment α) (e : Expr α) : K :=
  ((e.evaluate env).toOption.map value).getD 0

omit [LinearOrder K] in
theorem exactValue_ok {v : α} (h : e.evaluate env = .ok v) : exactValue value env e = value v := by
  simp [exactValue, h, Except.toOption]

theorem evaluate_op_eq_ok {o : Arithmetic} {l r : Expr α} {v : α} :
    (op o l r).evaluate env = .ok v ↔
      ∃ a, l.evaluate env = .ok a ∧ ∃ b, r.evaluate env = .ok b ∧ o.value? a b = some v := by
  simp only [evaluate, bind_eq_ok, operationValue_eq_ok]

theorem polynomialValues_exact (h : Scalar.Exact value) (hpow : Scalar.NaturalPowers value) :
    PolynomialValues (fun e => ∃ v, e.evaluate env = .ok v) (exactValue value env) := by
  -- an operation that never fails
  have total {o : Arithmetic} {run : α → α → α} {op' : K → K → K}
      (hrun : ∀ a b, o.value? a b = Scalar.finite? (run a b))
      (hvalue : ∀ a b, value (run a b) = op' (value a) (value b)) {l r : Expr α}
      (hl : ∃ a, l.evaluate env = .ok a) (hr : ∃ b, r.evaluate env = .ok b) :
      (∃ v, (op o l r).evaluate env = .ok v) ∧ exactValue value env (op o l r) =
        op' (exactValue value env l) (exactValue value env r) := by
    obtain ⟨a, ha⟩ := hl
    obtain ⟨b, hb⟩ := hr
    have hv : (op o l r).evaluate env = .ok (run a b) :=
      evaluate_op ha hb (by rw [hrun, h.finite?])
    exact ⟨⟨_, hv⟩, by rw [exactValue_ok hv, exactValue_ok ha, exactValue_ok hb, hvalue]⟩
  refine ⟨⟨fun v => ⟨v, rfl⟩, ?_, ?_, ?_, total (fun _ _ => rfl) h.add, total (fun _ _ => rfl) h.sub,
    total (fun _ _ => rfl) h.mul⟩, ?_, ?_, ?_⟩
  · exact (exactValue_ok rfl).trans h.zero
  · exact (exactValue_ok rfl).trans h.one
  · exact (exactValue_ok rfl).trans h.minusOne
  · rintro o l r ⟨v, hv⟩
    obtain ⟨a, ha, b, hb, -⟩ := evaluate_op_eq_ok.mp hv
    exact ⟨⟨a, ha⟩, ⟨b, hb⟩⟩
  · rintro l r d ⟨v, hv⟩ ⟨c, hc⟩
    obtain ⟨a, -, b, hb, hquotient⟩ := evaluate_op_eq_ok.mp hv
    obtain ⟨hzero, -⟩ := Option.ite_none_left_eq_some.mp hquotient
    have hb0 : value b ≠ 0 := by rwa [h.beq, h.zero] at hzero
    have hd : (op .div d r).evaluate env = .ok (c / b) :=
      evaluate_op hc hb (by rw [Arithmetic.value?, if_neg hzero, h.finite?])
    exact ⟨⟨_, hd⟩, by rw [exactValue_ok hd, exactValue_ok hc, exactValue_ok hb, h.div hb0]⟩
  · rintro l r n ⟨v, hv⟩ hn
    obtain ⟨w, rfl, hw⟩ := toInt?_of_degree? hn
    obtain ⟨a, ha, b, hb, hpower⟩ := evaluate_op_eq_ok.mp hv
    obtain rfl := Except.ok.inj hb
    obtain ⟨c, hc, hfinite⟩ := Option.bind_eq_some_iff.mp hpower
    obtain rfl := Option.some.inj ((h.finite? c).symm.trans hfinite)
    rw [exactValue_ok hv, exactValue_ok ha, hpow hw hc]

/-- A rewrite keeps the value of every expression that has one in the environment. -/
def KeepsValuesAt (value : α → K) (env : Environment α)
    (simplify : Expr α → Except Failure (Expr α)) : Prop :=
  ∀ c d, simplify c = .ok d → ∀ v, c.evaluate env = .ok v →
    ∃ w, d.evaluate env = .ok w ∧ value w = value v

/-- The environment gives the constants, other than `x`, their usual values. -/
def KeepsConstants (env : Environment α) (x : String) : Prop :=
  ∀ y ∈ constants, y ≠ x → variableValue env y = variableValue .empty y

theorem exactValue_of_isNumber (h : Scalar.Exact value) {b : Expr α} (hb : b.isNumber 0 = true) :
    exactValue value env b = 0 := by
  cases b with
  | num v =>
    rw [exactValue_ok rfl, ← h.zero]
    exact h.beq.mp hb
  | _ => cases hb

variable (h : Scalar.Exact value) (hpow : Scalar.NaturalPowers value) {u v : α}
  (hu : variableValue env x = .ok u) (hv : e.evaluate env = .ok v)
include h hpow hu hv

theorem symbolicCoefficients_value {simplify : Expr α → Except Failure (Expr α)}
    {cs : List (Expr α)} (hcs : e.symbolicCoefficients x simplify = .ok (some cs))
    (hs : KeepsValuesAt value env simplify) :
    ∃ ws, cs.mapM (evaluate env) = .ok ws ∧
      value v = ∑ i : Fin ws.length, value ws[i] * value u ^ (i : Nat) := by
  obtain ⟨p, bs, hexpands, rfl, hpairs⟩ := symbolicCoefficients_dense hcs
  obtain ⟨hdefined, htotal⟩ := hexpands.dense_total (polynomialValues_exact h hpow) ⟨v, hv⟩
  have hve : exactValue value env e = value v := exactValue_ok hv
  have hvu : exactValue value env (var x) = value u := exactValue_ok hu
  have hsame : List.Forall₂ (fun d b => (∃ w, b.evaluate env = .ok w) ∧
      exactValue value env b = exactValue value env d) p.dense bs := by
    apply ((List.forall₂_and_left _ _).mpr ⟨hdefined, hpairs⟩).imp
    rintro d b ⟨⟨w, hw⟩, hb | ⟨rfl, rfl⟩⟩
    · obtain ⟨w', hw', hvalue⟩ := hs d b hb w hw
      exact ⟨⟨w', hw'⟩, by rw [exactValue_ok hw', exactValue_ok hw, hvalue]⟩
    · exact ⟨⟨w, hw⟩, rfl⟩
  have hbs := forall_mem_of_forall₂ hsame fun _ _ hb => hb.1
  obtain ⟨ws, hws, hvalues⟩ : ∃ ws, (trimEnd (·.isNumber 0) bs).mapM (evaluate env) = .ok ws ∧
      List.Forall₂ (fun c w => value w = exactValue value env c) (trimEnd (·.isNumber 0) bs) ws := by
    apply mapM_ok
    intro c hc
    obtain ⟨w, hw⟩ := hbs c (mem_trimEnd hc)
    exact ⟨w, hw, (exactValue_ok hw).symm⟩
  refine ⟨ws, hws, ?_⟩
  calc value v = ascendingValue (value u) (p.dense.map (exactValue value env)) := by
        rw [← hve, ← htotal, hvu]
    _ = ascendingValue (value u) (bs.map (exactValue value env)) := by
        rw [map_eq_of_forall₂ hsame fun _ _ hb => hb.2]
    _ = ascendingValue (value u) (ws.map value) := by
        rw [map_eq_of_forall₂ hvalues fun _ _ hw => hw,
          ascendingValue_trimEnd fun b hb => exactValue_of_isNumber h hb]
    _ = _ := ascendingValue_eq_sum _ _ _

theorem numericCoefficients_value {cs : List α} (hcs : e.numericCoefficients x = some cs)
    (henv : KeepsConstants env x) :
    value v = ∑ i : Fin cs.length, value cs[i] * value u ^ (i : Nat) := by
  obtain ⟨p, vs, hexpands, rfl, hpairs⟩ := numericCoefficients_dense hcs
  obtain ⟨-, htotal⟩ := hexpands.dense_total (polynomialValues_exact h hpow) ⟨v, hv⟩
  have hve : exactValue value env e = value v := exactValue_ok hv
  have hvu : exactValue value env (var x) = value u := exactValue_ok hu
  have hvalues : List.Forall₂ (fun d w => value w = exactValue value env d) p.dense vs := by
    apply ((List.forall₂_and_left _ _).mpr ⟨hexpands.dense_free, hpairs⟩).imp
    rintro d w ⟨hfree, hw⟩
    have hne (y : String) (hy : d.contains y = true) : y ≠ x := by
      rintro rfl
      exact Bool.noConfusion (hy.symm.trans hfree)
    exact (exactValue_ok (evaluate_of_closedValue? hw fun y hconstant hy =>
      henv y hconstant (hne y hy))).symm
  calc value v = ascendingValue (value u) (p.dense.map (exactValue value env)) := by
        rw [← hve, ← htotal, hvu]
    _ = ascendingValue (value u) (vs.map value) := by
        rw [map_eq_of_forall₂ hvalues fun _ _ hw => hw]
    _ = ascendingValue (value u) ((trimEnd (· == Scalar.zero) vs).map value) := by
        rw [ascendingValue_trimEnd fun b hb => (h.beq.mp hb).trans h.zero]
    _ = _ := ascendingValue_eq_sum _ _ _

omit h hpow hu hv

theorem symbolicCoefficients_free {simplify : Expr α → Except Failure (Expr α)}
    {cs : List (Expr α)} (hcs : e.symbolicCoefficients x simplify = .ok (some cs))
    (hs : KeepsVariables simplify) : ∀ c ∈ cs, c.contains x = false := by
  obtain ⟨p, bs, hexpands, rfl, hpairs⟩ := symbolicCoefficients_dense hcs
  have hbs : List.Forall₂ (fun _ b => b.contains x = false) p.dense bs := by
    apply ((List.forall₂_and_left _ _).mpr ⟨hexpands.dense_free, hpairs⟩).imp
    rintro d b ⟨hd, hb | ⟨-, rfl⟩⟩
    · have hwithin : d.Within {y | y ≠ x} := by
        rintro y hy rfl
        exact Bool.noConfusion (hy.symm.trans hd)
      have hkept := hs _ d hwithin
      rw [hb] at hkept
      exact Bool.eq_false_iff.mpr fun hx => hkept x hx rfl
    · rfl
  exact fun c hc => forall_mem_of_forall₂ hbs (fun _ _ hb => hb) c (mem_trimEnd hc)

/-- Without rounding, the coefficients of an expression in `x` are exact. Simplified ones, if
simplifying adds no variables, do not contain `x`, and wherever it keeps values and the expression
has one, they have values and make up its value. Numeric ones make up the value wherever the
constants other than `x` are left alone, and the last of them is not zero. -/
theorem coefficients_exact (h : Scalar.Exact value) (hpow : Scalar.NaturalPowers value)
    (e : Expr α) (x : String) :
    (∀ simplify cs, KeepsVariables simplify → e.symbolicCoefficients x simplify = .ok (some cs) →
      (∀ c ∈ cs, c.contains x = false) ∧
        ∀ (env : Environment α) (u v : α), variableValue env x = .ok u →
          KeepsValuesAt value env simplify → e.evaluate env = .ok v →
            ∃ ws, cs.mapM (evaluate env) = .ok ws ∧
              value v = ∑ i : Fin ws.length, value ws[i] * value u ^ (i : Nat)) ∧
      ∀ cs, e.numericCoefficients x = some cs →
        (∀ c ∈ cs.getLast?, value c ≠ 0) ∧
          ∀ (env : Environment α) (u v : α), variableValue env x = .ok u → KeepsConstants env x →
            e.evaluate env = .ok v →
              value v = ∑ i : Fin cs.length, value cs[i] * value u ^ (i : Nat) := by
  constructor
  · intro simplify cs hvars hcs
    refine ⟨symbolicCoefficients_free hcs hvars, fun env u v hu hs hv => ?_⟩
    exact symbolicCoefficients_value h hpow hu hv hcs hs
  · intro cs hcs
    refine ⟨?_, fun env u v hu henv hv => numericCoefficients_value h hpow hu hv hcs henv⟩
    obtain ⟨p, vs, -, rfl, -⟩ := numericCoefficients_dense hcs
    intro c hc hzero
    have hlast := getLast?_trimEnd hc
    rw [h.beq.mpr (hzero.trans h.zero.symm)] at hlast
    cases hlast

end Coefficients

section Folding

variable {α : Type} [Scalar α]

def foldClosed (e : Expr α) : Except Failure (Expr α) := .ok ((e.closedValue?.map num).getD e)

theorem foldClosed_keepsVariables : KeepsVariables (foldClosed : Expr α → _) := by
  intro s e he
  unfold foldClosed
  cases e.closedValue? with
  | none => exact he
  | some v => exact within_num v

theorem foldClosed_keepsValuesAt {K : Type*} [Field K] {value : α → K} {env : Environment α}
    (henv : ∀ y ∈ constants, variableValue env y = variableValue .empty y) :
    KeepsValuesAt value env foldClosed := by
  intro c d hd v hv
  obtain rfl := Except.ok.inj hd
  cases hc : c.closedValue? with
  | none => exact ⟨v, hv, rfl⟩
  | some w =>
    have hw : c.evaluate env = .ok w := evaluate_of_closedValue? hc fun y hy _ => henv y hy
    obtain rfl := Except.ok.inj (hv.symm.trans hw)
    exact ⟨v, rfl, rfl⟩

-- exact arithmetic is computed, so the operations on fractions have to unfold
attribute [local semireducible] Rat.add Rat.sub Rat.mul Rat.inv

/-- The coefficients of `(x + pi)² / y - x` in `x`, and those of `(x + pi)² / 4 - x`. -/
theorem coefficients_exact_of_square :
    let square (d : Expr Rat) : Expr Rat :=
      .op .sub (.op .div (.squared (.op .add (.var "x") (.var "pi"))) d) (.var "x")
    let env : Environment Rat := (Environment.single "y" 4).update "x" 3
    ∃ cs vs v, (square (.var "y")).symbolicCoefficients "x" foldClosed = .ok (some cs) ∧
      (square (.ofNat 4)).numericCoefficients "x" = some vs ∧ cs.length = 3 ∧ vs.length = 3 ∧
      (square (.var "y")).evaluate env = .ok v ∧ (square (.ofNat 4)).evaluate env = .ok v ∧
      (∃ ws : List Rat, cs.mapM (evaluate env) = .ok ws ∧
        v = ∑ i : Fin ws.length, ws[i] * 3 ^ (i : Nat)) ∧
      v = ∑ i : Fin vs.length, vs[i] * 3 ^ (i : Nat) := by
  intro square env
  have hsymbolic : (((square (.var "y")).symbolicCoefficients "x" foldClosed).toOption.bind id).map
      List.length = some 3 := by
    decide
  have hnumeric : ((square (.ofNat 4)).numericCoefficients "x").map List.length = some 3 := by
    decide
  have hvalues : ((square (.var "y")).evaluate env).toOption.isSome = true ∧
      (square (.ofNat 4)).value? env = (square (.var "y")).value? env := by
    decide
  obtain ⟨cs, hcs, hlength⟩ := Option.map_eq_some_iff.mp hsymbolic
  obtain ⟨_, hcs, rfl⟩ := Option.bind_eq_some_iff.mp hcs
  have hcs := toOption_eq_some.mp hcs
  obtain ⟨vs, hvs, hvlength⟩ := Option.map_eq_some_iff.mp hnumeric
  obtain ⟨v, hv⟩ := Option.isSome_iff_exists.mp hvalues.1
  have hv' : (square (.ofNat 4)).evaluate env = .ok v :=
    toOption_eq_some.mp (hvalues.2.trans hv)
  have hv := toOption_eq_some.mp hv
  have henv : ∀ y ∈ constants, variableValue env y = variableValue .empty y := by
    decide
  refine ⟨cs, vs, v, hcs, hvs, hlength, hvlength, hv, hv', ?_, ?_⟩
  · exact ((coefficients_exact Scalar.exact_rat Scalar.naturalPowers_rat _ _).1 _ _
      foldClosed_keepsVariables hcs).2 env 3 v rfl (foldClosed_keepsValuesAt henv) hv
  · exact ((coefficients_exact Scalar.exact_rat Scalar.naturalPowers_rat _ _).2 _ hvs).2 env 3 v rfl
      (fun y hy _ => henv y hy) hv'

end Folding

end Expr

end RuleAlgebra
