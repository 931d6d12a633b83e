import RuleAlgebra.Equation.Solver
import RuleAlgebra.Proofs.LinearArguments
import RuleAlgebra.Proofs.SimplifierResults
import RuleAlgebra.Proofs.SimplifierSoundness

/-!
Linear equations. Both sides of an equation differ by the value of its normal form, whose simplified
coefficients are the intercept and the slope; where the slope is not zero, the solution is the only
value of the unknown at which the sides are equal.
-/

namespace RuleAlgebra

namespace Expr

variable {ρ : String → Rat} {x : String} {v : Rat}

theorem rational_update : ∀ {e : Expr Rat}, e.contains x = false →
    (e.Defined (.rational (Function.update ρ x v)) ↔ e.Defined (.rational ρ)) ∧
      e.eval (.rational (Function.update ρ x v)) = e.eval (.rational ρ)
  | num q, _ => by simp
  | var y, h => by
    have hy : y ≠ x := by simpa [contains] using h
    simp [Interpretation.rational, hy]
  | op o l r, h => by
    obtain ⟨hl, hr⟩ : l.contains x = false ∧ r.contains x = false := by
      simpa [contains] using h
    obtain ⟨dl, el⟩ := rational_update hl
    obtain ⟨dr, er⟩ := rational_update hr
    simp only [Defined, eval, el, er, dl, dr]
    exact ⟨Iff.rfl, rfl⟩
  | fn f as, _ => by simp [Interpretation.rational]
  | eq l r, _ => by simp [eval]
  | wild n k a, _ => by simp [eval]

end Expr

namespace Simplifier

theorem simplify_refines {s : Simplifier Rat} (hs : s.library = .standard) (ρ : String → Rat)
    {e d : Expr Rat} (h : s.simplify e = .ok d) : Expr.Refines (.rational ρ) e d := by
  have hrun : Traced.Ensures (s.runLogged e) (Expr.Refines (.rational ρ) e) fun _ => True :=
    ((run_ensures (rules_keepValue hs ρ) .plain .real s.maxSteps e).weaken fun _ _ => trivial).bind
      fun d hd => Traced.ensures_pure hd
  have hresult := hrun.result
  rw [show (s.runLogged e).result = .ok d from h] at hresult
  exact hresult

end Simplifier

namespace Solver

open Traced

section Kinds

variable {α : Type} [Scalar α] (s : Solver α) (x : String)

theorem normalize_logFree (s : Simplifier α) (equation : Expr α) :
    LogFree (normalize s equation) := by
  unfold normalize
  split
  · exact (logFree_step _ _ _ _ _).bind fun d => s.runLogged_logFree d
  · exact s.runLogged_logFree equation

/-- The solution of an equation of a kind, with nothing but numbers in it. -/
def ListsNumbers (kind : EquationKind) (sol : Solution α) : Prop :=
  sol.kind = kind ∧ ∃ vs : List α, sol.solutions = vs.map .num

theorem numbers_lists (vs : List α) (kind : EquationKind) :
    Ensures (lift (numbers vs) >>= fun solutions =>
      (pure (Solution.ofOne x solutions kind .real) : Traced α (Solution α)))
      (ListsNumbers kind) fun _ => True := by
  have hnumbers : Outcome (∃ us : List α, · = us.map .num) (fun _ => True) (numbers vs) :=
    outcome_after _ fun us => ⟨us, rfl⟩
  apply (ensures_lift hnumbers).bind
  intro solutions hsolutions
  exact ensures_pure ⟨rfl, hsolutions⟩

theorem solveQuadratic_kind (a b c : Expr α) :
    Ensures (s.solveQuadratic a b c x) (·.kind = .quadratic) fun _ => True := by
  unfold solveQuadratic
  split
  · refine ensures_after _ fun polynomial => ensures_after _ fun _ => ?_
    split_ifs
    · exact ensures_pure rfl
    · exact ensures_after _ fun roots => (numbers_lists x _ _).mono fun sol hsol => hsol.1
  · exact ensures_after _ fun first => ensures_after _ fun second => ensures_pure rfl

theorem solvePolynomial_lists (coeffs : List (Expr α)) :
    Ensures (s.solvePolynomial coeffs x) (ListsNumbers .polynomial) fun _ => True := by
  unfold solvePolynomial
  split
  · exact ensures_throw trivial
  · refine ensures_after _ fun split => ensures_after _ fun found => ensures_after _ fun left => ?_
    split
    · refine ensures_after _ fun before => ensures_after _ fun after => ensures_after _ fun _ => ?_
      exact ensures_after _ fun others => ensures_after _ fun all => numbers_lists x _ _
    · exact ensures_after _ fun others => ensures_after _ fun all => numbers_lists x _ _

theorem solveTranscendental_lists (e : Expr α) :
    Ensures (s.solveTranscendental e x) (ListsNumbers .transcendental) fun _ => True := by
  unfold solveTranscendental
  split
  · exact ensures_throw trivial
  · dsimp only
    split_ifs
    · exact ensures_throw trivial
    · exact ensures_throw trivial
    · -- the search itself stays closed: unification would list its sample points
      generalize s.scan e x = found
      exact ensures_after _ fun roots => ensures_after _ fun _ => numbers_lists x _ _

end Kinds

/-- Both sides of an equation; an expression is read as being equal to zero. -/
def sides : Expr Rat → Expr Rat × Expr Rat
  | .eq l r => (l, r)
  | e => (e, Expr.ofNat 0)

/-- The simplified coefficients of the normal form of an equation, if it is a polynomial in the
unknown. -/
def coefficients (s : Simplifier Rat) (equation : Expr Rat) (x : String) :
    Except Failure (Option (List (Expr Rat))) := do
  let e ← (normalize s equation).result
  e.symbolicCoefficients x s.simplify

section Linear

variable {s : Solver Rat} {equation : Expr Rat} {x : String}

theorem solveLinear_ensures (s : Simplifier Rat) (cs : List (Expr Rat)) (x : String) :
    Ensures (solveLinear s cs x)
      (fun sol => ∀ r, sol.solutions = [r] → ∃ b a, cs = [b, a] ∧
        s.simplify (.op .div (Expr.negative b) a) = .ok r) fun _ => True := by
  unfold solveLinear
  split
  · rename_i b a
    apply (s.runLogged_logFree _).bind_ensures
    intro solution hsolution
    refine ensures_after _ fun _ => ensures_pure ?_
    intro r hr
    obtain rfl : solution = r := by simpa [Solution.ofOne] using hr
    exact ⟨b, a, rfl, hsolution⟩
  · apply ensures_pure
    intro r hr
    simp [Solution.ofOne] at hr

theorem solve_linear_source (s : Solver Rat) (equation : Expr Rat) (x : String)
    {P : List (Expr Rat) → Solution Rat → Prop}
    (hP : ∀ cs : List (Expr Rat), cs.length ≤ 2 →
      Ensures (solveLinear s.simplifier cs x) (P cs) fun _ => True) :
    Ensures (s.solve equation x)
      (fun sol => sol.kind = .linear →
        ∃ cs, coefficients s.simplifier equation x = .ok (some cs) ∧ P cs sol) fun _ => True := by
  apply (normalize_logFree s.simplifier equation).bind_ensures
  intro e he
  have hlift : Ensures (lift (e.symbolicCoefficients x s.simplifier.simplify) :
      Traced Rat (Option (List (Expr Rat))))
      (coefficients s.simplifier equation x = .ok ·) fun _ => True := by
    unfold coefficients
    rw [he, ok_bind]
    have hresult := (logFree_lift (α := Rat) (e.symbolicCoefficients x s.simplifier.simplify)).ensures
    rw [result_lift] at hresult
    exact hresult.weaken fun _ _ => trivial
  apply hlift.bind
  intro cs hcs
  split
  · exact (s.solveTranscendental_lists x e).mono fun sol hsol h => by simp [hsol.1] at h
  · exact (s.solveQuadratic_kind x _ _ _).mono fun sol hsol h => by simp [hsol] at h
  · split_ifs with hlength
    · exact (hP _ hlength).mono fun sol hsol _ => ⟨_, hcs, hsol⟩
    · exact (s.solvePolynomial_lists x _).mono fun sol hsol h => by simp [hsol.1] at h

theorem solve_linear_ensures (s : Solver Rat) (equation : Expr Rat) (x : String) :
    Ensures (s.solve equation x)
      (fun sol => sol.kind = .linear → ∀ r, sol.solutions = [r] →
        ∃ b a, coefficients s.simplifier equation x = .ok (some [b, a]) ∧
          s.simplifier.simplify (.op .div (Expr.negative b) a) = .ok r) fun _ => True := by
  apply (s.solve_linear_source equation x fun cs _ => solveLinear_ensures s.simplifier cs x).mono
  intro sol hsol hkind r hr
  obtain ⟨cs, hcs, hsource⟩ := hsol hkind
  obtain ⟨b, a, rfl, hsimp⟩ := hsource r hr
  exact ⟨b, a, hcs, hsimp⟩

end Linear

section Values

variable {s : Simplifier Rat} (hs : s.library = .standard) {equation e : Expr Rat} {x : String}
  {ρ : String → Rat}
include hs

theorem normalize_eval (h : (normalize s equation).result = .ok e)
    (hl : (sides equation).1.Defined (.rational ρ)) (hr : (sides equation).2.Defined (.rational ρ)) :
    e.Defined (.rational ρ) ∧ e.eval (.rational ρ) =
      (sides equation).1.eval (.rational ρ) - (sides equation).2.eval (.rational ρ) := by
  unfold normalize at h
  split at h
  · rename_i l r
    rw [result_bind s.runLogged_logFree, result_step, ok_bind] at h
    have hdifference := Simplifier.simplify_refines hs ρ h ((Expr.defined_sub _ l r).mpr ⟨hl, hr⟩)
    rwa [Expr.eval_sub] at hdifference
  · rename_i e' hne
    have hsides : sides equation = (equation, Expr.ofNat 0) := by
      unfold sides
      split
      · exact absurd rfl (hne _ _)
      · rfl
    rw [hsides] at hl ⊢
    simpa using Simplifier.simplify_refines hs ρ h hl

/-- Where both sides have a value, their difference is that of intercept and slope, which do not
depend on the unknown. -/
theorem coefficients_eval {b a : Expr Rat} {v : Rat}
    (h : coefficients s equation x = .ok (some [b, a]))
    (hl : (sides equation).1.Defined (.rational (Function.update ρ x v)))
    (hr : (sides equation).2.Defined (.rational (Function.update ρ x v))) :
    (b.Defined (.rational ρ) ∧ a.Defined (.rational ρ)) ∧
      b.eval (.rational ρ) + v * a.eval (.rational ρ) =
        (sides equation).1.eval (.rational (Function.update ρ x v)) -
          (sides equation).2.eval (.rational (Function.update ρ x v)) := by
  obtain ⟨e, he, hcs⟩ := bind_eq_ok.mp h
  obtain ⟨hdefined, hvalue⟩ := normalize_eval hs he hl hr
  obtain ⟨ds, bs, htrim, hsimp, hfree, hall⟩ := Expr.symbolicCoefficients_sources (K := Rat) hcs
  have hpowers := Interpretation.rational_powerLaws (Function.update ρ x v)
  obtain ⟨hds, hsum⟩ := hall _ (fun u n _ => (hpowers.nat u n).2) hdefined
  have hsame : List.Forall₂ (fun d c => c.Defined (.rational ρ) ∧
      c.eval (.rational ρ) = d.eval (.rational (Function.update ρ x v))) ds bs := by
    apply ((List.forall₂_and_left ds bs).mpr ⟨fun _ hd => hd, hsimp⟩).imp
    rintro d c ⟨hd, hc⟩
    obtain ⟨hdef, heval⟩ := Expr.rational_update (ρ := ρ) (v := v) (hfree d hd)
    rw [heval]
    rcases hc with hc | ⟨rfl, rfl⟩
    · exact Simplifier.simplify_refines hs ρ hc (hdef.mp (hds d hd))
    · simp
  have hmap := map_eq_of_forall₂ hsame fun d c hc => hc.2
  have hmem := forall_mem_of_forall₂ hsame fun d c hc => hc.1
  have hsub : ∀ c ∈ [b, a], c ∈ bs := fun c hc => Expr.mem_trimEnd (htrim ▸ hc)
  refine ⟨⟨hmem b (hsub b (by simp)), hmem a (hsub a (by simp))⟩, ?_⟩
  have hassign : (Interpretation.rational (Function.update ρ x v)).assign x = v := by
    simp [Interpretation.rational]
  rw [hassign, ← hmap, ← Expr.ascendingValue_trimmed, ← htrim, hvalue] at hsum
  simpa [ascendingValue] using hsum

end Values

/-- Where the slope is not zero, the solution of a linear equation has a value, and it is the only
value of the unknown at which both sides are equal. -/
theorem solve_linear_exact {s : Solver Rat} (hs : s.simplifier.library = .standard)
    {equation r : Expr Rat} {x : String} {sol : Solution Rat}
    (h : (s.solve equation x).result = .ok sol) (hkind : sol.kind = .linear)
    (hr : sol.solutions = [r]) :
    ∃ b a : Expr Rat, coefficients s.simplifier equation x = .ok (some [b, a]) ∧
      s.simplifier.simplify (.op .div (Expr.negative b) a) = .ok r ∧
      ∀ (ρ : String → Rat) (v : Rat), a.eval (.rational ρ) ≠ 0 →
        (sides equation).1.Defined (.rational (Function.update ρ x v)) →
        (sides equation).2.Defined (.rational (Function.update ρ x v)) →
        a.Defined (.rational ρ) ∧ r.Defined (.rational ρ) ∧
          ((sides equation).1.eval (.rational (Function.update ρ x v)) =
            (sides equation).2.eval (.rational (Function.update ρ x v)) ↔
              v = r.eval (.rational ρ)) := by
  have hsolve := (solve_linear_ensures s equation x).result
  rw [h] at hsolve
  obtain ⟨b, a, hcoefficients, hsimp⟩ := hsolve hkind r hr
  refine ⟨b, a, hcoefficients, hsimp, fun ρ v ha hl hr => ?_⟩
  obtain ⟨⟨hbd, had⟩, hvalue⟩ := coefficients_eval hs hcoefficients hl hr
  have hraw : (Expr.op .div (Expr.negative b) a).Defined (.rational ρ) := by
    simp [Expr.negative, hbd, had, ha]
  obtain ⟨hrd, hre⟩ := Simplifier.simplify_refines hs ρ hsimp hraw
  refine ⟨had, hrd, ?_⟩
  have hsolution : r.eval (.rational ρ) = -b.eval (.rational ρ) / a.eval (.rational ρ) := by
    rw [hre]
    simp [Expr.negative]
  rw [hsolution, eq_div_iff ha, ← sub_eq_zero, ← hvalue]
  constructor
  · intro h0
    linarith
  · intro h0
    linarith

-- exact arithmetic is computed, so the operations on fractions have to unfold
attribute [local semireducible] Rat.add Rat.sub Rat.mul Rat.inv

theorem solve_linear_exact_of_parameter :
    let s : Solver Rat := ⟨⟨.standard, 50⟩, ⟨id, fun u _ => u, fun _ => [], fun _ u _ => .ok u⟩,
      false, -10, 10, 1 / 1000000000000⟩
    let a : Expr Rat := .var "a"
    let x : Expr Rat := .var "x"
    let equation : Expr Rat := .eq (.op .mul a (.op .add x (.ofNat 1))) (.op .div x (.ofNat 2))
    ∃ sol r, (s.solve equation "x").result = .ok sol ∧ sol.kind = .linear ∧ sol.solutions = [r] ∧
      r.eval (.rational fun _ => 1) = -2 ∧
      ∃ b a : Expr Rat, coefficients s.simplifier equation "x" = .ok (some [b, a]) ∧
      s.simplifier.simplify (.op .div (Expr.negative b) a) = .ok r ∧
      ∀ (ρ : String → Rat) (v : Rat), a.eval (.rational ρ) ≠ 0 →
        (sides equation).1.Defined (.rational (Function.update ρ "x" v)) →
        (sides equation).2.Defined (.rational (Function.update ρ "x" v)) →
        a.Defined (.rational ρ) ∧ r.Defined (.rational ρ) ∧
          ((sides equation).1.eval (.rational (Function.update ρ "x" v)) =
            (sides equation).2.eval (.rational (Function.update ρ "x" v)) ↔
              v = r.eval (.rational ρ)) := by
  intro s a x equation
  let r : Expr Rat := .op .div (.negative a) (.op .sub a (.op .div (.ofNat 1) (.ofNat 2)))
  have hrun : ((s.solve equation "x").result.toOption.map fun sol =>
      sol.kind == .linear && sol.solutions == [r]) = some true := by
    decide
  cases h : (s.solve equation "x").result with
  | error f => simp [h, Except.toOption] at hrun
  | ok sol =>
    obtain ⟨hkind, hsolutions⟩ : sol.kind = .linear ∧ sol.solutions = [r] := by
      simpa [h, Except.toOption] using hrun
    refine ⟨sol, r, rfl, hkind, hsolutions, ?_, solve_linear_exact rfl h hkind hsolutions⟩
    simp [r, a, Expr.negative, Interpretation.rational]
    norm_num

end Solver

end RuleAlgebra
