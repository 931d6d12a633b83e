import RuleAlgebra.Engine
import RuleAlgebra.Proofs.CalculusVariables
import RuleAlgebra.Proofs.InheritingRules
import RuleAlgebra.Proofs.LinearEquations
import RuleAlgebra.Proofs.SimplifierInvariants

/-!
The variables of answers. Simplifying and differentiating add none, integrating adds the variable of
integration and the constant, and the solutions of an equation do not contain the unknown.
-/

namespace RuleAlgebra

open RuleAlgebra.Expr RuleAlgebra.Traced

variable {α : Type} {s : Set String}

namespace Simplifier

theorem transformDown_within {f : Expr α → Except Failure (Expr α)} (hf : KeepsVariables f)
    (depth : Nat) {e : Expr α} (he : e.Within s) :
    Yields (Within s) (transformDown f depth e) := by
  induction depth generalizing e with
  | zero => trivial
  | succ depth ih =>
    rw [transformDown]
    apply (hf s e he).bind
    intro d hd
    cases d with
    | num v => exact hd
    | var x => exact hd
    | wild n k a => exact hd
    | op o l r =>
      obtain ⟨hl, hr⟩ := (within_op o l r).mp hd
      apply (ih hl).bind
      intro l' hl'
      apply (ih hr).bind
      intro r' hr'
      exact (within_op o l' r').mpr ⟨hl', hr'⟩
    | eq l r =>
      obtain ⟨hl, hr⟩ := (within_eq l r).mp hd
      apply (ih hl).bind
      intro l' hl'
      apply (ih hr).bind
      intro r' hr'
      exact (within_eq l' r').mpr ⟨hl', hr'⟩
    | fn g as =>
      have has := (within_fn g as).mp hd
      apply (outcome_forall_mapM fun a ha => ih (has a ha)).bind
      intro as' has'
      exact (within_fn g as').mpr has'

variable [Scalar α] {g : Simplifier α} (hg : g.library = .standard) {e : Expr α}
include hg

theorem run_within (form : TargetForm) (domain : NumberDomain) (limit : Nat) (he : e.Within s) :
    Ensures (g.run form domain limit e) (fun d => d.1.Within s) fun _ => True := by
  have hrules : ∀ r ∈ g.library.rules, KeepsVariables r.apply := by
    rw [hg]
    exact Library.standard_keepsVariables
  refine run_preserves ?_ ?_ limit he
  · intro r hr c hc
    exact (hrules r hr).transform c hc
  · intro _ r hr c hc
    exact transformDown_within (hrules r hr) maxDepth hc

theorem runLogged_within (he : e.Within s) :
    Ensures (g.runLogged e) (Within s) fun _ => True := by
  apply (run_within hg .plain .real g.maxSteps he).bind
  intro d hd
  exact ensures_pure hd

theorem simplify_keepsVariables : KeepsVariables g.simplify :=
  fun _ _ he => (runLogged_within hg he).result

end Simplifier

namespace Solver

variable [Scalar α] {x : String}

/-- All solutions have their variables among the names in `s`. -/
def SolutionsWithin (s : Set String) (sol : Solution α) : Prop := ∀ r ∈ sol.solutions, r.Within s

omit [Scalar α] in
theorem ListsNumbers.within {kind : EquationKind} {sol : Solution α} (h : ListsNumbers kind sol) :
    SolutionsWithin s sol := by
  obtain ⟨-, vs, hvs⟩ := h
  rw [SolutionsWithin, hvs]
  exact List.forall_mem_map.mpr fun v _ => within_num v

section Simplified

variable {g : Simplifier α} (hg : g.library = .standard)
include hg

theorem normalize_within {equation : Expr α} (h : equation.Within s) :
    Ensures (normalize g equation) (Within s) fun _ => True := by
  unfold normalize
  split
  · rename_i l r
    have hdifference : (op .sub l r).Within s := (within_op _ _ _).mpr ((within_eq l r).mp h)
    apply (ensures_step hdifference).bind
    intro d hd
    exact Simplifier.runLogged_within hg hd
  · exact Simplifier.runLogged_within hg h

theorem simplified_within {raw : Expr α} (h : raw.Within s) (rule explanation : String) :
    Ensures (g.runLogged raw >>= fun solution => logSolve raw solution rule explanation) (Within s)
      fun _ => True := by
  apply (Simplifier.runLogged_within hg h).bind
  intro solution hsolution
  exact ensures_step hsolution

theorem solveLinear_within {cs : List (Expr α)} (hcs : ∀ c ∈ cs, c.Within s) :
    Ensures (solveLinear g cs x) (SolutionsWithin s) fun _ => True := by
  unfold solveLinear
  split
  · rename_i b a
    have hraw : (op .div (negative b) a).Within s := by
      simp [hcs b (by simp), hcs a (by simp)]
    apply (Simplifier.runLogged_within hg hraw).bind
    intro solution hsolution
    apply ensures_after
    intro _
    exact ensures_pure (List.forall_mem_singleton.mpr hsolution)
  · exact ensures_pure (List.forall_mem_nil _)

end Simplified

variable {g : Solver α} (hg : g.simplifier.library = .standard)
include hg

theorem solveQuadratic_within {a b c : Expr α} (ha : a.Within s) (hb : b.Within s)
    (hc : c.Within s) : Ensures (g.solveQuadratic a b c x) (SolutionsWithin s) fun _ => True := by
  unfold solveQuadratic
  split
  · refine ensures_after _ fun polynomial => ensures_after _ fun _ => ?_
    split_ifs
    · exact ensures_pure (List.forall_mem_nil _)
    · exact ensures_after _ fun roots => (numbers_lists x _ _).mono fun _ h => h.within
  · have hroot (o : Arithmetic) : (op .div (op o (negative b) (fn "sqrt"
        [op .sub (squared b) (op .mul (op .mul (Expr.ofNat 4) a) c)]))
        (op .mul (Expr.ofNat 2) a)).Within s := by simp [ha, hb, hc]
    have hformula (o : Arithmetic) (explanation : String) :=
      simplified_within hg (hroot o) "quadratic-formula" explanation
    apply (hformula .sub _).bind
    intro first hfirst
    apply (hformula .add _).bind
    intro second hsecond
    apply ensures_pure
    exact List.forall_mem_cons.mpr ⟨hfirst, List.forall_mem_singleton.mpr hsecond⟩

theorem solve_within {equation : Expr α} (h : equation.Within s) :
    Ensures (g.solve equation x) (SolutionsWithin (s \ {x})) fun _ => True := by
  apply (normalize_within hg h).bind
  intro e he
  have hcoefficients :=
    symbolicCoefficients_within (x := x) (Simplifier.simplify_keepsVariables hg) he
  apply (ensures_lift hcoefficients).bind
  intro cs hcs
  split
  · exact (g.solveTranscendental_lists x e).mono fun _ h => h.within
  · rename_i c b a
    have hall := hcs [c, b, a] rfl
    exact solveQuadratic_within hg (hall a (by simp)) (hall b (by simp)) (hall c (by simp))
  · split_ifs
    · exact solveLinear_within hg (hcs _ rfl)
    · exact (g.solvePolynomial_lists x _).mono fun _ h => h.within

end Solver

namespace Engine

section Answers

variable [Scalar α]

theorem answer_ensures {P : Expr α → Prop} {source : String} {initial result : Expr α}
    {settled : Bool} {details : Details α} {numeric : Option α} (h : P result) :
    Ensures (answer source initial settled details numeric result) (fun a => P a.result)
      fun _ => True := fun _ => h

variable {g : Engine α} (hg : g.simplifier.library = .standard) {input : Input α} {e : Expr α}
  {x : String}
include hg

theorem simplify_within (he : Yields (Within s) input.expr) (maxSteps : Option Int)
    (form : Option String) (domain : String) :
    Ensures (g.simplify input maxSteps form domain) (fun a => a.result.Within s) fun _ => True := by
  apply (ensures_lift he).bind
  intro e he
  refine ensures_after _ fun form => ensures_after _ fun domain => ?_
  apply (Simplifier.run_within hg form domain _ he).recording.bind
  intro d hd
  exact answer_ensures hd

theorem differentiate_within (he : Yields (Within s) input.expr) (order : Int) :
    Ensures (g.differentiate input x order) (fun a => a.result.Within s) fun _ => True := by
  unfold differentiate
  split_ifs
  · exact ensures_throw trivial
  · apply (ensures_lift he).bind
    intro e he
    have hresult := (derivativeTimes_within (x := x) order.toNat he).bind fun derived hderived =>
      Simplifier.run_within hg .plain .real g.simplifier.maxSteps hderived
    apply hresult.recording.bind
    intro d hd
    exact answer_ensures hd

theorem integrate_within (he : Yields (Within s) input.expr) (hx : x ∈ s) (hC : constantName ∈ s)
    (bounds : Option (α × α)) :
    Ensures (g.integrate input x bounds) (fun a => a.result.Within s) fun _ => True := by
  apply (ensures_lift he).bind
  intro e he
  have hsimplify := Simplifier.simplify_keepsVariables hg
  have hresult := (antiderivative_within hsimplify hx e he).bind fun raw hraw =>
    Simplifier.run_within hg .plain .real g.simplifier.maxSteps hraw
  apply hresult.recording.bind
  rintro ⟨anti, settled⟩ (hanti : anti.Within s)
  cases bounds with
  | none =>
    have hresult : (op .add anti (var constantName)).Within s := by simp [hanti, hC]
    apply (ensures_step hresult).bind
    intro d hd
    exact answer_ensures hd
  | some bounds =>
    have hbound (v : α) : (anti.substitute x (num v)).Within s :=
      substitute_within (within_num v) anti (hanti.mono (Set.subset_insert x s))
    apply (ensures_step ((within_op .sub _ _).mpr ⟨hbound bounds.2, hbound bounds.1⟩)).bind
    intro difference hdifference
    generalize boundsValue anti _ _ = value
    obtain ⟨numeric, status⟩ := value
    cases numeric with
    | some v => exact answer_ensures (within_num v)
    | none =>
      apply (Simplifier.runLogged_within hg hdifference).bind
      intro d hd
      exact answer_ensures hd

theorem solve_within (he : Yields (Within s) input.expr) (allowNumeric : Option Bool) :
    Ensures (g.solve input x allowNumeric) (Solver.SolutionsWithin (s \ {x})) fun _ => True := by
  have hsolver : Yields (fun k => k.simplifier.library = .standard) (g.solver allowNumeric) := by
    unfold solver Solver.create
    split_ifs
    · exact hg
    · trivial
  apply (ensures_lift he).bind
  intro e he
  apply Ensures.recording
  apply (ensures_lift hsolver).bind
  intro k hk
  exact Solver.solve_within hk he

/-- Answers have no variables but those of the input: those of an integral may also be the variable
of integration and the constant, and those of a solution are not the unknown. -/
theorem answers_keep_variables (he : input.expr = .ok e) (x : String) :
    (∀ maxSteps form domain a, (g.simplify input maxSteps form domain).result = .ok a →
        ∀ y ∈ a.result.variableNames, y ∈ e.variableNames) ∧
      (∀ order a, (g.differentiate input x order).result = .ok a →
        ∀ y ∈ a.result.variableNames, y ∈ e.variableNames) ∧
      (∀ bounds a, (g.integrate input x bounds).result = .ok a →
        ∀ y ∈ a.result.variableNames, y ∈ e.variableNames ∨ y = x ∨ y = constantName) ∧
      ∀ allowNumeric sol, (g.solve input x allowNumeric).result = .ok sol →
        ∀ r ∈ sol.solutions, x ∉ r.variableNames ∧ ∀ y ∈ r.variableNames, y ∈ e.variableNames := by
  have hinput : Yields (Within {y | y ∈ e.variableNames}) input.expr := by
    rw [he]
    exact within_iff.mpr fun y hy => hy
  refine ⟨?_, ?_, ?_, ?_⟩
  · intro maxSteps form domain a h
    have ha := (simplify_within hg hinput maxSteps form domain).result
    rw [h] at ha
    exact within_iff.mp ha
  · intro order a h
    have ha := (differentiate_within (x := x) hg hinput order).result
    rw [h] at ha
    exact within_iff.mp ha
  · intro bounds a h
    have hinput' : Yields (Within (insert x (insert constantName {y | y ∈ e.variableNames})))
        input.expr := hinput.mono fun d hd => hd.mono fun y hy =>
      Set.mem_insert_of_mem x (Set.mem_insert_of_mem constantName hy)
    have ha := (integrate_within hg hinput' (Set.mem_insert x _)
      (Set.mem_insert_of_mem x (Set.mem_insert constantName _)) bounds).result
    rw [h] at ha
    intro y hy
    rcases within_iff.mp ha y hy with hyx | hyC | hye
    · exact Or.inr (Or.inl hyx)
    · exact Or.inr (Or.inr hyC)
    · exact Or.inl hye
  · intro allowNumeric sol h r hr
    have hsol := (solve_within (x := x) hg hinput allowNumeric).result
    rw [h] at hsol
    have hnames := within_iff.mp (hsol r hr)
    exact ⟨fun hx => (hnames x hx).2 rfl, fun y hy => (hnames y hy).1⟩

end Answers

def rational : Engine Rat := .standard ⟨id, fun u _ => u, fun _ => [], fun _ u _ => .ok u⟩

-- exact arithmetic is computed, so the operations on fractions have to unfold
attribute [local semireducible] Rat.add Rat.sub Rat.mul Rat.inv

theorem answers_keep_variables_of_line :
    let e : Expr Rat := .op .sub (.op .mul (.var "a") (.var "x")) (.var "b")
    (rational.simplify (.tree e) none none "real").result.toOption.map (·.result.variableNames) =
        some ["a", "x", "b"] ∧
      (rational.differentiate (.tree e) "x" 1).result.toOption.map (·.result.variableNames) =
        some ["a"] ∧
      (rational.integrate (.tree e) "x" none).result.toOption.map (·.result.variableNames) =
        some ["a", "x", "b", "C"] ∧
      (rational.solve (.tree e) "x" none).result.toOption.map (·.solutions.map variableNames) =
        some [["b", "a"]] ∧
      (∀ maxSteps form domain a, (rational.simplify (.tree e) maxSteps form domain).result = .ok a →
        ∀ y ∈ a.result.variableNames, y ∈ e.variableNames) ∧
      (∀ order a, (rational.differentiate (.tree e) "x" order).result = .ok a →
        ∀ y ∈ a.result.variableNames, y ∈ e.variableNames) ∧
      (∀ bounds a, (rational.integrate (.tree e) "x" bounds).result = .ok a →
        ∀ y ∈ a.result.variableNames, y ∈ e.variableNames ∨ y = "x" ∨ y = constantName) ∧
      ∀ allowNumeric sol, (rational.solve (.tree e) "x" allowNumeric).result = .ok sol →
        ∀ r ∈ sol.solutions, "x" ∉ r.variableNames ∧
          ∀ y ∈ r.variableNames, y ∈ e.variableNames := by
  intro e
  have hlibrary : rational.simplifier.library = .standard := rfl
  have he : (Input.tree e).expr = .ok e := rfl
  refine ⟨?_, ?_, ?_, ?_, answers_keep_variables hlibrary he "x"⟩
  · decide
  · decide
  · decide
  · decide

end Engine

end RuleAlgebra
