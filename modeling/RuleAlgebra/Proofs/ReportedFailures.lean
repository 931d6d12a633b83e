import RuleAlgebra.Proofs.AnswerVariables
import RuleAlgebra.Proofs.CarriedSteps
import RuleAlgebra.Proofs.LoadedRules
import RuleAlgebra.Proofs.OverflowingRuns

/-!
The failures of the entry points. A fault of the engine carries exactly the steps that the call has
logged, wherever it was raised.
-/

namespace RuleAlgebra

open RuleAlgebra.Traced

variable {α : Type}

namespace Expr

variable [Scalar α] {x : String}

theorem derivative_carried : ∀ e : Expr α, Logs Carried (derivative x e)
  | num _ => logs_pure _
  | var _ => logs_pure _
  | wild _ _ _ => carried_throw _
  | eq l r => by
    rw [derivative]
    apply (derivative_carried l).bind
    intro l'
    apply (derivative_carried r).bind
    intro r'
    exact logs_pure _
  | op o a b => by
    have da := derivative_carried a
    have db := derivative_carried b
    unfold derivative
    dsimp only
    split
    · exact logs_step _ _ _ _ _
    cases o with
    | add | sub => exact da.thenStep₂ db
    | mul => exact da.thenStep₂ db
    | div => exact da.thenStep₂ db
    | pow =>
      dsimp only
      split_ifs
      · exact da.thenStep
      · exact db.thenStep
      · exact db.thenStep₂ da
  | fn f as => by
    unfold derivative
    split
    · exact logs_step _ _ _ _ _
    rcases as with _ | ⟨u, _ | ⟨v, as⟩⟩
    · exact carried_throw _
    · dsimp only
      split
      · exact carried_throw _
      · exact (derivative_carried u).thenStep
    · exact carried_throw _

theorem derivativeTimes_carried (order : Nat) (e : Expr α) :
    Logs Carried (derivativeTimes x order e) := by
  induction order generalizing e with
  | zero => exact logs_pure e
  | succ order ih => exact (derivative_carried e).bind ih

section Integrals

variable {simplify : Expr α → Except Failure (Expr α)}

theorem slope?_carried (e : Expr α) : Logs Carried (slope? simplify x e) :=
  (carried_lift _).bind fun _ => logs_pure _

theorem powerIntegral_carried (a b : Expr α) : Logs Carried (powerIntegral simplify x a b) := by
  apply (slope?_carried a).bind
  rintro (_ | k)
  · exact logs_step _ _ _ _ _
  · dsimp only
    split_ifs
    · exact logs_step _ _ _ _ _
    · exact logs_step _ _ _ _ _

theorem secantSquare?_carried (a b : Expr α) : Logs Carried (secantSquare? simplify x a b) := by
  unfold secantSquare?
  split
  · split_ifs
    · apply (slope?_carried _).bind
      rintro (_ | k)
      · exact logs_pure _
      · exact (logs_step _ _ _ _ _).bind fun _ => logs_pure _
    · exact logs_pure _
  · exact logs_pure _

theorem baseIntegral_carried (a b : Expr α) : Logs Carried (baseIntegral simplify x a b) := by
  apply (secantSquare?_carried a b).bind
  rintro (_ | r)
  · exact powerIntegral_carried a b
  · exact logs_pure r

theorem exponentialIntegral_carried (a b : Expr α) :
    Logs Carried (exponentialIntegral simplify x a b) := by
  apply (slope?_carried b).bind
  rintro (_ | k)
  · exact logs_step _ _ _ _ _
  · exact logs_step _ _ _ _ _

theorem anyPowerIntegral_carried (a b : Expr α) :
    Logs Carried (anyPowerIntegral simplify x a b) := by
  unfold anyPowerIntegral
  split_ifs
  · exact baseIntegral_carried a b
  · exact exponentialIntegral_carried a b
  · exact logs_step _ _ _ _ _

theorem reciprocalIntegral_carried (a b : Expr α) :
    Logs Carried (reciprocalIntegral simplify x a b) := by
  apply (slope?_carried b).bind
  rintro (_ | k)
  · dsimp only
    split
    · apply (logs_step _ _ _ _ _).bind
      intro product
      exact (anyPowerIntegral_carried _ _).thenStep
    · exact logs_step _ _ _ _ _
  · exact logs_step _ _ _ _ _

theorem functionIntegral_carried (f : String) (as : List (Expr α)) :
    Logs Carried (functionIntegral simplify x f as) := by
  unfold functionIntegral
  split
  · split
    · exact logs_step _ _ _ _ _
    · apply (slope?_carried _).bind
      rintro (_ | k)
      · exact logs_step _ _ _ _ _
      · exact logs_step _ _ _ _ _
  · exact logs_step _ _ _ _ _

theorem antiderivative_carried : ∀ e : Expr α, Logs Carried (antiderivative simplify x e)
  | eq _ _ => carried_throw _
  | num _ => logs_step _ _ _ _ _
  | wild _ _ _ => logs_step _ _ _ _ _
  | var y => by
    unfold antiderivative
    split_ifs
    · exact logs_step _ _ _ _ _
    · exact logs_step _ _ _ _ _
  | fn f as => by
    unfold antiderivative
    split_ifs
    · exact functionIntegral_carried f as
    · exact logs_step _ _ _ _ _
  | op o a b => by
    have da := antiderivative_carried a
    have db := antiderivative_carried b
    unfold antiderivative
    dsimp only
    split
    · exact logs_step _ _ _ _ _
    cases o with
    | add | sub => exact da.thenStep₂ db
    | mul =>
      dsimp only
      split_ifs
      · exact db.thenStep
      · exact da.thenStep
      · exact logs_step _ _ _ _ _
    | div =>
      dsimp only
      split_ifs
      · exact da.thenStep
      · exact reciprocalIntegral_carried a b
      · exact logs_step _ _ _ _ _
    | pow => exact anyPowerIntegral_carried a b

end Integrals

end Expr

section Parts

variable {F : Failure → Prop} {f : Expr α → Except Failure (Expr α)}

mutual

theorem Expr.transform_fails (hf : ∀ e, Outcome (fun _ => True) F (f e)) :
    ∀ e : Expr α, Outcome (fun _ => True) F (e.transform f)
  | .num v => hf (.num v)
  | .var x => hf (.var x)
  | .wild n k a => hf (.wild n k a)
  | .op o l r => by
    rw [Expr.transform]
    apply (transform_fails hf l).bind
    intro l' _
    apply (transform_fails hf r).bind
    intro r' _
    exact hf (.op o l' r')
  | .eq l r => by
    rw [Expr.transform]
    apply (transform_fails hf l).bind
    intro l' _
    apply (transform_fails hf r).bind
    intro r' _
    exact hf (.eq l' r')
  | .fn g as => by
    rw [Expr.transform]
    apply (transformArgs_fails hf as).bind
    intro as' _
    exact hf (.fn g as')

theorem Expr.transformArgs_fails (hf : ∀ e, Outcome (fun _ => True) F (f e)) :
    ∀ as : List (Expr α), Outcome (fun _ => True) F (Expr.transformArgs f as)
  | [] => trivial
  | a :: as => by
    rw [Expr.transformArgs]
    apply (transform_fails hf a).bind
    intro a' _
    apply (transformArgs_fails hf as).bind
    intro as' _
    trivial

end

end Parts

namespace Library

/-- No rule fails with a fault of the engine; arithmetic may still fail in a rule. -/
def NeverFaults (l : Library α) : Prop :=
  ∀ r ∈ l.rules, ∀ e fault, r.apply e ≠ .error (.engine fault)

theorem standard_neverFaults [Scalar α] (hα : Scalar.Ranged α) :
    (standard : Library α).NeverFaults := by
  intro r hr e fault hfails
  cases ((standard_overflows hα r hr e).error hfails).1

/-- Rules that are read from a text never fail at all. -/
theorem NeverFaults.load [Scalar α] {l l' : Library α} {text : String} (h : l.NeverFaults)
    (hload : l.load text = .ok l') : l'.NeverFaults := by
  obtain ⟨rs, hrs, hl'⟩ := bind_eq_ok.mp hload
  obtain rfl := Except.ok.inj hl'
  intro r hr
  rw [addAll_rules, List.mem_append] at hr
  rcases hr with hr | hr
  · exact h r hr
  · obtain ⟨info, p, s, rfl, hs⟩ := RuleText.rulesFrom_bound hrs r hr
    intro e fault hfails
    obtain ⟨d, hd⟩ := patternRule_result hs e
    cases hd.symm.trans hfails

theorem NeverFaults.transform {l : Library α} (h : l.NeverFaults) {r : Rule α}
    (hr : r ∈ l.rules) {e : Expr α} {f : Failure} (hfails : e.transform r.apply = .error f)
    (steps : List (Step α)) : Reported ⟨f, []⟩ steps := by
  have hnode (e : Expr α) :
      Outcome (fun _ => True) (fun f => ∀ fault, f ≠ .engine fault) (r.apply e) := by
    cases hd : r.apply e with
    | ok d => trivial
    | error f =>
      rintro fault rfl
      exact h r hr e fault hd
  have htree := Expr.transform_fails hnode e
  rw [hfails] at htree
  intro fault hfault
  exact absurd hfault (htree fault)

end Library

namespace Simplifier

section Runs

variable [BEq α] {C : Raised α → List (Step α) → Prop} {s : Simplifier α}

theorem record_logs (category : String) (r : Rule α) (e d : Expr α) :
    Logs C (record category r e d) := by
  unfold record
  split_ifs
  · exact logs_pure e
  · exact logs_step _ _ _ _ _

variable (hC : ∀ r ∈ s.library.rules, ∀ (e : Expr α) f steps,
  e.transform r.apply = .error f → C ⟨f, []⟩ steps)
include hC

theorem pass_logs (domain : NumberDomain) (categories : List String) (e : Expr α) :
    Logs C (s.pass domain categories e) := by
  apply logs_foldlM
  intro c category _
  apply logs_foldlM
  intro d r hr
  apply (logs_lift (hC r (mem_rules hr) d)).bind
  intro d'
  exact record_logs category r d d'

theorem fixpoint_logs (domain : NumberDomain) (categories : List String) (limit : Nat)
    (e : Expr α) : Logs C (s.fixpoint domain categories limit e) := by
  induction limit generalizing e with
  | zero => exact logs_pure _
  | succ limit ih =>
    apply (pass_logs hC domain categories e).bind
    intro d
    split_ifs
    · exact logs_pure _
    · exact ih d

theorem runPlain_logs (e : Expr α) : Logs C (s.runPlain e) :=
  (fixpoint_logs hC .real categories s.maxSteps e).bind fun _ => logs_pure _

theorem runLogged_logs (e : Expr α) : Logs C (s.runLogged e) :=
  (runPlain_logs hC e).bind fun _ => logs_pure _

end Runs

theorem runPlain_carried [BEq α] (s : Simplifier α) (e : Expr α) : Logs Carried (s.runPlain e) :=
  runPlain_logs (fun _ _ _ _ _ _ => Or.inl rfl) e

theorem runLogged_carried [BEq α] (s : Simplifier α) (e : Expr α) :
    Logs Carried (s.runLogged e) :=
  runLogged_logs (fun _ _ _ _ _ _ => Or.inl rfl) e

end Simplifier

namespace Solver

variable [Scalar α]

theorem normalize_carried (s : Simplifier α) (equation : Expr α) :
    Logs Carried (normalize s equation) := by
  unfold normalize
  split
  · apply (logs_step _ _ _ _ _).bind
    intro difference
    exact s.runLogged_carried difference
  · exact s.runLogged_carried equation

theorem solveLinear_carried (s : Simplifier α) (coeffs : List (Expr α)) (x : String) :
    Logs Carried (solveLinear s coeffs x) := by
  unfold solveLinear
  split
  · apply (s.runLogged_carried _).bind
    intro solution
    exact (logs_step _ _ _ _ _).bind fun _ => logs_pure _
  · exact logs_pure _

theorem solveQuadratic_carried (s : Solver α) (a b c : Expr α) (x : String) :
    Logs Carried (s.solveQuadratic a b c x) := by
  unfold solveQuadratic
  split
  · apply (carried_lift _).bind
    intro polynomial
    apply (logs_step _ _ _ _ _).bind
    intro d
    split_ifs
    · exact logs_pure _
    · exact (carried_lift _).bind fun roots => (carried_lift _).bind fun _ => logs_pure _
  · have hformula (raw : Expr α) {before after : Expr α → Expr α} {rule explanation : String} :
        Logs Carried (s.simplifier.runLogged raw >>= fun d =>
          logSolve (before d) (after d) rule explanation) :=
      (s.simplifier.runLogged_carried raw).bind fun _ => logs_step _ _ _ _ _
    exact (hformula _).bind fun _ => (hformula _).bind fun _ => logs_pure _

theorem remainingRoots_carried (s : Solver α) (any : Bool) (coeffs : List α) (x : String) :
    Logs Carried (s.remainingRoots any coeffs x) := by
  have hnumeric : Logs Carried (remainingRoots.numeric s coeffs x) := by
    unfold remainingRoots.numeric
    split_ifs
    · exact carried_throw _
    · apply (carried_lift _).bind
      intro polynomial
      exact (logs_step _ _ _ _ _).bind fun _ => logs_pure _
  unfold remainingRoots
  split
  · dsimp only
    split_ifs
    · exact carried_lift _
    · exact logs_pure _
  · split_ifs
    · exact (carried_lift _).bind fun _ => logs_pure _
    · exact hnumeric
  · split_ifs
    · exact hnumeric
    · exact logs_pure _

theorem solvePolynomial_carried (s : Solver α) (coeffs : List (Expr α)) (x : String) :
    Logs Carried (s.solvePolynomial coeffs x) := by
  unfold solvePolynomial
  split
  · exact carried_throw _
  · apply (carried_lift _).bind
    rintro ⟨roots, remainder⟩
    apply (carried_lift _).bind
    intro found
    apply (carried_lift _).bind
    intro remaining
    have hrest : Logs Carried (do
        let others ← s.remainingRoots (!roots.isEmpty) remaining x
        let all ← Traced.lift (snapped (found ++ others))
        let solutions ← Traced.lift (numbers (dropRepeated none (ascending all)))
        pure (Solution.ofOne x solutions .polynomial .real)) := by
      apply (s.remainingRoots_carried _ remaining x).bind
      intro others
      exact (carried_lift _).bind fun _ => (carried_lift _).bind fun _ => logs_pure _
    dsimp only
    split_ifs
    · apply (carried_lift _).bind
      intro before
      apply (carried_lift _).bind
      intro after
      exact (logs_step _ _ _ _ _).bind fun _ => hrest
    · exact hrest

theorem solveTranscendental_carried (s : Solver α) (e : Expr α) (x : String) :
    Logs Carried (s.solveTranscendental e x) := by
  unfold solveTranscendental
  split
  · exact carried_throw _
  · dsimp only
    split_ifs
    · exact carried_throw _
    · exact carried_throw _
    · apply (carried_lift _).bind
      intro roots
      apply (logs_step _ _ _ _ _).bind
      intro count
      exact (carried_lift _).bind fun _ => logs_pure _

theorem solve_carried (s : Solver α) (equation : Expr α) (x : String) :
    Logs Carried (s.solve equation x) := by
  apply (normalize_carried s.simplifier equation).bind
  intro e
  apply (carried_lift _).bind
  intro coeffs
  split
  · exact s.solveTranscendental_carried e x
  · exact s.solveQuadratic_carried _ _ _ x
  · split_ifs
    · exact solveLinear_carried s.simplifier _ x
    · exact s.solvePolynomial_carried _ x

theorem systemRows_carried (s : Solver α) (unknowns : List String) (row : Nat)
    (equations : List (Expr α)) : Logs Carried (s.systemRows unknowns row equations) := by
  induction equations generalizing row with
  | nil => exact logs_pure _
  | cons equation rest ih =>
    apply (normalize_carried s.simplifier equation).bind
    intro e
    split
    · exact carried_throw _
    · exact (ih (row + 1)).bind fun _ => logs_pure _

theorem solveSystem_carried (s : Solver α) (equations : List (Expr α)) (unknowns : List String) :
    Logs Carried (s.solveSystem equations unknowns) := by
  unfold solveSystem
  split_ifs
  · exact carried_throw _
  · apply (s.systemRows_carried unknowns 1 equations).bind
    intro rows
    split
    · exact carried_throw _
    · apply Logs.bind
      · apply logs_forIn
        rintro ⟨x, v⟩ u
        apply (carried_lift _).bind
        intro snapped
        exact (logs_step _ _ _ _ _).bind fun _ => logs_pure _
      · intro u
        exact (carried_lift _).bind fun _ => logs_pure _

end Solver

namespace Series

variable [Scalar α] (s : Simplifier α) (x : String) (center : α)

theorem coefficient_carried (nth : Expr α) (n : Nat) :
    Logs Carried (coefficient s x center nth n) := by
  apply (carried_lift _).bind
  intro atCenter
  dsimp only
  split_ifs
  · exact (carried_lift _).bind fun _ => (carried_lift _).bind fun _ => logs_step _ _ _ _ _
  · split
    · exact carried_throw _
    · exact (carried_lift _).bind fun _ => (carried_lift _).bind fun _ => logs_step _ _ _ _ _

theorem firstOmitted_handled (nth : Expr α) (n : Nat) :
    Logs Carried (firstOmitted s x center nth n) ∧
      Keeps (coefficient s x center nth n) (firstOmitted s x center nth n) := by
  have hfound : Logs Carried (coefficient s x center nth n >>= fun c => pure (some c)) :=
    (coefficient_carried s x center nth n).bind fun _ => logs_pure _
  have hkeeps : Keeps (coefficient s x center nth n)
      (coefficient s x center nth n >>= fun c => pure (some c)) :=
    keeps_bind fun c => logs_pure (C := Carried) (some c)
  refine (hfound.handled ?_).imp_right hkeeps.trans
  rintro f handler hhandler
  split at hhandler
  · obtain rfl := Option.some.inj hhandler
    exact (logs_step _ _ _ _ _).bind fun _ => logs_pure _
  · cases hhandler

theorem coefficients_carried (count n : Nat) (nth : Expr α) :
    Logs Carried (coefficients s x center count n nth) := by
  induction count generalizing n nth with
  | zero => exact (firstOmitted_handled s x center nth n).1.bind fun _ => logs_pure _
  | succ count ih =>
    apply (coefficient_carried s x center nth n).bind
    intro c
    apply (Expr.derivative_carried nth).bind
    intro derived
    apply (carried_lift _).bind
    intro next
    exact (ih (n + 1) next).bind fun _ => logs_pure _

theorem expand_carried (e : Expr α) (order : Int) (source : String) :
    Logs Carried (expand s e x center order source) := by
  unfold expand
  split
  · exact carried_throw _
  · apply (carried_lift _).bind
    intro first
    apply (coefficients_carried s x center _ 0 first).bind
    rintro ⟨cs, last⟩
    apply (carried_lift _).bind
    intro terms
    dsimp only
    split
    · exact (carried_lift _).bind fun _ => (carried_lift _).bind fun _ => (carried_lift _).bind
        fun _ => logs_pure _
    · exact (logs_pure _).bind fun _ => (carried_lift _).bind fun _ => (carried_lift _).bind
        fun _ => logs_pure _

end Series

namespace Limit

variable [Scalar α] (s : Simplifier α) (x : String)

theorem ratioOfDerivatives?_handled (top bottom : Expr α) :
    Logs Carried (ratioOfDerivatives? top bottom x) ∧
      Keeps (top.derivative x >>= fun _ => bottom.derivative x)
        (ratioOfDerivatives? top bottom x) := by
  have hratio : Logs Carried (do
      let t ← top.derivative x
      let b ← bottom.derivative x
      pure (some (Expr.op .div t b))) := by
    apply (Expr.derivative_carried top).bind
    intro t
    exact (Expr.derivative_carried bottom).bind fun _ => logs_pure _
  have hkeeps : Keeps (top.derivative x >>= fun _ => bottom.derivative x) (do
      let t ← top.derivative x
      let b ← bottom.derivative x
      pure (some (Expr.op .div t b))) :=
    keeps_after fun t => keeps_bind fun b => logs_pure (C := Carried) (some (Expr.op .div t b))
  refine (hratio.handled ?_).imp_right hkeeps.trans
  rintro f handler hhandler
  split at hhandler
  · obtain rfl := Option.some.inj hhandler
    exact logs_pure none
  · cases hhandler

theorem byDifferentiation?_carried (point : α) (rounds : Nat) (e : Expr α) :
    Logs Carried (byDifferentiation? s x point rounds e) := by
  induction rounds generalizing e with
  | zero => exact logs_pure none
  | succ rounds ih =>
    unfold byDifferentiation?
    split
    · split_ifs
      · apply (ratioOfDerivatives?_handled x _ _).1.bind
        rintro (_ | raw)
        · exact logs_pure none
        · apply (s.runLogged_carried raw).bind
          intro ratio
          apply (logs_step _ _ _ _ _).bind
          intro r
          split
          · exact logs_pure _
          · exact ih ratio
      · exact logs_pure none
    · exact logs_pure none

theorem atInfinity_carried (e : Expr α) (source : String) (negative : Bool) :
    Logs Carried (atInfinity e source x negative) := by
  apply (carried_lift _).bind
  intro value
  exact (logs_step _ _ _ _ _).bind fun _ => logs_pure _

theorem bySampling_carried (e : Expr α) (source : String) (point : α) :
    Logs Carried (bySampling e source x point) := by
  apply (carried_lift _).bind
  intro left
  apply (carried_lift _).bind
  intro right
  exact (logs_step _ _ _ _ _).bind fun _ => logs_pure _

theorem atPoint_carried (e : Expr α) (source : String) (point : α) :
    Logs Carried (atPoint s e source x point) := by
  unfold atPoint
  split
  · exact (logs_step _ _ _ _ _).bind fun _ => logs_pure _
  · apply (byDifferentiation?_carried s x point maxRounds e).bind
    rintro (_ | v)
    · exact bySampling_carried x e source point
    · exact logs_pure _

theorem find_carried (e : Expr α) (point : Extended α) (source : String) :
    Logs Carried (find s e x point source) := by
  unfold find
  dsimp only
  split
  · exact carried_throw _
  · split
    · exact carried_throw _
    · apply (s.runLogged_carried e).bind
      intro e
      split
      · exact atInfinity_carried x e _ _
      · exact atPoint_carried s x e _ _

end Limit

namespace Engine

variable [Scalar α]

theorem answer_logs {C : Raised α → List (Step α) → Prop} (source : String) (initial : Expr α)
    (settled : Bool) (details : Details α) (numeric : Option α) (result : Expr α) :
    Logs C (answer source initial settled details numeric result) :=
  logs_get.bind fun _ => logs_pure _

variable (g : Engine α) (x : String)

theorem differentiate_reports (e : Expr α) (order : Int) :
    Logs Reported (g.differentiate (.tree e) x order) := by
  unfold differentiate
  split
  · apply logs_throw
    rintro steps fault ⟨⟩
  · have hderived : Logs Carried (e.derivativeTimes x order.toNat >>= g.simplifier.runPlain) :=
      (Expr.derivativeTimes_carried order.toNat e).bind fun d => g.simplifier.runPlain_carried d
    exact hderived.recording.bind fun _ => answer_logs _ _ _ _ _ _

theorem integrate_reports (e : Expr α) (bounds : Option (α × α))
    (hlibrary : bounds.isSome → g.simplifier.library.NeverFaults) :
    Logs Reported (g.integrate (.tree e) x bounds) := by
  have hanti : Logs Carried (e.antiderivative g.simplifier.simplify x >>= g.simplifier.runPlain) :=
    (Expr.antiderivative_carried e).bind fun raw => g.simplifier.runPlain_carried raw
  apply hanti.recording.bind
  rintro ⟨anti, settled⟩
  rcases bounds with _ | ⟨a, b⟩
  · exact (logs_step _ _ _ _ _).bind fun _ => answer_logs _ _ _ _ _ _
  · apply (logs_step _ _ _ _ _).bind
    intro difference
    dsimp only
    split
    · exact answer_logs _ _ _ _ _ _
    · have hrules := hlibrary rfl
      apply (Simplifier.runLogged_logs (fun r hr e f steps hf => hrules.transform hr hf steps)
        difference).bind
      intro result
      exact answer_logs _ _ _ _ _ _

theorem solve_reports (e : Expr α) (allowNumeric : Option Bool) :
    Logs Reported (g.solve (.tree e) x allowNumeric) :=
  ((carried_lift _).bind fun s => s.solve_carried e x).recording

theorem solveSystem_reports (es : List (Expr α)) (unknowns : List String) :
    Logs Reported (g.solveSystem (es.map .tree) unknowns) := by
  have hes : (es.map Input.tree).mapM Input.expr = .ok es := by
    induction es with
    | nil => rfl
    | cons e es ih =>
      rw [List.map_cons, List.mapM_cons, ih]
      rfl
  unfold solveSystem
  rw [hes]
  exact ((carried_lift _).bind fun s => s.solveSystem_carried es unknowns).recording

theorem series_reports (e : Expr α) (center : α) (order : Int) :
    Logs Reported (g.series (.tree e) x center order) :=
  (Series.expand_carried g.simplifier x center e order _).recording

theorem limit_reports (e : Expr α) (point : Extended α) :
    Logs Reported (g.limit (.tree e) x point) :=
  (Limit.find_carried g.simplifier x e point _).recording

/-- Whatever entry point is called on expressions, the log grows by steps that are numbered on, and
a fault of the engine carries exactly the steps up to it. What is logged before a failure that a
limit or a series handles stays in the log. Rules may fault, but not where the difference of two
values of an antiderivative is simplified. -/
theorem faults_carry_steps :
    (∀ e order, Logs Reported (g.differentiate (.tree e) x order)) ∧
      (∀ e bounds, (bounds.isSome → g.simplifier.library.NeverFaults) →
        Logs Reported (g.integrate (.tree e) x bounds)) ∧
      (∀ e allowNumeric, Logs Reported (g.solve (.tree e) x allowNumeric)) ∧
      (∀ es : List (Expr α), ∀ unknowns, Logs Reported (g.solveSystem (es.map .tree) unknowns)) ∧
      (∀ e center order, Logs Reported (g.series (.tree e) x center order)) ∧
      (∀ e point, Logs Reported (g.limit (.tree e) x point)) ∧
      (∀ center nth n, Keeps (Series.coefficient g.simplifier x center nth n)
        (Series.firstOmitted g.simplifier x center nth n)) ∧
      ∀ top bottom : Expr α, Keeps (top.derivative x >>= fun _ => bottom.derivative x)
        (Limit.ratioOfDerivatives? top bottom x) :=
  ⟨g.differentiate_reports x, g.integrate_reports x, g.solve_reports x, g.solveSystem_reports,
    g.series_reports x, g.limit_reports x,
    fun center nth n => (Series.firstOmitted_handled g.simplifier x center nth n).2,
    fun top bottom => (Limit.ratioOfDerivatives?_handled x top bottom).2⟩

/-- The sum of a sine and a call of a function without a derivative. -/
def unknownTerm : Expr Rat := .op .add (.fn "sin" [.var "x"]) (.fn "f" [.var "x"])

theorem faults_carry_steps_of_unknownTerm :
    Logs Reported (rational.integrate (.tree unknownTerm) "x" (some (0, 1))) ∧
      ∃ raised log, (rational.differentiate (.tree unknownTerm) "x" 1).outcome.run #[] =
          (.error raised, log) ∧
        raised.failure = .engine (.unsupported "f" .differentiation) ∧
        raised.steps = log.toList ∧
        raised.steps.map (fun s => (s.index, s.rule)) = [(1, "sin-chain-rule")] := by
  obtain ⟨hdifferentiate, hintegrate, -⟩ := faults_carry_steps rational "x"
  have hrules : rational.simplifier.library.NeverFaults :=
    Library.standard_neverFaults Scalar.ranged_rat
  refine ⟨hintegrate unknownTerm (some (0, 1)) fun _ => hrules, ?_⟩
  obtain ⟨r, ps, hrun, -, hreported⟩ := hdifferentiate unknownTerm 1 #[]
  have hfails : ∃ raised log, (rational.differentiate (.tree unknownTerm) "x" 1).outcome.run #[] =
      (.error raised, log) ∧ raised.failure = .engine (.unsupported "f" .differentiation) ∧
      log.toList.map (fun s => (s.index, s.rule)) = [(1, "sin-chain-rule")] :=
    ⟨_, _, rfl, rfl, rfl⟩
  obtain ⟨raised, log, hraised, hfailure, hlog⟩ := hfails
  rw [hraised] at hrun
  obtain ⟨rfl, rfl⟩ := Prod.mk.inj hrun
  have hsteps : raised.steps = (#[] ++ ps.toArray : Log Rat).toList := by
    rw [Array.toList_append]
    exact hreported raised rfl _ hfailure
  exact ⟨raised, _, hraised, hfailure, hsteps, hsteps ▸ hlog⟩

end Engine

end RuleAlgebra
