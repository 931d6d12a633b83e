import RuleAlgebra.Proofs.ExactScalars
import RuleAlgebra.Proofs.TracedComputations
import RuleAlgebra.Simplifier

/-!
What simplification results in, the log of its steps left aside: a pass rewrites with one rule after
the other, and a loop that came to an end on its own ended where one more pass changes nothing.
-/

namespace RuleAlgebra.Simplifier

open Traced

variable {α : Type}

def rewrite (rs : List (Rule α)) (e : Expr α) : Except Failure (Expr α) :=
  rs.foldlM (fun e r => e.transform r.apply) e

theorem rewrite_append (rs qs : List (Rule α)) (e : Expr α) :
    rewrite (rs ++ qs) e = rewrite rs e >>= rewrite qs := by
  simp only [rewrite, List.foldlM_append]
  rfl

variable [BEq α]

theorem record_logFree (category : String) (r : Rule α) (e d : Expr α) :
    LogFree (record category r e d) := by
  unfold record
  split_ifs
  · exact logFree_pure e
  · exact logFree_step _ _ _ _ _

theorem applyUp_logFree (category : String) (e : Expr α) (r : Rule α) :
    LogFree (applyUp category e r) :=
  (logFree_lift _).bind fun d => record_logFree category r e d

theorem applyDown_logFree (e : Expr α) (r : Rule α) : LogFree (applyDown e r) :=
  (logFree_lift _).bind fun d => record_logFree "factor" r e d

section Loops

variable (s : Simplifier α) (domain : NumberDomain)

theorem pass_logFree (categories : List String) (e : Expr α) :
    LogFree (s.pass domain categories e) := by
  apply logFree_foldlM
  intro e category
  exact logFree_foldlM (applyUp_logFree category) _ e

theorem fixpoint_logFree (categories : List String) (limit : Nat) (e : Expr α) :
    LogFree (s.fixpoint domain categories limit e) := by
  induction limit generalizing e with
  | zero => exact logFree_pure _
  | succ limit ih =>
    apply (pass_logFree s domain categories e).bind
    intro d
    split_ifs
    · exact logFree_pure _
    · exact ih d

theorem factorPass_logFree (e : Expr α) : LogFree (s.factorPass domain e) :=
  logFree_foldlM applyDown_logFree _ e

theorem run_logFree (form : TargetForm) (limit : Nat) (e : Expr α) :
    LogFree (s.run form domain limit e) := by
  apply (fixpoint_logFree s domain categories limit e).bind
  intro d
  cases form with
  | plain => exact logFree_pure _
  | expanded =>
    apply (fixpoint_logFree s domain ["expand"] limit d.1).bind
    intro c
    apply (fixpoint_logFree s domain categories limit c.1).bind
    intro b
    exact logFree_pure _
  | factored =>
    apply (factorPass_logFree s domain d.1).bind
    intro c
    split_ifs
    · exact logFree_pure _
    · apply (fixpoint_logFree s domain categories limit c).bind
      intro b
      exact logFree_pure _

theorem runLogged_logFree (e : Expr α) : LogFree (s.runLogged e) :=
  (run_logFree s .real .plain s.maxSteps e).bind fun _ => logFree_pure _

theorem run_plain_result (limit : Nat) (e : Expr α) :
    (s.run .plain domain limit e).result = (s.fixpoint domain categories limit e).result := by
  unfold run
  rw [result_bind fun _ => logFree_pure _]
  cases (s.fixpoint domain categories limit e).result with
  | error f => rfl
  | ok d => rfl

end Loops

section Passes

variable [LawfulBEq α]

theorem record_result (category : String) (r : Rule α) (e d : Expr α) :
    (record category r e d).result = .ok d := by
  unfold record
  split_ifs with h
  · rw [eq_of_beq h]
    rfl
  · rfl

theorem applyUp_result (category : String) (e : Expr α) (r : Rule α) :
    (applyUp category e r).result = e.transform r.apply := by
  unfold applyUp
  rw [result_bind fun d => record_logFree category r e d]
  simp only [record_result, result_lift]
  cases e.transform r.apply with
  | error f => rfl
  | ok d => rfl

variable (s : Simplifier α) (domain : NumberDomain)

theorem pass_result (categories : List String) (e : Expr α) :
    (s.pass domain categories e).result = rewrite (categories.flatMap (s.rulesFor domain)) e := by
  unfold pass
  rw [result_foldlM fun e c => logFree_foldlM (applyUp_logFree c) _ e]
  induction categories generalizing e with
  | nil => rfl
  | cons c categories ih =>
    rw [List.foldlM_cons, List.flatMap_cons, rewrite_append,
      result_foldlM (applyUp_logFree c)]
    simp only [applyUp_result]
    congr 1
    funext d
    exact ih d

/-- What passes preserve holds of the result of a loop. -/
theorem fixpoint_invariant {P : Expr α → Prop} {categories : List String} {limit : Nat}
    {e d : Expr α} {settled : Bool}
    (hP : ∀ a b, P a → rewrite (categories.flatMap (s.rulesFor domain)) a = .ok b → P b)
    (he : P e) (h : (s.fixpoint domain categories limit e).result = .ok (d, settled)) : P d := by
  induction limit generalizing e with
  | zero =>
    obtain ⟨rfl, -⟩ := Prod.mk.inj (Except.ok.inj h)
    exact he
  | succ limit ih =>
    unfold fixpoint at h
    rw [result_bind, pass_result] at h
    · obtain ⟨c, hc, h⟩ := bind_eq_ok.mp h
      split_ifs at h
      · obtain ⟨rfl, -⟩ := Prod.mk.inj (Except.ok.inj h)
        exact he
      · exact ih (hP e c he hc) h
    · intro c
      split_ifs
      · exact logFree_pure _
      · exact fixpoint_logFree s domain categories limit c

theorem rewrite_of_settled {categories : List String} {limit : Nat} {e d : Expr α}
    (h : (s.fixpoint domain categories limit e).result = .ok (d, true)) :
    rewrite (categories.flatMap (s.rulesFor domain)) d = .ok d := by
  induction limit generalizing e with
  | zero => cases h
  | succ limit ih =>
    unfold fixpoint at h
    rw [result_bind, pass_result] at h
    · obtain ⟨c, hc, h⟩ := bind_eq_ok.mp h
      split_ifs at h with hce
      · obtain ⟨rfl, -⟩ := Prod.mk.inj (Except.ok.inj h)
        rwa [eq_of_beq hce] at hc
      · exact ih h
    · intro c
      split_ifs
      · exact logFree_pure _
      · exact fixpoint_logFree s domain categories limit c

end Passes

end RuleAlgebra.Simplifier
