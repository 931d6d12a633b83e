import Mathlib
import RuleAlgebra.Trace

/-!
What a computation that logs its steps ensures, whatever was logged before: a property of its
result, or of its failure. A computation that never looks at the log has one result.
-/

namespace RuleAlgebra.Traced

variable {α β γ : Type}

section Outcomes

variable {m : Traced α β} {k : β → Traced α γ} {log log' : Log α}

theorem outcome_bind_ok {b : β} (h : m.outcome.run log = (.ok b, log')) :
    (m >>= k).outcome.run log = (k b).outcome.run log' := by
  change (ExceptT.bindCont k (m.outcome.run log).1).run (m.outcome.run log).2 = _
  rw [h]
  rfl

theorem outcome_bind_error {raised : Raised α} (h : m.outcome.run log = (.error raised, log')) :
    (m >>= k).outcome.run log = (.error raised, log') := by
  change (ExceptT.bindCont k (m.outcome.run log).1).run (m.outcome.run log).2 = _
  rw [h]
  rfl

theorem run_of_outcome {r : Except (Raised α) β} (h : m.outcome.run log = (r, log')) :
    m.run.run log = (r.mapError (·.failure), log') := by
  change ((m.outcome.run log).1.mapError _, (m.outcome.run log).2) = _
  rw [h]

theorem run_bind_ok {b : β} (h : m.run.run log = (.ok b, log')) :
    (m >>= k).run.run log = (k b).run.run log' := by
  cases hm : m.outcome.run log with
  | mk r mid =>
    rw [run_of_outcome hm] at h
    cases r with
    | error raised => exact absurd (congrArg Prod.fst h) (by simp [Except.mapError])
    | ok c =>
      cases h
      exact run_of_outcome (outcome_bind_ok hm)

theorem run_bind_error {f : Failure} (h : m.run.run log = (.error f, log')) :
    (m >>= k).run.run log = (.error f, log') := by
  cases hm : m.outcome.run log with
  | mk r mid =>
    rw [run_of_outcome hm] at h
    cases r with
    | error raised =>
      cases h
      exact run_of_outcome (outcome_bind_error hm)
    | ok c => exact absurd (congrArg Prod.fst h) (by simp [Except.mapError])

theorem run_lift (r : Except Failure β) (log : Log α) : (lift r).run.run log = (r, log) := by
  cases r <;> rfl

theorem outcome_recording {r : Except (Raised α) β} (h : m.outcome.run log = (r, log')) :
    (recording m).outcome.run log = (r.mapError (Raised.recorded log'), log') := by
  change ((m.outcome.run log).1.mapError (Raised.recorded (m.outcome.run log).2),
    (m.outcome.run log).2) = _
  rw [h]

theorem failure_recorded (log : Log α) (raised : Raised α) :
    (raised.recorded log).failure = raised.failure := by
  unfold Raised.recorded
  split <;> rfl

/-- Which steps a failure carries is all that recording changes. -/
@[simp] theorem run_recording (m : Traced α β) : (recording m).run = m.run := by
  funext log
  cases hm : m.outcome.run log with
  | mk r log' =>
    refine (run_of_outcome (outcome_recording hm)).trans (Eq.trans ?_ (run_of_outcome hm).symm)
    cases r with
    | error raised => simp [Except.mapError, failure_recorded]
    | ok b => rfl

end Outcomes

/-- A result satisfies `P`, and a failure satisfies `F`. -/
def Outcome (P : β → Prop) (F : Failure → Prop) : Except Failure β → Prop
  | .ok b => P b
  | .error f => F f

/-- From every log, the computation ends with such an outcome. -/
def Ensures (m : Traced α β) (P : β → Prop) (F : Failure → Prop) : Prop :=
  ∀ log : Log α, Outcome P F (m.run.run log).1

section Rules

variable {P Q : β → Prop} {R : γ → Prop} {F : Failure → Prop} {m : Traced α β}

theorem Outcome.mono {r : Except Failure β} (h : Outcome P F r) (hPQ : ∀ b, P b → Q b) :
    Outcome Q F r := by
  cases r with
  | error f => exact h
  | ok b => exact hPQ b h

theorem Outcome.weaken {G : Failure → Prop} {r : Except Failure β} (h : Outcome P F r)
    (hFG : ∀ f, F f → G f) : Outcome P G r := by
  cases r with
  | error f => exact hFG f h
  | ok b => exact h

theorem outcome_pure {b : β} (h : P b) : Outcome P F (pure b) := h

theorem Outcome.bind {r : Except Failure β} {k : β → Except Failure γ} (h : Outcome P F r)
    (hk : ∀ b, P b → Outcome R F (k b)) : Outcome R F (r >>= k) := by
  cases r with
  | error f => exact h
  | ok b => exact hk b h

theorem outcome_after (r : Except Failure β) {k : β → Except Failure γ}
    (hk : ∀ b, Outcome R (fun _ => True) (k b)) : Outcome R (fun _ => True) (r >>= k) := by
  cases r with
  | error f => trivial
  | ok b => exact hk b

theorem outcome_mapM {P : γ → β → Prop} {f : γ → Except Failure β}
    (h : ∀ c, Outcome (P c) F (f c)) (cs : List γ) :
    Outcome (List.Forall₂ P cs) F (cs.mapM f) := by
  induction cs with
  | nil => exact List.Forall₂.nil
  | cons c cs ih =>
    rw [List.mapM_cons]
    exact (h c).bind fun b hb => ih.bind fun bs hbs => outcome_pure (hbs.cons hb)

theorem outcome_forall_mapM {f : γ → Except Failure β} {cs : List γ}
    (h : ∀ c ∈ cs, Outcome P F (f c)) : Outcome (∀ b ∈ ·, P b) F (cs.mapM f) := by
  induction cs with
  | nil => exact List.forall_mem_nil _
  | cons c cs ih =>
    obtain ⟨hc, hcs⟩ := List.forall_mem_cons.mp h
    rw [List.mapM_cons]
    apply hc.bind
    intro b hb
    apply (ih hcs).bind
    intro bs hbs
    exact outcome_pure (List.forall_mem_cons.mpr ⟨hb, hbs⟩)

theorem outcome_foldlM {f : β → γ → Except Failure β} {cs : List γ} {b : β} (hb : P b)
    (h : ∀ c ∈ cs, ∀ b, P b → Outcome P F (f b c)) : Outcome P F (cs.foldlM f b) := by
  induction cs generalizing b with
  | nil => exact outcome_pure hb
  | cons c cs ih =>
    obtain ⟨hc, hcs⟩ := List.forall_mem_cons.mp h
    rw [List.foldlM_cons]
    apply (hc b hb).bind
    intro d hd
    exact ih hd hcs

theorem Ensures.mono (h : Ensures m P F) (hPQ : ∀ b, P b → Q b) : Ensures m Q F :=
  fun log => (h log).mono hPQ

theorem Ensures.weaken {G : Failure → Prop} (h : Ensures m P F) (hFG : ∀ f, F f → G f) :
    Ensures m P G := fun log => (h log).weaken hFG

theorem ensures_pure {b : β} (h : P b) : Ensures (pure b : Traced α β) P F := fun _ => h

theorem Ensures.bind {k : β → Traced α γ} (h : Ensures m P F)
    (hk : ∀ b, P b → Ensures (k b) R F) : Ensures (m >>= k) R F := by
  intro log
  have hout := h log
  cases hm : m.run.run log with
  | mk r log' =>
    rw [hm] at hout
    cases r with
    | error f => rwa [run_bind_error hm]
    | ok b =>
      rw [run_bind_ok hm]
      exact hk b hout log'

theorem ensures_after (m : Traced α β) {k : β → Traced α γ}
    (hk : ∀ b, Ensures (k b) R fun _ => True) : Ensures (m >>= k) R fun _ => True := by
  have hm : Ensures m (fun _ => True) fun _ => True := by
    intro log
    cases (m.run.run log).1 <;> trivial
  exact hm.bind fun b _ => hk b

theorem ensures_throw {f : Failure} (h : F f) : Ensures (throw f : Traced α β) P F := fun _ => h

theorem ensures_lift {r : Except Failure β} (h : Outcome P F r) :
    Ensures (lift r : Traced α β) P F := fun log => (run_lift r log).symm ▸ h

theorem Ensures.recording (h : Ensures m P F) : Ensures (recording m) P F := by
  intro log
  rw [run_recording]
  exact h log

theorem ensures_step {operation rule explanation : String} {before after : Expr α}
    {P : Expr α → Prop} (h : P after) :
    Ensures (step operation before after rule explanation) P F := fun _ => h

theorem Ensures.thenStep {operation rule explanation : String} {before : Expr α}
    {after : β → Expr α} {Q : Expr α → Prop} (h : Ensures m P F) (hQ : ∀ b, P b → Q (after b)) :
    Ensures (m >>= fun b => step operation before (after b) rule explanation) Q F :=
  h.bind fun b hb => ensures_step (hQ b hb)

theorem Ensures.thenStep₂ {operation rule explanation : String} {before : Expr α}
    {after : β → γ → Expr α} {Q : Expr α → Prop} {n : Traced α γ} (h : Ensures m P F)
    (h' : Ensures n R F) (hQ : ∀ b c, P b → R c → Q (after b c)) :
    Ensures (m >>= fun b => n >>= fun c => step operation before (after b c) rule explanation)
      Q F :=
  h.bind fun b hb => h'.thenStep fun c hc => hQ b c hb hc

theorem ensures_foldlM {f : β → γ → Traced α β} {cs : List γ} {b : β} (hb : P b)
    (hf : ∀ b, P b → ∀ c ∈ cs, Ensures (f b c) P F) : Ensures (cs.foldlM f b) P F := by
  induction cs generalizing b with
  | nil => exact ensures_pure hb
  | cons c cs ih =>
    rw [List.foldlM_cons]
    apply (hf b hb c (by simp)).bind
    intro d hd
    exact ih hd fun e he a ha => hf e he a (by simp [ha])

end Rules

theorem Ensures.result {m : Traced α β} {P : β → Prop} {F : Failure → Prop}
    (h : Ensures m P F) : Outcome P F m.result := h #[]

section Logs

variable {m : Traced α β} {k : β → Traced α γ} {log log' : Log α}

theorem lift_ok_bind (b : β) (k : β → Traced α γ) : lift (.ok b) >>= k = k b := rfl

theorem run_bind_eq_ok {c : γ} : (m >>= k).run.run log = (.ok c, log') ↔
    ∃ b mid, m.run.run log = (.ok b, mid) ∧ (k b).run.run mid = (.ok c, log') := by
  constructor
  · intro h
    cases hm : m.run.run log with
    | mk r mid =>
      cases r with
      | error f =>
        rw [run_bind_error hm] at h
        cases h
      | ok b =>
        rw [run_bind_ok hm] at h
        exact ⟨b, mid, rfl, h⟩
  · rintro ⟨b, mid, hm, hk⟩
    rw [run_bind_ok hm, hk]

theorem run_pure_eq_ok {b c : β} :
    (pure b : Traced α β).run.run log = (.ok c, log') ↔ b = c ∧ log = log' := by
  constructor
  · intro h
    cases h
    exact ⟨rfl, rfl⟩
  · rintro ⟨rfl, rfl⟩
    rfl

end Logs

section Results

variable {m : Traced α β} {k : β → Traced α γ}

/-- The result does not depend on what was logged before. -/
def LogFree (m : Traced α β) : Prop := ∀ log : Log α, (m.run.run log).1 = m.result

@[simp] theorem result_pure (b : β) : (pure b : Traced α β).result = .ok b := rfl

@[simp] theorem result_lift (r : Except Failure β) : (lift r : Traced α β).result = r :=
  congrArg Prod.fst (run_lift r #[])

@[simp] theorem result_step (operation rule explanation : String) (before after : Expr α) :
    (step operation before after rule explanation).result = .ok after := rfl

theorem logFree_pure (b : β) : LogFree (pure b : Traced α β) := fun _ => rfl

theorem logFree_lift (r : Except Failure β) : LogFree (lift r : Traced α β) :=
  fun log => by rw [run_lift, result_lift]

theorem logFree_step (operation rule explanation : String) (before after : Expr α) :
    LogFree (step operation before after rule explanation) := fun _ => rfl

theorem LogFree.ensures (hm : LogFree m) : Ensures m (m.result = .ok ·) (m.result = .error ·) := by
  intro log
  rw [hm log]
  cases m.result with
  | error f => rfl
  | ok b => rfl

theorem LogFree.bind_ensures {P : γ → Prop} (hm : LogFree m)
    (hk : ∀ b, m.result = .ok b → Ensures (k b) P fun _ => True) :
    Ensures (m >>= k) P fun _ => True :=
  (hm.ensures.weaken fun _ _ => trivial).bind hk

theorem lift_bind_ensures {P : γ → Prop} {r : Except Failure β}
    (hk : ∀ b, r = .ok b → Ensures (k b) P fun _ => True) :
    Ensures (lift r >>= k) P fun _ => True := by
  apply (logFree_lift r).bind_ensures
  intro b hb
  rw [result_lift] at hb
  exact hk b hb

theorem run_bind (hk : ∀ b, LogFree (k b)) (log : Log α) :
    ((m >>= k).run.run log).1 = (m.run.run log).1 >>= fun b => (k b).result := by
  cases hm : m.run.run log with
  | mk r log' =>
    cases r with
    | error f =>
      rw [run_bind_error hm]
      rfl
    | ok b =>
      rw [run_bind_ok hm]
      exact hk b log'

theorem result_bind (hk : ∀ b, LogFree (k b)) :
    (m >>= k).result = m.result >>= fun b => (k b).result := run_bind hk #[]

theorem LogFree.bind (hm : LogFree m) (hk : ∀ b, LogFree (k b)) : LogFree (m >>= k) := by
  intro log
  rw [run_bind hk, hm log, result_bind hk]

theorem logFree_foldlM {f : β → γ → Traced α β} (hf : ∀ b c, LogFree (f b c)) (cs : List γ)
    (b : β) : LogFree (cs.foldlM f b) := by
  induction cs generalizing b with
  | nil => exact logFree_pure b
  | cons c cs ih =>
    rw [List.foldlM_cons]
    exact (hf b c).bind ih

theorem result_foldlM {f : β → γ → Traced α β} (hf : ∀ b c, LogFree (f b c)) (cs : List γ)
    (b : β) : (cs.foldlM f b).result = cs.foldlM (fun b c => (f b c).result) b := by
  induction cs generalizing b with
  | nil => rfl
  | cons c cs ih =>
    rw [List.foldlM_cons, result_bind fun d => logFree_foldlM hf cs d, List.foldlM_cons]
    congr 1
    funext d
    exact ih d

end Results

end RuleAlgebra.Traced
