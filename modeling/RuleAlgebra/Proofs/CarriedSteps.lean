import RuleAlgebra.Proofs.TracedComputations

/-!
The steps that a failure carries. Whatever a computation does to the log it does by appending steps
with the next numbers. Where a failure is raised it takes all steps so far with it or none, and on
its way up nobody adds to them; recording gives them to those faults of the engine that have none. A
failure that is handled leaves its steps in the log.
-/

namespace RuleAlgebra.Traced

variable {α β γ : Type}

/-- From every log, the computation appends steps that are numbered on, and `C` relates a failure
to all steps up to it. -/
def Logs (C : Raised α → List (Step α) → Prop) (m : Traced α β) : Prop :=
  ∀ log : Log α, ∃ (r : Except (Raised α) β) (ps : List (Step α)),
    m.outcome.run log = (r, log ++ ps.toArray) ∧
    ps.map (·.index) = List.range' (log.size + 1) ps.length ∧
    ∀ raised, r = .error raised → C raised (log.toList ++ ps)

/-- A failure carries no steps or all of them. -/
def Carried (raised : Raised α) (steps : List (Step α)) : Prop :=
  raised.steps = [] ∨ raised.steps = steps

/-- A fault of the engine carries all steps. -/
def Reported (raised : Raised α) (steps : List (Step α)) : Prop :=
  ∀ fault, raised.failure = .engine fault → raised.steps = steps

/-- All steps of the first computation, even if it fails, are in the log after the second. -/
def Keeps (m : Traced α β) (m' : Traced α γ) : Prop :=
  ∀ log : Log α, ∃ ps : List (Step α),
    (m'.outcome.run log).2 = (m.outcome.run log).2 ++ ps.toArray

section Rules

variable {C : Raised α → List (Step α) → Prop} {m : Traced α β} {k : β → Traced α γ}

theorem logs_pure (b : β) : Logs C (pure b : Traced α β) := by
  intro log
  refine ⟨.ok b, [], ?_, rfl, by simp⟩
  simp
  rfl

theorem logs_get : Logs C (get : Traced α (Log α)) := by
  intro log
  refine ⟨.ok log, [], ?_, rfl, by simp⟩
  simp
  rfl

theorem logs_step (operation : String) (before after : Expr α) (rule explanation : String) :
    Logs C (step operation before after rule explanation) := by
  intro log
  exact ⟨.ok after, [⟨log.size + 1, operation, before, after, rule, explanation⟩], rfl, rfl,
    by simp⟩

theorem logs_throw {failure : Failure} (h : ∀ steps, C ⟨failure, steps⟩ steps) :
    Logs C (throw failure : Traced α β) := by
  intro log
  refine ⟨.error ⟨failure, log.toList⟩, [], ?_, rfl, ?_⟩
  · simp
    rfl
  · rintro raised ⟨⟩
    rw [List.append_nil]
    exact h log.toList

theorem logs_lift {r : Except Failure β} (h : ∀ f steps, r = .error f → C ⟨f, []⟩ steps) :
    Logs C (lift r : Traced α β) := by
  intro log
  refine ⟨r.mapError fun f => ⟨f, []⟩, [], ?_, rfl, ?_⟩
  · simp
    rfl
  · rintro raised hraised
    cases r with
    | ok b => cases hraised
    | error f =>
      cases hraised
      exact h f _ rfl

theorem numbers_append {log : Log α} {ps qs : List (Step α)}
    (hps : ps.map (·.index) = List.range' (log.size + 1) ps.length)
    (hqs : qs.map (·.index) = List.range' ((log ++ ps.toArray).size + 1) qs.length) :
    (ps ++ qs).map (·.index) = List.range' (log.size + 1) (ps ++ qs).length := by
  have hsize : (log ++ ps.toArray).size + 1 = log.size + 1 + ps.length := by
    simp [Nat.add_right_comm]
  rw [hsize] at hqs
  rw [List.map_append, hps, hqs, List.length_append, List.range'_append_1]

theorem Logs.bind (h : Logs C m) (hk : ∀ b, Logs C (k b)) : Logs C (m >>= k) := by
  intro log
  obtain ⟨r, ps, hm, hnumbers, hC⟩ := h log
  cases r with
  | error raised =>
    refine ⟨.error raised, ps, outcome_bind_error hm, hnumbers, ?_⟩
    rintro _ ⟨⟩
    exact hC raised rfl
  | ok b =>
    obtain ⟨r', qs, hkb, hnumbers', hC'⟩ := hk b (log ++ ps.toArray)
    refine ⟨r', ps ++ qs, ?_, numbers_append hnumbers hnumbers', by simpa using hC'⟩
    rw [outcome_bind_ok hm, hkb, ← List.append_toArray, Array.append_assoc]

theorem Logs.thenStep {operation rule explanation : String} {before : Expr α}
    {after : β → Expr α} (h : Logs C m) :
    Logs C (m >>= fun b => step operation before (after b) rule explanation) :=
  h.bind fun _ => logs_step _ _ _ _ _

theorem Logs.thenStep₂ {operation rule explanation : String} {before : Expr α}
    {after : β → γ → Expr α} {n : Traced α γ} (h : Logs C m) (h' : Logs C n) :
    Logs C (m >>= fun b => n >>= fun c => step operation before (after b c) rule explanation) :=
  h.bind fun _ => h'.thenStep

section Handling

variable {handle : Failure → Option (Traced α β)} {log log' : Log α} {raised : Raised α}

theorem outcome_recover_ok {b : β} (h : m.outcome.run log = (.ok b, log')) :
    (m.recover handle).outcome.run log = (.ok b, log') := by
  change StateT.run (m.outcome >>= _) log = _
  rw [StateT.run_bind, h]
  rfl

theorem outcome_recover_error (h : m.outcome.run log = (.error raised, log')) :
    (m.recover handle).outcome.run log = StateT.run (match handle raised.failure with
      | some m' => m'.outcome
      | none => pure (.error raised)) log' := by
  change StateT.run (m.outcome >>= _) log = _
  rw [StateT.run_bind, h]
  rfl

end Handling

theorem Logs.recover {handle : Failure → Option (Traced α β)} (h : Logs C m)
    (hhandle : ∀ f m', handle f = some m' → Logs C m') : Logs C (m.recover handle) := by
  intro log
  obtain ⟨r, ps, hm, hnumbers, hC⟩ := h log
  cases r with
  | ok b => exact ⟨.ok b, ps, outcome_recover_ok hm, hnumbers, by simp⟩
  | error raised =>
    cases hraised : handle raised.failure with
    | none =>
      refine ⟨.error raised, ps, ?_, hnumbers, hC⟩
      rw [outcome_recover_error hm, hraised]
      rfl
    | some m' =>
      -- the handler goes on from the log as the failure left it
      obtain ⟨r', qs, hm', hnumbers', hC'⟩ := hhandle _ m' hraised (log ++ ps.toArray)
      refine ⟨r', ps ++ qs, ?_, numbers_append hnumbers hnumbers', by simpa using hC'⟩
      rw [outcome_recover_error hm, hraised, ← List.append_toArray, ← Array.append_assoc]
      exact hm'

theorem Keeps.trans {δ : Type} {m' : Traced α γ} {m'' : Traced α δ} (h : Keeps m m')
    (h' : Keeps m' m'') : Keeps m m'' := by
  intro log
  obtain ⟨ps, hps⟩ := h log
  obtain ⟨qs, hqs⟩ := h' log
  refine ⟨ps ++ qs, ?_⟩
  rw [hqs, hps, ← List.append_toArray, Array.append_assoc]

theorem keeps_bind (hk : ∀ b, Logs C (k b)) : Keeps m (m >>= k) := by
  intro log
  cases hm : m.outcome.run log with
  | mk r log' =>
    cases r with
    | error raised => exact ⟨[], by simp [outcome_bind_error hm]⟩
    | ok b =>
      obtain ⟨r', ps, hkb, -⟩ := hk b log'
      exact ⟨ps, by rw [outcome_bind_ok hm, hkb]⟩

theorem keeps_after {δ : Type} {k' : β → Traced α δ} (hk : ∀ b, Keeps (k b) (k' b)) :
    Keeps (m >>= k) (m >>= k') := by
  intro log
  cases hm : m.outcome.run log with
  | mk r log' =>
    cases r with
    | error raised => exact ⟨[], by simp [outcome_bind_error hm]⟩
    | ok b =>
      rw [outcome_bind_ok hm, outcome_bind_ok hm]
      exact hk b log'

theorem keeps_recover {handle : Failure → Option (Traced α β)}
    (hhandle : ∀ f m', handle f = some m' → Logs C m') : Keeps m (m.recover handle) := by
  intro log
  cases hm : m.outcome.run log with
  | mk r log' =>
    cases r with
    | ok b => exact ⟨[], by simp [outcome_recover_ok hm]⟩
    | error raised =>
      rw [outcome_recover_error hm]
      cases hraised : handle raised.failure with
      | none => exact ⟨[], Array.append_empty.symm⟩
      | some m' =>
        obtain ⟨r', ps, hm', -⟩ := hhandle _ m' hraised log'
        exact ⟨ps, congrArg Prod.snd hm'⟩

theorem Logs.handled {handle : Failure → Option (Traced α β)} (h : Logs C m)
    (hhandle : ∀ f m', handle f = some m' → Logs C m') :
    Logs C (m.recover handle) ∧ Keeps m (m.recover handle) :=
  ⟨h.recover hhandle, keeps_recover hhandle⟩

theorem logs_foldlM {f : β → γ → Traced α β} {cs : List γ} (hf : ∀ b, ∀ c ∈ cs, Logs C (f b c))
    (b : β) : Logs C (cs.foldlM f b) := by
  induction cs generalizing b with
  | nil => exact logs_pure b
  | cons c cs ih =>
    rw [List.foldlM_cons]
    apply (hf b c (by simp)).bind
    intro d
    exact ih (fun b' c' hc' => hf b' c' (by simp [hc'])) d

theorem logs_forIn {f : γ → β → Traced α (ForInStep β)} {cs : List γ}
    (hf : ∀ c b, Logs C (f c b)) (b : β) : Logs C (forIn cs b f) := by
  induction cs generalizing b with
  | nil => exact logs_pure b
  | cons c cs ih =>
    rw [List.forIn_cons]
    apply (hf c b).bind
    rintro (d | d)
    · exact logs_pure d
    · exact ih d

end Rules

section Carrying

variable {m : Traced α β}

theorem carried_throw (failure : Failure) : Logs Carried (throw failure : Traced α β) :=
  logs_throw fun _ => Or.inr rfl

theorem carried_lift (r : Except Failure β) : Logs Carried (lift r : Traced α β) :=
  logs_lift fun _ _ _ => Or.inl rfl

theorem Logs.recording (h : Logs Carried m) : Logs Reported (recording m) := by
  intro log
  obtain ⟨r, ps, hm, hnumbers, hC⟩ := h log
  refine ⟨_, ps, outcome_recording hm, hnumbers, ?_⟩
  rintro raised hraised fault hfault
  cases r with
  | ok b => cases hraised
  | error inner =>
    obtain ⟨failure, steps⟩ := inner
    obtain rfl := Except.error.inj hraised
    rw [failure_recorded] at hfault
    obtain rfl : failure = .engine fault := hfault
    rcases hC _ rfl with hnone | hall
    · obtain rfl : steps = [] := hnone
      simp [Raised.recorded]
    · obtain rfl : steps = log.toList ++ ps := hall
      cases hsteps : log.toList ++ ps with
      | nil => simp [Raised.recorded, ← hsteps]
      | cons p qs => rfl

end Carrying

end RuleAlgebra.Traced
