import Mathlib

/-!
Computations that may fail, one after the other and along lists.
-/

namespace RuleAlgebra

variable {ε β γ : Type}

@[simp] theorem ok_bind (b : β) (f : β → Except ε γ) : (Except.ok b >>= f) = f b := rfl

theorem bind_eq_ok {m : Except ε β} {f : β → Except ε γ} {c : γ} :
    (m >>= f) = .ok c ↔ ∃ b, m = .ok b ∧ f b = .ok c := by
  cases m with
  | error e => simp [bind, Except.bind]
  | ok b => simp

theorem toOption_eq_some {r : Except ε β} {b : β} : r.toOption = some b ↔ r = .ok b := by
  cases r <;> simp [Except.toOption]

theorem some_or_throw_eq_ok {r : Option β} {e : ε} {b : β} :
    (match r with | some c => pure c | none => throw e : Except ε β) = .ok b ↔ r = some b := by
  cases r <;> simp [pure, Except.pure, throw, throwThe, MonadExceptOf.throw]

theorem mapM_ok {P : β → γ → Prop} {f : β → Except ε γ} {bs : List β}
    (h : ∀ b ∈ bs, ∃ c, f b = .ok c ∧ P b c) : ∃ cs, bs.mapM f = .ok cs ∧ List.Forall₂ P bs cs := by
  induction bs with
  | nil => exact ⟨[], rfl, List.Forall₂.nil⟩
  | cons b bs ih =>
    obtain ⟨c, hc, hP⟩ := h b (by simp)
    obtain ⟨cs, hcs, hPs⟩ := ih fun d hd => h d (by simp [hd])
    exact ⟨c :: cs, by simp only [List.mapM_cons, hc, hcs, ok_bind]; rfl, hPs.cons hP⟩

theorem mapM_eq_some {f : β → Option γ} {bs : List β} {cs : List γ} :
    bs.mapM f = some cs ↔ List.Forall₂ (fun b c => f b = some c) bs cs := by
  induction bs generalizing cs with
  | nil => cases cs <;> simp
  | cons b bs ih =>
    cases cs with
    | nil => simp [List.mapM_cons, Option.bind_eq_some_iff]
    | cons c cs => simp [List.mapM_cons, Option.bind_eq_some_iff, ih]

theorem mapM_eq_ok {f : β → Except ε γ} {bs : List β} {cs : List γ} :
    bs.mapM f = .ok cs ↔ List.Forall₂ (fun b c => f b = .ok c) bs cs := by
  induction bs generalizing cs with
  | nil => cases cs <;> simp [pure, Except.pure]
  | cons b bs ih =>
    rw [List.mapM_cons, bind_eq_ok]
    simp only [bind_eq_ok, ih, pure, Except.pure, Except.ok.injEq]
    constructor
    · rintro ⟨c, hc, ds, hds, rfl⟩
      exact .cons hc hds
    · rintro (_ | ⟨hc, hds⟩)
      exact ⟨_, hc, _, hds, rfl⟩

section Pairs

variable {δ : Type*} {P : β → γ → Prop} {bs : List β} {cs : List γ}

theorem forall_mem_of_forall₂ {Q : γ → Prop} (h : List.Forall₂ P bs cs)
    (hQ : ∀ b c, P b c → Q c) : ∀ c ∈ cs, Q c := by
  induction h with
  | nil => simp
  | cons hbc _ ih => simpa using ⟨hQ _ _ hbc, ih⟩

theorem forall_mem_iff_of_forall₂ {Q : β → Prop} {R : γ → Prop} (h : List.Forall₂ P bs cs)
    (hQR : ∀ b c, P b c → (Q b ↔ R c)) : (∀ b ∈ bs, Q b) ↔ ∀ c ∈ cs, R c := by
  induction h with
  | nil => simp
  | cons hbc _ ih => simp only [List.forall_mem_cons, hQR _ _ hbc, ih]

theorem map_eq_of_forall₂ {f : β → δ} {g : γ → δ} (h : List.Forall₂ P bs cs)
    (hfg : ∀ b c, P b c → g c = f b) : cs.map g = bs.map f := by
  induction h with
  | nil => rfl
  | cons hbc _ ih => rw [List.map_cons, List.map_cons, hfg _ _ hbc, ih]

theorem exists_mem_of_forall₂ (h : List.Forall₂ P bs cs) : ∀ b ∈ bs, ∃ c ∈ cs, P b c := by
  induction h with
  | nil => simp
  | cons hbc _ ih =>
    refine List.forall_mem_cons.mpr ⟨⟨_, by simp, hbc⟩, fun b hb => ?_⟩
    obtain ⟨c, hc, hP⟩ := ih b hb
    exact ⟨c, List.mem_cons_of_mem _ hc, hP⟩

end Pairs

end RuleAlgebra
