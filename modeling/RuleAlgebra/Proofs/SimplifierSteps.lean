import RuleAlgebra.Engine
import RuleAlgebra.Proofs.TracedComputations

/-!
The steps that simplification logs. They are numbered, each starts from the expression that the one
before it made, and each rewrites a whole expression with an active rule.
-/

namespace RuleAlgebra

variable {α β γ : Type}

namespace Trace

/-- The same expression, or two that compare equal. -/
def Agrees [BEq α] (a b : Expr α) : Prop := a = b ∨ (a == b) = true

/-- Steps from the number after `n` on that lead from one expression to another; `R` relates what a
step made to what the next one starts from, or to what is reached in the end. -/
inductive Leads (R : Expr α → Expr α → Prop) (P : Step α → Prop) :
    Nat → Expr α → List (Step α) → Expr α → Prop where
  | nil (n : Nat) (e : Expr α) : Leads R P n e [] e
  | cons {n : Nat} {p : Step α} {ps : List (Step α)} {c d : Expr α} : p.index = n + 1 → P p →
      R p.after c → Leads R P (n + 1) c ps d → Leads R P n p.before (p :: ps) d

namespace Leads

variable {R R' : Expr α → Expr α → Prop} {P : Step α → Prop} {n : Nat} {e c d : Expr α}
  {ps qs : List (Step α)}

theorem trans (h : Leads R P n e ps d) (h' : Leads R P (n + ps.length) d qs c) :
    Leads R P n e (ps ++ qs) c := by
  induction h with
  | nil n e => exact h'
  | @cons n p ps c d hindex hp hR _ ih =>
    apply cons hindex hp hR
    apply ih
    rwa [List.length_cons, ← Nat.add_assoc, Nat.add_right_comm] at h'

theorem mono (hR : ∀ a b, R a b → R' a b) (h : Leads R P n e ps d) : Leads R' P n e ps d := by
  induction h with
  | nil n e => exact nil n e
  | cons hindex hp hc _ ih => exact cons hindex hp (hR _ _ hc) ih

theorem idle (h : Leads R P n e ps d) (hps : ps = []) : d = e := by
  cases h with
  | nil => rfl
  | cons => cases hps

theorem retarget [BEq α] (h : Leads Eq P n e ps d) (hd : Agrees d c) (hnil : ps = [] → c = d) :
    Leads Agrees P n e ps c := by
  induction h with
  | nil n e =>
    obtain rfl := hnil rfl
    exact nil n c
  | @cons n p ps b d hindex hp hb hrest ih =>
    subst hb
    cases ps with
    | nil =>
      obtain rfl := hrest.idle rfl
      exact cons hindex hp hd (nil _ c)
    | cons q qs => exact cons hindex hp (Or.inl rfl) (ih hd (by simp))

end Leads

/-- A chain of numbered steps from one expression to another. -/
structure Replays [BEq α] (P : Step α → Prop) (e : Expr α) (ps : List (Step α)) (d : Expr α) :
    Prop where
  numbered : ps.map (·.index) = List.range' 1 ps.length
  starts : ∀ p ∈ ps.head?, p.before = e
  linked : ps.IsChain fun p q => Agrees p.after q.before
  ends : ∀ p ∈ ps.getLast?, Agrees p.after d
  idle : ps = [] → d = e
  each : ∀ p ∈ ps, P p

section Replaying

variable [BEq α] {P : Step α → Prop} {n : Nat} {e d : Expr α} {ps : List (Step α)}

theorem Leads.numbered (h : Leads Agrees P n e ps d) :
    ps.map (·.index) = List.range' (n + 1) ps.length := by
  induction h with
  | nil n e => rfl
  | cons hindex _ _ _ ih => rw [List.map_cons, hindex, ih, List.length_cons, List.range'_succ]

theorem Leads.starts (h : Leads Agrees P n e ps d) : ∀ p ∈ ps.head?, p.before = e := by
  cases h with
  | nil => simp
  | cons => simp

theorem Leads.linked (h : Leads Agrees P n e ps d) :
    ps.IsChain fun p q => Agrees p.after q.before := by
  induction h with
  | nil n e => exact .nil
  | cons _ _ hc hrest ih =>
    apply ih.cons
    intro q hq
    rwa [hrest.starts q hq]

theorem Leads.ends (h : Leads Agrees P n e ps d) : ∀ p ∈ ps.getLast?, Agrees p.after d := by
  induction h with
  | nil n e => simp
  | @cons n p ps c d _ _ hc hrest ih =>
    cases ps with
    | nil =>
      obtain rfl := hrest.idle rfl
      simpa using hc
    | cons q qs => simpa using ih

theorem Leads.each (h : Leads Agrees P n e ps d) : ∀ p ∈ ps, P p := by
  induction h with
  | nil n e => simp
  | cons _ hp _ _ ih => exact List.forall_mem_cons.mpr ⟨hp, ih⟩

theorem Leads.replays (h : Leads Agrees P 0 e ps d) : Replays P e ps d :=
  ⟨h.numbered, h.starts, h.linked, h.ends, h.idle, h.each⟩

end Replaying

end Trace

namespace Traced

open Trace

/-- Whatever was logged before, the steps that are appended lead from `e` to some expression, which
is the one in the result if there is a result. -/
def Records (R : Expr α → Expr α → Prop) (P : Step α → Prop) (m : Traced α β) (e : Expr α)
    (f : β → Expr α) : Prop :=
  ∀ log : Log α, ∃ (r : Except Failure β) (ps : List (Step α)) (d : Expr α),
    m.run.run log = (r, log ++ ps.toArray) ∧ Leads R P log.size e ps d ∧ ∀ b, r = .ok b → f b = d

section Rules

variable {R : Expr α → Expr α → Prop} {P : Step α → Prop} {m : Traced α β} {k : β → Traced α γ}
  {e : Expr α} {f : β → Expr α} {g : γ → Expr α}

theorem records_pure {b : β} (h : f b = e) : Records R P (pure b) e f := by
  intro log
  refine ⟨.ok b, [], e, by simp; rfl, .nil _ e, ?_⟩
  rintro b ⟨⟩
  exact h

theorem records_error (failure : Failure) :
    Records R P (lift (.error failure) >>= k) e g := by
  intro log
  refine ⟨.error failure, [], e, by simp; rfl, .nil _ e, ?_⟩
  rintro c ⟨⟩

theorem records_step {operation rule explanation : String} {d : Expr α} (hR : ∀ c, R c c)
    (h : ∀ n, P ⟨n, operation, e, d, rule, explanation⟩) :
    Records R P (step operation e d rule explanation) e id := by
  intro log
  refine ⟨.ok d, [⟨log.size + 1, operation, e, d, rule, explanation⟩], d, rfl, ?_, ?_⟩
  · exact .cons rfl (h _) (hR d) (.nil _ d)
  · rintro b ⟨⟩
    rfl

theorem Records.bind (h : Records R P m e f) (hk : ∀ b, Records R P (k b) (f b) g) :
    Records R P (m >>= k) e g := by
  intro log
  obtain ⟨r, ps, d, hm, hps, hr⟩ := h log
  cases r with
  | error failure => exact ⟨.error failure, ps, d, run_bind_error hm, hps, by simp⟩
  | ok b =>
    obtain ⟨r', qs, c, hkb, hqs, hr'⟩ := hk b (log ++ ps.toArray)
    refine ⟨r', ps ++ qs, c, ?_, ?_, hr'⟩
    · rw [run_bind_ok hm, hkb]
      simp
    · apply hps.trans
      rwa [hr b rfl, Array.size_append, List.size_toArray] at hqs

theorem Records.mono {R' : Expr α → Expr α → Prop} (hR : ∀ a b, R a b → R' a b)
    (h : Records R P m e f) : Records R' P m e f := by
  intro log
  obtain ⟨r, ps, d, hm, hps, hr⟩ := h log
  exact ⟨r, ps, d, hm, hps.mono hR, hr⟩

theorem records_foldlM {δ : Type} {step : Expr α → δ → Traced α (Expr α)} {bs : List δ}
    (h : ∀ b ∈ bs, ∀ c, Records R P (step c b) c id) (e : Expr α) :
    Records R P (bs.foldlM step e) e id := by
  induction bs generalizing e with
  | nil => exact records_pure rfl
  | cons b bs ih =>
    rw [List.foldlM_cons]
    apply (h b (by simp) e).bind
    intro c
    exact ih (fun b' hb' => h b' (by simp [hb'])) c

/-- A computation goes on from what it made, or from where it started when that compares equal. -/
theorem Records.branch [BEq α] {n : Traced α (Expr α)} {stay : Traced α γ}
    {go : Expr α → Traced α γ} (h : Records Eq P n e id) (hstay : Records Agrees P stay e g)
    (hgo : ∀ d, Records Agrees P (go d) d g) :
    Records Agrees P (n >>= fun d => if d == e then stay else go d) e g := by
  intro log
  obtain ⟨r, ps, d, hn, hps, hr⟩ := h log
  cases r with
  | error failure =>
    exact ⟨.error failure, ps, d, run_bind_error hn, hps.mono fun _ _ => Or.inl, by simp⟩
  | ok b =>
    obtain rfl : b = d := hr b rfl
    by_cases hb : (b == e) = true
    · obtain ⟨r', qs, c, hrest, hqs, hr'⟩ := hstay (log ++ ps.toArray)
      refine ⟨r', ps ++ qs, c, ?_, ?_, hr'⟩
      · rw [run_bind_ok hn, if_pos hb, hrest]
        simp
      · have hback : Leads Agrees P log.size e ps e :=
          hps.retarget (Or.inr hb) fun hnil => (hps.idle hnil).symm
        apply hback.trans
        rwa [Array.size_append, List.size_toArray] at hqs
    · obtain ⟨r', qs, c, hrest, hqs, hr'⟩ := hgo b (log ++ ps.toArray)
      refine ⟨r', ps ++ qs, c, ?_, ?_, hr'⟩
      · rw [run_bind_ok hn, if_neg hb, hrest]
        simp
      · apply (hps.mono fun _ _ => Or.inl).trans
        rwa [Array.size_append, List.size_toArray] at hqs

end Rules

end Traced

namespace Simplifier

open Trace Traced

variable [BEq α]

def groupsOf : TargetForm → List String
  | .plain => categories
  | .expanded => categories ++ ["expand"]
  | .factored => categories ++ ["factor"]

def rewriteWhole (category : String) (r : Rule α) (e : Expr α) : Except Failure (Expr α) :=
  if category = "factor" then transformDown r.apply maxDepth e else e.transform r.apply

/-- A step that rewrites a whole expression with an active rule of the category it names. -/
structure Rewriting (s : Simplifier α) (form : TargetForm) (domain : NumberDomain) (p : Step α) :
    Prop where
  group : p.operation ∈ groupsOf form
  rule : ∃ r ∈ s.library.rules, r.info.category = some p.operation ∧
    s.library.isActive r = true ∧ (domain = .real ∨ r.hasTag "real" = false) ∧
    p.rule = r.name ∧ p.explanation = r.description ∧
    rewriteWhole p.operation r p.before = .ok p.after
  changes : (p.after == p.before) = false

variable {s : Simplifier α} {form : TargetForm} {domain : NumberDomain}

theorem record_records {category : String} {r : Rule α} {e d : Expr α}
    (hcategory : category ∈ groupsOf form) (hr : r ∈ s.rulesFor domain category)
    (hd : rewriteWhole category r e = .ok d) :
    Records Eq (s.Rewriting form domain) (record category r e d) e id := by
  unfold record
  by_cases h : (d == e) = true
  · rw [if_pos h]
    exact records_pure rfl
  · rw [if_neg h]
    apply records_step fun _ => rfl
    intro n
    simp only [rulesFor, Library.rulesIn, List.mem_filter, Bool.and_eq_true, Bool.or_eq_true,
      beq_iff_eq, Bool.not_eq_true'] at hr
    obtain ⟨⟨hmem, hgroup, hactive⟩, hdomain⟩ := hr
    exact ⟨hcategory, ⟨r, hmem, hgroup, hactive, hdomain, rfl, rfl, hd⟩, eq_false_of_ne_true h⟩

theorem rewriteWhole_records {category : String} {r : Rule α} {e : Expr α}
    (hcategory : category ∈ groupsOf form) (hr : r ∈ s.rulesFor domain category) :
    Records Eq (s.Rewriting form domain)
      (lift (rewriteWhole category r e) >>= record category r e) e id := by
  cases h : rewriteWhole category r e with
  | error failure => exact records_error failure
  | ok d => exact record_records hcategory hr h

theorem pass_records {groups : List String} (hgroups : groups ⊆ groupsOf form)
    (hup : "factor" ∉ groups) (e : Expr α) :
    Records Eq (s.Rewriting form domain) (s.pass domain groups e) e id := by
  apply records_foldlM
  intro category hcategory c
  apply records_foldlM
  intro r hr d
  have hup : rewriteWhole category r d = d.transform r.apply := by
    apply if_neg
    rintro rfl
    exact hup hcategory
  rw [applyUp, ← hup]
  exact rewriteWhole_records (hgroups hcategory) hr

theorem factorPass_records (e : Expr α) :
    Records Eq (s.Rewriting .factored domain) (s.factorPass domain e) e id := by
  apply records_foldlM
  intro r hr d
  have hdown : rewriteWhole "factor" r d = transformDown r.apply maxDepth d := if_pos rfl
  rw [applyDown, ← hdown]
  exact rewriteWhole_records (by simp [groupsOf]) hr

theorem fixpoint_records {groups : List String} (hgroups : groups ⊆ groupsOf form)
    (hup : "factor" ∉ groups) (limit : Nat) (e : Expr α) :
    Records Agrees (s.Rewriting form domain) (s.fixpoint domain groups limit e) e Prod.fst := by
  induction limit generalizing e with
  | zero => exact records_pure rfl
  | succ limit ih => exact (pass_records hgroups hup e).branch (records_pure rfl) ih

theorem run_records (s : Simplifier α) (form : TargetForm) (domain : NumberDomain) (limit : Nat)
    (e : Expr α) :
    Records Agrees (s.Rewriting form domain) (s.run form domain limit e) e Prod.fst := by
  have hplain : "factor" ∉ categories := by decide
  have hcategories : categories ⊆ groupsOf form := by
    cases form with
    | plain => exact List.Subset.refl _
    | expanded => exact List.subset_append_left _ _
    | factored => exact List.subset_append_left _ _
  unfold run
  apply (fixpoint_records hcategories hplain limit e).bind
  rintro ⟨c, settled⟩
  cases form with
  | plain => exact records_pure rfl
  | expanded =>
    apply (fixpoint_records (by simp [groupsOf]) (by decide) limit c).bind
    rintro ⟨c', expanded⟩
    apply (fixpoint_records hcategories hplain limit c').bind
    rintro ⟨c'', again⟩
    exact records_pure rfl
  | factored =>
    apply (factorPass_records c).branch (records_pure rfl)
    intro d
    apply (fixpoint_records hcategories hplain limit d).bind
    rintro ⟨c', again⟩
    exact records_pure rfl

end Simplifier

namespace Engine

open Trace Traced

variable [Scalar α]

/-- The steps of a simplification can be replayed: from the input to the result of the answer, or
up to where a simplification failed. -/
theorem simplify_replays (g : Engine α) (input : Input α) (maxSteps : Option Int)
    (form : Option String) (domain : String) :
    match (g.simplify input maxSteps form domain).start with
    | (.ok a, log) => ∃ e F D, input.expr = .ok e ∧ TargetForm.ofName? form = .ok F ∧
        NumberDomain.ofName? domain = .ok D ∧ a.trace.steps = log.toList ∧
        Replays (g.simplifier.Rewriting F D) e a.trace.steps a.result
    | (.error _, log) => log = #[] ∨ ∃ e F D d, input.expr = .ok e ∧
        TargetForm.ofName? form = .ok F ∧ NumberDomain.ofName? domain = .ok D ∧
        Replays (g.simplifier.Rewriting F D) e log.toList d := by
  have hstart : (g.simplify input maxSteps form domain).start =
      (g.simplify input maxSteps form domain).run.run #[] := rfl
  rw [hstart, simplify]
  cases he : input.expr with
  | error failure => exact Or.inl rfl
  | ok e =>
  rw [lift_ok_bind]
  cases hF : TargetForm.ofName? form with
  | error failure => exact Or.inl rfl
  | ok F =>
  rw [lift_ok_bind]
  cases hD : NumberDomain.ofName? domain with
  | error failure => exact Or.inl rfl
  | ok D =>
  rw [lift_ok_bind]
  generalize (maxSteps.map Int.toNat).getD g.simplifier.maxSteps = limit
  obtain ⟨r, ps, d, hrun, hps, hr⟩ := g.simplifier.run_records F D limit e #[]
  rw [List.append_toArray, ← run_recording] at hrun
  cases r with
  | error failure =>
    rw [run_bind_error hrun]
    exact Or.inr ⟨e, F, D, d, rfl, rfl, rfl, hps.replays⟩
  | ok b =>
    obtain rfl : b.1 = d := hr b rfl
    rw [run_bind_ok hrun]
    exact ⟨e, F, D, rfl, rfl, rfl, rfl, hps.replays⟩

end Engine

end RuleAlgebra
