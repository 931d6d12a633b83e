import RuleAlgebra.Proofs.SimplifierResults

/-!
Runs of the simplifier that settle. A loop that came to an end on its own does the same under every
larger limit, and what it ends with is left alone by a further loop.
-/

namespace RuleAlgebra

namespace Simplifier

open Traced

variable {α : Type} [BEq α] {s : Simplifier α} {domain : NumberDomain} {groups : List String}
  {N M : Nat} {e d : Expr α} {log log' : Log α}

theorem fixpoint_of_le (hNM : N ≤ M)
    (h : (s.fixpoint domain groups N e).run.run log = (.ok (d, true), log')) :
    (s.fixpoint domain groups M e).run.run log = (.ok (d, true), log') := by
  induction N generalizing M e log with
  | zero =>
    obtain ⟨hfalse, -⟩ := run_pure_eq_ok.mp h
    cases hfalse
  | succ N ih =>
    obtain ⟨M, rfl⟩ : ∃ k, M = k + 1 := ⟨M - 1, by omega⟩
    rw [fixpoint, run_bind_eq_ok] at h ⊢
    obtain ⟨c, mid, hpass, hrest⟩ := h
    refine ⟨c, mid, hpass, ?_⟩
    by_cases hc : (c == e) = true
    · rwa [if_pos hc] at hrest ⊢
    · rw [if_neg hc] at hrest ⊢
      exact ih (by omega) hrest

/-- What a loop that settled ends with is equal to what one more pass makes of it. -/
theorem pass_of_settled (h : (s.fixpoint domain groups N e).run.run log = (.ok (d, true), log')) :
    ∃ c, (s.pass domain groups d).result = .ok c ∧ (c == d) = true := by
  induction N generalizing e log with
  | zero =>
    obtain ⟨hfalse, -⟩ := run_pure_eq_ok.mp h
    cases hfalse
  | succ N ih =>
    rw [fixpoint, run_bind_eq_ok] at h
    obtain ⟨c, mid, hpass, hrest⟩ := h
    by_cases hc : (c == e) = true
    · rw [if_pos hc, run_pure_eq_ok] at hrest
      obtain ⟨hd, -⟩ := hrest
      cases hd
      refine ⟨c, ?_, hc⟩
      rw [← pass_logFree s domain groups _ log, hpass]
    · rw [if_neg hc] at hrest
      exact ih hrest

theorem fixpoint_of_pass {c : Expr α} {L : Nat} (hL : 1 ≤ L)
    (hpass : (s.pass domain groups d).result = .ok c) (hc : (c == d) = true) :
    (s.fixpoint domain groups L d).result = .ok (d, true) := by
  obtain ⟨L, rfl⟩ : ∃ k, L = k + 1 := ⟨L - 1, by omega⟩
  rw [fixpoint, result_bind, hpass, ok_bind, if_pos hc, result_pure]
  intro b
  split_ifs
  · exact logFree_pure _
  · exact fixpoint_logFree s domain groups L b

theorem run_of_le {form : TargetForm} (hNM : N ≤ M)
    (h : (s.run form domain N e).run.run log = (.ok (d, true), log')) :
    (s.run form domain M e).run.run log = (.ok (d, true), log') := by
  rw [run, run_bind_eq_ok] at h ⊢
  obtain ⟨⟨c, settled⟩, mid, hloop, hrest⟩ := h
  -- every loop of the run has settled, so none of them sees that more passes are allowed
  cases form with
  | plain =>
    obtain ⟨hd, rfl⟩ := run_pure_eq_ok.mp hrest
    cases hd
    exact ⟨_, _, fixpoint_of_le hNM hloop, run_pure_eq_ok.mpr ⟨rfl, rfl⟩⟩
  | expanded =>
    simp only [run_bind_eq_ok] at hrest ⊢
    obtain ⟨⟨c', expanded⟩, mid', hexpand, ⟨c'', again⟩, mid'', hagain, hpure⟩ := hrest
    obtain ⟨hd, rfl⟩ := run_pure_eq_ok.mp hpure
    simp only [Prod.mk.injEq, Bool.and_eq_true] at hd
    obtain ⟨rfl, ⟨rfl, rfl⟩, rfl⟩ := hd
    exact ⟨_, _, fixpoint_of_le hNM hloop, _, _, fixpoint_of_le hNM hexpand, _, _,
      fixpoint_of_le hNM hagain, run_pure_eq_ok.mpr ⟨rfl, rfl⟩⟩
  | factored =>
    simp only [run_bind_eq_ok] at hrest ⊢
    obtain ⟨c', mid', hfactor, hrest⟩ := hrest
    by_cases hc : (c' == c) = true
    · rw [if_pos hc] at hrest
      obtain ⟨hd, rfl⟩ := run_pure_eq_ok.mp hrest
      cases hd
      refine ⟨_, _, fixpoint_of_le hNM hloop, c', _, hfactor, ?_⟩
      rw [if_pos hc]
      exact run_pure_eq_ok.mpr ⟨rfl, rfl⟩
    · rw [if_neg hc, run_bind_eq_ok] at hrest
      obtain ⟨⟨c'', again⟩, mid'', hagain, hpure⟩ := hrest
      obtain ⟨hd, rfl⟩ := run_pure_eq_ok.mp hpure
      simp only [Prod.mk.injEq, Bool.and_eq_true] at hd
      obtain ⟨rfl, rfl, rfl⟩ := hd
      refine ⟨_, _, fixpoint_of_le hNM hloop, c', _, hfactor, ?_⟩
      rw [if_neg hc, run_bind_eq_ok]
      exact ⟨_, _, fixpoint_of_le hNM hagain, run_pure_eq_ok.mpr ⟨rfl, rfl⟩⟩

theorem run_plain_of_settled (h : (s.run .plain domain N e).run.run log = (.ok (d, true), log'))
    {L : Nat} (hL : 1 ≤ L) : (s.run .plain domain L d).result = .ok (d, true) := by
  rw [run, run_bind_eq_ok] at h
  obtain ⟨⟨c, settled⟩, mid, hloop, hrest⟩ := h
  obtain ⟨hd, -⟩ := run_pure_eq_ok.mp hrest
  cases hd
  obtain ⟨c', hpass, hc⟩ := pass_of_settled hloop
  rw [run_plain_result]
  exact fixpoint_of_pass hL hpass hc

/-- A run that settled goes the same way, step by step, under every larger limit; without a target
form, simplifying its result again gives the result. -/
theorem settled_run_stable (s : Simplifier α) {form : TargetForm}
    (h : (s.run form domain N e).run.run log = (.ok (d, true), log')) :
    (∀ M, N ≤ M → (s.run form domain M e).run.run log = (.ok (d, true), log')) ∧
      (form = .plain → ∀ L, 1 ≤ L → ∀ log : Log α,
        ((s.run .plain domain L d).run.run log).1 = .ok (d, true)) := by
  constructor
  · intro M hNM
    exact run_of_le hNM h
  · rintro rfl L hL log
    rw [run_logFree s domain .plain L d log]
    exact run_plain_of_settled h hL

section Cycles

def renameRule (x y : String) : Rule Rat :=
  .ofPattern ⟨some (x ++ "-to-" ++ y), none, ["arithmetic"]⟩ (.var x) (.var y)

/-- A library that renames a variable and takes the renaming back within one pass. -/
def cyclic : Simplifier Rat := ⟨.ofRules [renameRule "a" "b", renameRule "b" "a"], 50⟩

theorem settled_run_stable_of_cycle :
    let a : Expr Rat := .var "a"
    let b : Expr Rat := .var "b"
    let log : Log Rat :=
      #[⟨1, "arithmetic", a, b, "a-to-b", ""⟩, ⟨2, "arithmetic", b, a, "b-to-a", ""⟩]
    (cyclic.run .plain .real 1 a).run.run #[] = (.ok (a, true), log) ∧
      (∀ M, 1 ≤ M → (cyclic.run .plain .real M a).run.run #[] = (.ok (a, true), log)) ∧
        ∀ L, 1 ≤ L → ∀ log : Log Rat,
          ((cyclic.run .plain .real L a).run.run log).1 = .ok (a, true) := by
  intro a b log
  have hrun : (cyclic.run .plain .real 1 a).run.run #[] = (.ok (a, true), log) := by rfl
  obtain ⟨hlimits, hagain⟩ := settled_run_stable cyclic hrun
  exact ⟨hrun, hlimits, hagain rfl⟩

end Cycles

end Simplifier

end RuleAlgebra
