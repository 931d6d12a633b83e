import RuleAlgebra.Polynomial.Term
import RuleAlgebra.Proofs.Outcomes
import RuleAlgebra.Simplifier

/-!
Top-down, a function is applied to an expression first and then to the parts of what it makes of it,
which can be larger than the expression itself. That ends when the function lowers a measure of
whatever it changes, although the result as a whole need not be any smaller.
-/

namespace RuleAlgebra.Simplifier

open RuleAlgebra.Expr

variable {α : Type} {f : Expr α → Except Failure (Expr α)}

section Chains

/-- The function is applied to the first expression, and the second one is a direct part of the
result. -/
def Descends (f : Expr α → Except Failure (Expr α)) (e c : Expr α) : Prop :=
  ∃ d, f e = .ok d ∧ c ∈ d.children

/-- The function has a result, and so has every application to the parts of it, until none are
left. -/
inductive Ends (f : Expr α → Except Failure (Expr α)) : Expr α → Prop
  | intro {e d : Expr α} (result : f e = .ok d) (parts : ∀ c ∈ d.children, Ends f c) : Ends f e

/-- Applying a function top-down has a result, the same for every greater depth that is allowed, and
no sequence of applications and descents goes on forever. -/
structure TopDownEnds (f : Expr α → Except Failure (Expr α)) (e : Expr α) : Prop where
  result : ∃ d depth, ∀ n, depth ≤ n → transformDown f n e = .ok d
  no_chain : ¬∃ chain : Nat → Expr α, chain 0 = e ∧ ∀ i, Descends f (chain i) (chain (i + 1))

theorem pair_settles {g : Nat → Expr α → Except Failure (Expr α)} {l r : Expr α}
    (hl : ∃ d depth, ∀ n, depth ≤ n → g n l = .ok d)
    (hr : ∃ d depth, ∀ n, depth ≤ n → g n r = .ok d) :
    ∃ l' r' depth, ∀ n, depth ≤ n → g n l = .ok l' ∧ g n r = .ok r' := by
  obtain ⟨l', m, hl⟩ := hl
  obtain ⟨r', k, hr⟩ := hr
  exact ⟨l', r', max m k, fun n hn => ⟨hl n (by omega), hr n (by omega)⟩⟩

theorem mapM_settles {g : Nat → Expr α → Except Failure (Expr α)} {cs : List (Expr α)}
    (h : ∀ c ∈ cs, ∃ d depth, ∀ n, depth ≤ n → g n c = .ok d) :
    ∃ ds depth, ∀ n, depth ≤ n → cs.mapM (g n) = .ok ds := by
  induction cs with
  | nil => exact ⟨[], 0, fun _ _ => rfl⟩
  | cons c cs ih =>
    obtain ⟨⟨d, m, hd⟩, hcs⟩ := List.forall_mem_cons.mp h
    obtain ⟨ds, k, hds⟩ := ih hcs
    refine ⟨d :: ds, max m k, fun n hn => ?_⟩
    rw [List.mapM_cons, hd n (by omega), hds n (by omega)]
    rfl

theorem Ends.result {e : Expr α} (h : Ends f e) :
    ∃ d depth, ∀ n, depth ≤ n → transformDown f n e = .ok d := by
  induction h with
  | @intro e d hd _ ih =>
    -- one level more than the deepest of the parts
    suffices h : ∃ d' depth, ∀ n, depth ≤ n → transformDown f (n + 1) e = .ok d' by
      obtain ⟨d', depth, h⟩ := h
      refine ⟨d', depth + 1, fun n hn => ?_⟩
      obtain ⟨n, rfl⟩ := Nat.exists_eq_add_of_le' (Nat.le_of_add_left_le hn)
      exact h n (by omega)
    simp only [transformDown, hd, ok_bind]
    cases d with
    | num v => exact ⟨_, 0, fun _ _ => rfl⟩
    | var x => exact ⟨_, 0, fun _ _ => rfl⟩
    | wild n k a => exact ⟨_, 0, fun _ _ => rfl⟩
    | op o l r =>
      obtain ⟨l', r', m, h⟩ :=
        pair_settles (ih l (by simp [children])) (ih r (by simp [children]))
      refine ⟨op o l' r', m, fun n hn => ?_⟩
      obtain ⟨hl, hr⟩ := h n hn
      simp only [hl, hr]
      rfl
    | eq l r =>
      obtain ⟨l', r', m, h⟩ :=
        pair_settles (ih l (by simp [children])) (ih r (by simp [children]))
      refine ⟨eq l' r', m, fun n hn => ?_⟩
      obtain ⟨hl, hr⟩ := h n hn
      simp only [hl, hr]
      rfl
    | fn g as =>
      obtain ⟨as', m, has⟩ := mapM_settles ih
      refine ⟨fn g as', m, fun n hn => ?_⟩
      rw [children] at has
      simp only [has n hn]
      rfl

theorem Ends.no_chain {e : Expr α} (h : Ends f e) :
    ¬∃ chain : Nat → Expr α, chain 0 = e ∧ ∀ i, Descends f (chain i) (chain (i + 1)) := by
  induction h with
  | @intro e d hd _ ih =>
    rintro ⟨chain, rfl, hchain⟩
    obtain ⟨d', hd', hc⟩ := hchain 0
    obtain rfl : d = d' := Except.ok.inj (hd.symm.trans hd')
    exact ih _ hc ⟨fun i => chain (i + 1), rfl, fun i => hchain (i + 1)⟩

theorem Ends.topDown {e : Expr α} (h : Ends f e) : TopDownEnds f e := ⟨h.result, h.no_chain⟩

end Chains

section Measures

theorem sizeOf_children_lt {e c : Expr α} (h : c ∈ e.children) : sizeOf c < sizeOf e := by
  cases e with
  | op o l r =>
    simp only [children, List.mem_cons, List.not_mem_nil, or_false] at h
    rcases h with rfl | rfl <;> simp only [op.sizeOf_spec] <;> omega
  | eq l r =>
    simp only [children, List.mem_cons, List.not_mem_nil, or_false] at h
    rcases h with rfl | rfl <;> simp only [eq.sizeOf_spec] <;> omega
  | fn g as =>
    rw [children] at h
    have := List.sizeOf_lt_of_mem h
    simp only [fn.sizeOf_spec]
    omega
  | _ => simp [children] at h

/-- A measure that no part exceeds, numbers apart, shows that a function ends on all expressions if
it ends on each for which it does so on all that measure less and on the parts. -/
theorem ends_of_measure (measure : Expr α → Nat) (hnum : ∀ v, Ends f (num v))
    (hparts : ∀ e, ∀ c ∈ e.children, measure c ≤ measure e ∨ ∃ v, c = num v)
    (hstep : ∀ e, (∀ d, measure d < measure e → Ends f d) → (∀ c ∈ e.children, Ends f c) →
      Ends f e) (e : Expr α) : Ends f e := by
  -- by the measure, and by the size among expressions of equal measure
  induction hm : measure e using Nat.strong_induction_on generalizing e with
  | _ m less =>
    induction hs : sizeOf e using Nat.strong_induction_on generalizing e with
    | _ s smaller =>
      subst hm hs
      have hless (d : Expr α) (hd : measure d < measure e) : Ends f d := less _ hd d rfl
      refine hstep e hless fun c hc => ?_
      rcases hparts e c hc with hle | ⟨v, rfl⟩
      · rcases hle.lt_or_eq with hlt | heq
        · exact hless c hlt
        · exact smaller _ (sizeOf_children_lt hc) c heq rfl
      · exact hnum v

end Measures

section Products

variable (hmul : ∀ l r, f (op .mul l r) = .ok (op .mul l r))
include hmul

theorem ends_mul {l r : Expr α} (hl : Ends f l) (hr : Ends f r) : Ends f (op .mul l r) :=
  .intro (hmul l r) (by simpa [children] using ⟨hl, hr⟩)

theorem ends_foldl_mul {e : Expr α} {fs : List (Expr α)} (he : Ends f e)
    (hfs : ∀ g ∈ fs, Ends f g) : Ends f (fs.foldl (op .mul) e) := by
  induction fs generalizing e with
  | nil => exact he
  | cons g fs ih =>
    obtain ⟨hg, hfs⟩ := List.forall_mem_cons.mp hfs
    exact ih (ends_mul hmul he hg) hfs

theorem ends_product [Scalar α] (hone : Ends f (ofNat 1)) {fs : List (Expr α)}
    (hfs : ∀ g ∈ fs, Ends f g) : Ends f (Term.product fs) := by
  cases fs with
  | nil => exact hone
  | cons g fs =>
    obtain ⟨hg, hfs⟩ := List.forall_mem_cons.mp hfs
    exact ends_foldl_mul hmul hg hfs

omit hmul in
theorem foldl_mul_cons (e g : Expr α) (fs : List (Expr α)) :
    ∃ l r, (g :: fs).foldl (op .mul) e = op .mul l r := by
  induction fs generalizing e g with
  | nil => exact ⟨e, g, rfl⟩
  | cons h fs ih => exact ih (op .mul e g) h

theorem ends_product_parts [Scalar α] {fs : List (Expr α)} (hfs : ∀ g ∈ fs, Ends f g)
    (hparts : ∀ g ∈ fs, ∀ c ∈ g.children, Ends f c) :
    ∀ c ∈ (Term.product fs).children, Ends f c := by
  match fs with
  | [] => simp [Term.product, ofNat, children]
  | [g] => exact hparts g List.mem_cons_self
  | g :: h :: fs =>
    obtain ⟨l, r, hproduct⟩ := foldl_mul_cons g h fs
    obtain ⟨hg, hrest⟩ := List.forall_mem_cons.mp hfs
    have hends := ends_foldl_mul hmul hg hrest
    rw [Term.product, hproduct]
    rw [hproduct] at hends
    cases hends with
    | intro hd hchildren =>
      obtain rfl := Except.ok.inj ((hmul l r).symm.trans hd)
      exact hchildren

end Products

end RuleAlgebra.Simplifier
