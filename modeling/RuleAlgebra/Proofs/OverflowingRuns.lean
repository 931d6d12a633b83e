import RuleAlgebra.Proofs.OverflowingRules
import RuleAlgebra.Proofs.SimplifierInvariants

/-!
Applied to a whole tree, a rule of the standard library overflows exactly when it overflows at a
part whose own parts have been rewritten. A simplification fails only where a rule overflows on the
way, or when factoring goes too deep.
-/

namespace RuleAlgebra

namespace Expr

open RuleAlgebra.Traced

variable {α : Type}

def withChildren : Expr α → List (Expr α) → Expr α
  | op o _ _, [l, r] => op o l r
  | fn g _, as => fn g as
  | eq _ _, [l, r] => eq l r
  | e, _ => e

/-- A function overflows at a part of the tree, once it has been applied to the parts of that; `P`
says where it overflows. -/
def OverflowsAtPart (f : Expr α → Except Failure (Expr α)) (P : Expr α → Prop) (t : Expr α) :
    Prop :=
  ∃ p ∈ t.walk, ∃ cs, p.children.mapM (transform f) = .ok cs ∧ P (p.withChildren cs)

section Parts

variable {f : Expr α → Except Failure (Expr α)} {P : Expr α → Prop}

theorem transformArgs_eq_mapM (as : List (Expr α)) :
    transformArgs f as = as.mapM (transform f) := by
  induction as with
  | nil => rfl
  | cons a as ih => rw [transformArgs, List.mapM_cons, ih]

theorem exists_mapM_pair {g : Expr α → Except Failure (Expr α)} {l r : Expr α}
    {Q : List (Expr α) → Prop} : (∃ cs, [l, r].mapM g = .ok cs ∧ Q cs) ↔
      ∃ l' r', g l = .ok l' ∧ g r = .ok r' ∧ Q [l', r'] := by
  simp only [mapM_eq_ok]
  constructor
  · rintro ⟨_, _ | ⟨hl, _ | ⟨hr, _ | _⟩⟩, hQ⟩
    exact ⟨_, _, hl, hr, hQ⟩
  · rintro ⟨l', r', hl, hr, hQ⟩
    exact ⟨_, .cons hl (.cons hr .nil), hQ⟩

theorem overflowsAtPart_op (o : Arithmetic) (l r : Expr α) : OverflowsAtPart f P (op o l r) ↔
    (∃ l' r', l.transform f = .ok l' ∧ r.transform f = .ok r' ∧ P (op o l' r')) ∨
      OverflowsAtPart f P l ∨ OverflowsAtPart f P r := by
  simp only [OverflowsAtPart, walk, List.mem_cons, List.mem_append, or_and_right, exists_or,
    exists_eq_left, children, exists_mapM_pair, withChildren]

theorem overflowsAtPart_eq (l r : Expr α) : OverflowsAtPart f P (eq l r) ↔
    (∃ l' r', l.transform f = .ok l' ∧ r.transform f = .ok r' ∧ P (eq l' r')) ∨
      OverflowsAtPart f P l ∨ OverflowsAtPart f P r := by
  simp only [OverflowsAtPart, walk, List.mem_cons, List.mem_append, or_and_right, exists_or,
    exists_eq_left, children, exists_mapM_pair, withChildren]

theorem overflowsAtPart_fn (g : String) (as : List (Expr α)) : OverflowsAtPart f P (fn g as) ↔
    (∃ as', transformArgs f as = .ok as' ∧ P (fn g as')) ∨
      ∃ a ∈ as, OverflowsAtPart f P a := by
  simp only [OverflowsAtPart, walk, List.mem_cons, mem_walkArgs, or_and_right, exists_or,
    exists_eq_left, children, transformArgs_eq_mapM, withChildren]
  apply or_congr_right
  constructor
  · rintro ⟨p, ⟨a, ha, hp⟩, h⟩
    exact ⟨a, ha, p, hp, h⟩
  · rintro ⟨a, ha, p, hp, h⟩
    exact ⟨p, ⟨a, ha, hp⟩, h⟩

theorem overflowsAtPart_leaf (e : Expr α) (hwalk : e.walk = [e]) (hleaf : e.children = []) :
    OverflowsAtPart f P e ↔ P (e.withChildren []) := by
  simp [OverflowsAtPart, hwalk, hleaf, pure, Except.pure]

theorem overflowsIff_pair {g : Expr α → Expr α → Expr α} {l r : Expr α} {A B : Prop}
    (hf : ∀ e, OverflowsIff (f e) (P e)) (hl : OverflowsIff (l.transform f) A)
    (hr : OverflowsIff (r.transform f) B) :
    OverflowsIff (do
      let l' ← l.transform f
      let r' ← r.transform f
      f (g l' r'))
    ((∃ l' r', l.transform f = .ok l' ∧ r.transform f = .ok r' ∧ P (g l' r')) ∨ A ∨ B) := by
  apply (hl.bind fun l' _ => hr.bind fun r' _ => hf (g l' r')).congr
  by_cases hA : A
  · simp [hA]
  · obtain ⟨l', hl'⟩ := hl.2 hA
    simp only [hA, hl', Except.ok.injEq, exists_eq_left', false_or]
    rw [or_comm]
    simp

mutual

theorem transform_overflows (hf : ∀ e, OverflowsIff (f e) (P e)) :
    ∀ t : Expr α, OverflowsIff (t.transform f) (OverflowsAtPart f P t)
  | num v => (hf (num v)).congr (overflowsAtPart_leaf (num v) rfl rfl).symm
  | var x => (hf (var x)).congr (overflowsAtPart_leaf (var x) rfl rfl).symm
  | wild n k a => (hf (wild n k a)).congr (overflowsAtPart_leaf (wild n k a) rfl rfl).symm
  | op o l r => by
    apply OverflowsIff.congr _ (overflowsAtPart_op o l r).symm
    exact overflowsIff_pair hf (transform_overflows hf l) (transform_overflows hf r)
  | eq l r => by
    apply OverflowsIff.congr _ (overflowsAtPart_eq l r).symm
    exact overflowsIff_pair hf (transform_overflows hf l) (transform_overflows hf r)
  | fn g as => by
    rw [transform]
    apply ((transformArgs_overflows hf as).bind fun as' _ => hf (fn g as')).congr
    rw [overflowsAtPart_fn, or_comm]

theorem transformArgs_overflows (hf : ∀ e, OverflowsIff (f e) (P e)) :
    ∀ as : List (Expr α), OverflowsIff (transformArgs f as) (∃ a ∈ as, OverflowsAtPart f P a)
  | [] => (overflowsIff_ok []).congr (by simp)
  | a :: as => by
    rw [transformArgs]
    apply ((transform_overflows hf a).bind fun a' _ => (transformArgs_overflows hf as).map).congr
    rw [← (transform_overflows hf a).after]
    simp

end

theorem transformDown_fails (hf : ∀ e, OverflowsIff (f e) (P e)) (depth : Nat) (e : Expr α) :
    Outcome (fun _ => True) (fun g => g = .overflow ∨ g = .arithmetic .depth)
      (Simplifier.transformDown f depth e) := by
  have hnode (e : Expr α) :
      Outcome (fun _ => True) (fun g => g = .overflow ∨ g = .arithmetic .depth) (f e) := by
    cases hd : f e with
    | ok d => trivial
    | error g => exact Or.inl ((hf e).error hd).1
  induction depth generalizing e with
  | zero => exact Or.inr rfl
  | succ depth ih =>
    rw [Simplifier.transformDown]
    apply (hnode e).bind
    intro d _
    cases d with
    | num v => trivial
    | var x => trivial
    | wild n k a => trivial
    | op o l r =>
      apply (ih l).bind
      intro l' _
      apply (ih r).bind
      intro r' _
      trivial
    | eq l r =>
      apply (ih l).bind
      intro l' _
      apply (ih r).bind
      intro r' _
      trivial
    | fn g as =>
      apply (outcome_mapM ih as).bind
      intro as' _
      trivial

end Parts

end Expr

section Library

open RuleAlgebra.Traced RuleAlgebra.Rules

variable {α : Type} [Scalar α]

theorem Library.standard_overflows (hα : Scalar.Ranged α) :
    ∀ r ∈ (Library.standard : Library α).rules, ∀ e,
      OverflowsIff (r.apply e) (Overflows r.name e) := by
  intro r hr
  rcases Library.mem_standard hr with hr | hr
  · exact identities_result r hr
  · exact computedRules_overflow hα r hr

theorem Library.transform_overflows (hα : Scalar.Ranged α) {r : Rule α}
    (hr : r ∈ (Library.standard : Library α).rules) (t : Expr α) :
    OverflowsIff (t.transform r.apply) (t.OverflowsAtPart r.apply (Overflows r.name)) :=
  Expr.transform_overflows (Library.standard_overflows hα r hr) t

/-- The expressions that rewriting with rules of the standard library leads to. -/
inductive Reaches (t : Expr α) : Expr α → Prop
  | refl : Reaches t t
  | up {r : Rule α} {c d : Expr α} (hr : r ∈ (Library.standard : Library α).rules)
      (hc : Reaches t c) (hd : c.transform r.apply = .ok d) : Reaches t d
  | down {r : Rule α} {c d : Expr α} (hr : r ∈ (Library.standard : Library α).rules)
      (hc : Reaches t c) (hd : Simplifier.transformDown r.apply Simplifier.maxDepth c = .ok d) :
      Reaches t d

/-- Why a simplification fails: at an expression that it reaches a rule overflows, or, when it
factors, overflows or goes too deep from the top. -/
def FailsOnTheWay (form : TargetForm) (t : Expr α) (f : Failure) : Prop :=
  ∃ c, Reaches t c ∧ ∃ r ∈ (Library.standard : Library α).rules,
    f = .overflow ∧ c.OverflowsAtPart r.apply (Overflows r.name) ∨
      form = .factored ∧ (f = .overflow ∨ f = .arithmetic .depth) ∧
        Simplifier.transformDown r.apply Simplifier.maxDepth c = .error f

theorem run_overflows (hα : Scalar.Ranged α) (maxSteps limit : Nat) (form : TargetForm)
    (domain : NumberDomain) (t : Expr α) :
    Ensures ((⟨.standard, maxSteps⟩ : Simplifier α).run form domain limit t)
      (fun d => Reaches t d.1) (FailsOnTheWay form t) := by
  apply Simplifier.run_preserves _ _ limit Reaches.refl
  · intro r hr c hc
    cases hd : c.transform r.apply with
    | ok d => exact hc.up hr hd
    | error f =>
      have h := (Library.transform_overflows hα hr c).error hd
      exact ⟨c, hc, r, hr, Or.inl h⟩
  · intro hform r hr c hc
    have h := Expr.transformDown_fails (Library.standard_overflows hα r hr) Simplifier.maxDepth c
    cases hd : Simplifier.transformDown r.apply Simplifier.maxDepth c with
    | ok d => exact hc.down hr hd
    | error f =>
      rw [hd] at h
      exact ⟨c, hc, r, hr, Or.inr ⟨hform, h, hd⟩⟩

/-- Over binary64, a rule of the standard library has a result at an expression exactly when every
number that it has to write there is in range, and on a whole tree exactly when it has one at every
part; otherwise it overflows. A simplification has a result, or fails where a rule overflows on an
expression that it reaches, or when factoring goes too deep. -/
theorem standard_fails_by_overflow {r : Rule Float}
    (hr : r ∈ (Library.standard : Library Float).rules) (t : Expr Float) (maxSteps limit : Nat)
    (form : TargetForm) (domain : NumberDomain) :
    ((∃ d, r.apply t = .ok d) ↔ ¬Overflows r.name t) ∧
      ((∃ d, t.transform r.apply = .ok d) ↔
        ¬t.OverflowsAtPart r.apply (Overflows r.name)) ∧
      (∀ f, r.apply t = .error f ∨ t.transform r.apply = .error f → f = .overflow) ∧
      match ((⟨.standard, maxSteps⟩ : Simplifier Float).run form domain limit t).result with
      | .ok d => Reaches t d.1
      | .error f => FailsOnTheWay form t f := by
  have hnode := Library.standard_overflows Scalar.ranged_float r hr t
  have htree := Library.transform_overflows Scalar.ranged_float hr t
  refine ⟨hnode.result_iff, htree.result_iff, ?_, ?_⟩
  · rintro f (hf | hf)
    · exact (hnode.error hf).1
    · exact (htree.error hf).1
  · have h := (run_overflows Scalar.ranged_float maxSteps limit form domain t).result
    generalize Traced.result _ = d at h ⊢
    cases d with
    | ok d => exact h
    | error f => exact h

theorem addFractions_mem : computed "add-fractions" "arithmetic" "Add or subtract exact fractions"
    addFractions ∈ (Library.standard : Library α).rules := by
  have hmem : computed "add-fractions" "arithmetic" "Add or subtract exact fractions"
      addFractions ∈ (computedRules : List (Rule α)) := by
    simp [computedRules]
  rw [Library.standard, Library.ofRules, Library.addAll_rules]
  simp only [Library.empty, List.nil_append, List.mem_flatMap, List.mem_filter, List.mem_append]
  exact ⟨"arithmetic", by decide, Or.inr hmem, rfl⟩

/-- The number `1e308` plus the fraction `1e308/1`. -/
def hugeSum : Expr Float :=
  let huge := Float.ofBits 0x7fe1ccf385ebc8a0
  .op .add (.num huge) (.op .div (.num huge) (.ofNat 1))

theorem hugeSum_overflows : FractionsOverflow hugeSum := by
  refine ⟨rfl, rfl, 0x11ccf385ebc8a0 * 2 ^ 971, 0x11ccf385ebc8a0 * 2 ^ 971, ?_, ?_, ?_⟩
  · decide +kernel
  · decide +kernel
  · rintro ⟨hnum, -⟩
    revert hnum
    unfold Scalar.InRange
    decide +kernel

theorem standard_fails_by_overflow_at_hugeSum :
    (computed "add-fractions" "arithmetic" "Add or subtract exact fractions" addFractions :
        Rule Float) ∈ (Library.standard : Library Float).rules ∧
      Overflows "add-fractions" hugeSum ∧
      ((∃ d, addFractions hugeSum = .ok d) ↔ ¬Overflows "add-fractions" hugeSum) ∧
      ¬∃ d, addFractions hugeSum = .ok d := by
  have h := (standard_fails_by_overflow addFractions_mem hugeSum 1 1 .plain .real).1
  exact ⟨addFractions_mem, hugeSum_overflows, h, fun hd => h.mp hd hugeSum_overflows⟩

/-- Adding fractions raises an overflow at a tree of finite numbers. -/
theorem standard_rules_fail :
    ¬∀ r ∈ (Library.standard : Library Float).rules, ∀ t : Expr Float,
      (∀ v, .num v ∈ t.walk → v.isFinite = true) → ∃ d, t.transform r.apply = .ok d := by
  intro h
  have hfinite : ∀ v, .num v ∈ hugeSum.walk → v.isFinite = true := by
    intro v hv
    simp only [hugeSum, Expr.ofNat, Expr.walk, List.mem_cons, List.mem_append, List.not_mem_nil,
      reduceCtorEq, Expr.num.injEq, or_false, false_or] at hv
    rcases hv with rfl | rfl | rfl
    · decide +kernel
    · decide +kernel
    · decide +kernel
  obtain ⟨d, hd⟩ := h _ addFractions_mem hugeSum hfinite
  have htransform : hugeSum.transform addFractions = addFractions hugeSum := rfl
  have hfails := (addFractions_overflows Scalar.ranged_float hugeSum).1 hugeSum_overflows
  cases hd.symm.trans (htransform.trans hfails)

end Library

end RuleAlgebra
