import RuleAlgebra.Proofs.NumberClasses
import RuleAlgebra.Proofs.SettledRuns

/-!
Simplifying an equation is simplifying its sides. No rule looks at an equation as a whole, so that a
pass does to it what it does to both sides. The sides settle after different numbers of passes; the
one that has settled first stays as it is, up to equal numbers, while passes over the other go on.
-/

namespace RuleAlgebra

section Joins

variable {ε β γ δ β' γ' δ' : Type}

/-- One computation has a result exactly if two others have, and the results are related. -/
def Joins (R : β → γ → δ → Prop) (x : Except ε β) (y : Except ε γ) (z : Except ε δ) : Prop :=
  (∀ c d, y = .ok c → z = .ok d → ∃ b, x = .ok b ∧ R b c d) ∧
    ∀ b, x = .ok b → ∃ c d, y = .ok c ∧ z = .ok d

variable {R : β → γ → δ → Prop} {S : β' → γ' → δ' → Prop} {x : Except ε β} {y : Except ε γ}
  {z : Except ε δ}

theorem joins_ok {b : β} {c : γ} {d : δ} (h : R b c d) :
    Joins R (.ok b : Except ε β) (.ok c) (.ok d) := by
  refine ⟨?_, fun _ _ => ⟨c, d, rfl, rfl⟩⟩
  rintro _ _ ⟨⟩ ⟨⟩
  exact ⟨b, rfl, h⟩

theorem Joins.bind {f : β → Except ε β'} {g : γ → Except ε γ'} {h : δ → Except ε δ'}
    (hx : Joins R x y z)
    (hf : ∀ b c d, y = .ok c → z = .ok d → R b c d → Joins S (f b) (g c) (h d)) :
    Joins S (x >>= f) (y >>= g) (z >>= h) := by
  constructor
  · intro c' d' hy hz
    obtain ⟨c, hc, hgc⟩ := bind_eq_ok.mp hy
    obtain ⟨d, hd, hhd⟩ := bind_eq_ok.mp hz
    obtain ⟨b, hb, hR⟩ := hx.1 c d hc hd
    obtain ⟨b', hb', hS⟩ := (hf b c d hc hd hR).1 c' d' hgc hhd
    exact ⟨b', bind_eq_ok.mpr ⟨b, hb, hb'⟩, hS⟩
  · intro b' hx'
    obtain ⟨b, hb, hfb⟩ := bind_eq_ok.mp hx'
    obtain ⟨c, d, hc, hd⟩ := hx.2 b hb
    obtain ⟨b₁, hb₁, hR⟩ := hx.1 c d hc hd
    obtain rfl := Except.ok.inj (hb.symm.trans hb₁)
    obtain ⟨c', d', hc', hd'⟩ := (hf b c d hc hd hR).2 b' hfb
    exact ⟨c', d', bind_eq_ok.mpr ⟨c, hc, hc'⟩, bind_eq_ok.mpr ⟨d, hd, hd'⟩⟩

theorem Joins.exchange {x : Except ε β} {y' : Except ε γ'} {z' : Except ε δ'}
    {S : β → γ' → δ' → Prop} (hx : Joins R x y z) (hy : ∀ c', y' = .ok c' → ∃ c, y = .ok c)
    (hz : ∀ d', z' = .ok d' → ∃ d, z = .ok d)
    (hS : ∀ b c d, y = .ok c → z = .ok d → R b c d →
      ∃ c' d', y' = .ok c' ∧ z' = .ok d' ∧ S b c' d') : Joins S x y' z' := by
  constructor
  · intro c' d' hc' hd'
    obtain ⟨c, hc⟩ := hy c' hc'
    obtain ⟨d, hd⟩ := hz d' hd'
    obtain ⟨b, hb, hR⟩ := hx.1 c d hc hd
    obtain ⟨c'', d'', hc'', hd'', hS⟩ := hS b c d hc hd hR
    obtain rfl := Except.ok.inj (hc'.symm.trans hc'')
    obtain rfl := Except.ok.inj (hd'.symm.trans hd'')
    exact ⟨b, hb, hS⟩
  · intro b hb
    obtain ⟨c, d, hc, hd⟩ := hx.2 b hb
    obtain ⟨b', hb', hR⟩ := hx.1 c d hc hd
    obtain ⟨c', d', hc', hd', -⟩ := hS b' c d hc hd hR
    exact ⟨c', d', hc', hd'⟩

theorem joins_foldlM {ι : Type} {f : β → ι → Except ε β} {g : γ → ι → Except ε γ}
    {h : δ → ι → Except ε δ} (is : List ι)
    (hstep : ∀ i ∈ is, ∀ b c d, R b c d → Joins R (f b i) (g c i) (h d i)) {b : β} {c : γ} {d : δ}
    (hR : R b c d) : Joins R (is.foldlM f b) (is.foldlM g c) (is.foldlM h d) := by
  induction is generalizing b c d with
  | nil => exact joins_ok hR
  | cons i is ih =>
    rw [List.foldlM_cons, List.foldlM_cons, List.foldlM_cons]
    obtain ⟨hi, his⟩ := List.forall_mem_cons.mp hstep
    exact (hi b c d hR).bind fun _ _ _ _ _ hR' => ih his hR'

end Joins

namespace Expr

variable {α : Type} [BEq α] {f : Expr α → Except Failure (Expr α)}

mutual

theorem transform_alike (hf : ∀ p q, Alike p q → Outcomes Alike (f p) (f q)) :
    ∀ {p q : Expr α}, Alike p q → Outcomes Alike (p.transform f) (q.transform f)
  | num u, q, h => by
    cases q with
    | num v => exact hf _ _ h
    | _ => exact h.elim
  | var x, q, h => by
    cases q with
    | var y => exact hf _ _ h
    | _ => exact h.elim
  | op o l r, q, h => by
    cases q with
    | op o' l' r' =>
      obtain ⟨rfl, hl, hr⟩ := h
      exact (transform_alike hf hl).bind fun _ _ hl' =>
        (transform_alike hf hr).bind fun _ _ hr' => hf _ _ ⟨rfl, hl', hr'⟩
    | _ => exact h.elim
  | fn g as, q, h => by
    cases q with
    | fn g' bs =>
      obtain ⟨rfl, has⟩ := h
      exact (transformArgs_alike hf has).bind fun _ _ has' => hf _ _ ⟨rfl, has'⟩
    | _ => exact h.elim
  | eq l r, q, h => by
    cases q with
    | eq l' r' =>
      exact (transform_alike hf h.1).bind fun _ _ hl' =>
        (transform_alike hf h.2).bind fun _ _ hr' => hf _ _ ⟨hl', hr'⟩
    | _ => exact h.elim
  | wild x k a, q, h => by
    cases q with
    | wild y k' a' => exact hf _ _ h
    | _ => exact h.elim

theorem transformArgs_alike (hf : ∀ p q, Alike p q → Outcomes Alike (f p) (f q)) :
    ∀ {ps qs : List (Expr α)}, AlikeAll ps qs →
      Outcomes AlikeAll (transformArgs f ps) (transformArgs f qs)
  | [], qs, h => by
    cases qs with
    | nil => trivial
    | cons => exact h.elim
  | p :: ps, qs, h => by
    cases qs with
    | nil => exact h.elim
    | cons q qs =>
      exact (transform_alike hf h.1).bind fun _ _ hp =>
        (transformArgs_alike hf h.2).bind fun _ _ hps => ⟨hp, hps⟩

end

omit [BEq α] in
theorem transform_eq (hf : ∀ l r, f (eq l r) = .ok (eq l r)) (l r : Expr α) :
    Joins (fun d l' r' => d = eq l' r') ((eq l r).transform f) (l.transform f) (r.transform f) := by
  constructor
  · intro l' r' hl hr
    refine ⟨.eq l' r', ?_, rfl⟩
    rw [transform, hl, hr]
    exact hf l' r'
  · intro d h
    rw [transform] at h
    obtain ⟨l', hl, h⟩ := bind_eq_ok.mp h
    obtain ⟨r', hr, -⟩ := bind_eq_ok.mp h
    exact ⟨l', r', hl, hr⟩

end Expr

/-- An expression like the equation of two others. -/
def Expr.HasSides {α : Type} [BEq α] (e l r : Expr α) : Prop := Alike e (.eq l r)

/-- A rule that treats alike expressions alike and leaves equations as they are. -/
structure Rule.Sidewise {α : Type} [BEq α] (r : Rule α) : Prop where
  alike (p q : Expr α) : Expr.Alike p q → Outcomes Expr.Alike (r.apply p) (r.apply q)
  equation (a b : Expr α) : r.apply (.eq a b) = .ok (.eq a b)

namespace Simplifier

open RuleAlgebra.Expr Traced

variable {α : Type} [Scalar α] [PartialEquivBEq α]

section Passes

omit [PartialEquivBEq α] in
theorem applyUp_kept (category : String) (e : Expr α) (r : Rule α) :
    (applyUp category e r).result =
      e.transform r.apply >>= fun d => .ok (if d == e then e else d) := by
  unfold applyUp
  rw [result_bind fun d => record_logFree category r e d, result_lift]
  congr 1
  funext d
  unfold record
  split_ifs <;> rfl

theorem kept_alike (e d : Expr α) : Alike (if d == e then e else d) d := by
  split_ifs with h
  · exact (alike_of_beq h).symm
  · exact Alike.refl d

theorem applyUp_alike {r : Rule α} (hr : r.Sidewise) (category : String) {p q : Expr α}
    (h : Alike p q) :
    Outcomes Alike (applyUp category p r).result (applyUp category q r).result := by
  rw [applyUp_kept, applyUp_kept]
  apply (transform_alike hr.alike h).bind
  intro b c hbc
  exact (kept_alike p b).trans (hbc.trans (kept_alike q c).symm)

theorem applyUp_sides {r : Rule α} (hr : r.Sidewise) (category : String) {e a b : Expr α}
    (h : HasSides e a b) :
    Joins HasSides (applyUp category e r).result
      (applyUp category a r).result (applyUp category b r).result := by
  simp only [applyUp_kept]
  have hsides := transform_eq hr.equation a b
  have htransform : Joins HasSides (e.transform r.apply)
      (a.transform r.apply) (b.transform r.apply) := by
    constructor
    · intro l' r' hl' hr'
      obtain ⟨d, hd, rfl⟩ := hsides.1 l' r' hl' hr'
      exact (transform_alike hr.alike h).ok hd
    · intro d hd
      obtain ⟨d', hd', -⟩ := (transform_alike hr.alike h.symm).ok hd
      exact hsides.2 d' hd'
  apply htransform.bind
  intro d l' r' _ _ hd
  apply joins_ok
  exact (kept_alike e d).trans (hd.trans ⟨(kept_alike a l').symm, (kept_alike b r').symm⟩)

variable {s : Simplifier α} {domain : NumberDomain} {groups : List String}

omit [PartialEquivBEq α] in
theorem pass_kept (groups : List String) (e : Expr α) :
    (s.pass domain groups e).result = groups.foldlM (fun e group =>
      (s.rulesFor domain group).foldlM (fun e r => (applyUp group e r).result) e) e := by
  unfold pass
  rw [result_foldlM fun e group => logFree_foldlM (applyUp_logFree group) _ e]
  simp only [result_foldlM (applyUp_logFree _)]

variable (hs : ∀ group ∈ groups, ∀ r ∈ s.rulesFor domain group, r.Sidewise)

include hs

theorem pass_alike {p q : Expr α} (h : Alike p q) :
    Outcomes Alike (s.pass domain groups p).result (s.pass domain groups q).result := by
  rw [pass_kept, pass_kept]
  apply Outcomes.foldlM groups _ h
  intro group hgroup p q h
  exact Outcomes.foldlM _ (fun r hr _ _ => applyUp_alike (hs group hgroup r hr) group) h

theorem pass_sides {e a b : Expr α} (h : HasSides e a b) :
    Joins HasSides (s.pass domain groups e).result
      (s.pass domain groups a).result (s.pass domain groups b).result := by
  simp only [pass_kept]
  apply joins_foldlM groups _ h
  intro group hgroup e a b h
  exact joins_foldlM _ (fun r hr _ _ _ => applyUp_sides (hs group hgroup r hr) group) h

theorem pass_still {e d : Expr α} (hpass : (s.pass domain groups e).result = .ok d)
    (hd : (d == e) = true) : ∃ c, (s.pass domain groups d).result = .ok c ∧ (c == d) = true := by
  obtain ⟨c, hc, hcd⟩ := (pass_alike hs (alike_of_beq hd)).ok hpass
  exact ⟨c, hc, (hcd.beq (alike_of_beq hd)).trans hd⟩

end Passes

section Loops

variable {s : Simplifier α} {domain : NumberDomain} {groups : List String}

omit [PartialEquivBEq α] in
theorem fixpoint_succ (N : Nat) (e : Expr α) : (s.fixpoint domain groups (N + 1) e).result =
    (s.pass domain groups e).result >>= fun d =>
      if d == e then .ok (e, true) else (s.fixpoint domain groups N d).result := by
  rw [fixpoint, result_bind]
  · congr 1
    funext d
    split_ifs <;> rfl
  · intro d
    split_ifs
    · exact logFree_pure _
    · exact fixpoint_logFree s domain groups N d

def OfSides (c a b : Expr α × Bool) : Prop := HasSides c.1 a.1 b.1 ∧ c.2 = (a.2 && b.2)

variable (hs : ∀ group ∈ groups, ∀ r ∈ s.rulesFor domain group, r.Sidewise)

include hs

/-- The loop over a side that has settled: with passes left it settles again, without one it
reports that it did not, and so does the loop over the other side. -/
theorem fixpoint_still {e d : Expr α} (hpass : (s.pass domain groups e).result = .ok d)
    (hd : (d == e) = true) (N : Nat) :
    (s.fixpoint domain groups N d).result = .ok (d, decide (0 < N)) := by
  cases N with
  | zero => rfl
  | succ N =>
    obtain ⟨c, hc, hcd⟩ := pass_still hs hpass hd
    exact fixpoint_of_pass (Nat.le_add_left 1 N) hc hcd

omit [PartialEquivBEq α] hs in
theorem fixpoint_flag {N : Nat} {e d : Expr α} {settled : Bool}
    (h : (s.fixpoint domain groups N e).result = .ok (d, settled)) :
    (settled && decide (0 < N)) = settled := by
  cases N with
  | zero =>
    obtain ⟨-, rfl⟩ := Prod.mk.inj (Except.ok.inj h)
    rfl
  | succ N => simp

theorem fixpoint_sides (N : Nat) {e a b : Expr α} (h : HasSides e a b) :
    Joins OfSides (s.fixpoint domain groups N e).result (s.fixpoint domain groups N a).result
      (s.fixpoint domain groups N b).result := by
  induction N generalizing e a b with
  | zero => exact joins_ok ⟨h, rfl⟩
  | succ N ih =>
    simp only [fixpoint_succ]
    apply (pass_sides hs h).bind
    intro d l r hl hr hd
    have hjoint : (d == e) = (l == a && r == b) := by
      rw [hd.beq h]
      rfl
    have hlater := ih hd
    rw [hjoint]
    -- a side that has settled stays as it is while the other one is rewritten on
    cases hla : l == a with
    | true =>
      cases hrb : r == b with
      | true => exact joins_ok ⟨h, rfl⟩
      | false =>
        have hstill := fixpoint_still hs hl hla N
        apply hlater.exchange (fun _ _ => ⟨_, hstill⟩) (fun d hd => ⟨d, hd⟩)
        intro c p q hp hq hc
        obtain rfl := Except.ok.inj (hstill.symm.trans hp)
        refine ⟨(a, true), q, rfl, hq, hc.1.trans ⟨alike_of_beq hla, Alike.refl _⟩, ?_⟩
        rw [hc.2, Bool.and_comm, fixpoint_flag hq, Bool.true_and]
    | false =>
      cases hrb : r == b with
      | true =>
        have hstill := fixpoint_still hs hr hrb N
        apply hlater.exchange (fun d hd => ⟨d, hd⟩) (fun _ _ => ⟨_, hstill⟩)
        intro c p q hp hq hc
        obtain rfl := Except.ok.inj (hstill.symm.trans hq)
        refine ⟨p, (b, true), hp, rfl, hc.1.trans ⟨Alike.refl _, alike_of_beq hrb⟩, ?_⟩
        rw [hc.2, fixpoint_flag hp, Bool.and_true]
      | false => exact hlater

end Loops

section Runs

variable {s : Simplifier α} {domain : NumberDomain}

omit [PartialEquivBEq α] in
theorem run_expanded_result (N : Nat) (e : Expr α) : (s.run .expanded domain N e).result =
    (s.fixpoint domain categories N e).result >>= fun c =>
      (s.fixpoint domain ["expand"] N c.1).result >>= fun d =>
        (s.fixpoint domain categories N d.1).result >>= fun b => .ok (b.1, c.2 && d.2 && b.2) := by
  have hloop (groups : List String) := fixpoint_logFree s domain groups N
  unfold run
  rw [result_bind]
  · congr 1
    funext c
    dsimp only
    rw [result_bind]
    · congr 1
      funext d
      rw [result_bind fun _ => logFree_pure _]
      rfl
    · intro d
      exact (hloop _ d.1).bind fun _ => logFree_pure _
  · intro c
    exact (hloop _ c.1).bind fun d => (hloop _ d.1).bind fun _ => logFree_pure _

theorem run_sides (hs : ∀ group ∈ "expand" :: categories, ∀ r ∈ s.rulesFor domain group, r.Sidewise)
    {form : TargetForm} (hform : form ≠ .factored) (N : Nat) (a b : Expr α) :
    Joins OfSides (s.run form domain N (.eq a b)).result (s.run form domain N a).result
      (s.run form domain N b).result := by
  obtain ⟨hexpand, hcategories⟩ := List.forall_mem_cons.mp hs
  have hloop {e l r : Expr α} (h : HasSides e l r) := fixpoint_sides hcategories N h
  have hstart : HasSides (.eq a b) a b := Alike.refl _
  cases form with
  | plain =>
    simp only [run_plain_result]
    exact hloop hstart
  | factored => exact absurd rfl hform
  | expanded =>
    simp only [run_expanded_result]
    apply (hloop hstart).bind
    intro c l r _ _ hc
    have hexpansion : ∀ group ∈ ["expand"], ∀ r ∈ s.rulesFor domain group, r.Sidewise :=
      List.forall_mem_singleton.mpr hexpand
    apply (fixpoint_sides hexpansion N hc.1).bind
    intro c' l' r' _ _ hc'
    apply (hloop hc'.1).bind
    intro c'' l'' r'' _ _ hc''
    refine joins_ok ⟨hc''.1, ?_⟩
    simp only [hc.2, hc'.2, hc''.2, Bool.and_assoc, Bool.and_left_comm]

end Runs

end Simplifier

section Standard

open RuleAlgebra.Expr Scalar

variable {α : Type} [Scalar α]

theorem Rules.identities_form : ∀ r ∈ (identities : List (Rule α)),
    ∃ p s, r.apply = patternRule p s ∧ ∀ a b, Expr.match? p (.eq a b) = none := by
  simp only [identities, arithmeticIdentities, trigonometricIdentities, exponentialIdentities,
    logarithmicIdentities, List.forall_mem_append, List.forall_mem_cons, List.not_mem_nil,
    false_imp_iff, implies_true, and_true]
  and_intros <;> exact ⟨_, _, rfl, fun _ _ => rfl⟩

theorem Rules.computedRules_equation : ∀ r ∈ (computedRules : List (Rule α)),
    ∀ a b, r.apply (.eq a b) = .ok (.eq a b) := by
  simp only [computedRules, List.forall_mem_cons, List.not_mem_nil, false_imp_iff, implies_true,
    and_true]
  and_intros <;> intro a b <;> rfl

variable [PartialEquivBEq α] (hα : Congruent α) (hz : TellsZero α)

include hα hz

theorem Library.standard_sidewise {r : Rule α} (hr : r ∈ (Library.standard : Library α).rules)
    (hfactor : r.info.category ≠ some "factor") : r.Sidewise := by
  rcases Library.mem_standard hr with hr | hr
  · obtain ⟨p, s, hp, hnone⟩ := Rules.identities_form r hr
    refine ⟨fun _ _ h => ?_, fun a b => ?_⟩
    · rw [hp]
      exact (Rules.patternRule_descends hα p s).alike h
    · rw [hp, patternRule, hnone]
      rfl
  · exact ⟨fun _ _ h => (Rules.computedRules_descend hα hz hr hfactor).alike h,
      Rules.computedRules_equation r hr⟩

/-- With the standard rules, and without a target form or to the expanded one, the result for an
equation is the equation of the results for its sides, up to numbers that compare as equal, and it
settled if they did. What is asked of the scalars holds of exact fractions and of binary64 numbers
(`congruent_of_lawful`, `congruent_float`). -/
theorem Simplifier.run_equation {form : TargetForm} (hform : form ≠ .factored)
    (domain : NumberDomain) (maxSteps limit : Nat) (l r : Expr α) :
    let run := (⟨Library.standard, maxSteps⟩ : Simplifier α).run form domain limit
    (∀ l' r' p q, (run l).result = .ok (l', p) → (run r).result = .ok (r', q) →
      ∃ d, (run (.eq l r)).result = .ok (d, p && q) ∧ Expr.Alike d (.eq l' r')) ∧
    ∀ c, (run (.eq l r)).result = .ok c →
      ∃ a b, (run l).result = .ok a ∧ (run r).result = .ok b := by
  intro run
  have hrules : ∀ group ∈ "expand" :: categories,
      ∀ rule ∈ (⟨Library.standard, maxSteps⟩ : Simplifier α).rulesFor domain group,
        rule.Sidewise := by
    intro group hgroup rule hrule
    obtain ⟨hmem, hactive⟩ := List.mem_filter.mp (List.mem_of_mem_filter hrule)
    have hcategory : rule.info.category = some group := by
      rw [Bool.and_eq_true, beq_iff_eq] at hactive
      exact hactive.1
    apply Library.standard_sidewise hα hz hmem
    intro hfactor
    obtain rfl := Option.some.inj (hcategory.symm.trans hfactor)
    revert hgroup
    decide
  have hsides := run_sides hrules hform limit l r
  refine ⟨fun l' r' p q hl hr => ?_, hsides.2⟩
  obtain ⟨⟨d, settled⟩, hd, halike, hflag⟩ := hsides.1 _ _ hl hr
  obtain rfl : settled = (p && q) := hflag
  exact ⟨d, hd, halike⟩

end Standard

theorem Scalar.tellsZero_rat : Scalar.TellsZero Rat where
  value := by simp
  ofInt := by simp
  round := by
    rintro n _ hn ⟨⟩
    simpa using hn

instance : DecidableEq (Expr Rat) := instDecidableEqOfLawfulBEq

namespace Simplifier

/-- The left side settles in two passes, the right side takes more of them. -/
theorem run_equation_of_product :
    let run := (⟨Library.standard, 50⟩ : Simplifier Rat).run .expanded .real 2
    let x : Expr Rat := .var "x"
    let y : Expr Rat := .var "y"
    let l : Expr Rat := .op .add x (.num 0)
    let r : Expr Rat := .op .mul (.op .add y (.num 1)) (.op .add y (.num 2))
    let r' : Expr Rat :=
      .op .add (.op .add (.op .pow y (.num 2)) (.op .mul (.num 3) y)) (.num 2)
    (run l).result = .ok (x, true) ∧ (run r).result = .ok (r', false) ∧
      (run (.eq l r)).result = .ok (.eq x r', false) := by
  intro run x y l r r'
  have hl : (run l).result = .ok (x, true) := by decide +kernel
  have hr : (run r).result = .ok (r', false) := by decide +kernel
  obtain ⟨d, hd, halike⟩ := (run_equation Scalar.congruent_of_lawful Scalar.tellsZero_rat
    (by decide) .real 50 2 l r).1 x r' true false hl hr
  obtain rfl := halike.eq
  exact ⟨hl, hr, hd⟩

end Simplifier

end RuleAlgebra
