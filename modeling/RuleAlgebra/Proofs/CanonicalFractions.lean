import RuleAlgebra.Proofs.PowerCosts
import RuleAlgebra.Proofs.SimplifierSoundness
import RuleAlgebra.Proofs.TermCosts

/-!
Arithmetic on integers simplifies to a fraction in lowest terms. The rules bring the cost of an
expression down, so a pass that ends where it began changes nothing on the way, and every part of
what it leaves is an integer, a reduced fraction, or has a power of a reduced fraction in it, which
no rule evaluates.
-/

namespace RuleAlgebra

open RuleAlgebra.Expr

namespace Expr

/-- Sums, differences, products and quotients of integers. -/
def IntegerArithmetic : Expr Rat → Prop
  | num v => v.den = 1
  | op o l r => o ≠ .pow ∧ IntegerArithmetic l ∧ IntegerArithmetic r
  | _ => False

def quotientOf (p q : Int) : Expr Rat := op .div (num (p : Rat)) (num (q : Rat))

def ReducedFraction (e : Expr Rat) : Prop :=
  ∃ p q : Int, 1 < q ∧ Int.gcd p q = 1 ∧ e = quotientOf p q

/-- An integer, or a quotient of integers in lowest terms. -/
def Canonical (e : Expr Rat) : Prop := (∃ n : Int, e = num (n : Rat)) ∨ ReducedFraction e

/-- A power of a reduced fraction with an integer exponent other than zero and one. -/
def FractionPower (e : Expr Rat) : Prop :=
  ∃ b, ∃ n : Int, ReducedFraction b ∧ n ≠ 0 ∧ n ≠ 1 ∧ e = op .pow b (num (n : Rat))

def HasFractionPower (e : Expr Rat) : Prop := ∃ f ∈ e.walk, FractionPower f

theorem IntegerArithmetic.closed : ∀ {e : Expr Rat}, e.IntegerArithmetic → e.Closed
  | num v, h => by simpa [IntegerArithmetic] using h
  | op o l r, h => by
    simp only [IntegerArithmetic] at h
    exact (closed_op o).mpr ⟨h.2.1.closed, h.2.2.closed⟩
  | var _, h => by simp [IntegerArithmetic] at h
  | fn _ _, h => by simp [IntegerArithmetic] at h
  | eq _ _, h => by simp [IntegerArithmetic] at h
  | wild _ _ _, h => by simp [IntegerArithmetic] at h

section Values

variable {I : Interpretation Rat}

theorem int_ne_quotient {n p q : Int} (hq : 1 < q) (hpq : Int.gcd p q = 1) :
    (n : Rat) ≠ (p : Rat) / q := by
  intro h
  have hn : ((n : Int) : Rat) / (1 : Int) = (p : Rat) / q := by simpa using h
  have hone := (Rat.div_int_inj (by omega) (by omega) (by simp) hpq hn).2
  omega

theorem Canonical.unique {e d : Expr Rat} (he : e.Canonical) (hd : d.Canonical)
    (h : e.eval I = d.eval I) : e = d := by
  rcases he with ⟨m, rfl⟩ | ⟨p, q, hq, hpq, rfl⟩ <;>
    rcases hd with ⟨n, rfl⟩ | ⟨p', q', hq', hpq', rfl⟩ <;>
    simp only [quotientOf, eval_div, eval_num, Rat.cast_id] at h
  · rw [h]
  · exact absurd h (int_ne_quotient hq' hpq')
  · exact absurd h.symm (int_ne_quotient hq hpq)
  · obtain ⟨rfl, rfl⟩ := Rat.div_int_inj (by omega) (by omega) hpq hpq' h
    rfl

end Values

theorem Canonical.not_hasFractionPower {e : Expr Rat} (he : e.Canonical) :
    ¬e.HasFractionPower := by
  rintro ⟨f, hf, b, n, -, -, -, rfl⟩
  rcases he with ⟨m, rfl⟩ | ⟨p, q, -, -, rfl⟩
  · simp [walk] at hf
  · simp [quotientOf, walk] at hf

theorem HasFractionPower.left {o : Arithmetic} {l r : Expr Rat} (h : l.HasFractionPower) :
    (op o l r).HasFractionPower := by
  obtain ⟨f, hf, hpower⟩ := h
  exact ⟨f, by simp [walk, hf], hpower⟩

theorem HasFractionPower.right {o : Arithmetic} {l r : Expr Rat} (h : r.HasFractionPower) :
    (op o l r).HasFractionPower := by
  obtain ⟨f, hf, hpower⟩ := h
  exact ⟨f, by simp [walk, hf], hpower⟩

end Expr

namespace Rules

/-- What the rules that compute with fractions leave as it is. -/
structure Settled (e : Expr Rat) : Prop where
  powOne : Fixes (patternRule (power (any "x") (nat 1)) (any "x")) e
  powZero : Fixes (patternRule (power (any "x") (nat 0)) (nat 1)) e
  constants : Fixes foldConstants e
  sums : Fixes addFractions e
  products : Fixes (fun e => pure (multiplyFractions e)) e
  quotients : Fixes (fun e => pure (nestedFractions e)) e

section Settled

variable {o : Arithmetic} {l r : Expr Rat} {ρ : String → Rat}

theorem Settled.left (h : Settled (.op o l r)) : Settled l :=
  ⟨h.powOne.1.1, h.powZero.1.1, h.constants.1.1, h.sums.1.1, h.products.1.1, h.quotients.1.1⟩

theorem Settled.right (h : Settled (.op o l r)) : Settled r :=
  ⟨h.powOne.1.2, h.powZero.1.2, h.constants.1.2, h.sums.1.2, h.products.1.2, h.quotients.1.2⟩

theorem Settled.exponent_ne {n : Int} (h : Settled (.op .pow l (num (n : Rat)))) :
    n ≠ 0 ∧ n ≠ 1 := by
  constructor
  · rintro rfl
    have hrule : patternRule (power (any "x") (nat 0)) (nat 1)
        (.op .pow l (num ((0 : Int) : Rat))) = .ok (ofNat 1) := by
      simp [patternRule, power, any, nat, match?, matchFrom?, admits, Bindings.extend?,
        Bindings.get?, ofNat, instantiate]
      rfl
    exact absurd (Except.ok.inj (hrule.symm.trans h.powZero.2)) (by simp [ofNat])
  · rintro rfl
    have hrule : patternRule (power (any "x") (nat 1)) (any "x")
        (.op .pow l (num ((1 : Int) : Rat))) = .ok l := by
      simp [patternRule, power, any, nat, match?, matchFrom?, admits, Bindings.extend?,
        Bindings.get?, ofNat, instantiate]
      rfl
    have hsize := congrArg size (Except.ok.inj (hrule.symm.trans h.powOne.2))
    simp [opSize] at hsize

theorem foldOperation_of_settled {m n : Int}
    (h : Settled (.op o (num (m : Rat)) (num (n : Rat)))) :
    foldOperation o (m : Rat) (n : Rat) = .ok none := by
  obtain ⟨folded, hf, hlower⟩ := foldOperation_lowers o m n
  have hfixed := h.constants.2
  rw [foldConstants, hf, ok_bind] at hfixed
  cases folded with
  | none => exact hf
  | some d =>
    have hd : d = .op o (num (m : Rat)) (num (n : Rat)) := Except.ok.inj hfixed
    exact absurd (hd ▸ (hlower d rfl).2) (lt_irrefl _)

theorem reduced_of_foldQuotient? {m n : Int} (hn : n ≠ 0)
    (h : foldQuotient? (m : Rat) (n : Rat) m n = none) : ReducedFraction (quotientOf m n) := by
  simp only [foldQuotient?, hn, if_false] at h
  change (if m % n = 0 then _ else if signedGcd m n = 1 then none else some _) = none at h
  split_ifs at h with hmod hg
  unfold signedGcd at hg
  split_ifs at hg with hneg
  · omega
  · have hn1 : n ≠ 1 := by
      rintro rfl
      exact hmod (by simp)
    exact ⟨m, n, by omega, by exact_mod_cast hg, rfl⟩

theorem canonical_of_integers {m n : Int}
    (hdef : (Expr.op o (num (m : Rat)) (num (n : Rat))).Defined (.rational ρ))
    (h : Settled (.op o (num (m : Rat)) (num (n : Rat)))) :
    ReducedFraction (.op o (num (m : Rat)) (num (n : Rat))) := by
  have hfold := foldOperation_of_settled h
  unfold foldOperation at hfold
  rw [Scalar.toInt?_intCast, Scalar.toInt?_intCast] at hfold
  cases o with
  | add => simp [Arithmetic.value?, pure, Except.pure] at hfold
  | sub => simp [Arithmetic.value?, pure, Except.pure] at hfold
  | mul => simp [Arithmetic.value?, pure, Except.pure] at hfold
  | div =>
    have hn : n ≠ 0 := by simpa using hdef
    exact reduced_of_foldQuotient? hn (Except.ok.inj hfold)
  | pow =>
    have hpower : (m : Rat) ≠ 0 ∨ 0 ≤ n := by
      simpa [Interpretation.rational_powerDefined_int] using hdef
    dsimp only at hfold
    split_ifs at hfold with hn
    · have hm : m ≠ 0 := Int.cast_ne_zero.mp (hpower.resolve_right (not_le.mpr hn))
      obtain ⟨k, rfl⟩ : ∃ k : Nat, n = -k := ⟨n.natAbs, by omega⟩
      rw [foldReciprocal_eq hm] at hfold
      simp at hfold
    · obtain ⟨k, rfl⟩ : ∃ k : Nat, n = k := ⟨n.toNat, by omega⟩
      rw [power_value?] at hfold
      simp [pure, Except.pure] at hfold

theorem fraction?_of_canonical {e : Expr Rat} (he : e.Canonical) : ∃ q, fraction? e = some q := by
  rcases he with ⟨n, rfl⟩ | ⟨p, q, hq, -, rfl⟩
  · exact ⟨n, by simp [fraction?]⟩
  · have hq0 : q ≠ 0 := by omega
    exact ⟨(p : Rat) / q, by simp [fraction?, quotientOf, hq0]⟩

theorem not_reduced_num (v : Rat) : ¬(num v).ReducedFraction := by
  rintro ⟨p, q, -, -, h⟩
  simp [quotientOf] at h

theorem sum_not_settled (ho : o.isAdditive = true) (hl : l.Canonical) (hr : r.Canonical)
    (hlr : l.ReducedFraction ∨ r.ReducedFraction) (h : Settled (.op o l r)) : False := by
  obtain ⟨p, hp⟩ := fraction?_of_canonical hl
  obtain ⟨q, hq⟩ := fraction?_of_canonical hr
  have hweight := (written_number (if o = .add then p + q else p - q)).2
  have hnum : (l.isNum && r.isNum) = false := by
    rcases hlr with ⟨_, _, -, -, rfl⟩ | ⟨_, _, -, -, rfl⟩ <;> simp [quotientOf, isNum]
  have hfixed := h.sums.2
  simp only [addFractions, ho, hnum, Bool.not_true, Bool.or_self, Bool.false_eq_true, if_false, hp,
    hq, Term.toExpr_rat, Except.ok.injEq] at hfixed
  have hsum := fractions_weight ho hp hq hnum
  rw [hfixed] at hweight
  omega

theorem product_not_settled (hr : r.Canonical) (hlr : l.ReducedFraction ∨ r.ReducedFraction)
    (h : Settled (.op .mul l r)) : False := by
  have hfixed : multiplyFractions (.op .mul l r) = .op .mul l r := Except.ok.inj h.products.2
  rcases hr with ⟨n, rfl⟩ | ⟨p, q, -, -, rfl⟩
  · obtain ⟨p, q, -, -, rfl⟩ := hlr.resolve_right (not_reduced_num n)
    simp [multiplyFractions, quotientOf] at hfixed
  · simp [multiplyFractions, quotientOf] at hfixed

theorem quotient_not_settled (hl : l.Canonical) (hlr : l.ReducedFraction ∨ r.ReducedFraction)
    (h : Settled (.op .div l r)) : False := by
  have hfixed : nestedFractions (.op .div l r) = .op .div l r := Except.ok.inj h.quotients.2
  rcases hl with ⟨n, rfl⟩ | ⟨p, q, -, -, rfl⟩
  · obtain ⟨p, q, -, -, rfl⟩ := hlr.resolve_left (not_reduced_num n)
    simp [nestedFractions, quotientOf] at hfixed
  · simp [nestedFractions, quotientOf] at hfixed

theorem exponent_not_reduced (hdef : (Expr.op .pow l r).Defined (.rational ρ)) :
    ¬r.ReducedFraction := by
  rintro ⟨p, q, hq, hpq, rfl⟩
  obtain ⟨n, hn, -⟩ :=
    Interpretation.rational_powerDefined_integral ((defined_pow _ _ _).mp hdef).2
  simp only [quotientOf, eval_div, eval_num, Rat.cast_id] at hn
  exact int_ne_quotient hq hpq hn.symm

theorem fractionPower_of_settled (hdef : (Expr.op o l r).Defined (.rational ρ)) (hl : l.Canonical)
    (hr : r.Canonical) (hlr : l.ReducedFraction ∨ r.ReducedFraction) (h : Settled (.op o l r)) :
    FractionPower (.op o l r) := by
  cases o with
  | add => exact (sum_not_settled rfl hl hr hlr h).elim
  | sub => exact (sum_not_settled rfl hl hr hlr h).elim
  | mul => exact (product_not_settled hr hlr h).elim
  | div => exact (quotient_not_settled hl hlr h).elim
  | pow =>
    have hexponent := exponent_not_reduced hdef
    obtain ⟨n, rfl⟩ := hr.resolve_right hexponent
    exact ⟨l, n, hlr.resolve_right hexponent, h.exponent_ne.1, h.exponent_ne.2, rfl⟩

/-- What the rules leave as it is is a number in lowest terms, or has a power of one in it. -/
theorem canonical_of_settled : ∀ {e : Expr Rat}, e.Defined (.rational ρ) → e.Closed → Settled e →
    e.Canonical ∨ e.HasFractionPower
  | .num v, _, hclosed, _ => by
    obtain ⟨n, rfl⟩ := exists_int hclosed
    exact Or.inl (Or.inl ⟨n, rfl⟩)
  | .op o l r, hdef, hclosed, h => by
    have hparts : l.Defined (.rational ρ) ∧ r.Defined (.rational ρ) := by
      simp only [Defined] at hdef
      exact hdef.1
    rw [closed_op] at hclosed
    rcases canonical_of_settled hparts.1 hclosed.1 h.left with hl | hl
    · rcases canonical_of_settled hparts.2 hclosed.2 h.right with hr | hr
      · by_cases hlr : l.ReducedFraction ∨ r.ReducedFraction
        · exact Or.inr ⟨_, by simp [walk], fractionPower_of_settled hdef hl hr hlr h⟩
        · rw [not_or] at hlr
          obtain ⟨m, rfl⟩ := hl.resolve_right hlr.1
          obtain ⟨n, rfl⟩ := hr.resolve_right hlr.2
          exact Or.inl (Or.inr (canonical_of_integers hdef h))
      · exact Or.inr hr.right
    · exact Or.inr hl.left
  | .var _, _, hclosed, _ => by simp at hclosed
  | .fn _ _, _, hclosed, _ => by simp at hclosed
  | .eq _ _, _, hclosed, _ => by simp at hclosed
  | .wild _ _ _, _, hclosed, _ => by simp at hclosed

end Settled

end Rules

namespace Simplifier

open RuleAlgebra.Rules

section Passes

theorem mem_rulesFor {s : Simplifier Rat} {domain : NumberDomain} {category : String} {r : Rule Rat}
    (h : r ∈ s.rulesFor domain category) :
    r ∈ s.library.rules ∧ r.info.category = some category := by
  simp only [rulesFor, Library.rulesIn, List.mem_filter, Bool.and_eq_true, beq_iff_eq] at h
  exact ⟨h.1.1, h.1.2.1⟩

theorem computedRules_lower {category : String} (hc : category ∈ categories.drop 2) :
    ∀ r ∈ (computedRules : List (Rule Rat)), r.info.category = some category →
      Lowers r.apply := by
  simp only [categories, List.drop_succ_cons, List.drop_zero, List.mem_cons, List.not_mem_nil,
    or_false] at hc
  simp only [computedRules, List.forall_mem_cons, List.not_mem_nil, false_imp_iff, implies_true,
    and_true, computed, computedAlways, RuleInfo.category, List.head?_cons, Option.some.injEq]
  rcases hc with rfl | rfl | rfl <;>
    simp [pythagoreanIdentity_lowers, combinePowers_lowers, powerOfPower_lowers]

theorem later_lowers {s : Simplifier Rat} (hs : s.library = .standard) (domain : NumberDomain) :
    ∀ r ∈ (categories.drop 2).flatMap (s.rulesFor domain), Lowers r.apply := by
  intro r hr
  obtain ⟨category, hc, hr⟩ := List.mem_flatMap.mp hr
  obtain ⟨hmem, hcategory⟩ := mem_rulesFor hr
  rw [hs] at hmem
  rcases Library.mem_standard hmem with h | h
  · exact identities_lower r h
  · exact computedRules_lower hc r h hcategory

theorem standard_pass {s : Simplifier Rat} (hs : s.library = .standard) (domain : NumberDomain)
    {e : Expr Rat} (he : e.Closed) :
    ∃ d, rewrite (categories.flatMap (s.rulesFor domain)) e = .ok d ∧ d.Closed ∧
      (d = e → Settled e) := by
  -- the two rules that only move factors keep the cost, and the rules around them lower it
  have hsplit : categories.flatMap (s.rulesFor domain) =
      (arithmeticIdentities ++ computedRules.take 2) ++
        (computedAlways "constant-first" "arithmetic"
          "Move numeric factors to the front of a product" constantFirst) ::
        ((computedRules.drop 3).take 5 ++
        (computedAlways "associate-products" "algebraic" "Group products from the left"
          associateProducts) :: ((computedRules.drop 9).take 3 ++
          (categories.drop 2).flatMap (s.rulesFor domain))) := by
    obtain ⟨library, maxSteps⟩ := s
    subst hs
    cases domain <;> rfl
  have hbefore : ∀ r ∈ arithmeticIdentities ++ (computedRules : List (Rule Rat)).take 2,
      Lowers r.apply := by
    simp only [List.forall_mem_append, computedRules, List.take_succ_cons, List.take_zero,
      List.forall_mem_cons, List.not_mem_nil, false_imp_iff, implies_true, and_true]
    exact ⟨fun r hr => (arithmeticIdentities_lower r hr).lowers, foldConstants_lowers,
      addFractions_lowers⟩
  have hbetween : ∀ r ∈ (computedRules.drop 3).take 5, Lowers r.apply := by
    simp only [computedRules, List.drop_succ_cons, List.drop_zero, List.take_succ_cons,
      List.take_zero, List.forall_mem_cons, List.not_mem_nil, false_imp_iff, implies_true, and_true]
    exact ⟨mergeCoefficients_lowers, zeroNumerator_lowers, normalizeSigns_lowers,
      combineLikeTerms_lowers, selfDivision_lowers⟩
  have hafter : ∀ r ∈ (computedRules.drop 9).take 3 ++ (categories.drop 2).flatMap
      (s.rulesFor domain), Lowers r.apply := by
    simp only [List.forall_mem_append, computedRules, List.drop_succ_cons, List.drop_zero,
      List.take_succ_cons, List.take_zero, List.forall_mem_cons, List.not_mem_nil, false_imp_iff,
      implies_true, and_true]
    exact ⟨⟨multiplyFractions_lowers, nestedFractions_lowers, cancelFraction_lowers⟩,
      later_lowers hs domain⟩
  have hpass : ∃ d, rewrite (categories.flatMap (s.rulesFor domain)) e = .ok d ∧ d.Closed ∧
      (d = e → (∀ r ∈ arithmeticIdentities ++ computedRules.take 2, Fixes r.apply e) ∧
        ∀ r ∈ (computedRules.drop 9).take 3 ++ (categories.drop 2).flatMap (s.rulesFor domain),
          Fixes r.apply e) := by
    rw [hsplit]
    exact rewrite_pass hbefore constantFirst_keepsCost hbetween associateProducts_keepsCost
      hafter he
  obtain ⟨d, hd, hclosed, hfixes⟩ := hpass
  refine ⟨d, hd, hclosed, fun hde => ?_⟩
  obtain ⟨hfirst, hlast⟩ := hfixes hde
  simp only [List.forall_mem_append, arithmeticIdentities, computedRules, List.drop_succ_cons,
    List.drop_zero, List.take_succ_cons, List.take_zero, List.forall_mem_cons, List.not_mem_nil,
    false_imp_iff, implies_true, and_true] at hfirst hlast
  obtain ⟨⟨-, -, -, -, -, -, -, -, -, hone, hzero, -, -⟩, hconstants, hsums⟩ := hfirst
  exact ⟨hone, hzero, hconstants, hsums, hlast.1.1, hlast.1.2.1⟩

end Passes

section Results

/-- The standard rules bring the expression to `d`, and a pass over `d` ends where it began. -/
def SettlesAt (e d : Expr Rat) : Prop :=
  ∃ maxSteps domain limit,
    ((⟨.standard, maxSteps⟩ : Simplifier Rat).run .plain domain limit e).result = .ok (d, true)

variable {ρ : String → Rat} {e d : Expr Rat}

theorem SettlesAt.refines (h : SettlesAt e d) : Refines (.rational ρ) e d := by
  obtain ⟨maxSteps, domain, limit, h⟩ := h
  exact run_refines rfl ρ h

theorem SettlesAt.settled (he : e.Closed) (h : SettlesAt e d) : d.Closed ∧ Settled d := by
  obtain ⟨maxSteps, domain, limit, h⟩ := h
  rw [run_plain_result] at h
  have hclosed : d.Closed := by
    refine fixpoint_invariant _ domain (P := Expr.Closed) (fun a b ha hb => ?_) he h
    obtain ⟨c, hc, hclosed, -⟩ := standard_pass (s := ⟨.standard, maxSteps⟩) rfl domain ha
    rwa [Except.ok.inj (hb.symm.trans hc)]
  obtain ⟨c, hc, -, hsettled⟩ := standard_pass (s := ⟨.standard, maxSteps⟩) rfl domain hclosed
  exact ⟨hclosed, hsettled (Except.ok.inj (hc.symm.trans (rewrite_of_settled _ domain h)))⟩

theorem SettlesAt.canonical_iff (he : e.IntegerArithmetic) (hdef : e.Defined (.rational ρ))
    (h : SettlesAt e d) : d.Canonical ↔ ¬d.HasFractionPower := by
  obtain ⟨hclosed, hsettled⟩ := h.settled he.closed
  constructor
  · exact Canonical.not_hasFractionPower
  · exact (canonical_of_settled (h.refines hdef).1 hclosed hsettled).resolve_right

/-- Sums, differences, products and quotients of integers that have a value settle at that value, in
lowest terms unless a power of a fraction is left. Two of them that have the same value and leave no
such power settle at the same expression. -/
theorem integerArithmetic_settles (he : e.IntegerArithmetic) (hdef : e.Defined (.rational ρ))
    (h : SettlesAt e d) :
    (d.Defined (.rational ρ) ∧ d.eval (.rational ρ) = e.eval (.rational ρ)) ∧
      (d.Canonical ↔ ¬d.HasFractionPower) ∧
      ∀ e' d' : Expr Rat, e'.IntegerArithmetic → e'.Defined (.rational ρ) → SettlesAt e' d' →
        e'.eval (.rational ρ) = e.eval (.rational ρ) → ¬d.HasFractionPower → ¬d'.HasFractionPower →
        d' = d := by
  have hvalue := h.refines hdef
  have hiff := h.canonical_iff he hdef
  refine ⟨hvalue, hiff, fun e' d' he' hdef' h' heq hd hd' => ?_⟩
  have hvalue' := h'.refines hdef'
  have hsame : d'.eval (.rational ρ) = d.eval (.rational ρ) := by rw [hvalue'.2, heq, hvalue.2]
  exact ((h'.canonical_iff he' hdef').mpr hd').unique (hiff.mpr hd) hsame

theorem settlesAt_of_run (e d : Expr Rat)
    (h : ((⟨.standard, 50⟩ : Simplifier Rat).run .plain .real 50 e).result.toOption =
      some (d, true)) : SettlesAt e d := ⟨50, .real, 50, toOption_eq_some.mp h⟩

theorem integerArithmetic_settles_of_sum :
    let e : Expr Rat := .op .add (quotientOf 1 2) (quotientOf 1 3)
    let e' : Expr Rat := .op .div (quotientOf (-5) 2) (num (-3))
    let d : Expr Rat := quotientOf 5 6
    (e.IntegerArithmetic ∧ e.Defined (.rational fun _ => 0) ∧ SettlesAt e d) ∧
      (d.Defined (.rational fun _ => 0) ∧
        d.eval (.rational fun _ => 0) = e.eval (.rational fun _ => 0)) ∧
      d.Canonical ∧ ∀ d', SettlesAt e' d' → ¬d'.HasFractionPower → d' = d := by
  intro e e' d
  have he : e.IntegerArithmetic := by simp [e, quotientOf, IntegerArithmetic]
  have he' : e'.IntegerArithmetic := by simp [e', quotientOf, IntegerArithmetic]
  have hdef : e.Defined (.rational fun _ => 0) := by simp [e, quotientOf]
  have hdef' : e'.Defined (.rational fun _ => 0) := by simp [e', quotientOf]
  have hvalue : e'.eval (.rational fun _ => 0) = e.eval (.rational fun _ => 0) := by
    simp only [e, e', quotientOf, eval_add, eval_div, eval_num]
    norm_num
  have h : SettlesAt e d := settlesAt_of_run e d (eq_of_beq (by decide +kernel))
  have hd : d.Canonical := Or.inr ⟨5, 6, by norm_num, by decide, rfl⟩
  obtain ⟨hrefines, hiff, hunique⟩ := integerArithmetic_settles he hdef h
  exact ⟨⟨he, hdef, h⟩, hrefines, hd, fun d' h' =>
    hunique e' d' he' hdef' h' hvalue (hiff.mp hd)⟩

/-- A product of two equal sums of fractions becomes a square, which stays. -/
theorem settles_at_fractionPower :
    let half : Expr Rat := quotientOf 1 2
    let sum : Expr Rat := .op .add (ofNat 1) (.op .mul half half)
    let square : Expr Rat := .op .pow (quotientOf 5 4) (ofNat 2)
    let I := Interpretation.rational fun _ => 0
    let e : Expr Rat := .op .mul sum sum
    let e' : Expr Rat := quotientOf 25 16
    (e.IntegerArithmetic ∧ e.Defined I ∧ SettlesAt e square ∧ ¬square.Canonical) ∧
      e'.IntegerArithmetic ∧ e'.Defined I ∧ SettlesAt e' e' ∧ e'.eval I = e.eval I ∧
      e' ≠ square := by
  intro half sum square I e e'
  refine ⟨⟨?_, ?_, ?_, ?_⟩, ?_, ?_, ?_, ?_, ?_⟩
  · simp [e, sum, half, quotientOf, ofNat, IntegerArithmetic]
  · simp [e, sum, half, quotientOf]
  · exact settlesAt_of_run e square (eq_of_beq (by decide +kernel))
  · rintro (⟨n, h⟩ | ⟨p, q, -, -, h⟩)
    · simp [square] at h
    · simp [square, quotientOf] at h
  · simp [e', quotientOf, IntegerArithmetic]
  · simp [e', quotientOf]
  · exact settlesAt_of_run e' e' (eq_of_beq (by decide +kernel))
  · simp only [e, e', sum, half, quotientOf, eval_add, eval_mul, eval_div, eval_num, eval_ofNat]
    norm_num
  · simp [e', square, quotientOf]

end Results

end Simplifier

end RuleAlgebra
