import RuleAlgebra.Proofs.ArithmeticRules
import RuleAlgebra.Rules.Algebraic

/-!
The rules of algebra keep the value of every expression. A product is read as powers of its bases;
cancelling one factor of a denominator keeps the quotient of the two products.
-/

namespace RuleAlgebra.Rules

open RuleAlgebra.Expr

variable {K : Type*} [Field K] {I : Interpretation K}

section LikeTerms

variable [CharZero K]

theorem mergeTerm_spec (ts : List (Term Rat)) (t : Term Rat) : ∃ us, mergeTerm ts t = .ok us ∧
    Term.total I us = Term.total I ts + t.eval I ∧
    ((∀ u ∈ ts, u.Defined I) → t.Defined I → ∀ u ∈ us, u.Defined I) := by
  induction ts with
  | nil => exact ⟨[t], rfl, by simp, by simp⟩
  | cons s ss ih =>
    by_cases hs : s.rest == t.rest
    · obtain ⟨c, hc, hv⟩ := s.coefficient.add_rat t.coefficient
      have hrest : s.rest = t.rest := by simpa using hs
      refine ⟨⟨c, t.rest⟩ :: ss, by simp only [mergeTerm, hs, if_true, hc]; rfl, ?_, ?_⟩
      · simp only [Term.total_cons, Term.eval, hv, hrest]
        push_cast
        ring
      · intro hss ht u hu
        rcases List.mem_cons.mp hu with rfl | hu
        · exact ht
        · exact hss u (by simp [hu])
    · obtain ⟨us, hus, hv, hd⟩ := ih
      refine ⟨s :: us, by simp only [mergeTerm, hs, hus]; rfl, ?_, ?_⟩
      · simp only [Term.total_cons, hv, add_assoc]
      · intro hss ht u hu
        rcases List.mem_cons.mp hu with rfl | hu
        · exact hss u (by simp)
        · exact hd (fun v hv => hss v (by simp [hv])) ht u hu

theorem foldlM_mergeTerm_spec (ts acc : List (Term Rat)) : ∃ us,
    ts.foldlM mergeTerm acc = .ok us ∧ Term.total I us = Term.total I acc + Term.total I ts ∧
    ((∀ u ∈ acc, u.Defined I) → (∀ t ∈ ts, t.Defined I) → ∀ u ∈ us, u.Defined I) := by
  induction ts generalizing acc with
  | nil => exact ⟨acc, rfl, by simp, fun h _ => h⟩
  | cons t ts ih =>
    obtain ⟨vs, hvs, hv, hd⟩ := mergeTerm_spec (I := I) acc t
    obtain ⟨us, hus, hw, he⟩ := ih vs
    refine ⟨us, by simp only [List.foldlM_cons, hvs, ok_bind, hus], ?_, fun ha ht => ?_⟩
    · rw [hw, hv, Term.total_cons, add_assoc]
    · exact he (hd ha (ht t (by simp))) (fun u hu => ht u (by simp [hu]))

theorem combineLikeTerms_keepsValue : KeepsValue I combineLikeTerms := by
  intro e
  unfold combineLikeTerms
  split
  · rename_i o l r
    split_ifs with ho
    · exact ⟨_, rfl, Refines.refl _⟩
    · obtain ⟨ts, hts, vts, dts⟩ := Term.terms_spec I (.op o l r)
      obtain ⟨us, hus, vus, dus⟩ := foldlM_mergeTerm_spec (I := I) ts []
      simp only [hts, ok_bind, hus]
      split_ifs with hlen
      · exact ⟨_, rfl, Refines.refl _⟩
      · obtain ⟨d, hd, vd, dd⟩ := Term.sum_spec I us
        refine ⟨d, hd, fun h => ⟨dd (dus (by simp) (dts h)), ?_⟩⟩
        rw [vd, vus, Term.total_nil, zero_add, vts]
  · exact ⟨e, rfl, Refines.refl e⟩

end LikeTerms

section Quotients

theorem selfDivision_refines [CharZero K] (e : Expr Rat) : Refines I e (selfDivision e) := by
  unfold selfDivision
  split
  · rename_i l r
    split_ifs with hlr
    · simp only [Bool.and_eq_true, beq_iff_eq] at hlr
      intro h
      simp only [defined_div] at h
      exact ⟨by simp, by simp [hlr.1, h.2]⟩
    · exact Refines.refl _
  · exact Refines.refl e

theorem associateProducts_refines (e : Expr Rat) : Refines I e (associateProducts e) := by
  unfold associateProducts
  split
  · intro h
    simp only [defined_mul] at h
    exact ⟨by simp [h], by simp [mul_assoc]⟩
  · exact Refines.refl e

theorem multiplyFractions_refines (e : Expr Rat) : Refines I e (multiplyFractions e) := by
  unfold multiplyFractions
  split
  · intro h
    simp only [defined_mul, defined_div] at h
    exact ⟨by simp [h], by simp [mul_div_assoc]⟩
  · intro h
    simp only [defined_mul, defined_div] at h
    exact ⟨by simp [h], by simp [div_mul_eq_mul_div]⟩
  · exact Refines.refl e

theorem nestedFractions_refines (e : Expr Rat) : Refines I e (nestedFractions e) := by
  unfold nestedFractions
  split
  · intro h
    simp only [defined_div] at h
    exact ⟨by simp [h], by simp [div_div]⟩
  · intro h
    simp only [defined_div, eval_div, div_ne_zero_iff] at h
    exact ⟨by simp [h], by simp [div_div_eq_mul_div]⟩
  · exact Refines.refl e

end Quotients

section Powers

def powerOf (p : Expr Rat × Expr Rat) : Expr Rat := .op .pow p.1 p.2

theorem powerParts_refines [CharZero K] (hI : I.PowerLaws) (f : Expr Rat) :
    (powerOf (Term.powerParts f)).eval I = f.eval I ∧
      (f.Defined I → (powerOf (Term.powerParts f)).Defined I) := by
  unfold Term.powerParts
  split
  · exact ⟨rfl, id⟩
  · have hone := hI.nat (f.eval I) 1
    simp only [Nat.cast_one, pow_one] at hone
    exact ⟨by simp [powerOf, hone.2], fun h => by simp [powerOf, h, hone.1]⟩

theorem powerFactor?_eval [CharZero K] (hI : I.PowerLaws) (base : Expr Rat) (v : Rat) :
    Term.restEval I (powerFactor? base v) = I.power (base.eval I) v := by
  have hzero := (hI.nat (base.eval I) 0).2
  have hone := (hI.nat (base.eval I) 1).2
  unfold powerFactor?
  split_ifs with h0 h1
  · rw [Scalar.beq_rat, decide_eq_true_eq, Scalar.zero_rat] at h0
    simpa [Term.restEval, h0] using hzero.symm
  · rw [Scalar.beq_rat, decide_eq_true_eq, Scalar.one_rat] at h1
    simpa [Term.restEval, h1] using hone.symm
  · simp [Term.restEval]

theorem powerFactor?_defined {base : Expr Rat} {v : Rat} (hb : base.Defined I)
    (hv : I.PowerDefined (base.eval I) v) : Term.RestDefined I (powerFactor? base v) := by
  unfold powerFactor?
  split_ifs
  · trivial
  · exact hb
  · simp [Term.RestDefined, hb, hv]

theorem factorOf?_eval [CharZero K] (hI : I.PowerLaws) (p : Expr Rat × Expr Rat) :
    Term.restEval I (factorOf? p) = (powerOf p).eval I := by
  unfold factorOf?
  split
  · rename_i v hv
    rw [powerFactor?_eval hI]
    simp [powerOf, hv]
  · rfl

theorem factorOf?_defined {p : Expr Rat × Expr Rat} (h : (powerOf p).Defined I) :
    Term.RestDefined I (factorOf? p) := by
  unfold factorOf?
  split
  · rename_i v hv
    simp only [powerOf, hv, defined_pow, eval_num] at h
    exact powerFactor?_defined h.1.1 h.2
  · exact h

theorem prod_filterMap {β : Type} (g : β → Option (Expr Rat)) (bs : List β) :
    ((bs.filterMap g).map (eval I)).prod = (bs.map fun b => Term.restEval I (g b)).prod := by
  induction bs with
  | nil => rfl
  | cons b bs ih => cases hb : g b <;> simp [hb, ih, Term.restEval]

theorem defined_filterMap {β : Type} {g : β → Option (Expr Rat)} {bs : List β}
    (h : ∀ b ∈ bs, Term.RestDefined I (g b)) : ∀ f ∈ bs.filterMap g, f.Defined I := by
  intro f hf
  obtain ⟨b, hb, hg⟩ := List.mem_filterMap.mp hf
  have := h b hb
  rwa [hg] at this

def powersEval (I : Interpretation K) (ps : List (Expr Rat × Expr Rat)) : K :=
  (ps.map fun p => (powerOf p).eval I).prod

@[simp] theorem powersEval_nil : powersEval I [] = 1 := rfl

@[simp] theorem powersEval_cons (p : Expr Rat × Expr Rat) (ps : List (Expr Rat × Expr Rat)) :
    powersEval I (p :: ps) = (powerOf p).eval I * powersEval I ps := by simp [powersEval]

theorem factorOf?_product [CharZero K] (hI : I.PowerLaws) (ps : List (Expr Rat × Expr Rat)) :
    ((ps.filterMap factorOf?).map (eval I)).prod = powersEval I ps := by
  rw [prod_filterMap]
  simp only [powersEval, factorOf?_eval hI]

theorem factorsOf_eval (rest : Option (Expr Rat)) :
    ((factorsOf rest).map (eval I)).prod = Term.restEval I rest := by
  cases rest with
  | none => rfl
  | some e => exact Term.factors_eval I e

theorem factorsOf_defined {rest : Option (Expr Rat)} (h : Term.RestDefined I rest) :
    ∀ f ∈ factorsOf rest, f.Defined I := by
  cases rest with
  | none => simp [factorsOf]
  | some e => exact (Term.factors_defined I e).mpr h

theorem powerParts_product [CharZero K] (hI : I.PowerLaws) (rest : Option (Expr Rat)) :
    powersEval I ((factorsOf rest).map Term.powerParts) = Term.restEval I rest := by
  rw [← factorsOf_eval, powersEval, List.map_map]
  congr 1
  exact List.map_congr_left fun f _ => (powerParts_refines hI f).1

theorem powerParts_defined [CharZero K] (hI : I.PowerLaws) {rest : Option (Expr Rat)}
    (h : Term.RestDefined I rest) :
    ∀ p ∈ (factorsOf rest).map Term.powerParts, (powerOf p).Defined I := by
  intro p hp
  obtain ⟨f, hf, rfl⟩ := List.mem_map.mp hp
  exact (powerParts_refines hI f).2 (factorsOf_defined h f hf)

theorem withCoefficient_eval [CharZero K] (c : Rat) (fs : List (Expr Rat)) :
    (withCoefficient c fs).eval I = c * (fs.map (eval I)).prod := by
  by_cases hc : c = 1
  · simp [withCoefficient, hc]
  · simp [withCoefficient, hc]

theorem withCoefficient_defined {c : Rat} {fs : List (Expr Rat)} (h : ∀ f ∈ fs, f.Defined I) :
    (withCoefficient c fs).Defined I := by
  by_cases hc : c = 1
  · simpa [withCoefficient, hc] using h
  · simpa [withCoefficient, hc] using h

end Powers

section Cancelling

/-- Cancelling `u ^ d` against the powers `ps` leaves `qs` and, in the denominator, `u ^ left`. -/
structure Cancels (I : Interpretation K) (u : K) (d left : Rat)
    (ps qs : List (Expr Rat × Expr Rat)) : Prop where
  defined : ∀ q ∈ qs, (powerOf q).Defined I
  powerDefined : I.PowerDefined u left
  power_ne_zero : I.power u left ≠ 0
  eval : powersEval I qs * I.power u d = powersEval I ps * I.power u left

theorem Cancels.cons {u : K} {d left : Rat} {ps qs : List (Expr Rat × Expr Rat)}
    (h : Cancels I u d left ps qs) {p : Expr Rat × Expr Rat} (hp : (powerOf p).Defined I) :
    Cancels I u d left (p :: ps) (p :: qs) where
  defined := List.forall_mem_cons.mpr ⟨hp, h.defined⟩
  powerDefined := h.powerDefined
  power_ne_zero := h.power_ne_zero
  eval := by rw [powersEval_cons, powersEval_cons, mul_assoc, h.eval, mul_assoc]

theorem cancels_head [CharZero K] (hI : I.PowerLaws) {base : Expr Rat} {n d : Rat}
    {ps : List (Expr Rat × Expr Rat)} (hb : base.Defined I)
    (hn : I.PowerDefined (base.eval I) n) (hd : I.PowerDefined (base.eval I) d)
    (h0 : I.power (base.eval I) d ≠ 0) (hps : ∀ p ∈ ps, (powerOf p).Defined I) :
    Cancels I (base.eval I) d (d - min n d) ((base, num n) :: ps)
      ((base, num (n - min n d)) :: ps) := by
  have hz := hI.nat (base.eval I) 0
  simp only [Nat.cast_zero, pow_zero] at hz
  rcases le_total n d with hnd | hdn
  · obtain ⟨hl, he⟩ := hI.split hnd (Or.inr h0) hd hn
    simp only [min_eq_left hnd, sub_self]
    refine ⟨List.forall_mem_cons.mpr ⟨by simp [powerOf, hb, hz.1], hps⟩, hl, ?_, ?_⟩
    · intro hzero
      exact h0 (by rw [he, hzero, mul_zero])
    · simp only [powersEval_cons, powerOf, eval_pow, eval_num, Rat.cast_zero, hz.2, he]
      ring
  · obtain ⟨hl, he⟩ := hI.sub hn hd h0
    simp only [min_eq_right hdn, sub_self]
    refine ⟨List.forall_mem_cons.mpr ⟨by simp [powerOf, hb, hl], hps⟩, ?_, ?_, ?_⟩
    · simpa using hz.1
    · simp [hz.2]
    · simp only [powersEval_cons, powerOf, eval_pow, eval_num, Rat.cast_sub, Rat.cast_zero, he,
        hz.2]
      field_simp

theorem cancelPower?_spec [CharZero K] (hI : I.PowerLaws) {base : Expr Rat} {d left : Rat}
    {ps qs : List (Expr Rat × Expr Rat)} (h : cancelPower? base d ps = some (qs, left))
    (hd : I.PowerDefined (base.eval I) d) (h0 : I.power (base.eval I) d ≠ 0)
    (hps : ∀ p ∈ ps, (powerOf p).Defined I) : Cancels I (base.eval I) d left ps qs := by
  induction ps generalizing qs with
  | nil => simp [cancelPower?] at h
  | cons p ps ih =>
    obtain ⟨b, exponent⟩ := p
    obtain ⟨hp, hrest⟩ := List.forall_mem_cons.mp hps
    have pass : (cancelPower? base d ps).map (fun (ps, left) => ((b, exponent) :: ps, left)) =
        some (qs, left) → Cancels I (base.eval I) d left ((b, exponent) :: ps) qs := by
      intro h
      obtain ⟨⟨qs', left'⟩, hc, heq⟩ := Option.map_eq_some_iff.mp h
      simp only [Prod.mk.injEq] at heq
      obtain ⟨rfl, rfl⟩ := heq
      exact (ih hc hrest).cons hp
    unfold cancelPower? at h
    split at h
    · rename_i n hn
      obtain rfl := number?_eq_some.mp hn
      split_ifs at h with hb
      · obtain rfl : b = base := by simpa using hb
        simp only [Option.some.injEq, Prod.mk.injEq, Scalar.min_rat] at h
        obtain ⟨rfl, rfl⟩ := h
        simp only [powerOf, defined_pow, eval_num] at hp
        exact cancels_head hI hp.1.1 hp.2 hd h0 hrest
      · exact pass h
    · exact pass h

theorem powerFactor?_toList_eval [CharZero K] (hI : I.PowerLaws) (base : Expr Rat) (v : Rat) :
    ((powerFactor? base v).toList.map (Expr.eval I)).prod = I.power (base.eval I) v := by
  rw [← powerFactor?_eval hI]
  cases powerFactor? base v <;> simp [Term.restEval]

/-- Cancelling all factors of a denominator that is not zero keeps the quotient. -/
theorem cancelFactors_spec [CharZero K] (hI : I.PowerLaws) (fs : List (Expr Rat)) :
    ∀ ps : List (Expr Rat × Expr Rat), (∀ p ∈ ps, (powerOf p).Defined I) →
      (∀ f ∈ fs, f.Defined I) → (fs.map (Expr.eval I)).prod ≠ 0 →
      (∀ q ∈ (cancelFactors ps fs).1, (powerOf q).Defined I) ∧
      (∀ f ∈ (cancelFactors ps fs).2.1, f.Defined I) ∧
      ((cancelFactors ps fs).2.1.map (Expr.eval I)).prod ≠ 0 ∧
      powersEval I (cancelFactors ps fs).1 * (fs.map (Expr.eval I)).prod =
        powersEval I ps * ((cancelFactors ps fs).2.1.map (Expr.eval I)).prod := by
  induction fs with
  | nil => intro ps hps _ _; simpa [cancelFactors] using hps
  | cons f fs ih =>
    intro ps hps hfs h0
    obtain ⟨hf, hrest⟩ := List.forall_mem_cons.mp hfs
    rw [List.map_cons, List.prod_cons, mul_ne_zero_iff] at h0
    simp only [cancelFactors]
    split
    · rename_i qs left hc
      obtain ⟨d, hd, hcancel⟩ := Option.bind_eq_some_iff.mp hc
      obtain ⟨hv, hdef⟩ := powerParts_refines hI f
      have hpow := hdef hf
      rw [number?_eq_some] at hd
      simp only [powerOf, hd, defined_pow, eval_num, eval_pow] at hpow hv
      -- what is cancelled is not zero, since it divides the denominator
      have hcan := cancelPower?_spec hI hcancel hpow.2 (hv ▸ h0.1) hps
      obtain ⟨h1, h2, h3, h4⟩ := ih qs hcan.defined hrest h0.2
      refine ⟨h1, ?_, ?_, ?_⟩
      · intro g hg
        rcases List.mem_append.mp hg with hg | hg
        · have := powerFactor?_defined hpow.1.1 hcan.powerDefined
          rw [Option.mem_toList] at hg
          rwa [hg] at this
        · exact h2 g hg
      · rw [List.map_append, List.prod_append, powerFactor?_toList_eval hI]
        exact mul_ne_zero hcan.power_ne_zero h3
      · rw [List.map_append, List.prod_append, powerFactor?_toList_eval hI, List.map_cons,
          List.prod_cons, ← hv, mul_left_comm, h4, ← mul_assoc, ← mul_assoc,
          mul_comm (I.power _ _) (powersEval I qs), hcan.eval]
    · obtain ⟨h1, h2, h3, h4⟩ := ih ps hps hrest h0.2
      refine ⟨h1, List.forall_mem_cons.mpr ⟨hf, h2⟩, ?_, ?_⟩
      · rw [List.map_cons, List.prod_cons]
        exact mul_ne_zero h0.1 h3
      · rw [List.map_cons, List.prod_cons, List.map_cons, List.prod_cons, mul_left_comm, h4,
          mul_left_comm]

theorem cancelIntegers?_spec {a b c d : Rat} (h : cancelIntegers? a b = some (c, d)) (hb : b ≠ 0) :
    d ≠ 0 ∧ c * b = a * d := by
  unfold cancelIntegers? at h
  split at h
  · rename_i m n hm hn
    obtain rfl := Scalar.toInt?_eq_some.mp hm
    obtain rfl := Scalar.toInt?_eq_some.mp hn
    have hg0 := signedGcd_ne_zero m (Int.cast_ne_zero.mp hb)
    generalize (if n < 0 then -(Int.gcd m n : Int) else Int.gcd m n) = g at h hg0
    dsimp only at h
    split_ifs at h with hg
    simp only [Option.some.injEq, Prod.mk.injEq, Scalar.ofInt_rat] at h
    obtain ⟨rfl, rfl⟩ := h
    have hgq : (g : Rat) ≠ 0 := Int.cast_ne_zero.mpr hg0
    exact ⟨div_ne_zero hb hgq, by field_simp⟩
  · cases h

theorem cancelIntegers?_getD_spec (a : Rat) {b : Rat} (hb : b ≠ 0) :
    ((cancelIntegers? a b).getD (a, b)).2 ≠ 0 ∧
      ((cancelIntegers? a b).getD (a, b)).1 * b = a * ((cancelIntegers? a b).getD (a, b)).2 := by
  cases h : cancelIntegers? a b with
  | none => exact ⟨hb, rfl⟩
  | some p => exact cancelIntegers?_spec h hb

theorem cancelled_refines [CharZero K] (hI : I.PowerLaws) {l r : Expr Rat} {c d : Rat}
    (hd : d ≠ 0) (hc : c * (Term.splitNumbers r).1 = (Term.splitNumbers l).1 * d) :
    let cancelled := cancelFactors ((factorsOf (Term.splitNumbers l).2).map Term.powerParts)
      (factorsOf (Term.splitNumbers r).2)
    Refines I (.op .div l r) (.op .div (withCoefficient c (cancelled.1.filterMap factorOf?))
      (withCoefficient d cancelled.2.1)) := by
  intro cancelled h
  obtain ⟨⟨hdl, hdr⟩, hr0⟩ := (defined_div I l r).mp h
  have hl := Term.splitNumbers_eval I l
  have hr := Term.splitNumbers_eval I r
  have hF := factorsOf_eval (I := I) (Term.splitNumbers r).2
  rw [← hr, mul_ne_zero_iff] at hr0
  obtain ⟨h1, h2, h3, h4⟩ := cancelFactors_spec hI (factorsOf (Term.splitNumbers r).2)
    ((factorsOf (Term.splitNumbers l).2).map Term.powerParts)
    (powerParts_defined hI (Term.splitNumbers_defined I hdl))
    (factorsOf_defined (Term.splitNumbers_defined I hdr)) (hF ▸ hr0.2)
  rw [hF, powerParts_product hI] at h4
  change ∀ q ∈ cancelled.1, _ at h1
  change ∀ f ∈ cancelled.2.1, _ at h2
  change (cancelled.2.1.map (Expr.eval I)).prod ≠ 0 at h3
  change powersEval I cancelled.1 * _ = _ * (cancelled.2.1.map (Expr.eval I)).prod at h4
  have hnum : (withCoefficient c (cancelled.1.filterMap factorOf?)).eval I =
      c * powersEval I cancelled.1 := by
    rw [withCoefficient_eval, factorOf?_product hI]
  have hden : (withCoefficient d cancelled.2.1).eval I =
      d * (cancelled.2.1.map (Expr.eval I)).prod := withCoefficient_eval d cancelled.2.1
  have hden0 : (withCoefficient d cancelled.2.1).eval I ≠ 0 := by
    rw [hden]
    exact mul_ne_zero (Rat.cast_ne_zero.mpr hd) h3
  have hcK : (c : K) * (Term.splitNumbers r).1 = (Term.splitNumbers l).1 * d := by exact_mod_cast hc
  refine ⟨(defined_div I _ _).mpr ⟨⟨?_, withCoefficient_defined h2⟩, hden0⟩, ?_⟩
  · exact withCoefficient_defined (defined_filterMap fun q hq => factorOf?_defined (h1 q hq))
  · -- the quotients are equal because their cross products are
    rw [eval_div, eval_div, div_eq_div_iff hden0 (hr ▸ mul_ne_zero hr0.1 hr0.2), hnum, hden, ← hl,
      ← hr, mul_mul_mul_comm, hcK, h4]
    ring

theorem cancelFraction_refines [CharZero K] (hI : I.PowerLaws) (e : Expr Rat) :
    Refines I e (cancelFraction e) := by
  unfold cancelFraction
  split
  · rename_i l r
    dsimp only
    split
    · exact Refines.refl _
    · rename_i hab
      simp only [Bool.or_eq_true, Scalar.beq_rat, Scalar.zero_rat, decide_eq_true_eq, not_or] at hab
      obtain ⟨hc0, hc⟩ := cancelIntegers?_getD_spec (Term.splitNumbers l).1 hab.2
      split
      · exact Refines.refl _
      · have hquot := cancelled_refines hI (I := I) hc0 hc
        dsimp only at hquot
        split
        · rename_i hone
          rw [isNumber_iff] at hone
          refine hquot.trans fun h => ⟨((defined_div I _ _).mp h).1.1, ?_⟩
          rw [eval_div, hone]
          simp
        · exact hquot
  · exact Refines.refl e

end Cancelling

end RuleAlgebra.Rules
