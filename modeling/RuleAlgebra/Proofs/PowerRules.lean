import RuleAlgebra.Proofs.AlgebraicRules
import RuleAlgebra.Rules.Expansion
import RuleAlgebra.Rules.Exponential

/-!
The rules that merge powers, and those that multiply out, keep the value of every expression.
-/

namespace RuleAlgebra.Rules

open RuleAlgebra.Expr

variable {K : Type*} [Field K] {I : Interpretation K}

section Merging

def groupedEval (I : Interpretation K) (ps : Powers Rat) : K :=
  (ps.map fun p => powersEval I (p.2.map (p.1, ·))).prod

def GroupedDefined (I : Interpretation K) (ps : Powers Rat) : Prop :=
  ∀ p ∈ ps, ∀ e ∈ p.2, (powerOf (p.1, e)).Defined I

@[simp] theorem powersEval_append (ps qs : List (Expr Rat × Expr Rat)) :
    powersEval I (ps ++ qs) = powersEval I ps * powersEval I qs := by simp [powersEval]

@[simp] theorem groupedEval_cons (p : Expr Rat × List (Expr Rat)) (ps : Powers Rat) :
    groupedEval I (p :: ps) = powersEval I (p.2.map (p.1, ·)) * groupedEval I ps := by
  simp [groupedEval]

theorem addPower_eval (ps : Powers Rat) (p : Expr Rat × Expr Rat) :
    groupedEval I (addPower ps p) = groupedEval I ps * (powerOf p).eval I := by
  obtain ⟨base, exponent⟩ := p
  induction ps with
  | nil => simp [addPower, groupedEval]
  | cons q ps ih =>
    obtain ⟨b, es⟩ := q
    by_cases hb : b == base
    · obtain rfl : b = base := by simpa using hb
      simp only [addPower, hb, if_true, groupedEval_cons, List.map_append, List.map_cons,
        List.map_nil, powersEval_append, powersEval_cons, powersEval_nil]
      ring
    · simp only [addPower, hb, groupedEval_cons, Bool.false_eq_true, if_false, ih, mul_assoc]

theorem addPower_defined {ps : Powers Rat} {p : Expr Rat × Expr Rat} (hps : GroupedDefined I ps)
    (hp : (powerOf p).Defined I) : GroupedDefined I (addPower ps p) := by
  obtain ⟨base, exponent⟩ := p
  induction ps with
  | nil =>
    rintro q hq e he
    obtain rfl : q = (base, [exponent]) := by simpa [addPower] using hq
    obtain rfl : e = exponent := by simpa using he
    exact hp
  | cons q ps ih =>
    obtain ⟨b, es⟩ := q
    obtain ⟨hq, hps'⟩ := List.forall_mem_cons.mp hps
    by_cases hb : b == base
    · obtain rfl : b = base := by simpa using hb
      simp only [addPower, hb, if_true]
      refine List.forall_mem_cons.mpr ⟨fun e he => ?_, hps'⟩
      rcases List.mem_append.mp he with he | he
      · exact hq e he
      · rw [List.mem_singleton.mp he]
        exact hp
    · simp only [addPower, hb]
      exact List.forall_mem_cons.mpr ⟨hq, ih hps'⟩

theorem foldl_addPower_spec (qs : List (Expr Rat × Expr Rat)) (ps : Powers Rat) :
    groupedEval I (qs.foldl addPower ps) = groupedEval I ps * powersEval I qs ∧
      (GroupedDefined I ps → (∀ q ∈ qs, (powerOf q).Defined I) →
        GroupedDefined I (qs.foldl addPower ps)) := by
  induction qs generalizing ps with
  | nil => simp
  | cons q qs ih =>
    obtain ⟨hv, hd⟩ := ih (addPower ps q)
    refine ⟨?_, fun hps hqs => ?_⟩
    · rw [List.foldl_cons, hv, addPower_eval, powersEval_cons, mul_assoc]
    · obtain ⟨hq, hqs'⟩ := List.forall_mem_cons.mp hqs
      exact hd (addPower_defined hps hq) hqs'

theorem power_sum (hI : I.PowerLaws) {u : K} {as : List K} (h : ∀ a ∈ as, I.PowerDefined u a) :
    I.PowerDefined u as.sum ∧ I.power u as.sum = (as.map (I.power u)).prod := by
  induction as with
  | nil =>
    have hz := hI.nat u 0
    simpa using hz
  | cons a as ih =>
    obtain ⟨ha, has⟩ := List.forall_mem_cons.mp h
    obtain ⟨hd, hv⟩ := ih has
    obtain ⟨hd', hv'⟩ := hI.add ha hd
    simp only [List.sum_cons, List.map_cons, List.prod_cons]
    exact ⟨hd', by rw [hv', hv]⟩

theorem powersEval_base (base : Expr Rat) (es : List (Expr Rat)) :
    powersEval I (es.map (base, ·)) = ((es.map (eval I)).map (I.power (base.eval I))).prod := by
  simp [powersEval, powerOf, Function.comp_def]

theorem foldl_add_eval (e : Expr Rat) (es : List (Expr Rat)) :
    (es.foldl (.op .add) e).eval I = e.eval I + (es.map (eval I)).sum := by
  induction es generalizing e with
  | nil => simp
  | cons f es ih => simp [ih, add_assoc]

theorem foldl_add_defined (e : Expr Rat) (es : List (Expr Rat)) :
    (es.foldl (.op .add) e).Defined I ↔ e.Defined I ∧ ∀ f ∈ es, f.Defined I := by
  induction es generalizing e with
  | nil => simp
  | cons f es ih => simp [ih, and_assoc]

theorem foldl_add_rat (qs : List Rat) : qs.foldl (· + ·) Scalar.zero = qs.sum := by
  rw [List.sum_eq_foldl, Scalar.zero_rat]

theorem mapM_number?_eq_some {es : List (Expr Rat)} {vs : List Rat} :
    es.mapM number? = some vs ↔ es = vs.map num := by
  induction es generalizing vs with
  | nil => cases vs <;> simp
  | cons e es ih =>
    cases vs with
    | nil => simp [List.mapM_cons, Option.bind_eq_some_iff]
    | cons v vs => simp [List.mapM_cons, Option.bind_eq_some_iff, number?_eq_some, ih]

theorem mergedPower?_spec [CharZero K] (hI : I.PowerLaws) {base : Expr Rat} {es : List (Expr Rat)}
    (hne : es ≠ []) (h : ∀ e ∈ es, (powerOf (base, e)).Defined I) :
    Term.RestDefined I (mergedPower? (base, es)) ∧
      Term.restEval I (mergedPower? (base, es)) = powersEval I (es.map (base, ·)) := by
  have hall : ∀ e ∈ es, (base.Defined I ∧ e.Defined I) ∧
      I.PowerDefined (base.eval I) (e.eval I) := fun e he => (defined_pow I _ _).mp (h e he)
  have hbase : base.Defined I := by
    obtain ⟨e, he⟩ := List.exists_mem_of_ne_nil es hne
    exact (hall e he).1.1
  have hsum : I.PowerDefined (base.eval I) (es.map (eval I)).sum ∧
      I.power (base.eval I) (es.map (eval I)).sum =
        ((es.map (eval I)).map (I.power (base.eval I))).prod := power_sum hI fun a ha => by
    obtain ⟨e, he, rfl⟩ := List.mem_map.mp ha
    exact (hall e he).2
  unfold mergedPower?
  split
  · rename_i vs hvs
    obtain rfl : es = vs.map num := mapM_number?_eq_some.mp hvs
    have hcast : (((vs.map num).map (eval I)).sum : K) = ((vs.sum : Rat) : K) := by
      simp [Function.comp_def, Rat.cast_list_sum]
    rw [hcast] at hsum
    simp only [foldl_add_rat]
    rw [powerFactor?_eval hI, powersEval_base]
    exact ⟨powerFactor?_defined hbase hsum.1, hsum.2⟩
  · cases es with
    | nil => exact absurd rfl hne
    | cons e es =>
      rw [List.map_cons, List.sum_cons, ← foldl_add_eval] at hsum
      rw [powersEval_base, List.map_cons]
      refine ⟨?_, hsum.2⟩
      simp only [Term.RestDefined, defined_pow, foldl_add_defined]
      obtain ⟨he, hes⟩ := List.forall_mem_cons.mp hall
      exact ⟨⟨hbase, he.1.2, fun f hf => (hes f hf).1.2⟩, hsum.1⟩

theorem addPower_ne_nil {ps : Powers Rat} (p : Expr Rat × Expr Rat) (h : ∀ q ∈ ps, q.2 ≠ []) :
    ∀ q ∈ addPower ps p, q.2 ≠ [] := by
  obtain ⟨base, exponent⟩ := p
  induction ps with
  | nil => simp [addPower]
  | cons q ps ih =>
    obtain ⟨b, es⟩ := q
    obtain ⟨hq, hps⟩ := List.forall_mem_cons.mp h
    by_cases hb : b == base
    · simp only [addPower, hb, if_true]
      exact List.forall_mem_cons.mpr ⟨by simp, hps⟩
    · simp only [addPower, hb]
      exact List.forall_mem_cons.mpr ⟨hq, ih hps⟩

theorem foldl_addPower_ne_nil (qs : List (Expr Rat × Expr Rat)) (ps : Powers Rat)
    (h : ∀ q ∈ ps, q.2 ≠ []) : ∀ q ∈ qs.foldl addPower ps, q.2 ≠ [] := by
  induction qs generalizing ps with
  | nil => exact h
  | cons q qs ih => exact ih (addPower ps q) (addPower_ne_nil q h)

theorem mergedPower?_product [CharZero K] (hI : I.PowerLaws) {ps : Powers Rat}
    (hne : ∀ p ∈ ps, p.2 ≠ []) (h : GroupedDefined I ps) :
    (∀ f ∈ ps.filterMap mergedPower?, f.Defined I) ∧
      ((ps.filterMap mergedPower?).map (eval I)).prod = groupedEval I ps := by
  have hp : ∀ p ∈ ps, Term.RestDefined I (mergedPower? p) ∧
      Term.restEval I (mergedPower? p) = powersEval I (p.2.map (p.1, ·)) :=
    fun p hp => mergedPower?_spec hI (hne p hp) (h p hp)
  refine ⟨defined_filterMap fun p hmem => (hp p hmem).1, ?_⟩
  rw [prod_filterMap, groupedEval]
  congr 1
  exact List.map_congr_left fun p hmem => (hp p hmem).2

theorem combinePowers_refines [CharZero K] (hI : I.PowerLaws) (e : Expr Rat) :
    Refines I e (combinePowers e) := by
  unfold combinePowers
  split
  · rename_i l r
    intro h
    have hfac := (Term.factors_defined I (.op .mul l r)).mpr h
    have hval := Term.factors_eval I (.op .mul l r)
    rw [Term.prod_split_numbers] at hval
    dsimp only
    split
    · exact ⟨h, rfl⟩
    · rw [Term.foldl_mul_rat]
      split
      · rename_i hc
        rw [Scalar.beq_rat, decide_eq_true_eq, Scalar.zero_rat] at hc
        refine ⟨by simp, ?_⟩
        rw [← hval, hc]
        simp
      · obtain ⟨hv, hd⟩ := foldl_addPower_spec (I := I)
          (((Term.factors (.op .mul l r)).filter (!·.isNum)).map Term.powerParts) []
        have hne := foldl_addPower_ne_nil
          (((Term.factors (.op .mul l r)).filter (!·.isNum)).map Term.powerParts) [] (by simp)
        have hgd := hd (by simp [GroupedDefined]) fun q hq => by
          obtain ⟨f, hf, rfl⟩ := List.mem_map.mp hq
          exact (powerParts_refines hI f).2 (hfac f (List.mem_of_mem_filter hf))
        obtain ⟨hmd, hmv⟩ := mergedPower?_product hI hne hgd
        refine ⟨withCoefficient_defined hmd, ?_⟩
        rw [withCoefficient_eval, hmv, hv, ← hval, powersEval, List.map_map]
        simp only [groupedEval, List.map_nil, List.prod_nil, one_mul]
        congr 2
        exact List.map_congr_left fun f _ => (powerParts_refines hI f).1
  · exact Refines.refl e

theorem powerOfPower_refines (hI : I.PowerLaws) (e : Expr Rat) : Refines I e (powerOfPower e) := by
  unfold powerOfPower
  split
  · rename_i base inner n
    split
    · rename_i hn
      obtain ⟨k, rfl⟩ := Scalar.isInteger_iff.mp hn
      intro h
      simp only [defined_pow, eval_pow, eval_num, defined_num, and_true, Rat.cast_intCast] at h
      obtain ⟨⟨⟨hb, hi⟩, hp⟩, hp'⟩ := h
      obtain ⟨hd, hv⟩ := hI.mul hp hp'
      exact ⟨by simp [hb, hi, hd], by simp [hv]⟩
    · exact Refines.refl _
  · exact Refines.refl e

end Merging

section Expanding

theorem additive?_eq_some {α : Type} {e a b : Expr α} {o : Arithmetic} :
    additive? e = some (o, a, b) ↔ e = .op o a b ∧ o.isAdditive = true := by
  cases e with
  | op o' l r =>
    simp only [additive?, Option.ite_none_right_eq_some, Option.some.injEq, Prod.mk.injEq,
      op.injEq]
    constructor
    · rintro ⟨h, rfl, rfl, rfl⟩
      exact ⟨⟨rfl, rfl, rfl⟩, h⟩
    · rintro ⟨⟨rfl, rfl, rfl⟩, h⟩
      exact ⟨h, rfl, rfl, rfl⟩
  | _ => simp [additive?]

/-- How a sum among the factors of a product, or a sum as a numerator, is multiplied out. -/
inductive Distributes {α : Type} : Expr α → Expr α → Prop
  | right {o : Arithmetic} (ho : o.isAdditive = true) (l a b : Expr α) :
    Distributes (op .mul l (op o a b)) (op o (op .mul l a) (op .mul l b))
  | left {o : Arithmetic} (ho : o.isAdditive = true) (a b r : Expr α) :
    Distributes (op .mul (op o a b) r) (op o (op .mul a r) (op .mul b r))
  | numerator {o : Arithmetic} (ho : o.isAdditive = true) (a b r : Expr α) :
    Distributes (op .div (op o a b) r) (op o (op .div a r) (op .div b r))

theorem distribute_cases {α : Type} (e : Expr α) :
    distribute e = e ∨ Distributes e (distribute e) := by
  unfold distribute
  split
  · split
    · rename_i hr
      obtain ⟨rfl, ho⟩ := additive?_eq_some.mp hr
      exact Or.inr (.right ho _ _ _)
    · rename_i hl
      obtain ⟨rfl, ho⟩ := additive?_eq_some.mp hl
      exact Or.inr (.left ho _ _ _)
    · exact Or.inl rfl
  · split
    · rename_i hl
      obtain ⟨rfl, ho⟩ := additive?_eq_some.mp hl
      exact Or.inr (.numerator ho _ _ _)
    · exact Or.inl rfl
  · exact Or.inl rfl

theorem expandPower_cases {α : Type} [Scalar α] (e : Expr α) : expandPower e = e ∨
    ∃ base v n, (additive? base).isSome ∧ Scalar.toInt? v = some n ∧ 2 ≤ n ∧
      e = op .pow base (num v) ∧ expandPower e =
        op .mul base (if n = 2 then base else op .pow base (ofInt (n - 1))) := by
  unfold expandPower
  split
  · rename_i base v
    split
    · rename_i n hsum hn
      by_cases hrange : 2 ≤ n ∧ n ≤ maxExpandPower
      · rw [if_pos hrange]
        exact Or.inr ⟨base, v, n, by rw [hsum]; rfl, hn, hrange.1, rfl, rfl⟩
      · rw [if_neg hrange]
        exact Or.inl rfl
    · exact Or.inl rfl
  · exact Or.inl rfl

theorem distribute_refines (e : Expr Rat) : Refines I e (distribute e) := by
  obtain h | h := distribute_cases e
  · rw [h]
    exact Refines.refl e
  · generalize distribute e = d at h ⊢
    cases h with
    | @right o ho l a b =>
      intro h
      cases o with
      | add => simp_all [mul_add]
      | sub => simp_all [mul_sub]
      | _ => simp [Arithmetic.isAdditive] at ho
    | @left o ho a b r =>
      intro h
      cases o with
      | add => simp_all [add_mul]
      | sub => simp_all [sub_mul]
      | _ => simp [Arithmetic.isAdditive] at ho
    | @numerator o ho a b r =>
      intro h
      cases o with
      | add => simp_all [add_div]
      | sub => simp_all [sub_div]
      | _ => simp [Arithmetic.isAdditive] at ho

theorem expandPower_refines [CharZero K] (hI : I.PowerLaws) (e : Expr Rat) :
    Refines I e (expandPower e) := by
  obtain h | ⟨base, v, n, -, hv, hn, rfl, h⟩ := expandPower_cases e
  · rw [h]
    exact Refines.refl e
  · obtain rfl := Scalar.toInt?_eq_some.mp hv
    obtain ⟨k, rfl⟩ : ∃ k : Nat, n = k + 1 := ⟨(n - 1).toNat, by omega⟩
    have hsucc := (hI.nat (base.eval I) (k + 1)).2
    have hpred := hI.nat (base.eval I) k
    rw [h]
    intro hd
    simp only [defined_pow, defined_num, and_true] at hd
    split_ifs with h2
    · obtain rfl : k = 1 := by omega
      refine ⟨by simp [hd.1], ?_⟩
      rw [eval_mul, eval_pow, eval_num]
      push_cast at hsucc ⊢
      rw [hsucc]
      ring
    · refine ⟨by simp [hd.1, hpred.1], ?_⟩
      rw [eval_mul, eval_pow, eval_pow, eval_num, eval_ofInt, add_sub_cancel_right]
      push_cast at hsucc ⊢
      rw [hsucc, hpred.2, pow_succ']

end Expanding

end RuleAlgebra.Rules
