import RuleAlgebra.Proofs.FactorCosts
import RuleAlgebra.Proofs.HeldIntegers

/-!
Reading the terms of a sum undoes building the sum from them. A coefficient stands in front of a
product, divides it, or turns the sum into a difference, and each is read back where the scalars
hold its numerator and denominator: everywhere over fractions, and over binary64 up to `2 ^ 53` at
least.
-/

namespace RuleAlgebra

open RuleAlgebra.Expr

namespace Term

variable {α : Type}

/-- A factor that a product keeps apart: neither a number nor a product. -/
def IsFactor [Scalar α] (f : Expr α) : Prop := f.isNum = false ∧ ∀ l r, f ≠ .op .mul l r

/-- An expression that is one term with the coefficient one: a product of factors, grouped from the
left, that is no sum, no difference and no quotient by an integer other than zero. -/
structure IsRest [Scalar α] (e : Expr α) : Prop where
  product : ∃ fs, fs ≠ [] ∧ (∀ f ∈ fs, IsFactor f) ∧ e = Term.product fs
  not_additive (o : Arithmetic) (l r : Expr α) : e = .op o l r → o.isAdditive = false
  not_quotient (l : Expr α) (v : α) (n : Int) :
    e = .op .div l (.num v) → Scalar.toInt? v = some n → n = 0

/-- A term with an exact coefficient other than zero, of a constant or of one product. -/
structure IsReadable [Scalar α] (t : Term α) : Prop where
  coefficient : ∃ q, t.coefficient = .exact q ∧ q ≠ 0
  rest : ∀ e ∈ t.rest, IsRest e

/-- The scalars hold numerator and denominator of the coefficient. -/
def IsHeld [Scalar α] (t : Term α) : Prop :=
  ∀ q, t.coefficient = .exact q → Scalar.Holds α q.num ∧ Scalar.Holds α q.den

variable [Scalar α]

section Rests

variable {e : Expr α}

theorem IsFactor.factors (h : IsFactor e) : factors e = [e] := by
  rw [Term.factors]
  exact h.2

theorem filterMap_number? {fs : List (Expr α)} (h : ∀ f ∈ fs, IsFactor f) :
    fs.filterMap number? = [] := by
  rw [List.filterMap_eq_nil_iff]
  intro f hf
  have hnum := (h f hf).1
  cases f <;> simp_all [isNum, number?]

theorem filter_not_isNum {fs : List (Expr α)} (h : ∀ f ∈ fs, IsFactor f) :
    fs.filter (!·.isNum) = fs := by
  rw [List.filter_eq_self]
  intro f hf
  rw [(h f hf).1]
  rfl

theorem IsRest.factors (h : IsRest e) : ∃ fs, fs ≠ [] ∧ (∀ f ∈ fs, IsFactor f) ∧
    Term.factors e = fs ∧ Term.product fs = e := by
  obtain ⟨fs, hne, hfs, rfl⟩ := h.product
  exact ⟨fs, hne, hfs, product_factors hne fun f hf => (hfs f hf).factors, rfl⟩

theorem IsRest.isNum (h : IsRest e) : e.isNum = false := by
  obtain ⟨fs, hne, hfs, hfactors, rfl⟩ := h.factors
  cases hproduct : Term.product fs with
  | num v =>
    rw [hproduct, Term.factors] at hfactors
    · subst hfactors
      exact (hfs _ (by simp)).1
    · simp
  | _ => rfl

theorem IsRest.integerDivisor? (h : IsRest e) {l r : Expr α} (hdiv : e = .op .div l r) :
    integerDivisor? r = none := by
  cases r with
  | num v =>
    rw [Term.integerDivisor?, Option.filter_eq_none_iff]
    intro n hn
    simp [h.not_quotient l v n hdiv hn]
  | _ => rfl

theorem ofExpr_of_split (h : ∀ l r, e = .op .div l r → Term.integerDivisor? r = none) :
    ofExpr e = .ok ⟨.ofScalar (splitNumbers e).1, (splitNumbers e).2⟩ := by
  unfold ofExpr
  split
  · rw [h _ _ rfl]
    rfl
  · rfl

theorem splitNumbers_rest (h : IsRest e) : splitNumbers e = (Scalar.one, some e) := by
  obtain ⟨fs, -, hfs, hfactors, -⟩ := h.factors
  have hnum := h.isNum
  unfold splitNumbers
  split
  · simp [Expr.isNum] at hnum
  · simp [hfactors, filterMap_number? hfs]

theorem splitNumbers_mul (h : IsRest e) (v : α) :
    splitNumbers (.op .mul (.num v) e) = (Scalar.one * v, some e) := by
  obtain ⟨fs, hne, hfs, hfactors, hproduct⟩ := h.factors
  have hall : Term.factors (.op .mul (.num v) e) = .num v :: fs := by
    simp [Term.factors, hfactors]
  have hnumbers : (num v :: fs).filterMap number? = [v] := by
    rw [List.filterMap_cons, filterMap_number? hfs]
    rfl
  have hothers : (num v :: fs).filter (!·.isNum) = fs := by
    rw [List.filter_cons_of_neg Bool.false_ne_true, filter_not_isNum hfs]
  simp [splitNumbers, hall, hnumbers, hothers, hne, hproduct]

end Rests

section Coefficients

variable (hα : Scalar.KeepsIntegers α) {rest : Option (Expr α)} (hrest : ∀ e ∈ rest, IsRest e)

theorem ofScalar_of_toInt? {v : α} {n : Int} (h : Scalar.toInt? v = some n) :
    Coefficient.ofScalar v = .exact (n : Rat) := by
  rw [Coefficient.ofScalar, h]

theorem integerDivisor?_num {v : α} {n : Int} (h : Scalar.toInt? v = some n) (hn : n ≠ 0) :
    Term.integerDivisor? (.num v) = some n := by
  simp [Term.integerDivisor?, h, Option.filter, hn]

include hα hrest

theorem ofExpr_times {v : α} {n : Int} (hv : Scalar.toInt? v = some n) :
    ofExpr (times v rest) = .ok ⟨.exact (n : Rat), rest⟩ := by
  cases rest with
  | none =>
    rw [times, ofExpr_of_split (by simp)]
    simp [splitNumbers, ofScalar_of_toInt? hv]
  | some e =>
    have he := hrest e rfl
    by_cases hone : (v == Scalar.one) = true
    · obtain rfl : n = 1 := Option.some.inj (hv.symm.trans (hα.beq_one hone))
      rw [times, if_pos hone, ofExpr_of_split fun l r => he.integerDivisor?, splitNumbers_rest he,
        ofScalar_of_toInt? hα.one]
    · rw [times, if_neg hone, ofExpr_of_split (by simp), splitNumbers_mul he,
        ofScalar_of_toInt? (hα.one_mul hv)]

omit hα in
theorem times_not_additive (v : α) {o : Arithmetic} {l r : Expr α}
    (h : times v rest = .op o l r) : o.isAdditive = false := by
  cases rest with
  | none => simp [times] at h
  | some e =>
    rw [times] at h
    split_ifs at h
    · exact (hrest e rfl).not_additive o l r h
    · cases h
      rfl

theorem toExpr_reads {q : Rat} (hnum : Scalar.Holds α q.num) (hden : Scalar.Holds α q.den) :
    ∃ e, toExpr ⟨.exact q, rest⟩ = .ok e ∧ ofExpr e = .ok ⟨.exact q, rest⟩ ∧
      ∀ o l r, e = .op o l r → o.isAdditive = false := by
  obtain ⟨p, hp, hpn⟩ := hnum
  obtain ⟨d, hd, hdn⟩ := hden
  have hround : (Coefficient.round q.num : Except Failure α) = .ok p := by
    rw [Coefficient.round, hp]
    rfl
  have htimes := ofExpr_times hα hrest hpn
  by_cases hone : q.den = 1
  · refine ⟨times p rest, ?_, ?_, fun o l r => times_not_additive hrest p⟩
    · simp only [toExpr, hround, ok_bind, hone]
      rfl
    · rw [htimes, (Rat.den_eq_one_iff q).mp hone]
  · have hdivisor : (Coefficient.round q.den : Except Failure α) = .ok d := by
      rw [Int.cast_natCast] at hd
      rw [Coefficient.round, hd]
      rfl
    have hinteger := integerDivisor?_num hdn (by exact_mod_cast q.den_ne_zero)
    refine ⟨.op .div (times p rest) (.num d), ?_, ?_, ?_⟩
    · simp only [toExpr, hround, hdivisor, ok_bind, hone]
      rfl
    · rw [ofExpr, hinteger]
      simp only [htimes, ok_bind, Coefficient.normal, Coefficient.divide, Int.cast_natCast,
        Rat.num_div_den]
      rfl
    · rintro o l r h
      cases h
      rfl

end Coefficients

section Sums

theorem ofSum_of_term {e : Expr α} {q : Rat} {rest : Option (Expr α)} (sign : Int)
    (hread : ofExpr e = .ok ⟨.exact q, rest⟩) (h : ∀ o l r, e = .op o l r → o.isAdditive = false) :
    ofSum sign e = .ok [⟨.exact (sign * q), rest⟩] := by
  unfold ofSum
  split
  · cases h _ _ _ rfl
  · cases h _ _ _ rfl
  · rw [hread]
    rfl

variable (hα : Scalar.KeepsIntegers α)
include hα

theorem addTo_reads {s : Expr α} {us : List (Term α)} (hs : terms s = .ok us) {t : Term α}
    (ht : t.IsReadable) (hheld : t.IsHeld) :
    ∃ e, addTo s t = .ok e ∧ terms e = .ok (us ++ [t]) := by
  obtain ⟨⟨q, hq, -⟩, hrest⟩ := ht
  obtain ⟨hnum, hden⟩ := hheld q hq
  obtain ⟨c, rest⟩ := t
  obtain rfl : c = .exact q := hq
  have hs : ofSum 1 s = .ok us := hs
  by_cases hneg : q < 0
  -- A negative term is subtracted, and the sign in front of it is read into its coefficient.
  · obtain ⟨e, he, hread, hterm⟩ := toExpr_reads hα hrest (q := -q) (hα.neg hnum) hden
    refine ⟨.op .sub s e, ?_, ?_⟩
    · simp only [addTo, Coefficient.isNegative, hneg, Coefficient.neg, he, ok_bind, decide_true]
      rfl
    · rw [terms, ofSum, hs, ofSum_of_term (-1) hread hterm]
      simp only [Int.reduceNeg, Int.cast_neg, Int.cast_one, neg_mul, one_mul, neg_neg]
      rfl
  · obtain ⟨e, he, hread, hterm⟩ := toExpr_reads hα hrest hnum hden
    refine ⟨.op .add s e, ?_, ?_⟩
    · simp only [addTo, Coefficient.isNegative, hneg, he, ok_bind, decide_false]
      rfl
    · rw [terms, ofSum, hs, ofSum_of_term 1 hread hterm, Int.cast_one, one_mul]
      rfl

theorem foldlM_addTo_reads {ts : List (Term α)} (h : ∀ t ∈ ts, t.IsReadable ∧ t.IsHeld)
    {s : Expr α} {us : List (Term α)} (hs : terms s = .ok us) :
    ∃ e, ts.foldlM addTo s = .ok e ∧ terms e = .ok (us ++ ts) := by
  induction ts generalizing s us with
  | nil => exact ⟨s, rfl, by rw [hs, List.append_nil]⟩
  | cons t ts ih =>
    obtain ⟨ht, hheld⟩ := h t (by simp)
    obtain ⟨e, he, hread⟩ := addTo_reads hα hs ht hheld
    obtain ⟨f, hf, hall⟩ := ih (fun u hu => h u (List.mem_cons_of_mem t hu)) hread
    refine ⟨f, by rw [List.foldlM_cons, he, ok_bind, hf], ?_⟩
    rw [hall, List.append_assoc, List.singleton_append]

theorem terms_of_sum {ts : List (Term α)} (hne : ts ≠ [])
    (h : ∀ t ∈ ts, t.IsReadable ∧ t.IsHeld) : ∃ e, sum ts = .ok e ∧ terms e = .ok ts := by
  have hnonzero : ts.filter (!·.coefficient.isZero) = ts := by
    rw [List.filter_eq_self]
    intro t ht
    obtain ⟨⟨q, hq, hzero⟩, -⟩ := (h t ht).1
    simp [hq, Coefficient.isZero, hzero]
  cases ts with
  | nil => exact absurd rfl hne
  | cons t ts =>
    obtain ⟨⟨⟨q, hq, -⟩, hrest⟩, hheld⟩ := h t (by simp)
    obtain ⟨hnum, hden⟩ := hheld q hq
    obtain ⟨first, hfirst, hread, hterm⟩ := toExpr_reads hα hrest hnum hden
    rw [← hq] at hfirst
    have hone : terms first = .ok [t] := by
      rw [terms, ofSum_of_term 1 hread hterm, Int.cast_one, one_mul, ← hq]
    obtain ⟨e, he, hall⟩ := foldlM_addTo_reads hα (fun u hu => h u (List.mem_cons_of_mem t hu)) hone
    refine ⟨e, ?_, hall⟩
    rw [sum, hnonzero]
    simp only [hfirst, ok_bind, he]

end Sums

section Instances

/-- Reading the terms of a sum undoes building it, for every list of terms with exact coefficients
other than zero: over fractions always, and over binary64 where numerators and denominators are
numbers without rounding, as all integers up to `2 ^ 53` are. -/
theorem sum_reads_back :
    (∀ ts : List (Term Rat), ts ≠ [] → (∀ t ∈ ts, t.IsReadable) →
      ∃ e, sum ts = .ok e ∧ terms e = .ok ts) ∧
    (∀ ts : List (Term Float), ts ≠ [] → (∀ t ∈ ts, t.IsReadable ∧ t.IsHeld) →
      ∃ e, sum ts = .ok e ∧ terms e = .ok ts) ∧
    ∀ n : Int, n.natAbs ≤ 2 ^ 53 → Scalar.Holds Float n := by
  refine ⟨fun ts hne h => ?_, fun ts hne h => ?_, fun n => Binary64.holds_float⟩
  · apply terms_of_sum Scalar.keepsIntegers_rat hne
    intro t ht
    exact ⟨h t ht, fun q _ => ⟨Scalar.holds_rat _, Scalar.holds_rat _⟩⟩
  · exact terms_of_sum Binary64.keepsIntegers_float hne h

/-- The coefficients of a quotient, a difference, a constant and a product that stands alone. -/
def mixedTerms : List (Term Float) :=
  [⟨.exact (-3 / 4), some (.op .mul (.var "x") (.fn "sin" [.var "y"]))⟩,
    ⟨.exact (-1), some (.op .pow (.var "x") (.num 2))⟩, ⟨.exact 5, none⟩,
    ⟨.exact 1, some (.op .mul (.op .div (.var "x") (.num 2)) (.var "y"))⟩]

theorem sum_reads_back_of_mixedTerms : (∀ t ∈ mixedTerms, t.IsReadable ∧ t.IsHeld) ∧
    ∃ e, sum mixedTerms = .ok e ∧ terms e = .ok mixedTerms := by
  have readable {q : Rat} {r : Option (Expr Float)} (hq : q ≠ 0) (hr : ∀ e ∈ r, IsRest e)
      (hnum : q.num.natAbs ≤ 2 ^ 53) (hden : q.den ≤ 2 ^ 53) :
      IsReadable ⟨.exact q, r⟩ ∧ IsHeld ⟨.exact q, r⟩ := by
    refine ⟨⟨⟨q, rfl, hq⟩, hr⟩, fun p hp => ?_⟩
    obtain rfl := Coefficient.exact.inj hp
    exact ⟨Binary64.holds_float hnum, Binary64.holds_float hden⟩
  have hterms : ∀ t ∈ mixedTerms, t.IsReadable ∧ t.IsHeld := by
    simp only [mixedTerms, List.forall_mem_cons, List.not_mem_nil, false_implies, implies_true,
      and_true]
    refine ⟨readable (by norm_num) ?_ (by norm_num) (by norm_num),
      readable (by norm_num) ?_ (by norm_num) (by norm_num),
      readable (by norm_num) (by simp) (by norm_num) (by norm_num),
      readable (by norm_num) ?_ (by norm_num) (by norm_num)⟩
    · rintro e ⟨⟩
      exact ⟨⟨[.var "x", .fn "sin" [.var "y"]], by simp, by simp [IsFactor, Expr.isNum], rfl⟩,
        by simp [Arithmetic.isAdditive], by simp⟩
    · rintro e ⟨⟩
      exact ⟨⟨[.op .pow (.var "x") (.num 2)], by simp, by simp [IsFactor, Expr.isNum], rfl⟩,
        by simp [Arithmetic.isAdditive], by simp⟩
    · rintro e ⟨⟩
      exact ⟨⟨[.op .div (.var "x") (.num 2), .var "y"], by simp, by simp [IsFactor, Expr.isNum],
        rfl⟩, by simp [Arithmetic.isAdditive], by simp⟩
  exact ⟨hterms, sum_reads_back.2.1 mixedTerms (by simp [mixedTerms]) hterms⟩

/-- A term whose coefficient lies halfway between two binary64 numbers. -/
def oddTerm : Term Float := ⟨.exact 9007199254740993, some (.var "x")⟩

theorem oddTerm_not_read_back : oddTerm.IsReadable ∧
    ∃ e, sum [oddTerm] = .ok e ∧
      terms e = .ok [⟨.exact 9007199254740992, some (.var "x")⟩] ∧ terms e ≠ .ok [oddTerm] := by
  have hvariable : IsRest (.var "x" : Expr Float) :=
    ⟨⟨[.var "x"], by simp, by simp [IsFactor, Expr.isNum], rfl⟩, by simp, by simp⟩
  have hrest : ∀ e ∈ some (.var "x" : Expr Float), IsRest e := by
    rintro e ⟨⟩
    exact hvariable
  have hreadable : oddTerm.IsReadable := ⟨⟨_, rfl, by norm_num⟩, hrest⟩
  have hvalue : Scalar.toInt? (Float.ofBits 0x4340000000000000) = some 9007199254740992 := rfl
  have hsum : sum [oddTerm] =
      .ok (times (Float.ofBits 0x4340000000000000) (some (.var "x"))) := rfl
  have hterms : terms (times (Float.ofBits 0x4340000000000000) (some (.var "x"))) =
      .ok [⟨.exact 9007199254740992, some (.var "x")⟩] := by
    have hread := ofExpr_times Binary64.keepsIntegers_float hrest hvalue
    have hterm := ofSum_of_term 1 hread fun o l r => times_not_additive hrest _
    rw [terms, hterm]
    norm_num
  refine ⟨hreadable, _, hsum, hterms, ?_⟩
  rw [hterms]
  simp [oddTerm]

end Instances

end Term

end RuleAlgebra
