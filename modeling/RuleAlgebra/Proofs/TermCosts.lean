import RuleAlgebra.Proofs.CancellationCosts
import RuleAlgebra.Proofs.StandardRules

/-!
Adding the coefficients of equal terms lowers the cost: a sum weighs as much as its terms and the
signs between them, and merging terms saves a sign.
-/

namespace RuleAlgebra.Rules

open RuleAlgebra.Expr RuleAlgebra.Term

section Terms

def bodyWeight (p : Int) : Option (Expr Rat) → Nat
  | none => 2
  | some e => if p.natAbs = 1 then e.weight else e.weight + 2

def fractionWeight (q : Rat) (rest : Option (Expr Rat)) : Nat :=
  bodyWeight q.num rest + if q.den = 1 then 0 else 8

/-- The weight of a fraction times an expression in a sum, where it is left out when it is zero. -/
def summandWeight (q : Rat) (rest : Option (Expr Rat)) : Nat :=
  if q = 0 then 0 else fractionWeight q rest

def termWeight (t : Term Rat) : Nat := summandWeight t.coefficient.value t.rest

def ClosedTerm (t : Term Rat) : Prop := ∃ q rest, t = ⟨.exact q, rest⟩ ∧ RestClosed rest

theorem fractionWeight_neg (q : Rat) (rest : Option (Expr Rat)) :
    fractionWeight (-q) rest = fractionWeight q rest := by
  cases rest <;> simp [fractionWeight, bodyWeight]

theorem num_div_dvd (q : Rat) {n : Int} (hn : n ≠ 0) : (q / n).num ∣ q.num := by
  have hq : q / n = Rat.divInt q.num (q.den * n) := by
    rw [Rat.divInt_eq_div, Int.cast_mul, Int.cast_natCast, ← div_div, Rat.num_div_den]
  rw [hq]
  exact Rat.num_dvd _ (mul_ne_zero (by exact_mod_cast q.den_nz) hn)

theorem summandWeight_div (q : Rat) {n : Int} (hn : n ≠ 0) (rest : Option (Expr Rat)) :
    summandWeight (q / n) rest ≤ summandWeight q rest + 8 := by
  have hbody : bodyWeight (q / n).num rest ≤ bodyWeight q.num rest := by
    cases rest with
    | none => exact le_rfl
    | some e =>
      have hone : q.num.natAbs = 1 → (q / n).num.natAbs = 1 := by
        intro h
        have hdvd := Int.natAbs_dvd_natAbs.mpr (num_div_dvd q hn)
        rwa [h, Nat.dvd_one] at hdvd
      simp only [bodyWeight]
      split_ifs <;> omega
  by_cases hq : q = 0
  · simp [hq, summandWeight]
  · have hq' : q / n ≠ 0 := div_ne_zero hq (Int.cast_ne_zero.mpr hn)
    rw [summandWeight, summandWeight, if_neg hq, if_neg hq', fractionWeight, fractionWeight]
    split_ifs <;> omega

theorem summandWeight_add (p q : Rat) (rest : Option (Expr Rat)) :
    summandWeight (p + q) rest ≤ summandWeight p rest + summandWeight q rest := by
  have hbody : bodyWeight (p + q).num rest ≤ bodyWeight p.num rest + bodyWeight q.num rest := by
    cases rest with
    | none => simp [bodyWeight]
    | some e =>
      have he := two_le_weight e
      simp only [bodyWeight]
      split_ifs <;> omega
  have hden : p.den = 1 → q.den = 1 → (p + q).den = 1 := by
    intro hp hq
    obtain ⟨m, rfl⟩ := exists_int ((closed_num p).mpr hp)
    obtain ⟨n, rfl⟩ := exists_int ((closed_num q).mpr hq)
    rw [← Int.cast_add]
    exact Rat.den_intCast _
  by_cases hp : p = 0
  · simp [hp, summandWeight]
  · by_cases hq : q = 0
    · simp [hq, summandWeight]
    · simp only [summandWeight, fractionWeight, if_neg hp, if_neg hq]
      split_ifs <;> omega

theorem splits_termWeight {e : Expr Rat} {v : Rat} {rest : Option (Expr Rat)} (he : e.Closed)
    (h : splitNumbers e = (v, rest)) :
    ClosedTerm ⟨.ofScalar v, rest⟩ ∧ termWeight ⟨.ofScalar v, rest⟩ ≤ e.weight := by
  have hsplits := splitNumbers_splits he
  rw [h] at hsplits
  obtain ⟨n, rfl⟩ := exists_int ((closed_num v).mpr hsplits.integer)
  have hexact : (Coefficient.ofScalar (n : Rat) : Coefficient Rat) = .exact n := by
    simp [Coefficient.ofScalar]
  rw [hexact]
  have he2 := two_le_weight e
  cases rest with
  | none =>
    refine ⟨⟨n, none, rfl, trivial⟩, ?_⟩
    simp only [termWeight, Coefficient.value_exact, summandWeight, fractionWeight, bodyWeight,
      Rat.den_intCast, if_true]
    split_ifs <;> omega
  | some r =>
    refine ⟨⟨n, some r, rfl,
      (factors_closed r).mp fun f hf => (hsplits.proper f hf).closed⟩, ?_⟩
    have hweight : coefficientWeight n + totalWeight (factors r) ≤ e.weight := hsplits.weight_le
    have hn2 : n ≠ 1 → 2 ≤ coefficientWeight n := by
      intro hn
      rw [coefficientWeight_of_ne (by exact_mod_cast hn)]
      exact two_le_numWeight n
    rw [factors_weight] at hweight
    simp only [termWeight, Coefficient.value_exact, summandWeight, fractionWeight,
      Rat.den_intCast, if_true, Rat.num_intCast]
    simp only [bodyWeight]
    split_ifs <;> omega

theorem ofExpr_weight {e : Expr Rat} (he : e.Closed) :
    ∃ t, ofExpr e = .ok t ∧ ClosedTerm t ∧ termWeight t ≤ e.weight := by
  fun_induction ofExpr e with
  | case1 l r n hn ih =>
    obtain ⟨t, ht, ⟨q, rest, rfl, hrest⟩, hweight⟩ := ih ((closed_op .div).mp he).1
    obtain ⟨rfl, hn0⟩ := integerDivisor?_eq_some.mp hn
    refine ⟨⟨.exact (q / n), rest⟩, by simp only [ht, ok_bind]; rfl,
      ⟨_, _, rfl, hrest⟩, ?_⟩
    have hdiv := summandWeight_div q hn0 rest
    have hn2 := two_le_numWeight (n : Rat)
    simp only [termWeight, Coefficient.value_exact] at hweight ⊢
    simp only [weight_op, weight_num, opWeight]
    omega
  | case2 l r hn v rest hs =>
    obtain ⟨hclosed, hweight⟩ := splits_termWeight he hs
    exact ⟨_, rfl, hclosed, hweight⟩
  | case3 e hne v rest hs =>
    obtain ⟨hclosed, hweight⟩ := splits_termWeight he hs
    exact ⟨_, rfl, hclosed, hweight⟩

def termsWeight (ts : List (Term Rat)) : Nat := (ts.map termWeight).sum

@[simp] theorem termsWeight_nil : termsWeight [] = 0 := rfl

@[simp] theorem termsWeight_cons (t : Term Rat) (ts : List (Term Rat)) :
    termsWeight (t :: ts) = termWeight t + termsWeight ts := by simp [termsWeight]

@[simp] theorem termsWeight_append (ts us : List (Term Rat)) :
    termsWeight (ts ++ us) = termsWeight ts + termsWeight us := by simp [termsWeight]

theorem ofSum_weight {sign : Int} (hsign : sign.natAbs = 1) {e : Expr Rat} (he : e.Closed) :
    ∃ ts, ofSum sign e = .ok ts ∧ (∀ t ∈ ts, ClosedTerm t) ∧
      termsWeight ts + 6 * ts.length ≤ e.weight + 6 := by
  fun_induction ofSum sign e with
  | case1 sign l r ihl ihr =>
    obtain ⟨hl, hr⟩ := (closed_op .add).mp he
    obtain ⟨ls, hls, cls, wls⟩ := ihl hsign hl
    obtain ⟨rs, hrs, crs, wrs⟩ := ihr hsign hr
    refine ⟨ls ++ rs, by simp only [hls, hrs]; rfl, ?_, ?_⟩
    · intro t ht
      exact (List.mem_append.mp ht).elim (cls t) (crs t)
    · simp only [termsWeight_append, List.length_append, weight_op, opWeight]
      omega
  | case2 sign l r ihl ihr =>
    obtain ⟨hl, hr⟩ := (closed_op .sub).mp he
    obtain ⟨ls, hls, cls, wls⟩ := ihl hsign hl
    obtain ⟨rs, hrs, crs, wrs⟩ := ihr (by omega) hr
    refine ⟨ls ++ rs, by simp only [hls, hrs]; rfl, ?_, ?_⟩
    · intro t ht
      exact (List.mem_append.mp ht).elim (cls t) (crs t)
    · simp only [termsWeight_append, List.length_append, weight_op, opWeight]
      omega
  | case3 sign e _ _ =>
    obtain ⟨t, ht, ⟨q, rest, rfl, hrest⟩, hweight⟩ := ofExpr_weight he
    refine ⟨[⟨.exact (sign * q), rest⟩], by simp only [ht, ok_bind]; rfl, ?_, ?_⟩
    · simpa using ⟨_, _, rfl, hrest⟩
    · have hsigned : summandWeight (sign * q) rest = summandWeight q rest := by
        rcases Int.natAbs_eq_iff.mp hsign with h | h
        · simp [h]
        · simp [h, summandWeight, fractionWeight_neg]
      simp only [termWeight, Coefficient.value_exact] at hweight
      simp only [termsWeight_cons, termsWeight_nil, termWeight, Coefficient.value_exact, hsigned,
        List.length_singleton]
      omega

theorem terms_weight {e : Expr Rat} (he : e.Closed) :
    ∃ ts, terms e = .ok ts ∧ (∀ t ∈ ts, ClosedTerm t) ∧
      termsWeight ts + 6 * ts.length ≤ e.weight + 6 := ofSum_weight (by decide) he

theorem times_weight {p : Int} {rest : Option (Expr Rat)} (hrest : RestClosed rest) :
    (times (p : Rat) rest).Closed ∧ (times (p : Rat) rest).weight ≤ bodyWeight p rest + 5 ∧
      (0 ≤ p → (times (p : Rat) rest).weight ≤ bodyWeight p rest) := by
  cases rest with
  | none =>
    simp only [times, closed_num, weight_num, bodyWeight, numWeight_intCast]
    refine ⟨Rat.den_intCast p, ?_, fun h => ?_⟩ <;> split_ifs <;> omega
  | some e =>
    by_cases hp : p = 1
    · subst hp
      simpa [times, bodyWeight, RestClosed] using hrest
    · have hp' : (p : Rat) ≠ 1 := by exact_mod_cast hp
      simp only [times, Scalar.beq_rat, Scalar.one_rat, hp', decide_false, Bool.false_eq_true,
        if_false, closed_op, closed_num, weight_op, weight_num, opWeight, bodyWeight,
        numWeight_intCast]
      refine ⟨⟨Rat.den_intCast p, hrest⟩, ?_, fun h => ?_⟩ <;> split_ifs <;> omega

theorem written_weight (q : Rat) {rest : Option (Expr Rat)} (hrest : RestClosed rest) :
    (written ⟨.exact q, rest⟩).Closed ∧
      (written ⟨.exact q, rest⟩).weight ≤ fractionWeight q rest + 5 ∧
        (0 ≤ q → (written ⟨.exact q, rest⟩).weight ≤ fractionWeight q rest) := by
  obtain ⟨hclosed, hle, hnonneg⟩ := times_weight (p := q.num) hrest
  rw [Rat.num_nonneg] at hnonneg
  simp only [written, fractionWeight]
  split_ifs
  · exact ⟨hclosed, hle, hnonneg⟩
  · have hdiv : (Expr.op .div (times (q.num : Rat) rest) (num q.den)).weight =
        (times (q.num : Rat) rest).weight + 8 := by
      simp [opWeight, numWeight_of_nonneg (Nat.cast_nonneg q.den)]
    refine ⟨?_, by omega, fun h => ?_⟩
    · exact (closed_op .div).mpr ⟨hclosed, (closed_num _).mpr (Rat.den_natCast q.den)⟩
    · have := hnonneg h
      omega

theorem joined_weight {s : Expr Rat} (hs : s.Closed) (q : Rat) {rest : Option (Expr Rat)}
    (hrest : RestClosed rest) : (joined s ⟨.exact q, rest⟩).Closed ∧
      (joined s ⟨.exact q, rest⟩).weight ≤ s.weight + fractionWeight q rest + 6 := by
  simp only [joined, Coefficient.isNegative, Coefficient.neg, decide_eq_true_eq]
  split_ifs with hn
  · obtain ⟨hclosed, -, hle⟩ := written_weight (-q) hrest
    have := hle (neg_nonneg.mpr hn.le)
    rw [fractionWeight_neg] at this
    rw [closed_op, weight_op, opWeight]
    exact ⟨⟨hs, hclosed⟩, by omega⟩
  · obtain ⟨hclosed, -, hle⟩ := written_weight q hrest
    have := hle (not_lt.mp hn)
    rw [closed_op, weight_op, opWeight]
    exact ⟨⟨hs, hclosed⟩, by omega⟩

theorem foldl_joined_weight {ts : List (Term Rat)} (hts : ∀ t ∈ ts, ClosedTerm t)
    (hnz : ∀ t ∈ ts, t.coefficient.value ≠ 0) {s : Expr Rat} (hs : s.Closed) :
    (ts.foldl joined s).Closed ∧
      (ts.foldl joined s).weight ≤ s.weight + termsWeight ts + 6 * ts.length := by
  induction ts generalizing s with
  | nil => exact ⟨hs, le_rfl⟩
  | cons t ts ih =>
    obtain ⟨⟨q, rest, rfl, hrest⟩, hts'⟩ := List.forall_mem_cons.mp hts
    obtain ⟨hq, hnz'⟩ := List.forall_mem_cons.mp hnz
    obtain ⟨cs', ws'⟩ := joined_weight hs q hrest
    obtain ⟨ce, we⟩ := ih hts' hnz' cs'
    refine ⟨ce, ?_⟩
    have hweight : termWeight ⟨.exact q, rest⟩ = fractionWeight q rest := if_neg hq
    rw [List.foldl_cons, termsWeight_cons, hweight, List.length_cons]
    omega

theorem termsWeight_filter_nonzero (ts : List (Term Rat)) :
    termsWeight (ts.filter (!·.coefficient.isZero)) = termsWeight ts := by
  induction ts with
  | nil => rfl
  | cons t ts ih =>
    by_cases hz : t.coefficient.isZero = true
    · simp [hz, ih, termWeight, summandWeight, Coefficient.isZero_iff.mp hz]
    · simp [hz, ih]

theorem writtenSum_weight {ts : List (Term Rat)} (hts : ∀ t ∈ ts, ClosedTerm t) :
    (writtenSum ts).Closed ∧ ((writtenSum ts).weight = 2 ∨
      (writtenSum ts).weight < termsWeight ts + 6 * ts.length) := by
  have hlength := List.length_filter_le (!·.coefficient.isZero) ts
  rw [← termsWeight_filter_nonzero]
  unfold writtenSum
  cases hus : ts.filter (!·.coefficient.isZero) with
  | nil => exact ⟨closed_ofNat 0, Or.inl (weight_ofNat 0)⟩
  | cons u us =>
    have hmem : ∀ t ∈ u :: us, ClosedTerm t ∧ t.coefficient.value ≠ 0 := by
      intro t ht
      rw [← hus, List.mem_filter] at ht
      refine ⟨hts t ht.1, fun hzero => ?_⟩
      simp [Coefficient.isZero_iff.mpr hzero] at ht
    obtain ⟨⟨⟨q, rest, rfl, hrest⟩, hq⟩, hmem'⟩ := List.forall_mem_cons.mp hmem
    obtain ⟨cf, wf, -⟩ := written_weight q hrest
    obtain ⟨ce, we⟩ := foldl_joined_weight (fun t ht => (hmem' t ht).1)
      (fun t ht => (hmem' t ht).2) cf
    refine ⟨ce, Or.inr ?_⟩
    have hweight : termWeight ⟨.exact q, rest⟩ = fractionWeight q rest := if_neg hq
    rw [hus, List.length_cons] at hlength
    rw [termsWeight_cons, hweight]
    dsimp only
    omega

theorem mergeTerm_weight {ts : List (Term Rat)} {t : Term Rat} (hts : ∀ u ∈ ts, ClosedTerm u)
    (ht : ClosedTerm t) : ∃ us, mergeTerm ts t = .ok us ∧ (∀ u ∈ us, ClosedTerm u) ∧
      termsWeight us ≤ termsWeight ts + termWeight t ∧ us.length ≤ ts.length + 1 := by
  induction ts with
  | nil => exact ⟨[t], rfl, by simpa using ht, by simp, le_rfl⟩
  | cons s ss ih =>
    obtain ⟨hs, hss⟩ := List.forall_mem_cons.mp hts
    by_cases hst : s.rest == t.rest
    · obtain ⟨p, rest, rfl, hrest⟩ := hs
      obtain ⟨q, rest', rfl, -⟩ := ht
      obtain rfl : rest = rest' := by simpa using hst
      refine ⟨⟨.exact (p + q), rest⟩ :: ss, by simp only [mergeTerm, hst, if_true]; rfl,
        List.forall_mem_cons.mpr ⟨⟨_, _, rfl, hrest⟩, hss⟩, ?_, by simp⟩
      have hadd := summandWeight_add p q rest
      simp only [termsWeight_cons, termWeight, Coefficient.value_exact]
      omega
    · obtain ⟨us, hus, hclosed, hweight, hlength⟩ := ih hss
      refine ⟨s :: us, by simp only [mergeTerm, hst, hus]; rfl,
        List.forall_mem_cons.mpr ⟨hs, hclosed⟩, ?_, by simpa using hlength⟩
      rw [termsWeight_cons, termsWeight_cons]
      omega

theorem foldlM_mergeTerm_weight (acc : List (Term Rat)) {ts : List (Term Rat)}
    (hts : ∀ t ∈ ts, ClosedTerm t) (hacc : ∀ u ∈ acc, ClosedTerm u) :
    ∃ us, ts.foldlM mergeTerm acc = .ok us ∧
      (∀ u ∈ us, ClosedTerm u) ∧ termsWeight us ≤ termsWeight acc + termsWeight ts ∧
      us.length ≤ acc.length + ts.length := by
  induction ts generalizing acc with
  | nil => exact ⟨acc, rfl, hacc, le_rfl, le_rfl⟩
  | cons t ts ih =>
    obtain ⟨ht, hts'⟩ := List.forall_mem_cons.mp hts
    obtain ⟨vs, hvs, cvs, wvs, lvs⟩ := mergeTerm_weight hacc ht
    obtain ⟨us, hus, cus, wus, lus⟩ := ih vs hts' cvs
    refine ⟨us, by rw [List.foldlM_cons, hvs, ok_bind, hus], cus, ?_, ?_⟩
    · rw [termsWeight_cons]
      omega
    · rw [List.length_cons]
      omega

theorem combineLikeTerms_lowers : Lowers combineLikeTerms := by
  intro e he
  unfold combineLikeTerms
  split
  · rename_i o l r
    split_ifs
    · exact ⟨_, rfl, he, Or.inl rfl⟩
    · obtain ⟨ts, hts, cts, wts⟩ := terms_weight he
      obtain ⟨us, hus, cus, wus, lus⟩ := foldlM_mergeTerm_weight [] cts (by simp)
      simp only [hts, ok_bind, hus]
      split_ifs with hlength
      · exact ⟨_, rfl, he, Or.inl rfl⟩
      · obtain ⟨cd, wd⟩ := writtenSum_weight cus
        refine ⟨_, sum_rat us, cd, Or.inr (cost_lt_of_weight ?_)⟩
        -- fewer terms have fewer signs between them, which pays for a sign of the first one
        have htwo : 2 < (Expr.op o l r).weight := by
          have hl := two_le_weight l
          have hr := two_le_weight r
          rw [weight_op]
          cases o <;> simp only [opWeight] <;> omega
        simp only [termsWeight_nil, List.length_nil] at wus lus
        omega
  · exact ⟨_, rfl, he, Or.inl rfl⟩

theorem squareArgument?_closed {rest : Option (Expr Rat)} (h : RestClosed rest) (name : String) :
    squareArgument? name rest = none := by
  unfold squareArgument?
  split
  · simp [RestClosed] at h
  · rfl

theorem pythagoreanIdentity_lowers : Lowers pythagoreanIdentity := by
  intro e he
  unfold pythagoreanIdentity
  split
  · rename_i o l r
    split_ifs
    · exact ⟨_, rfl, he, Or.inl rfl⟩
    · obtain ⟨ts, hts, cts, -⟩ := terms_weight he
      have hsquare : ∀ t ∈ ts, ∀ name, squareArgument? name t.rest = none := by
        intro t ht
        obtain ⟨q, rest, rfl, hrest⟩ := cts t ht
        exact squareArgument?_closed hrest
      have hsum : sumOfSquares? ts = none := by
        apply List.findSome?_eq_none_iff.mpr
        rintro ⟨s, i⟩ hs
        simp [hsquare s (mem_of_mem_zipIdx hs)]
      have hone : oneMinusSquare? ts = none := by
        apply List.findSome?_eq_none_iff.mpr
        rintro ⟨s, i⟩ hs
        dsimp only
        split_ifs
        · rfl
        · apply List.findSome?_eq_none_iff.mpr
          rintro ⟨t, j⟩ ht
          simp [otherSquare?, hsquare t (mem_of_mem_zipIdx ht)]
      simp only [hts, ok_bind, hsum, hone]
      exact ⟨_, rfl, he, Or.inl rfl⟩
  · exact ⟨_, rfl, he, Or.inl rfl⟩

end Terms

end RuleAlgebra.Rules
