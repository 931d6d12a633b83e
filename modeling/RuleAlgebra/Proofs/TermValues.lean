import RuleAlgebra.Polynomial.Term
import RuleAlgebra.Proofs.Interpretation

/-!
The values of products as lists of factors and of sums as lists of terms. Taking an expression apart
and building it again keep the value everywhere, and never fail over fractions.
-/

namespace RuleAlgebra.Term

open RuleAlgebra.Expr

variable {K : Type*} [Field K] (I : Interpretation K)

section Factors

theorem factors_eval (e : Expr Rat) : ((factors e).map (eval I)).prod = e.eval I := by
  fun_induction factors e with
  | case1 l r ihl ihr => simp [ihl, ihr]
  | case2 e _ => simp

theorem factors_defined (e : Expr Rat) : (∀ f ∈ factors e, f.Defined I) ↔ e.Defined I := by
  fun_induction factors e with
  | case1 l r ihl ihr => simp [or_imp, forall_and, ihl, ihr]
  | case2 e _ => simp

theorem foldl_mul_eval (e : Expr Rat) (fs : List (Expr Rat)) :
    (fs.foldl (Expr.op .mul) e).eval I = e.eval I * (fs.map (eval I)).prod := by
  induction fs generalizing e with
  | nil => simp
  | cons f fs ih => simp [ih, mul_assoc]

theorem foldl_mul_defined (e : Expr Rat) (fs : List (Expr Rat)) :
    (fs.foldl (Expr.op .mul) e).Defined I ↔ e.Defined I ∧ ∀ f ∈ fs, f.Defined I := by
  induction fs generalizing e with
  | nil => simp
  | cons f fs ih => simp [ih, and_assoc]

@[simp] theorem product_eval [CharZero K] (fs : List (Expr Rat)) :
    (product fs).eval I = (fs.map (eval I)).prod := by
  cases fs with
  | nil => simp [product]
  | cons f fs => simp [product, foldl_mul_eval]

@[simp] theorem product_defined (fs : List (Expr Rat)) :
    (product fs).Defined I ↔ ∀ f ∈ fs, f.Defined I := by
  cases fs with
  | nil => simp [product]
  | cons f fs => simp [product, foldl_mul_defined]

theorem foldl_mul_rat (qs : List Rat) : qs.foldl (· * ·) Scalar.one = qs.prod := by
  rw [List.prod_eq_foldl, Scalar.one_rat]

theorem prod_split_numbers [CharZero K] (fs : List (Expr Rat)) :
    (fs.map (eval I)).prod =
      ((fs.filterMap number?).prod : Rat) * ((fs.filter (!·.isNum)).map (eval I)).prod := by
  induction fs with
  | nil => simp
  | cons f fs ih =>
    cases f with
    | num q => simp [number?, isNum, ih, mul_assoc]
    | _ =>
      simp only [List.map_cons, List.prod_cons, ih, number?, isNum, List.filterMap_cons,
        Bool.not_false, List.filter_cons_of_pos]
      ring

end Factors

def restEval : Option (Expr Rat) → K
  | none => 1
  | some e => e.eval I

def RestDefined : Option (Expr Rat) → Prop
  | none => True
  | some e => e.Defined I

theorem splitNumbers_eval [CharZero K] (e : Expr Rat) :
    ((splitNumbers e).1 : K) * restEval I (splitNumbers e).2 = e.eval I := by
  unfold splitNumbers
  split
  · simp [restEval]
  · dsimp only
    split_ifs with hn ho
    · simp [restEval]
    · rw [← factors_eval, prod_split_numbers, foldl_mul_rat, List.isEmpty_iff.mp ho]
      simp [restEval]
    · rw [← factors_eval, prod_split_numbers, foldl_mul_rat]
      simp [restEval]

theorem splitNumbers_defined {e : Expr Rat} (h : e.Defined I) :
    RestDefined I (splitNumbers e).2 := by
  unfold splitNumbers
  split
  · trivial
  · dsimp only
    split_ifs with hn ho
    · exact h
    · trivial
    · simp only [RestDefined, product_defined]
      intro f hf
      exact (factors_defined I _).mpr h f (List.mem_of_mem_filter hf)

def eval (t : Term Rat) : K := t.coefficient.value * restEval I t.rest

def Defined (t : Term Rat) : Prop := RestDefined I t.rest

theorem integerDivisor?_eq_some {e : Expr Rat} {n : Int} :
    integerDivisor? e = some n ↔ e = num (n : Rat) ∧ n ≠ 0 := by
  cases e <;> simp [integerDivisor?, Option.filter_eq_some_iff, Scalar.toInt?_eq_some]

theorem ofExpr_spec [CharZero K] : ∀ e : Expr Rat, ∃ t, ofExpr e = .ok t ∧
    t.eval I = e.eval I ∧ (e.Defined I → t.Defined I) := by
  intro e
  fun_induction ofExpr e with
  | case1 l r n hn ih =>
    obtain ⟨t, ht, hv, hd⟩ := ih
    obtain ⟨c, hc, hcv⟩ := t.coefficient.normal.divide_rat n
    obtain ⟨rfl, hn0⟩ := integerDivisor?_eq_some.mp hn
    refine ⟨{ t with coefficient := c }, by simp only [ht, ok_bind, hc]; rfl, ?_, fun h => ?_⟩
    · simp only [eval, hcv, Coefficient.value_normal, eval_div, ← hv, eval_num]
      push_cast
      ring
    · exact hd ((defined_div I _ _).mp h).1.1
  | case2 l r hn v rest hs =>
    have hv := splitNumbers_eval I (Expr.op .div l r)
    rw [hs] at hv
    refine ⟨_, rfl, by simpa [eval] using hv, fun h => ?_⟩
    have hd := splitNumbers_defined I h
    rwa [hs] at hd
  | case3 e hne v rest hs =>
    have hv := splitNumbers_eval I e
    rw [hs] at hv
    refine ⟨_, rfl, by simpa [eval] using hv, fun h => ?_⟩
    have hd := splitNumbers_defined I h
    rwa [hs] at hd

def total (ts : List (Term Rat)) : K := (ts.map (eval I)).sum

@[simp] theorem total_nil : total I [] = 0 := rfl

@[simp] theorem total_cons (t : Term Rat) (ts : List (Term Rat)) :
    total I (t :: ts) = t.eval I + total I ts := by simp [total]

@[simp] theorem total_append (ts us : List (Term Rat)) :
    total I (ts ++ us) = total I ts + total I us := by simp [total]

theorem ofSum_spec [CharZero K] : ∀ (sign : Int) (e : Expr Rat), ∃ ts, ofSum sign e = .ok ts ∧
    total I ts = sign * e.eval I ∧ (e.Defined I → ∀ t ∈ ts, t.Defined I) := by
  intro sign e
  fun_induction ofSum sign e with
  | case1 sign l r ihl ihr =>
    obtain ⟨ls, hl, vl, dl⟩ := ihl
    obtain ⟨rs, hr, vr, dr⟩ := ihr
    refine ⟨ls ++ rs, by simp only [hl, hr]; rfl, ?_, fun h => ?_⟩
    · simp only [total_append, vl, vr, eval_add, mul_add]
    · obtain ⟨h1, h2⟩ := (defined_add I l r).mp h
      intro t ht
      exact (List.mem_append.mp ht).elim (dl h1 t) (dr h2 t)
  | case2 sign l r ihl ihr =>
    obtain ⟨ls, hl, vl, dl⟩ := ihl
    obtain ⟨rs, hr, vr, dr⟩ := ihr
    refine ⟨ls ++ rs, by simp only [hl, hr]; rfl, ?_, fun h => ?_⟩
    · simp only [total_append, vl, vr, eval_sub, Int.cast_neg]
      ring
    · obtain ⟨h1, h2⟩ := (defined_sub I l r).mp h
      intro t ht
      exact (List.mem_append.mp ht).elim (dl h1 t) (dr h2 t)
  | case3 sign e _ _ =>
    obtain ⟨t, ht, hv, hd⟩ := ofExpr_spec I e
    refine ⟨[{ t with coefficient := t.coefficient.scale sign }], by simp only [ht]; rfl, ?_, ?_⟩
    · simp only [total_cons, total_nil, add_zero, eval, Coefficient.value_scale, ← hv]
      push_cast
      ring
    · simpa [Defined] using hd

theorem terms_spec [CharZero K] (e : Expr Rat) : ∃ ts, terms e = .ok ts ∧
    total I ts = e.eval I ∧ (e.Defined I → ∀ t ∈ ts, t.Defined I) := by
  simpa [terms] using ofSum_spec I 1 e

theorem times_eval (v : Rat) (rest : Option (Expr Rat)) [CharZero K] :
    (times v rest).eval I = v * restEval I rest := by
  cases rest with
  | none => simp [times, restEval]
  | some e =>
    by_cases h : v = 1
    · simp [times, restEval, h]
    · simp [times, restEval, h]

theorem times_defined (v : Rat) (rest : Option (Expr Rat)) :
    (times v rest).Defined I ↔ RestDefined I rest := by
  cases rest with
  | none => simp [times, RestDefined]
  | some e =>
    by_cases h : v = 1
    · simp [times, RestDefined, h]
    · simp [times, RestDefined, h]

section Writing

def written (t : Term Rat) : Expr Rat :=
  match t.coefficient with
  | .inexact v => times v t.rest
  | .exact q =>
    if q.den = 1 then times q.num t.rest else .op .div (times q.num t.rest) (num q.den)

theorem toExpr_rat (t : Term Rat) : toExpr t = .ok (written t) := by
  obtain ⟨c, rest⟩ := t
  cases c with
  | inexact v => rfl
  | exact q =>
    by_cases hd : q.den = 1
    · simp only [toExpr, written, Coefficient.round_rat, hd]
      rfl
    · simp only [toExpr, written, Coefficient.round_rat, hd]
      rfl

def joined (s : Expr Rat) (t : Term Rat) : Expr Rat :=
  if t.coefficient.isNegative then .op .sub s (written { t with coefficient := t.coefficient.neg })
  else .op .add s (written t)

theorem addTo_rat (s : Expr Rat) (t : Term Rat) : addTo s t = .ok (joined s t) := by
  unfold addTo joined
  split_ifs
  · rw [toExpr_rat]
    rfl
  · rw [toExpr_rat]
    rfl

theorem foldlM_addTo_rat (ts : List (Term Rat)) (s : Expr Rat) :
    ts.foldlM addTo s = .ok (ts.foldl joined s) := by
  induction ts generalizing s with
  | nil => rfl
  | cons t ts ih => rw [List.foldlM_cons, addTo_rat, ok_bind, ih, List.foldl_cons]

def writtenSum (ts : List (Term Rat)) : Expr Rat :=
  match ts.filter (!·.coefficient.isZero) with
  | [] => ofNat 0
  | t :: ts => ts.foldl joined (written t)

theorem sum_rat (ts : List (Term Rat)) : Term.sum ts = .ok (writtenSum ts) := by
  unfold Term.sum writtenSum
  cases ts.filter (!·.coefficient.isZero) with
  | nil => rfl
  | cons t ts => simp only [toExpr_rat, ok_bind, foldlM_addTo_rat]

end Writing

section Sums

theorem written_eval [CharZero K] (t : Term Rat) : (written t).eval I = t.eval I := by
  obtain ⟨c, rest⟩ := t
  cases c with
  | inexact v => exact times_eval I v rest
  | exact q =>
    simp only [written, eval, Coefficient.value_exact]
    split_ifs with hd
    · rw [times_eval, (Rat.den_eq_one_iff q).mp hd]
    · rw [eval_div, times_eval, eval_num, mul_div_right_comm]
      congr 1
      rw [← Rat.cast_div, Rat.num_div_den]

theorem written_defined [CharZero K] {t : Term Rat} (h : t.Defined I) : (written t).Defined I := by
  obtain ⟨c, rest⟩ := t
  cases c with
  | inexact v => exact (times_defined I v rest).mpr h
  | exact q =>
    simp only [written]
    split_ifs
    · exact (times_defined I _ rest).mpr h
    · rw [defined_div, times_defined]
      refine ⟨⟨h, defined_num I _⟩, ?_⟩
      rw [eval_num, Rat.cast_natCast]
      exact Nat.cast_ne_zero.mpr q.den_nz

theorem joined_eval [CharZero K] (s : Expr Rat) (t : Term Rat) :
    (joined s t).eval I = s.eval I + t.eval I := by
  unfold joined
  split_ifs
  · simp only [eval_sub, written_eval, eval, Coefficient.value_neg]
    push_cast
    ring
  · rw [eval_add, written_eval]

theorem joined_defined [CharZero K] {s : Expr Rat} {t : Term Rat} (hs : s.Defined I)
    (ht : t.Defined I) : (joined s t).Defined I := by
  unfold joined
  split_ifs
  · exact (defined_sub I _ _).mpr ⟨hs, written_defined I ht⟩
  · exact (defined_add I _ _).mpr ⟨hs, written_defined I ht⟩

theorem foldl_joined_eval [CharZero K] (ts : List (Term Rat)) (s : Expr Rat) :
    (ts.foldl joined s).eval I = s.eval I + total I ts := by
  induction ts generalizing s with
  | nil => simp
  | cons t ts ih => rw [List.foldl_cons, ih, joined_eval, total_cons, add_assoc]

theorem foldl_joined_defined [CharZero K] {ts : List (Term Rat)} {s : Expr Rat}
    (hs : s.Defined I) (hts : ∀ t ∈ ts, t.Defined I) : (ts.foldl joined s).Defined I := by
  induction ts generalizing s with
  | nil => exact hs
  | cons t ts ih =>
    obtain ⟨ht, hts⟩ := List.forall_mem_cons.mp hts
    exact ih (joined_defined I hs ht) hts

theorem total_filter_nonzero (ts : List (Term Rat)) :
    total I (ts.filter (!·.coefficient.isZero)) = total I ts := by
  induction ts with
  | nil => rfl
  | cons t ts ih =>
    by_cases hz : t.coefficient.isZero = true
    · simp [hz, ih, eval, Coefficient.isZero_iff.mp hz]
    · simp [hz, ih]

theorem writtenSum_eval [CharZero K] (ts : List (Term Rat)) :
    (writtenSum ts).eval I = total I ts := by
  rw [← total_filter_nonzero]
  unfold writtenSum
  cases ts.filter (!·.coefficient.isZero) with
  | nil => simp
  | cons u us => simp only [foldl_joined_eval, written_eval, total_cons]

theorem writtenSum_defined [CharZero K] {ts : List (Term Rat)} (h : ∀ t ∈ ts, t.Defined I) :
    (writtenSum ts).Defined I := by
  have hmem : ∀ t ∈ ts.filter (!·.coefficient.isZero), t.Defined I :=
    fun t ht => h t (List.mem_of_mem_filter ht)
  unfold writtenSum
  cases hus : ts.filter (!·.coefficient.isZero) with
  | nil => exact defined_ofNat I 0
  | cons u us =>
    rw [hus] at hmem
    obtain ⟨hu, hus⟩ := List.forall_mem_cons.mp hmem
    exact foldl_joined_defined I (written_defined I hu) hus

theorem sum_spec [CharZero K] (ts : List (Term Rat)) : ∃ e, sum ts = .ok e ∧
    e.eval I = total I ts ∧ ((∀ t ∈ ts, t.Defined I) → e.Defined I) :=
  ⟨_, sum_rat ts, writtenSum_eval I ts, writtenSum_defined I⟩

end Sums

end RuleAlgebra.Term
