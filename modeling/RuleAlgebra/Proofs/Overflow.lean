import RuleAlgebra.Polynomial.Roots
import RuleAlgebra.Proofs.BinaryRange
import RuleAlgebra.Proofs.TermValues

/-!
Computations that fail by overflow, and exactly when they do. Fractions that are written as scalars
have to lie in the range of scalars; reading the terms of a sum stays in the range, and writing a
sum fails exactly when one of its coefficients does not fit.
-/

namespace RuleAlgebra

section Outcomes

variable {β γ : Type} {P Q : Prop} {r : Except Failure β}

/-- The computation overflows when `P` holds, and has a result otherwise. -/
def OverflowsIff (r : Except Failure β) (P : Prop) : Prop :=
  (P → r = .error .overflow) ∧ (¬P → ∃ b, r = .ok b)

theorem overflowsIff_ok (b : β) : OverflowsIff (.ok b) False := ⟨False.elim, fun _ => ⟨b, rfl⟩⟩

theorem OverflowsIff.congr (h : OverflowsIff r P) (hPQ : P ↔ Q) : OverflowsIff r Q := by
  rwa [← propext hPQ]

theorem OverflowsIff.result_iff (h : OverflowsIff r P) : (∃ b, r = .ok b) ↔ ¬P := by
  constructor
  · rintro ⟨b, hb⟩ hP
    cases hb.symm.trans (h.1 hP)
  · exact h.2

theorem OverflowsIff.error (h : OverflowsIff r P) {f : Failure} (hf : r = .error f) :
    f = .overflow ∧ P := by
  by_cases hP : P
  · exact ⟨Except.error.inj (hf.symm.trans (h.1 hP)), hP⟩
  · obtain ⟨b, hb⟩ := h.2 hP
    cases hf.symm.trans hb

theorem OverflowsIff.ofResult (h : ∃ b, r = .ok b) : OverflowsIff r False :=
  ⟨False.elim, fun _ => h⟩

theorem OverflowsIff.bind {k : β → Except Failure γ} {R : β → Prop} (h : OverflowsIff r P)
    (hk : ∀ b, r = .ok b → OverflowsIff (k b) (R b)) :
    OverflowsIff (r >>= k) (P ∨ ∃ b, r = .ok b ∧ R b) := by
  by_cases hP : P
  · refine ⟨fun _ => ?_, fun hn => absurd (Or.inl hP) hn⟩
    rw [h.1 hP]
    rfl
  · obtain ⟨b, rfl⟩ := h.2 hP
    apply (hk b rfl).congr
    constructor
    · exact fun hR => Or.inr ⟨b, rfl, hR⟩
    · rintro (hP' | ⟨c, hc, hR⟩)
      · exact absurd hP' hP
      · rwa [Except.ok.inj hc]

theorem OverflowsIff.map {f : β → γ} (h : OverflowsIff r P) :
    OverflowsIff (do let b ← r; pure (f b)) P := by
  apply (h.bind fun b _ => overflowsIff_ok (f b)).congr
  simp

theorem OverflowsIff.after (h : OverflowsIff r P) : (P ∨ Q) ↔ P ∨ ∃ b, r = .ok b ∧ Q := by
  by_cases hP : P
  · exact iff_of_true (Or.inl hP) (Or.inl hP)
  · obtain ⟨b, hb⟩ := h.2 hP
    simp [hP, hb]

theorem overflowsIff_mapM {f : β → Except Failure γ} {R : β → Prop} {bs : List β}
    (h : ∀ b ∈ bs, OverflowsIff (f b) (R b)) : OverflowsIff (bs.mapM f) (∃ b ∈ bs, R b) := by
  induction bs with
  | nil => exact (overflowsIff_ok []).congr (by simp)
  | cons b bs ih =>
    obtain ⟨hb, hbs⟩ := List.forall_mem_cons.mp h
    rw [List.mapM_cons]
    apply (hb.bind fun c _ => (ih hbs).map).congr
    rw [← hb.after]
    simp

theorem overflowsIff_foldlM_of_each {f : β → γ → Except Failure β} {R : γ → Prop} {cs : List γ}
    (h : ∀ b c, OverflowsIff (f b c) (R c)) (b : β) :
    OverflowsIff (cs.foldlM f b) (∃ c ∈ cs, R c) := by
  induction cs generalizing b with
  | nil => exact (overflowsIff_ok b).congr (by simp)
  | cons c cs ih =>
    rw [List.foldlM_cons]
    apply ((h b c).bind fun d _ => ih d).congr
    rw [← (h b c).after]
    simp

theorem overflowsIff_foldlM {f : β → γ → Except Failure β} {R : β → γ → Prop}
    (h : ∀ b c, OverflowsIff (f b c) (R b c)) (cs : List γ) (b : β) :
    OverflowsIff (cs.foldlM f b)
      (∃ before c after d, cs = before ++ c :: after ∧ before.foldlM f b = .ok d ∧ R d c) := by
  induction cs generalizing b with
  | nil => exact (overflowsIff_ok b).congr (by simp)
  | cons c cs ih =>
    rw [List.foldlM_cons]
    apply ((h b c).bind fun d _ => ih d).congr
    constructor
    · rintro (hR | ⟨d, hd, before, e, after, u, rfl, hu, hR⟩)
      · exact ⟨[], c, cs, b, rfl, rfl, hR⟩
      · exact ⟨c :: before, e, after, u, rfl, by rw [List.foldlM_cons, hd]; exact hu, hR⟩
    · rintro ⟨before, e, after, u, heq, hu, hR⟩
      cases before with
      | nil =>
        obtain ⟨rfl, rfl⟩ := List.cons.inj heq
        obtain rfl := Except.ok.inj hu
        exact Or.inl hR
      | cons c' before =>
        obtain ⟨rfl, rfl⟩ := List.cons.inj heq
        rw [List.foldlM_cons, bind_eq_ok] at hu
        obtain ⟨d, hd, hu⟩ := hu
        exact Or.inr ⟨d, hd, before, e, after, u, rfl, hu, hR⟩

end Outcomes

namespace Scalar

variable (α : Type) [Scalar α]

/-- There is a scalar nearest to the fraction. -/
def InRange (q : Rat) : Prop := (Scalar.ofRat? q : Option α).isSome

/-- The range of scalars has no gaps and holds the values of all scalars, and the numbers that are
searched for roots. -/
structure Ranged : Prop where
  smaller {p q : Rat} : |p| ≤ |q| → InRange α q → InRange α p
  value {v : α} {q : Rat} : toRat? v = some q → InRange α q
  searched : InRange α Roots.maxSearch

theorem inRange_float {q : Rat} : InRange Float q ↔ |q| < Binary64.rangeEnd :=
  Binary64.ofRat?_isSome_iff q

theorem ranged_float : Ranged Float where
  smaller hpq hq := inRange_float.mpr (hpq.trans_lt (inRange_float.mp hq))
  value h := inRange_float.mpr (Binary64.toRat?_lt h)
  searched := by
    have hlt := Binary64.power_lt_rangeEnd (e := 20) (by omega)
    rw [inRange_float]
    norm_num [Roots.maxSearch] at hlt ⊢
    linarith

theorem ranged_rat : Ranged Rat where
  smaller _ _ := rfl
  value _ := rfl
  searched := rfl

variable {α} (hα : Ranged α)
include hα

theorem Ranged.natural {n : Nat} (h : n ≤ Roots.maxSearch) : InRange α n := by
  apply hα.smaller _ hα.searched
  rw [Nat.abs_cast, Nat.abs_cast]
  exact_mod_cast h

theorem Ranged.integer {v : α} {n : Int} (h : toInt? v = some n) : InRange α n := by
  obtain ⟨q, hq, hn⟩ := Option.bind_eq_some_iff.mp h
  split_ifs at hn with hden
  obtain rfl := Option.some.inj hn
  rw [Rat.coe_int_num_of_den_eq_one hden]
  exact hα.value hq

end Scalar

namespace Coefficient

open Scalar

variable {α : Type} [Scalar α]

theorem round_overflows (q : Rat) :
    OverflowsIff (round q : Except Failure α) (¬InRange α q) := by
  unfold round InRange
  cases (Scalar.ofRat? q : Option α) with
  | none => exact ⟨fun _ => rfl, fun h => absurd (by simp) h⟩
  | some v => exact ⟨fun h => absurd (by simp) h, fun _ => ⟨v, rfl⟩⟩

theorem ofRat?_overflows (q : Rat) :
    OverflowsIff (Expr.ofRat? q : Except Failure (Expr α)) (¬InRange α q) := by
  unfold Expr.ofRat? InRange
  cases (Scalar.ofRat? q : Option α) with
  | none => exact ⟨fun _ => rfl, fun h => absurd (by simp) h⟩
  | some v => exact ⟨fun h => absurd (by simp) h, fun _ => ⟨_, rfl⟩⟩

/-- A fraction is in the range. -/
def Fits : Coefficient α → Prop
  | exact q => InRange α q
  | inexact _ => True

/-- Numerator and denominator of a fraction are in the range. -/
def Writable : Coefficient α → Prop
  | exact q => InRange α q.num ∧ InRange α q.den
  | inexact _ => True

/-- A fraction that is not in the range meets a scalar. -/
def Clash : Coefficient α → Coefficient α → Prop
  | exact p, inexact _ => ¬InRange α p
  | inexact _, exact q => ¬InRange α q
  | _, _ => False

theorem add_overflows (a b : Coefficient α) : OverflowsIff (a.add b) (Clash a b) := by
  cases a with
  | exact p =>
    cases b with
    | exact q => exact overflowsIff_ok _
    | inexact v => exact (round_overflows p).map
  | inexact u =>
    cases b with
    | exact q => exact (round_overflows q).map
    | inexact v => exact overflowsIff_ok _

variable (hα : Ranged α)
include hα

theorem neg_writable (c : Coefficient α) : c.neg.Writable ↔ c.Writable := by
  cases c with
  | inexact v => exact Iff.rfl
  | exact q =>
    have habs : |((-q).num : Rat)| = |(q.num : Rat)| := by
      rw [Rat.num_neg_eq_neg_num, Int.cast_neg, abs_neg]
    simp only [neg, Writable, Rat.den_neg_eq_den]
    exact and_congr_left' ⟨hα.smaller habs.ge, hα.smaller habs.le⟩

theorem zero_writable {c : Coefficient α} (h : c.isZero = true) : c.Writable := by
  cases c with
  | inexact v => trivial
  | exact q =>
    obtain rfl : q = 0 := by simpa [isZero] using h
    exact ⟨hα.natural (n := 0) (by simp), hα.natural (n := 1) (by simp [Roots.maxSearch])⟩

theorem ofScalar_fits (v : α) : (ofScalar v).Fits := by
  unfold ofScalar
  split
  · rename_i n hn
    exact hα.integer hn
  · trivial

theorem normal_fits {c : Coefficient α} (h : c.Fits) : c.normal.Fits := by
  cases c with
  | exact q => exact h
  | inexact v => exact ofScalar_fits hα v

theorem scale_fits {c : Coefficient α} (h : c.Fits) {sign : Int} (hsign : sign.natAbs = 1) :
    (c.scale sign).Fits := by
  cases c with
  | inexact v => trivial
  | exact q =>
    apply hα.smaller _ h
    have habs : |(sign : Rat)| = 1 := by
      rw [← Int.cast_abs, Int.abs_eq_natAbs, hsign]
      rfl
    rw [abs_mul, habs, one_mul]

theorem divide_fits {c : Coefficient α} (h : c.Fits) {n : Int} (hn : n ≠ 0) (hn' : InRange α n) :
    ∃ d, c.divide n = .ok d ∧ d.Fits := by
  cases c with
  | exact q =>
    refine ⟨_, rfl, hα.smaller ?_ h⟩
    have hone : (1 : Rat) ≤ |(n : Rat)| := by exact_mod_cast Int.one_le_abs hn
    rw [abs_div]
    exact div_le_self (abs_nonneg q) hone
  | inexact v =>
    obtain ⟨d, hd⟩ := (round_overflows (α := α) n).2 (not_not.mpr hn')
    exact ⟨.inexact (v / d), by rw [divide, hd]; rfl, trivial⟩

omit hα in
theorem toScalar_result {c : Coefficient α} (h : c.Fits) : ∃ v, c.toScalar = .ok v := by
  cases c with
  | exact q => exact (round_overflows q).2 (not_not.mpr h)
  | inexact v => exact ⟨v, rfl⟩

end Coefficient

namespace Term

open Scalar Coefficient

variable {α : Type} [Scalar α] (hα : Ranged α)
include hα

theorem ofExpr_fits (e : Expr α) : ∃ t, ofExpr e = .ok t ∧ t.coefficient.Fits := by
  fun_induction ofExpr e with
  | case1 l r n hn ih =>
    obtain ⟨t, ht, hfits⟩ := ih
    obtain ⟨v, hv, hn0⟩ : ∃ v, toInt? v = some n ∧ n ≠ 0 := by
      cases r with
      | num v =>
        obtain ⟨hv, hn0⟩ := Option.filter_eq_some_iff.mp hn
        exact ⟨v, hv, by simpa using hn0⟩
      | _ => simp [integerDivisor?] at hn
    obtain ⟨c, hc, hfits⟩ := divide_fits hα (normal_fits hα hfits) hn0 (hα.integer hv)
    exact ⟨{ t with coefficient := c }, by simp only [ht, ok_bind, hc]; rfl, hfits⟩
  | case2 l r hn v rest hs => exact ⟨_, rfl, ofScalar_fits hα v⟩
  | case3 e hne v rest hs => exact ⟨_, rfl, ofScalar_fits hα v⟩

theorem ofSum_fits (sign : Int) (e : Expr α) (hsign : sign.natAbs = 1) :
    ∃ ts, ofSum sign e = .ok ts ∧ ∀ t ∈ ts, t.coefficient.Fits := by
  fun_induction ofSum sign e with
  | case1 sign l r ihl ihr =>
    obtain ⟨ls, hl, fl⟩ := ihl hsign
    obtain ⟨rs, hr, fr⟩ := ihr hsign
    exact ⟨ls ++ rs, by simp only [hl, hr]; rfl, List.forall_mem_append.mpr ⟨fl, fr⟩⟩
  | case2 sign l r ihl ihr =>
    obtain ⟨ls, hl, fl⟩ := ihl hsign
    obtain ⟨rs, hr, fr⟩ := ihr (by rwa [Int.natAbs_neg])
    exact ⟨ls ++ rs, by simp only [hl, hr]; rfl, List.forall_mem_append.mpr ⟨fl, fr⟩⟩
  | case3 sign e _ _ =>
    obtain ⟨t, ht, ft⟩ := ofExpr_fits hα e
    refine ⟨[{ t with coefficient := t.coefficient.scale sign }], by simp only [ht]; rfl, ?_⟩
    exact List.forall_mem_singleton.mpr (scale_fits hα ft hsign)

theorem terms_fits (e : Expr α) : ∃ ts, terms e = .ok ts ∧ ∀ t ∈ ts, t.coefficient.Fits :=
  ofSum_fits hα 1 e rfl

theorem toExpr_overflows (t : Term α) : OverflowsIff t.toExpr (¬t.coefficient.Writable) := by
  obtain ⟨c, rest⟩ := t
  cases c with
  | inexact v => exact (overflowsIff_ok _).congr (by simp [Writable])
  | exact q =>
    have hone : InRange α (1 : Nat) := hα.natural (by simp [Roots.maxSearch])
    unfold toExpr
    dsimp only
    by_cases hden : q.den = 1
    · simp only [hden, if_true]
      apply (round_overflows (α := α) q.num).map.congr
      rw [Writable, hden, and_iff_left hone]
    · simp only [hden, if_false]
      apply ((round_overflows (α := α) q.num).bind fun p _ =>
        (round_overflows (α := α) q.den).map).congr
      rw [← (round_overflows q.num).after, ← not_and_or]
      rfl

theorem addTo_overflows (e : Expr α) (t : Term α) :
    OverflowsIff (addTo e t) (¬t.coefficient.Writable) := by
  unfold addTo
  split_ifs
  · apply (toExpr_overflows hα { t with coefficient := t.coefficient.neg }).map.congr
    exact not_congr (neg_writable hα t.coefficient)
  · exact (toExpr_overflows hα t).map

theorem sum_overflows (ts : List (Term α)) :
    OverflowsIff (sum ts) (∃ t ∈ ts, ¬t.coefficient.Writable) := by
  have hfilter : (∃ t ∈ ts, ¬t.coefficient.Writable) ↔
      ∃ t ∈ ts.filter (!·.coefficient.isZero), ¬t.coefficient.Writable := by
    constructor
    · rintro ⟨t, ht, hw⟩
      refine ⟨t, List.mem_filter.mpr ⟨ht, ?_⟩, hw⟩
      by_contra hz
      exact hw (zero_writable hα (by simpa using hz))
    · rintro ⟨t, ht, hw⟩
      exact ⟨t, List.mem_of_mem_filter ht, hw⟩
  apply OverflowsIff.congr _ hfilter.symm
  unfold sum
  cases ts.filter (!·.coefficient.isZero) with
  | nil => exact (overflowsIff_ok _).congr (by simp)
  | cons t ts =>
    dsimp only
    apply ((toExpr_overflows hα t).bind fun e _ =>
      overflowsIff_foldlM_of_each (addTo_overflows hα) e).congr
    rw [← (toExpr_overflows hα t).after]
    simp

end Term

end RuleAlgebra
