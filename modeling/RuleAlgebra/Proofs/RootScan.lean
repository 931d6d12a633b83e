import RuleAlgebra.Equation.Solver
import RuleAlgebra.Proofs.BinaryOrder
import RuleAlgebra.Proofs.ExactScalars
import RuleAlgebra.Rules.Standard

/-!
What a search between sample points finds. The numbers found lie in the interval, each further from
the one before it than the tolerance, as long as the sample points ascend within the interval. Each
is a root up to the tolerance, or a point without a value that the bracketing method answered with:
no value is not taken for a pole.
-/

namespace RuleAlgebra

open Scalar

variable {α : Type} [Scalar α]

/-- The method answers with points of the bracket, where there is a change of sign. -/
def NumericMethods.Brackets (methods : NumericMethods α) : Prop :=
  ∀ (f : α → Option α) (a b x ya yb : α), le a b = true → f a = some ya → f b = some yb →
    lt (ya * yb) zero = true → methods.bracketed f a b = .ok x → le a x = true ∧ le x b = true

namespace Solver

/-- What the search compares numbers by. -/
structure Ordered (α : Type) [Scalar α] : Prop where
  trans {a b c : α} : le a b = true → le b c = true → le a c = true
  zero {v : α} : (v == zero) = true → lt residualTolerance (abs v) = false
  apart {a b : α} : le a b = true → lt Roots.snapTolerance (abs (b - a)) = true → lt a b = true

/-- Numbers that are kept apart: the first is the smaller one by more than the tolerance. -/
def Apart (a b : α) : Prop :=
  lt a b = true ∧ lt Roots.snapTolerance (abs (b - a)) = true

structure AscendsWithin (low high : α) (ps : List α) : Prop where
  chain : ps.IsChain fun a b => le a b = true
  within : ∀ p ∈ ps, le low p = true ∧ le p high = true

/-- A number of the interval that is a root up to the tolerance, or that has no value and is what
the bracketing method answered for a change of sign. -/
structure IsFound (methods : NumericMethods α) (f : α → Option α) (low high x : α) : Prop where
  low : le low x = true
  high : le x high = true
  root : (∃ y, f x = some y ∧ lt residualTolerance (abs y) = false) ∨
    (f x = none ∧ ∃ a b ya yb, f a = some ya ∧ f b = some yb ∧ lt (ya * yb) zero = true ∧
      methods.bracketed f a b = .ok x)

/-- What holds of the numbers found when the search has come to the point `a`. -/
structure Progress (methods : NumericMethods α) (f : α → Option α) (low high : α)
    (found : List α) (a : α) : Prop where
  each : ∀ x ∈ found, IsFound methods f low high x
  apart : found.IsChain Apart
  last : ∀ x ∈ found.getLast?, le x a = true

section Steps

variable {methods : NumericMethods α} {f : α → Option α} {low high a b x : α} {found : List α}

theorem progress_start : Progress methods f low high [] a where
  each := by simp
  apart := by simp
  last := by simp

theorem Progress.advance (hα : Ordered α) (h : Progress methods f low high found a)
    (hab : le a b = true) : Progress methods f low high found b where
  each := h.each
  apart := h.apart
  last x hx := hα.trans (h.last x hx) hab

theorem Progress.addRoot (hα : Ordered α) (h : Progress methods f low high found a)
    (hx : IsFound methods f low high x) (hle : ∀ u : α, le u a = true → le u x = true)
    (hxb : le x b = true) : Progress methods f low high (addRoot found x) b := by
  unfold Solver.addRoot
  split
  · exact ⟨by simpa using hx, by simp, by simpa using hxb⟩
  · rename_i last hlast
    have hlastx := hle last (h.last last hlast)
    split_ifs with hgap
    · refine ⟨?_, ?_, by simpa using hxb⟩
      · intro y hy
        rcases List.mem_append.mp hy with hy | hy
        · exact h.each y hy
        · rwa [List.mem_singleton.mp hy]
      · refine List.isChain_append.mpr ⟨h.apart, by simp, ?_⟩
        intro u hu v hv
        obtain rfl : last = u := Option.some.inj (hlast.symm.trans hu)
        obtain rfl : x = v := by simpa using hv
        exact ⟨hα.apart hlastx hgap, hgap⟩
    · refine ⟨h.each, h.apart, fun u hu => ?_⟩
      obtain rfl : last = u := Option.some.inj (hlast.symm.trans hu)
      exact hα.trans hlastx hxb

theorem rootBetween_spec {va vb : Option α}
    (h : rootBetween methods f (a, va) (b, vb) = .ok (some x)) :
    (x = a ∧ va.isSome) ∨ ∃ ya yb, va = some ya ∧ vb = some yb ∧ lt (ya * yb) zero = true ∧
      methods.bracketed f a b = .ok x := by
  have hfinite {v : Option α} {y : α} (hv : v.bind finite? = some y) : v = some y := by
    obtain ⟨u, rfl, hu⟩ := Option.bind_eq_some_iff.mp hv
    rw [← hu, finite?, (Option.ite_none_right_eq_some.mp hu).1, if_pos rfl]
  unfold rootBetween at h
  dsimp only at h
  split at h
  · rename_i ya yb hya hyb
    split_ifs at h with hzero hsign
    · obtain rfl := Option.some.inj (Except.ok.inj h)
      exact Or.inl ⟨rfl, by rw [hfinite hya]; rfl⟩
    · obtain ⟨u, hu, hx⟩ := bind_eq_ok.mp h
      obtain rfl := Option.some.inj (Except.ok.inj hx)
      exact Or.inr ⟨ya, yb, hfinite hya, hfinite hyb, hsign, hu⟩
    · cases h
  · cases h

theorem IsFound.ofRoot (hα : Ordered α) (hmethods : methods.Brackets)
    (ha : le low a = true) (hb : le b high = true) (hab : le a b = true)
    (h : rootBetween methods f (a, f a) (b, f b) = .ok (some x)) (hx : isResidual (f x) = true) :
    IsFound methods f low high x ∧ (∀ u : α, le u a = true → le u x = true) ∧ le x b = true := by
  rcases rootBetween_spec h with ⟨rfl, hsome⟩ | ⟨ya, yb, hya, hyb, hsign, hfound⟩
  · obtain ⟨y, hy⟩ := Option.isSome_iff_exists.mp hsome
    rw [hy, isResidual, Bool.not_eq_true'] at hx
    exact ⟨⟨ha, hα.trans hab hb, Or.inl ⟨y, hy, hx⟩⟩, fun _ => id, hab⟩
  · obtain ⟨hax, hxb⟩ := hmethods f a b x ya yb hab hya hyb hsign hfound
    refine ⟨⟨hα.trans ha hax, hα.trans hxb hb, ?_⟩, fun u hu => hα.trans hu hax, hxb⟩
    cases hy : f x with
    | none => exact Or.inr ⟨rfl, a, b, ya, yb, hya, hyb, hsign, hfound⟩
    | some y =>
      rw [hy, isResidual, Bool.not_eq_true'] at hx
      exact Or.inl ⟨y, rfl, hx⟩

end Steps

section Runs

variable {methods : NumericMethods α} {f : α → Option α} {low high : α}

/-- By induction on the sample points that are left. -/
theorem scanSamples_progress (hα : Ordered α) (hmethods : methods.Brackets) {ps : List α} {p : α}
    {found roots : List α} (hps : AscendsWithin low high (p :: ps))
    (hfound : Progress methods f low high found p)
    (h : scanSamples methods f found ((p :: ps).map fun v => (v, f v)) = .ok roots) :
    ∃ q, Progress methods f low high roots q := by
  obtain ⟨hlow, hhigh⟩ := hps.within p (by simp)
  induction ps generalizing p found with
  | nil =>
    simp only [List.map_cons, List.map_nil, scanSamples] at h
    split at h
    · rename_i v hv
      obtain rfl := Except.ok.inj h
      split_ifs with hzero
      · exact ⟨high, hfound.addRoot hα ⟨hlow, hhigh, Or.inl ⟨v, hv, hα.zero hzero⟩⟩
          (fun _ => id) hhigh⟩
      · exact ⟨p, hfound⟩
    · obtain rfl := Except.ok.inj h
      exact ⟨p, hfound⟩
  | cons q ps ih =>
    obtain ⟨hpq, hchain⟩ := List.isChain_cons_cons.mp hps.chain
    have hqs : AscendsWithin low high (q :: ps) :=
      ⟨hchain, fun v hv => hps.within v (List.mem_cons_of_mem p hv)⟩
    obtain ⟨hqlow, hqhigh⟩ := hqs.within q (by simp)
    simp only [List.map_cons, scanSamples] at h
    obtain ⟨root, hroot, h⟩ := bind_eq_ok.mp h
    cases root with
    | none => exact ih hqs (hfound.advance hα hpq) h hqlow hqhigh
    | some x =>
      dsimp only at h
      split_ifs at h with hx
      · obtain ⟨hisFound, hle, hxq⟩ := IsFound.ofRoot hα hmethods hlow hqhigh hpq hroot hx
        exact ih hqs (hfound.addRoot hα hisFound hle hxq) h hqlow hqhigh
      · exact ih hqs (hfound.advance hα hpq) h hqlow hqhigh

end Runs

section Laws

theorem ofDecimal_rat_nonneg (digits : Nat) (exponent : Int) :
    (0 : Rat) ≤ Scalar.ofDecimal digits exponent := by
  rw [ofDecimal_rat]
  positivity

theorem ordered_rat : Ordered Rat where
  trans := by
    intro a b c hab hbc
    simp only [le_rat, decide_eq_true_eq] at *
    exact hab.trans hbc
  zero := by
    intro v hv
    obtain rfl : v = 0 := by simpa using hv
    rw [abs_rat, abs_zero, lt_rat, decide_eq_false_iff_not, not_lt]
    exact ofDecimal_rat_nonneg 1 (-6)
  apart := by
    intro a b hab hgap
    simp only [le_rat, lt_rat, decide_eq_true_eq, abs_rat] at *
    have hpos : 0 < |b - a| := lt_of_le_of_lt (ofDecimal_rat_nonneg 1 (-9)) hgap
    exact lt_of_le_of_ne hab fun heq => by simp [heq] at hpos

-- exact arithmetic is computed, so the operations on fractions have to unfold
attribute [local semireducible] Rat.mul Rat.inv

theorem ordered_float : Ordered Float where
  trans hab hbc :=
    decide_eq_true (Binary64.float_le_trans (of_decide_eq_true hab) (of_decide_eq_true hbc))
  zero := by
    intro v hv
    have hnought : Binary64.IsNought v.toModel.unpack :=
      Or.inr ((Binary64.beq_zero_iff_unpack v).mp hv)
    have hpos : (0 : Float) < residualTolerance := by decide
    exact decide_eq_false (hnought.abs.not_above hpos)
  apart := by
    intro a b hle hgap
    apply decide_eq_true
    by_contra hlt
    have hnought := Binary64.sub_isNought (of_decide_eq_true hle) hlt
    have hpos : (0 : Float) < Roots.snapTolerance := by decide
    exact hnought.abs.not_above hpos (of_decide_eq_true hgap)

end Laws

section Samples

variable {low high : Rat} (h : low < high)
include h

theorem samplePoints_rat {n : Nat} (hn : 0 < n) (hpoints : scanPoints = n + 1) :
    samplePoints low high =
      (List.range (n + 1)).map fun i : Nat => low + (high - low) * ((i : Rat) / n) := by
  have hn : (n : Rat) ≠ 0 := by exact_mod_cast hn.ne'
  have hstep : (high - low) / n ≠ 0 := div_ne_zero (sub_pos.mpr h).ne' hn
  simp only [samplePoints, hpoints, Nat.add_sub_cancel, ofNat_rat, beq_rat, zero_rat, hstep,
    decide_false, Bool.false_eq_true, if_false]
  refine List.map_congr_left fun i _ => ?_
  split_ifs with hi
  · rw [hi, div_self hn]
    ring
  · ring

/-- Without rounding the sample points of every interval ascend within it. -/
theorem samplePoints_ascend : AscendsWithin low high (samplePoints low high) := by
  obtain ⟨n, hpos, hpoints⟩ : ∃ n, 0 < n ∧ scanPoints = n + 1 := ⟨4000, by decide, rfl⟩
  have hn : (0 : Rat) < n := by exact_mod_cast hpos
  have hwidth : 0 < high - low := sub_pos.mpr h
  rw [samplePoints_rat h hpos hpoints]
  clear hpoints
  constructor
  · rw [List.isChain_map, List.isChain_range_succ]
    intro i _
    rw [le_rat, decide_eq_true_eq]
    gcongr
    exact i.le_succ
  · intro p hp
    obtain ⟨i, hi, rfl⟩ := List.mem_map.mp hp
    have hshare : (i : Rat) / n ≤ 1 := by
      rw [div_le_one hn]
      exact_mod_cast Nat.lt_succ_iff.mp (List.mem_range.mp hi)
    have hshare' : 0 ≤ (i : Rat) / n := by positivity
    rw [le_rat, le_rat, decide_eq_true_eq, decide_eq_true_eq]
    constructor <;> nlinarith

end Samples

/-- Where the sample points ascend within the interval, all that is found lies in it, each number
further from the one before it than the tolerance. The expression evaluates there to a value that
counts as zero, or not at all where the bracketing method has answered with such a point. -/
theorem scan_roots (hα : Ordered α) {s : Solver α} (hmethods : s.methods.Brackets)
    (hsamples : AscendsWithin s.low s.high (samplePoints s.low s.high)) {e : Expr α} {x : String}
    {roots : List α} (h : s.scan e x = .ok roots) :
    (∀ r ∈ roots, IsFound s.methods (e.at? x) s.low s.high r) ∧ roots.IsChain Apart := by
  unfold scan at h
  generalize samplePoints s.low s.high = ps at hsamples h
  cases ps with
  | nil =>
    obtain rfl := Except.ok.inj h
    exact ⟨by simp, by simp⟩
  | cons p ps =>
    obtain ⟨q, hroots⟩ := scanSamples_progress hα hmethods hsamples progress_start h
    exact ⟨hroots.each, hroots.apart⟩

section Halving

/-- A solver that halves brackets; its sample points are halves of odd numbers. -/
def halvingSolver : Solver Rat :=
  ⟨⟨.standard, 50⟩, ⟨id, fun u _ => u, fun _ => [], fun _ a b => .ok ((a + b) / 2)⟩, true,
    -1 / 2, (scanPoints - 1 : Nat) - 1 / 2, 1 / 10 ^ 9⟩

theorem halvingSolver_brackets : halvingSolver.methods.Brackets := by
  rintro f a b _ ya yb hab - - - ⟨⟩
  simp only [le_rat, decide_eq_true_eq] at hab ⊢
  constructor <;> linarith

theorem halvingSolver_low : halvingSolver.low < halvingSolver.high := by
  obtain ⟨n, hn, hpoints⟩ : ∃ n, 0 < n ∧ scanPoints - 1 = n := ⟨4000, by decide, rfl⟩
  have hn : (0 : Rat) < n := by exact_mod_cast hn
  simp only [halvingSolver, hpoints]
  linarith

theorem halvingSolver_samples : ∃ ps : List Rat, (∀ p ∈ ps, 0 < p) ∧
    samplePoints halvingSolver.low halvingSolver.high = -1 / 2 :: 1 / 2 :: ps := by
  obtain ⟨m, hpoints⟩ : ∃ m, scanPoints = m + 1 + 1 := ⟨3999, rfl⟩
  have hm : ((m + 1 : Nat) : Rat) ≠ 0 := by exact_mod_cast m.succ_ne_zero
  have hpoint (i : Nat) : halvingSolver.low + (halvingSolver.high - halvingSolver.low) *
      ((i : Rat) / (m + 1 : Nat)) = i - 1 / 2 := by
    simp only [halvingSolver, hpoints, Nat.add_sub_cancel]
    field_simp
    ring
  refine ⟨(List.range m).map fun i : Nat => ((i + 1 + 1 : Nat) : Rat) - 1 / 2, ?_, ?_⟩
  · intro p hp
    obtain ⟨i, -, rfl⟩ := List.mem_map.mp hp
    push_cast
    linarith [(Nat.cast_nonneg i : (0 : Rat) ≤ i)]
  · rw [samplePoints_rat halvingSolver_low m.succ_pos hpoints, List.range_succ_eq_map,
      List.range_succ_eq_map]
    simp only [hpoint, List.map_cons, List.map_map, Function.comp_def]
    norm_num

theorem scanSamples_positive {methods : NumericMethods Rat} {f : Rat → Option Rat}
    {found ps : List Rat} (h : ∀ p ∈ ps, ∃ y, 0 < y ∧ f p = some y) :
    scanSamples methods f found (ps.map fun v => (v, f v)) = .ok found := by
  induction ps with
  | nil => rfl
  | cons p ps ih =>
    obtain ⟨⟨y, hy, hp⟩, hps⟩ := List.forall_mem_cons.mp h
    cases ps with
    | nil => simp [scanSamples, hp, hy.ne', pure, Except.pure]
    | cons q ps =>
      obtain ⟨z, hz, hq⟩ := hps q (by simp)
      have hroot : rootBetween methods f (p, f p) (q, f q) = .ok none := by
        simp [rootBetween, hp, hq, hy.ne', (mul_pos hy hz).le, pure, Except.pure]
      simp only [List.map_cons, scanSamples, hroot, ok_bind]
      exact ih hps

theorem halvingSolver_scan {e : Expr Rat} (hneg : ∃ y, y < 0 ∧ e.at? "x" (-1 / 2) = some y)
    (hpos : ∀ v : Rat, 0 < v → ∃ y, 0 < y ∧ e.at? "x" v = some y)
    (hzero : isResidual (e.at? "x" 0) = true) : halvingSolver.scan e "x" = .ok [0] := by
  obtain ⟨ps, hps, hsamples⟩ := halvingSolver_samples
  obtain ⟨y, hy, hyv⟩ := hneg
  obtain ⟨z, hz, hzv⟩ := hpos (1 / 2) (by norm_num)
  have hroot : rootBetween halvingSolver.methods (e.at? "x") (-1 / 2, e.at? "x" (-1 / 2))
      (1 / 2, e.at? "x" (1 / 2)) = .ok (some 0) := by
    have hsign : y * z < 0 := mul_neg_of_neg_of_pos hy hz
    simp only [rootBetween, hyv, hzv, Option.bind_some, finite?_rat, beq_rat, zero_rat, hy.ne,
      lt_rat, hsign]
    norm_num [halvingSolver]
  have hall : ∀ p ∈ 1 / 2 :: ps, ∃ y, 0 < y ∧ e.at? "x" p = some y := by
    intro p hp
    rcases List.mem_cons.mp hp with rfl | hp
    · exact ⟨z, hz, hzv⟩
    · exact hpos p (hps p hp)
  unfold scan
  dsimp only
  rw [hsamples, List.map_cons, List.map_cons, scanSamples, hroot, ok_bind]
  dsimp only
  rw [if_pos hzero]
  exact scanSamples_positive hall

theorem at?_variable (v : Rat) : (Expr.var "x" : Expr Rat).at? "x" v = some v := rfl

theorem scan_roots_of_variable :
    AscendsWithin halvingSolver.low halvingSolver.high
        (samplePoints halvingSolver.low halvingSolver.high) ∧
      halvingSolver.scan (.var "x") "x" = .ok [0] ∧
      (∀ r ∈ [(0 : Rat)], IsFound halvingSolver.methods ((Expr.var "x").at? "x")
        halvingSolver.low halvingSolver.high r) ∧ [(0 : Rat)].IsChain Apart := by
  have hsamples := samplePoints_ascend halvingSolver_low
  have hscan : halvingSolver.scan (.var "x") "x" = .ok [0] := by
    refine halvingSolver_scan ⟨-1 / 2, by norm_num, rfl⟩ (fun v hv => ⟨v, hv, rfl⟩) ?_
    rw [at?_variable]
    decide +kernel
  exact ⟨hsamples, hscan, scan_roots ordered_rat halvingSolver_brackets hsamples hscan⟩

/-- The function `1/x`. -/
def reciprocal : Expr Rat := .op .div (.ofNat 1) (.var "x")

theorem at?_reciprocal (v : Rat) :
    reciprocal.at? "x" v = if v = 0 then none else some (1 / v) := by
  have hx : (Expr.var "x" : Expr Rat).evaluate (.single "x" v) = .ok v := rfl
  have hone : (Expr.ofNat 1 : Expr Rat).evaluate (.single "x" v) = .ok 1 := by
    rw [Expr.ofNat, ofNat_rat, Nat.cast_one]
    rfl
  rw [Expr.at?, Expr.value?, reciprocal, Expr.evaluate, hone, ok_bind, hx, ok_bind,
    Expr.operationValue, Arithmetic.value?, beq_rat, zero_rat, finite?_rat]
  by_cases hv : v = 0 <;> simp only [hv, decide_true, decide_false, if_true] <;> rfl

/-- A point without a value is reported as a root, if the bracketing method answers with it. -/
theorem scan_reports_pole :
    ¬∀ (s : Solver Rat) (e : Expr Rat) (x : String) (roots : List Rat), s.low < s.high →
      s.methods.Brackets → s.scan e x = .ok roots →
        ∀ r ∈ roots, ∃ y, e.at? x r = some y ∧ |y| ≤ 1 / 10 ^ 6 := by
  intro hall
  have hscan : halvingSolver.scan reciprocal "x" = .ok [0] := by
    refine halvingSolver_scan ⟨-2, by norm_num, ?_⟩ (fun v hv => ⟨1 / v, by positivity, ?_⟩) ?_
    · rw [at?_reciprocal]
      norm_num
    · rw [at?_reciprocal, if_neg hv.ne']
    · rw [at?_reciprocal, if_pos rfl]
      rfl
  obtain ⟨y, hy, -⟩ := hall halvingSolver reciprocal "x" [0] halvingSolver_low
    halvingSolver_brackets hscan 0 (by simp)
  rw [at?_reciprocal, if_pos rfl] at hy
  cases hy

end Halving

end Solver

end RuleAlgebra
