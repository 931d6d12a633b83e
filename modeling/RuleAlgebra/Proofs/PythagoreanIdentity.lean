import RuleAlgebra.Proofs.RealInterpretation
import RuleAlgebra.Proofs.InheritingRules

/-!
The Pythagorean identity inside a sum keeps values over the real numbers: the two terms that it
replaces have the value of the one that it puts in their place.
-/

namespace RuleAlgebra.Rules

open RuleAlgebra.Expr
open scoped RealScalar

section Merging

variable {α : Type} {ts : List (Term α)} {i j : Nat} {s t u : Term α}

theorem filter_zipIdx_eq (ts : List (Term α)) {n : Nat}
    (h : ∀ k, n ≤ k → k < n + ts.length → k ≠ i ∧ k ≠ j) :
    ((ts.zipIdx n).filter fun (_, k) => k != i && k != j).map (·.1) = ts := by
  rw [List.filter_eq_self.mpr, List.zipIdx_map_fst]
  rintro ⟨t, k⟩ hk
  obtain ⟨hle, hlt, -⟩ := List.mem_zipIdx hk
  simpa using h k hle hlt

theorem mergeAt_comm (ts : List (Term α)) (i j : Nat) (u : Term α) :
    mergeAt ts i j u = mergeAt ts j i u := by
  simp only [mergeAt, Bool.and_comm, min_comm]

theorem insertIdx_length (as bs : List (Term α)) :
    (as ++ bs).insertIdx as.length u = as ++ u :: bs := by
  induction as with
  | nil => rfl
  | cons a as ih => simp [ih]

theorem mergeAt_append (as bs cs : List (Term α)) :
    mergeAt (as ++ s :: (bs ++ t :: cs)) as.length (as.length + 1 + bs.length) u =
      as ++ u :: (bs ++ cs) := by
  have hsecond : as.length + (bs.length + 1) = as.length + 1 + bs.length := by omega
  simp only [mergeAt, List.zipIdx_append, List.zipIdx_cons, List.filter_append, List.map_append,
    List.filter_cons, bne_self_eq_false, Bool.false_and, Bool.and_false, Bool.false_eq_true,
    if_false, Nat.zero_add]
  rw [filter_zipIdx_eq as fun k _ hk => by omega, filter_zipIdx_eq bs fun k hk hlt => by omega,
    filter_zipIdx_eq cs fun k hk _ => by omega, Nat.min_eq_left (by omega), insertIdx_length]

theorem exists_append (hs : ts[i]? = some s) (ht : ts[j]? = some t) (hij : i < j) :
    ∃ as bs cs, ts = as ++ s :: (bs ++ t :: cs) ∧ i = as.length ∧
      j = as.length + 1 + bs.length := by
  obtain ⟨hi, rfl⟩ := List.getElem?_eq_some_iff.mp hs
  obtain ⟨hj, rfl⟩ := List.getElem?_eq_some_iff.mp ht
  refine ⟨ts.take i, (ts.drop (i + 1)).take (j - (i + 1)), ts.drop (j + 1), ?_, ?_, ?_⟩
  · have hrest : ts.drop (i + 1) =
        (ts.drop (i + 1)).take (j - (i + 1)) ++ ts[j] :: ts.drop (j + 1) := by
      conv_lhs => rw [← List.take_append_drop (j - (i + 1)) (ts.drop (i + 1)), List.drop_drop]
      rw [Nat.add_sub_cancel' hij, List.drop_eq_getElem_cons hj]
    rw [← hrest, ← List.drop_eq_getElem_cons hi, List.take_append_drop]
  · simp; omega
  · simp; omega

end Merging

section Values

variable {K : Type*} [Field K] {I : Interpretation K} {ts : List (Term Rat)} {i j : Nat}
  {s t u : Term Rat}

theorem mergeAt_total (hs : (s, i) ∈ ts.zipIdx) (ht : (t, j) ∈ ts.zipIdx) (hst : s ≠ t)
    (hu : u.eval I = s.eval I + t.eval I) : Term.total I (mergeAt ts i j u) = Term.total I ts := by
  have hs : ts[i]? = some s := List.mem_zipIdx_iff_getElem?.mp hs
  have ht : ts[j]? = some t := List.mem_zipIdx_iff_getElem?.mp ht
  rcases lt_trichotomy i j with hij | rfl | hij
  · obtain ⟨as, bs, cs, rfl, rfl, rfl⟩ := exists_append hs ht hij
    rw [mergeAt_append]
    simp only [Term.total_append, Term.total_cons, hu]
    ring
  · exact absurd (Option.some.inj (hs.symm.trans ht)) hst
  · obtain ⟨as, bs, cs, rfl, rfl, rfl⟩ := exists_append ht hs hij
    rw [mergeAt_comm, mergeAt_append]
    simp only [Term.total_append, Term.total_cons, hu]
    ring

theorem squareArgument?_eq_some {name : String} {rest : Option (Expr Rat)} {a : Expr Rat} :
    squareArgument? name rest = some a ↔ rest = some (squareOf name a) := by
  unfold squareArgument?
  split
  · rename_i f b two
    simp only [Option.ite_none_right_eq_some, Option.some.injEq, squareOf, squared, op.injEq,
      true_and, fn.injEq, List.cons.injEq, and_true]
    constructor
    · rintro ⟨⟨rfl, htwo⟩, rfl⟩
      exact ⟨⟨rfl, rfl⟩, by simpa [isNumber_iff, ofNat] using htwo⟩
    · rintro ⟨⟨rfl, rfl⟩, rfl⟩
      exact ⟨⟨rfl, by simp [isNumber_iff, ofNat]⟩, rfl⟩
  · rename_i hne
    simp only [reduceCtorEq, false_iff]
    rintro rfl
    exact hne name a _ rfl

theorem value_eq_of_beq {c d : Coefficient Rat} (h : (c == d) = true) : c.value = d.value := by
  change Coefficient.same c d = true at h
  cases c <;> cases d <;> simp_all [Coefficient.same]

end Values

section Squares

open Interpretation

/-- Squares are powers, and sine and cosine are defined together and satisfy the identity. -/
structure PythagoreanLaws {K : Type*} [Field K] (I : Interpretation K) : Prop where
  square (u : K) : I.PowerDefined u 2 ∧ I.power u 2 = u ^ 2
  circle (u : K) : I.call "sin" [u] ^ 2 + I.call "cos" [u] ^ 2 = 1
  defined (u : K) : I.CallDefined "sin" [u] ↔ I.CallDefined "cos" [u]

variable {K : Type*} [Field K] [CharZero K] {I : Interpretation K} (hI : PythagoreanLaws I)
  {a e : Expr Rat} {ts us : List (Term Rat)}
include hI

theorem squareOf_spec (name : String) (a : Expr Rat) :
    (squareOf name a).eval I = I.call name [a.eval I] ^ 2 ∧
      ((squareOf name a).Defined I ↔ a.Defined I ∧ I.CallDefined name [a.eval I]) := by
  obtain ⟨hdefined, heval⟩ := hI.square (I.call name [a.eval I])
  simp [squareOf, squared, evalArgs, DefinedArgs, heval, hdefined]

theorem squareOf_circle (a : Expr Rat) :
    (squareOf "sin" a).eval I + (squareOf "cos" a).eval I = 1 ∧
      ((squareOf "sin" a).Defined I ↔ (squareOf "cos" a).Defined I) := by
  rw [(squareOf_spec hI "sin" a).1, (squareOf_spec hI "cos" a).1, (squareOf_spec hI "sin" a).2,
    (squareOf_spec hI "cos" a).2, hI.defined]
  exact ⟨hI.circle _, Iff.rfl⟩

omit hI in
def SumKept (I : Interpretation K) (ts us : List (Term Rat)) : Prop :=
  Term.total I us = Term.total I ts ∧ ((∀ t ∈ ts, t.Defined I) → ∀ u ∈ us, u.Defined I)

omit hI [CharZero K] in
theorem mergeAt_sumKept {i j : Nat} {s t u : Term Rat} (hs : (s, i) ∈ ts.zipIdx)
    (ht : (t, j) ∈ ts.zipIdx) (hst : s.rest ≠ t.rest) (hu : u.eval I = s.eval I + t.eval I)
    (hd : t.Defined I → u.Defined I) : SumKept I ts (mergeAt ts i j u) := by
  refine ⟨mergeAt_total hs ht (fun h => hst (congrArg Term.rest h)) hu, fun hts w hw => ?_⟩
  rcases mem_mergeAt hw with rfl | hw
  · exact hd (hts t (mem_of_mem_zipIdx ht))
  · exact hts w hw

theorem sumOfSquares?_sumKept (h : sumOfSquares? ts = some us) : SumKept I ts us := by
  obtain ⟨⟨s, i⟩, hs, h⟩ := List.exists_of_findSome?_eq_some h
  obtain ⟨a, ha, h⟩ := Option.bind_eq_some_iff.mp h
  obtain ⟨⟨t, j⟩, ht, h⟩ := List.exists_of_findSome?_eq_some h
  simp only [Option.ite_none_right_eq_some, Bool.and_eq_true, beq_iff_eq,
    Option.some.injEq] at h
  obtain ⟨⟨hc, hb⟩, rfl⟩ := h
  have hsine : s.rest = some (squareOf "sin" a) := squareArgument?_eq_some.mp ha
  have hcosine : t.rest = some (squareOf "cos" a) := squareArgument?_eq_some.mp hb
  refine mergeAt_sumKept hs ht (by simp [hsine, hcosine, squareOf, squared]) ?_ fun _ => trivial
  simp only [Term.eval, hsine, hcosine, Term.restEval, value_eq_of_beq hc, ← mul_add,
    (squareOf_circle hI a).1]

theorem otherSquare?_spec {rest : Option (Expr Rat)} (h : otherSquare? rest = some e) :
    Term.restEval I rest + e.eval I = 1 ∧ (Term.RestDefined I rest → e.Defined I) := by
  unfold otherSquare? at h
  split at h
  · rename_i a ha
    obtain rfl := Option.some.inj h
    rw [squareArgument?_eq_some.mp ha, Term.restEval, Term.RestDefined]
    exact ⟨(squareOf_circle hI a).1, (squareOf_circle hI a).2.mp⟩
  · obtain ⟨a, ha, rfl⟩ := Option.map_eq_some_iff.mp h
    rw [squareArgument?_eq_some.mp ha, Term.restEval, Term.RestDefined, add_comm]
    exact ⟨(squareOf_circle hI a).1, (squareOf_circle hI a).2.mpr⟩

theorem oneMinusSquare?_sumKept (h : oneMinusSquare? ts = some us) : SumKept I ts us := by
  obtain ⟨⟨s, k⟩, hs, h⟩ := List.exists_of_findSome?_eq_some h
  simp only [Option.ite_none_left_eq_some, Option.isSome_iff_ne_none, not_not] at h
  obtain ⟨hconstant, h⟩ := h
  obtain ⟨⟨t, i⟩, ht, h⟩ := List.exists_of_findSome?_eq_some h
  simp only [Option.ite_none_right_eq_some] at h
  obtain ⟨hc, h⟩ := h
  obtain ⟨e, he, rfl⟩ := Option.map_eq_some_iff.mp h
  obtain ⟨hvalue, hdefined⟩ := otherSquare?_spec hI he
  have hrest : t.rest ≠ s.rest := by
    rw [hconstant]
    intro hnone
    simp [hnone, otherSquare?, squareArgument?] at he
  rw [mergeAt_comm]
  refine mergeAt_sumKept hs ht hrest.symm ?_ hdefined
  have hcoefficient : (t.coefficient.value : K) = -s.coefficient.value := by
    rw [value_eq_of_beq hc, Coefficient.value_neg]
    push_cast
    rfl
  have hone : Term.restEval I s.rest = 1 := by rw [hconstant, Term.restEval]
  simp only [Term.eval, hcoefficient, hone]
  change s.coefficient.value * e.eval I = _
  linear_combination (s.coefficient.value : K) * hvalue

theorem pythagoreanIdentity_keepsCircle : KeepsValue I pythagoreanIdentity := by
  apply pythagoreanIdentity_keepsValue_of
  intro ts us h hdefined
  have hkept : SumKept I ts us := by
    rcases h with h | h
    · exact sumOfSquares?_sumKept hI h
    · exact oneMinusSquare?_sumKept hI h
  exact ⟨hkept.2 hdefined, hkept.1⟩

omit hI in
theorem overReals_pythagorean (env : Environment ℝ) : PythagoreanLaws (overReals env) where
  square u := by exact_mod_cast (overReals_powerLaws env).nat u 2
  circle := Real.sin_sq_add_cos_sq
  defined _ := Iff.rfl

omit hI in
theorem pythagoreanIdentity_keepsRealValue (env : Environment ℝ) :
    KeepsValue (overReals env) pythagoreanIdentity :=
  pythagoreanIdentity_keepsCircle (overReals_pythagorean env)

end Squares

end RuleAlgebra.Rules
