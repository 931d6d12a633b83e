import RuleAlgebra.Decimal.General
import RuleAlgebra.Decimal.Numeral
import RuleAlgebra.Proofs.ExactScalars

/-!
The text of a number is a minus sign, if the number is negative, and a numeral for its magnitude.
-/

namespace RuleAlgebra

/-- Finite scalars are negated and compared as their exact values, and a decimal that is the value
of a scalar is read as that scalar. -/
class FaithfulScalar (α : Type) [Scalar α] : Prop where
  toRat?_of_isFinite {v : α} : Scalar.isFinite v = true → ∃ q, Scalar.toRat? v = some q
  toRat?_neg {v : α} {q : Rat} : Scalar.toRat? v = some q → Scalar.toRat? (-v) = some (-q)
  toRat?_zero : Scalar.toRat? (Scalar.zero : α) = some 0
  toRat?_one : Scalar.toRat? (Scalar.one : α) = some 1
  lt_iff {a b : α} {p q : Rat} : Scalar.toRat? a = some p → Scalar.toRat? b = some q →
    (Scalar.lt a b = true ↔ p < q)
  beq_iff {a b : α} {q : Rat} : Scalar.toRat? b = some q →
    ((a == b) = true ↔ Scalar.toRat? a = some q)
  isNegative_iff {v : α} {q : Rat} : Scalar.toRat? v = some q → q ≠ 0 →
    (Scalar.isNegative v = true ↔ q < 0)
  toRat?_ofDecimal {v : α} {n : Nat} {x : Int} : Scalar.toRat? v = some ((n : Rat) * 10 ^ x) →
    Scalar.toRat? (Scalar.ofDecimal n x : α) = some ((n : Rat) * 10 ^ x)

instance : FaithfulScalar Rat where
  toRat?_of_isFinite _ := ⟨_, rfl⟩
  toRat?_neg h := by simpa using h
  toRat?_zero := by simp
  toRat?_one := by simp
  lt_iff := by simp
  beq_iff := by simp
  isNegative_iff := by
    rintro v q h -
    obtain rfl := Option.some.inj h
    exact decide_eq_true_iff
  toRat?_ofDecimal _ := rfl

namespace Scalar

variable {α : Type} [Scalar α] {v : α} {q : Rat}

theorem toInt?_of_toRat? (h : toRat? v = some q) :
    toInt? v = if q.den = 1 then some q.num else none := by
  simp [toInt?, h]

variable [FaithfulScalar α]

open FaithfulScalar

theorem lt_zero_iff (h : toRat? v = some q) : lt v zero = true ↔ q < 0 :=
  lt_iff h toRat?_zero

theorem toRat?_abs (h : toRat? v = some q) : toRat? (abs v) = some |q| := by
  rcases lt_trichotomy q 0 with hq | rfl | hq
  · rw [abs, if_pos ((isNegative_iff h hq.ne).mpr hq), abs_of_neg hq, toRat?_neg h]
  · unfold abs
    split
    · simp [toRat?_neg h]
    · simp [h]
  · have hn : ¬isNegative v = true := fun hneg => hq.not_gt ((isNegative_iff h hq.ne').mp hneg)
    rw [abs, if_neg hn, abs_of_pos hq, h]

theorem toRat?_ofInt_neg_one : toRat? (ofInt (-1) : α) = some (-1) := toRat?_neg toRat?_one

theorem beq_ofInt_neg_one (h : (v == ofInt (-1)) = true) : (ofInt (-1) == v) = true :=
  (beq_iff ((beq_iff toRat?_ofInt_neg_one).mp h)).mpr toRat?_ofInt_neg_one

theorem beq_of_beq_abs {w : α} (hv : isFinite v = true) (hlt : lt v zero = false)
    (h : (w == abs v) = true) : (w == v) = true := by
  obtain ⟨q, hq⟩ := toRat?_of_isFinite hv
  have hnn : 0 ≤ q := by
    rw [← not_lt, ← lt_zero_iff hq, hlt]
    exact Bool.false_ne_true
  rw [beq_iff hq, (beq_iff (toRat?_abs hq)).mp h, abs_of_nonneg hnn]

theorem neg_beq_of_beq_abs {w : α} (hv : isFinite v = true) (hlt : lt v zero = true)
    (h : (w == abs v) = true) : (-w == v) = true := by
  obtain ⟨q, hq⟩ := toRat?_of_isFinite hv
  have hneg : q < 0 := (lt_zero_iff hq).mp hlt
  rw [beq_iff hq, toRat?_neg ((beq_iff (toRat?_abs hq)).mp h), abs_of_neg hneg, neg_neg]

end Scalar

namespace Decimal

open Scalar FaithfulScalar

variable {α : Type} [Scalar α] [FaithfulScalar α] {v : α} {q : Rat}

theorem toString_neg {n : Int} (hn : n < 0) : toString n = "-" ++ toString (-n) := by
  obtain ⟨m, rfl⟩ := Int.eq_negSucc_of_lt_zero hn
  rfl

theorem general_of_ne_zero (count : Nat) (h : toRat? v = some q) (hq : q ≠ 0) :
    general count v = (if q < 0 then "-" else "") ++ String.ofList (positive count |q|) := by
  have habs : (if q < 0 then -q else q) = |q| := by
    split
    · rw [abs_of_neg ‹_›]
    · rw [abs_of_nonneg (not_lt.mp ‹_›)]
  simp only [general, h, if_neg hq, habs, isNegative_iff h hq]

omit [FaithfulScalar α] in
theorem text_of_toRat? (h : toRat? v = some q) : text v =
    if q.den = 1 ∧ q.num.natAbs < Nat.pow 10 16 then toString q.num else general 12 v := by
  simp only [text, toInt?_of_toRat? h]
  by_cases hd : q.den = 1 <;> simp [hd]

theorem text_eq (h : toRat? v = some q) :
    text v = (if q < 0 then "-" else "") ++ text (abs v) := by
  have hden : |q|.den = q.den := by
    rcases abs_choice q with hq | hq <;> simp [hq]
  have hnum : |q|.num.natAbs = q.num.natAbs := by
    rcases abs_choice q with hq | hq <;> simp [hq]
  have habs := toRat?_abs h
  rw [text_of_toRat? h, text_of_toRat? habs, hden, hnum]
  split
  · by_cases hq : q < 0
    · rw [if_pos hq, abs_of_neg hq, Rat.neg_num, toString_neg (Rat.num_neg.mpr hq)]
    · simp [if_neg hq, abs_of_nonneg (not_lt.mp hq)]
  · rename_i hsmall
    have hq : q ≠ 0 := by
      rintro rfl
      exact hsmall ⟨rfl, by decide⟩
    rw [general_of_ne_zero 12 h hq, general_of_ne_zero 12 habs (abs_ne_zero.mpr hq), abs_abs,
      if_neg (not_lt.mpr (abs_nonneg q)), String.empty_append]

/-- Whether reading the text of the magnitude as a numeral gives the magnitude back. -/
structure Readable (v : α) : Prop where
  finite : isFinite v = true
  isDecimal : Numeral.isDecimal (text (abs v)).toList = true
  value : ((Numeral.value (text (abs v)).toList : α) == abs v) = true

theorem text_of_nonneg (hv : isFinite v = true) (hlt : lt v zero = false) :
    text v = text (abs v) := by
  obtain ⟨q, hq⟩ := toRat?_of_isFinite hv
  have hnn : ¬q < 0 := by
    rw [← lt_zero_iff hq, hlt]
    exact Bool.false_ne_true
  rw [text_eq hq, if_neg hnn, String.empty_append]

theorem text_of_neg (hv : isFinite v = true) (hlt : lt v zero = true) :
    text v = "-" ++ text (abs v) := by
  obtain ⟨q, hq⟩ := toRat?_of_isFinite hv
  rw [text_eq hq, if_pos ((lt_zero_iff hq).mp hlt)]

end Decimal

namespace Numeral

open Text

theorem digit?_of_isDigit {c : Char} (hc : c.isDigit = true) : digit? c = some (c.toNat - 48) := by
  simp only [Char.isDigit, Bool.and_eq_true, decide_eq_true_eq, UInt32.le_iff_toNat_le] at hc
  have hle : 48 ≤ c.toNat := hc.1
  have hlt : c.toNat < 58 := Nat.lt_succ_of_le hc.2
  simp [digit?, digitZeros, hle, hlt]

theorem digitsValue_toDigits (n : Nat) : digitsValue (Nat.toDigits 10 n) = n := by
  have hfold : ∀ cs : List Char, (∀ c ∈ cs, c.isDigit = true) → ∀ k,
      cs.foldl (fun n c => 10 * n + (digit? c).getD 0) k = Nat.ofDigitChars 10 cs k := by
    intro cs
    induction cs with
    | nil => simp
    | cons c cs ih =>
      intro hcs k
      rw [List.foldl_cons, Nat.ofDigitChars_cons, ih fun d hd => hcs d (List.mem_cons_of_mem _ hd),
        digit?_of_isDigit (hcs c (List.mem_cons_self ..))]
      rfl
  have hdigits : ∀ c ∈ Nat.toDigits 10 n, c.isDigit = true := fun c hc =>
    Nat.isDigit_of_mem_toDigits (by decide) (by decide) hc
  rw [digitsValue, hfold _ hdigits, Nat.ofDigitChars_ten_toDigits]

theorem takeWhile_toDigits (n : Nat) :
    (Nat.toDigits 10 n).takeWhile isDigit = Nat.toDigits 10 n := by
  apply List.takeWhile_eq_self_iff.mpr
  intro c hc
  have hdigit : c.isDigit = true := Nat.isDigit_of_mem_toDigits (by decide) (by decide) hc
  simp [isDigit, digit?_of_isDigit hdigit]

theorem isDecimal_toDigits (n : Nat) : isDecimal (Nat.toDigits 10 n) = true := by
  have hne : Nat.toDigits 10 n ≠ [] := Nat.toDigits_ne_nil
  simp [isDecimal, length, takeWhile_toDigits, hne, exponentLength]

theorem decimal_toDigits (n : Nat) : decimal (Nat.toDigits 10 n) = (n, 0) := by
  have hdrop : (Nat.toDigits 10 n).dropWhile isDigit = [] := by
    have := List.takeWhile_append_dropWhile (p := isDigit) (l := Nat.toDigits 10 n)
    rw [takeWhile_toDigits] at this
    simpa using this
  simp [decimal, takeWhile_toDigits, hdrop, digitsValue_toDigits]

end Numeral

namespace Decimal

open Scalar FaithfulScalar

variable {α : Type} [Scalar α] [FaithfulScalar α] {v : α}

theorem readable_of_toInt? {n : Int} (hv : isFinite v = true) (hn : toInt? v = some n)
    (hlt : n.natAbs < 10 ^ 16) : Readable v := by
  obtain ⟨q, hq⟩ := toRat?_of_isFinite hv
  obtain ⟨hden, rfl⟩ : q.den = 1 ∧ q.num = n := by
    rw [toInt?_of_toRat? hq] at hn
    simpa using hn
  have habs : toRat? (abs v) = some (q.num.natAbs : Rat) := by
    rw [toRat?_abs hq, Nat.cast_natAbs, Int.cast_abs, Rat.coe_int_num_of_den_eq_one hden]
  have htext : (text (abs v)).toList = Nat.toDigits 10 q.num.natAbs := by
    rw [text_of_toRat? habs, Rat.num_natCast, if_pos ⟨Rat.den_natCast _, hlt⟩]
    exact Nat.toList_repr
  refine ⟨hv, by rw [htext, Numeral.isDecimal_toDigits], (beq_iff habs).mpr ?_⟩
  rw [Numeral.value, htext, Numeral.decimal_toDigits]
  have := toRat?_ofDecimal (v := abs v) (n := q.num.natAbs) (x := 0) (by simpa using habs)
  simpa using this

theorem readable_intCast (n : Int) (hn : n.natAbs < 10 ^ 16) : Readable (n : Rat) :=
  readable_of_toInt? rfl (toInt?_intCast n) hn

end Decimal

end RuleAlgebra
