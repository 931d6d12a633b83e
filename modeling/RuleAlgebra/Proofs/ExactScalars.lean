import RuleAlgebra.Expr.Basic
import RuleAlgebra.Polynomial.Coefficient
import RuleAlgebra.Proofs.Outcomes
import RuleAlgebra.Scalar.Exact

/-!
Scalars that compute without rounding. Fractions are such: the conversions and comparisons of `Scalar`
are those of exact arithmetic, and over fractions the structural comparison of expressions decides
equality.
-/

namespace RuleAlgebra

namespace Scalar

@[simp] theorem beq_rat (a b : Rat) : (a == b) = decide (a = b) := rfl

instance : LawfulBEq Rat where
  eq_of_beq h := by simpa using h
  rfl := by simp

@[simp] theorem lt_rat (a b : Rat) : Scalar.lt a b = decide (a < b) := rfl

@[simp] theorem le_rat (a b : Rat) : Scalar.le a b = decide (a ≤ b) := rfl

@[simp] theorem toRat?_rat (q : Rat) : Scalar.toRat? q = some q := rfl

@[simp] theorem ofRat?_rat (q : Rat) : (Scalar.ofRat? q : Option Rat) = some q := rfl

@[simp] theorem finite?_rat (q : Rat) : Scalar.finite? q = some q := rfl

theorem ofDecimal_rat (digits : Nat) (exponent : Int) :
    (Scalar.ofDecimal digits exponent : Rat) = digits * 10 ^ exponent := rfl

@[simp] theorem ofNat_rat (n : Nat) : (Scalar.ofNat n : Rat) = n := by
  simp [Scalar.ofNat, ofDecimal, Rational.ofDecimal]

@[simp] theorem ofInt_rat (n : Int) : (Scalar.ofInt n : Rat) = n := by
  cases n with
  | ofNat n => simp [ofInt]
  | negSucc n =>
    change -(Scalar.ofNat (n + 1) : Rat) = _
    simp [Int.negSucc_eq]

@[simp] theorem zero_rat : (Scalar.zero : Rat) = 0 := by simp [Scalar.zero]

@[simp] theorem one_rat : (Scalar.one : Rat) = 1 := by simp [Scalar.one]

theorem toInt?_eq_some {q : Rat} {n : Int} : Scalar.toInt? q = some n ↔ q = n := by
  simp only [toInt?, toRat?_rat, Option.bind_some, Option.ite_none_right_eq_some, Option.some.injEq]
  constructor
  · rintro ⟨hd, rfl⟩
    exact ((Rat.den_eq_one_iff q).mp hd).symm
  · rintro rfl
    simp

@[simp] theorem toInt?_intCast (n : Int) : Scalar.toInt? (n : Rat) = some n :=
  toInt?_eq_some.mpr rfl

theorem isInteger_iff {q : Rat} : Scalar.isInteger q = true ↔ ∃ n : Int, q = n := by
  simp only [isInteger, Option.isSome_iff_exists, toInt?_eq_some]

theorem max_rat (a b : Rat) : Scalar.max a b = Max.max a b := by
  by_cases h : a < b
  · simp [Scalar.max, h, h.le]
  · simp [Scalar.max, h, not_lt.mp h]

theorem min_rat (a b : Rat) : Scalar.min a b = Min.min a b := by
  by_cases h : b < a
  · simp [Scalar.min, h, h.le]
  · simp [Scalar.min, h, not_lt.mp h]

/-- Scalars that compute without rounding on the numbers of an ordered field that they stand for.
Powers and elementary functions may have any values. -/
structure Exact {α : Type} {K : Type*} [Scalar α] [Field K] [LinearOrder K] (value : α → K) : Prop where
  finite (a : α) : Scalar.isFinite a = true
  ofNat (n : Nat) : value (Scalar.ofNat n) = n
  neg (a : α) : value (-a) = -value a
  add (a b : α) : value (a + b) = value a + value b
  sub (a b : α) : value (a - b) = value a - value b
  mul (a b : α) : value (a * b) = value a * value b
  div {a b : α} : value b ≠ 0 → value (a / b) = value a / value b
  beq {a b : α} : (a == b) = true ↔ value a = value b
  lt {a b : α} : Scalar.lt a b = true ↔ value a < value b
  isNegative {a : α} : Scalar.isNegative a = true ↔ value a < 0

theorem exact_rat : Exact (id : Rat → Rat) where
  finite _ := rfl
  ofNat := ofNat_rat
  neg _ := rfl
  add _ _ := rfl
  sub _ _ := rfl
  mul _ _ := rfl
  div _ := rfl
  beq := by simp
  lt := by simp
  isNegative := decide_eq_true_iff

namespace Exact

variable {α : Type} {K : Type*} [Scalar α] [Field K] [LinearOrder K] {value : α → K}

theorem zero (h : Exact value) : value Scalar.zero = 0 := by
  rw [Scalar.zero, h.ofNat, Nat.cast_zero]

theorem one (h : Exact value) : value Scalar.one = 1 := by
  rw [Scalar.one, h.ofNat, Nat.cast_one]

theorem minusOne (h : Exact value) : value (Scalar.ofInt (-1)) = -1 := by
  change value (-Scalar.ofNat 1) = -1
  rw [h.neg, h.ofNat, Nat.cast_one]

theorem finite? (h : Exact value) (a : α) : Scalar.finite? a = some a := by
  simp [Scalar.finite?, h.finite]

theorem abs [IsStrictOrderedRing K] (h : Exact value) (a : α) :
    value (Scalar.abs a) = |value a| := by
  unfold Scalar.abs
  split_ifs with ha
  · rw [h.neg, abs_of_neg (h.isNegative.mp ha)]
  · rw [abs_of_nonneg (not_lt.mp fun hneg => ha (h.isNegative.mpr hneg))]

end Exact

theorem abs_rat (a : Rat) : Scalar.abs a = |a| := exact_rat.abs a

end Scalar

namespace Rational

theorem power?_eq_some {u v w : Rat} :
    power? u v = some w ↔ (v.den = 1 ∧ (u ≠ 0 ∨ 0 ≤ v)) ∧ w = u ^ v.num := by
  by_cases hd : v.den = 1 <;> by_cases hu : u = 0 <;> by_cases hn : v.num < 0 <;>
    simp_all [power?, eq_comm]

end Rational

namespace Expr

section Equality

variable {α : Type}

mutual

theorem same_iff [BEq α] [LawfulBEq α] : ∀ a b : Expr α, same a b = true ↔ a = b
  | num a, b => by cases b <;> simp [same]
  | var a, b => by cases b <;> simp [same]
  | op o l r, b => by
    cases b with
    | op o' l' r' => simp [same, same_iff l l', same_iff r r', and_assoc]
    | _ => simp [same]
  | fn f as, b => by
    cases b with
    | fn g bs => simp [same, sameArgs_iff as bs]
    | _ => simp [same]
  | eq l r, b => by
    cases b with
    | eq l' r' => simp [same, same_iff l l', same_iff r r']
    | _ => simp [same]
  | wild n k a, b => by cases b <;> simp [same, and_assoc]

theorem sameArgs_iff [BEq α] [LawfulBEq α] :
    ∀ as bs : List (Expr α), sameArgs as bs = true ↔ as = bs
  | [], bs => by cases bs <;> simp [sameArgs]
  | a :: as, bs => by
    cases bs with
    | nil => simp [sameArgs]
    | cons b bs => simp [sameArgs, same_iff a b, sameArgs_iff as bs]

end

instance [BEq α] [LawfulBEq α] : LawfulBEq (Expr α) where
  eq_of_beq h := (same_iff _ _).mp h
  rfl := (same_iff _ _).mpr rfl

end Equality

theorem isNumber_iff {e : Expr Rat} {n : Int} : e.isNumber n = true ↔ e = num (n : Rat) := by
  cases e <;> simp [isNumber]

theorem number?_eq_some {e : Expr Rat} {q : Rat} : e.number? = some q ↔ e = num q := by
  cases e <;> simp [number?]

end Expr

namespace Coefficient

def value : Coefficient Rat → Rat
  | exact q => q
  | inexact v => v

@[simp] theorem value_exact (q : Rat) : (exact q : Coefficient Rat).value = q := rfl

@[simp] theorem value_inexact (v : Rat) : (inexact v).value = v := rfl

@[simp] theorem round_rat (q : Rat) : (round q : Except Failure Rat) = .ok q := rfl

@[simp] theorem toScalar_rat (c : Coefficient Rat) : c.toScalar = .ok c.value := by
  cases c <;> rfl

@[simp] theorem value_ofScalar (v : Rat) : (ofScalar v).value = v := by
  unfold ofScalar
  cases h : Scalar.toInt? v with
  | none => rfl
  | some n => simp [Scalar.toInt?_eq_some.mp h]

@[simp] theorem value_normal (c : Coefficient Rat) : c.normal.value = c.value := by
  cases c <;> simp [normal]

@[simp] theorem value_neg (c : Coefficient Rat) : c.neg.value = -c.value := by
  cases c <;> rfl

@[simp] theorem value_scale (n : Int) (c : Coefficient Rat) : (c.scale n).value = n * c.value := by
  cases c <;> simp [scale]

theorem add_rat (a b : Coefficient Rat) : ∃ c, a.add b = .ok c ∧ c.value = a.value + b.value := by
  cases a <;> cases b <;> exact ⟨_, rfl, rfl⟩

theorem divide_rat (c : Coefficient Rat) (n : Int) :
    ∃ d, c.divide n = .ok d ∧ d.value = c.value / n := by
  cases c <;> exact ⟨_, rfl, rfl⟩

theorem isZero_iff {c : Coefficient Rat} : c.isZero = true ↔ c.value = 0 := by
  cases c <;> simp [isZero]

@[simp] theorem toRat?_rat (c : Coefficient Rat) : c.toRat? = some c.value := by
  cases c <;> rfl

end Coefficient

end RuleAlgebra
