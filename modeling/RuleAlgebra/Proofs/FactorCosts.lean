import RuleAlgebra.Proofs.RuleCosts
import RuleAlgebra.Rules.Exponential

/-!
Products weigh as much as their factors together, and their sizes multiply. Multiplying the numbers
of a product into one coefficient makes it no heavier and no larger.
-/

namespace RuleAlgebra.Term

open RuleAlgebra.Expr RuleAlgebra.Rules

section Sums

variable {w : Expr Rat → Nat} (hw : ∀ l r, w (.op .mul l r) = w l + w r)
include hw

theorem sum_factors (e : Expr Rat) : ((factors e).map w).sum = w e := by
  fun_induction factors e with
  | case1 l r ihl ihr => simp [ihl, ihr, hw]
  | case2 e _ => simp

theorem sum_foldl_mul (e : Expr Rat) (fs : List (Expr Rat)) :
    w (fs.foldl (Expr.op .mul) e) = w e + (fs.map w).sum := by
  induction fs generalizing e with
  | nil => simp
  | cons f fs ih => simp [ih, hw, add_assoc]

theorem sum_product {fs : List (Expr Rat)} (h : fs ≠ []) : w (product fs) = (fs.map w).sum := by
  cases fs with
  | nil => exact absurd rfl h
  | cons f fs => rw [product, sum_foldl_mul hw, List.map_cons, List.sum_cons]

omit hw in
theorem sum_split (fs : List (Expr Rat)) : (fs.map w).sum =
    ((fs.filterMap number?).map fun v => w (num v)).sum + ((fs.filter (!·.isNum)).map w).sum := by
  induction fs with
  | nil => rfl
  | cons f fs ih =>
    cases f with
    | num v => simp [number?, isNum, ih, add_assoc]
    | _ =>
      simp only [List.map_cons, List.sum_cons, ih, number?, isNum, List.filterMap_cons,
        Bool.not_false, List.filter_cons_of_pos]
      omega

end Sums

section Totals

def totalWeight (fs : List (Expr Rat)) : Nat := (fs.map weight).sum

def totalSize (fs : List (Expr Rat)) : Nat := (fs.map size).prod

variable (f : Expr Rat) (fs gs : List (Expr Rat))

@[simp] theorem totalWeight_nil : totalWeight [] = 0 := rfl

@[simp] theorem totalWeight_cons : totalWeight (f :: fs) = f.weight + totalWeight fs := by
  simp [totalWeight]

@[simp] theorem totalWeight_append : totalWeight (fs ++ gs) = totalWeight fs + totalWeight gs := by
  simp [totalWeight]

@[simp] theorem totalSize_nil : totalSize [] = 1 := rfl

@[simp] theorem totalSize_cons : totalSize (f :: fs) = f.size * totalSize fs := by
  simp [totalSize]

@[simp] theorem totalSize_append : totalSize (fs ++ gs) = totalSize fs * totalSize gs := by
  simp [totalSize]

theorem totalSize_pos : 0 < totalSize fs := by
  induction fs with
  | nil => simp
  | cons f fs ih =>
    have hf := two_le_size f
    rw [totalSize_cons]
    exact Nat.mul_pos (by omega) ih

end Totals

section Factors

theorem weight_mul (l r : Expr Rat) : (op .mul l r).weight = l.weight + r.weight :=
  weight_op .mul

theorem factors_weight (e : Expr Rat) : totalWeight (factors e) = e.weight :=
  sum_factors weight_mul e

theorem factors_size (e : Expr Rat) : totalSize (factors e) = e.size := by
  fun_induction factors e with
  | case1 l r ihl ihr => simp [ihl, ihr, opSize]
  | case2 e _ => simp

theorem factors_closed (e : Expr Rat) : (∀ f ∈ factors e, f.Closed) ↔ e.Closed := by
  fun_induction factors e with
  | case1 l r ihl ihr => simp [or_imp, forall_and, ihl, ihr]
  | case2 e _ => simp

theorem factors_of_mem_factors {α : Type} {e f : Expr α} (hf : f ∈ factors e) :
    factors f = [f] := by
  fun_induction factors e with
  | case1 l r ihl ihr => exact (List.mem_append.mp hf).elim ihl ihr
  | case2 e he =>
    obtain rfl := List.mem_singleton.mp hf
    rw [factors]
    exact he

theorem foldl_mul_size (e : Expr Rat) (fs : List (Expr Rat)) :
    (fs.foldl (Expr.op .mul) e).size = e.size * totalSize fs := by
  induction fs generalizing e with
  | nil => simp
  | cons f fs ih => simp [ih, opSize, mul_assoc]

theorem foldl_mul_closed (e : Expr Rat) (fs : List (Expr Rat)) :
    (fs.foldl (Expr.op .mul) e).Closed ↔ e.Closed ∧ ∀ f ∈ fs, f.Closed := by
  induction fs generalizing e with
  | nil => simp
  | cons f fs ih => simp [ih, and_assoc]

theorem foldl_mul_factors {α : Type} (e : Expr α) (fs : List (Expr α)) :
    factors (fs.foldl (Expr.op .mul) e) = factors e ++ fs.flatMap factors := by
  induction fs generalizing e with
  | nil => simp
  | cons f fs ih => simp [ih, factors]

theorem product_weight {fs : List (Expr Rat)} (h : fs ≠ []) :
    (product fs).weight = totalWeight fs := sum_product weight_mul h

theorem product_size {fs : List (Expr Rat)} (h : fs ≠ []) : (product fs).size = totalSize fs := by
  cases fs with
  | nil => exact absurd rfl h
  | cons f fs => rw [product, foldl_mul_size, totalSize_cons]

@[simp] theorem product_closed (fs : List (Expr Rat)) :
    (product fs).Closed ↔ ∀ f ∈ fs, f.Closed := by
  cases fs with
  | nil => simp [product]
  | cons f fs => simp [product, foldl_mul_closed]

theorem product_factors {α : Type} [Scalar α] {fs : List (Expr α)} (h : fs ≠ [])
    (hfs : ∀ f ∈ fs, factors f = [f]) : factors (product fs) = fs := by
  cases fs with
  | nil => exact absurd rfl h
  | cons f fs =>
    have hrest : fs.flatMap factors = fs.flatMap fun g => [g] :=
      List.flatMap_congr fun g hg => hfs g (by simp [hg])
    rw [product, foldl_mul_factors, hfs f (by simp), hrest, List.flatMap_singleton',
      List.singleton_append]

end Factors

section Coefficients

def coefficientWeight (c : Rat) : Nat := if c = 1 then 0 else numWeight c

@[simp] theorem coefficientWeight_one : coefficientWeight 1 = 0 := rfl

theorem coefficientWeight_le (c : Rat) : coefficientWeight c ≤ numWeight c := by
  unfold coefficientWeight
  split_ifs <;> omega

theorem totalWeight_split (fs : List (Expr Rat)) : totalWeight fs =
    ((fs.filterMap number?).map numWeight).sum + totalWeight (fs.filter (!·.isNum)) := by
  simpa [totalWeight] using sum_split (w := weight) fs

theorem totalSize_split (fs : List (Expr Rat)) : totalSize fs =
    ((fs.filterMap number?).map fun v => v.num.natAbs + 2).prod *
      totalSize (fs.filter (!·.isNum)) := by
  induction fs with
  | nil => rfl
  | cons f fs ih =>
    cases f with
    | num v => simp [number?, isNum, ih, mul_assoc]
    | _ =>
      simp only [totalSize_cons, ih, number?, isNum, List.filterMap_cons, Bool.not_false,
        List.filter_cons_of_pos]
      ring

theorem foldr_le_sum {β : Type} {f : β → Nat} {g : β → β → β} {u : β}
    (hg : ∀ a b, f (g a b) < f a + f b) (hu : ∀ a, g a u = a) {bs : List β} (hbs : bs ≠ []) :
    f (bs.foldr g u) ≤ (bs.map f).sum ∧ (2 ≤ bs.length → f (bs.foldr g u) < (bs.map f).sum) := by
  induction bs with
  | nil => exact absurd rfl hbs
  | cons b bs ih =>
    by_cases hnil : bs = []
    · simp [hnil, hu]
    · have hle := (ih hnil).1
      have hlt := hg b (bs.foldr g u)
      rw [List.foldr_cons, List.map_cons, List.sum_cons]
      exact ⟨by omega, fun _ => by omega⟩

theorem coefficientWeight_prod (vs : List Rat) :
    coefficientWeight vs.prod ≤ (vs.map numWeight).sum ∧
      (2 ≤ vs.length → coefficientWeight vs.prod < (vs.map numWeight).sum) := by
  by_cases hvs : vs = []
  · simp [hvs]
  · have hc := coefficientWeight_le vs.prod
    obtain ⟨hle, hlt⟩ := foldr_le_sum (g := (· * ·)) (u := 1) numWeight_mul_lt mul_one hvs
    rw [← List.prod_eq_foldr] at hle hlt
    exact ⟨by omega, fun h => hc.trans_lt (hlt h)⟩

theorem natAbs_prod {vs : List Rat} (hvs : ∀ v ∈ vs, v.den = 1) :
    vs.prod.den = 1 ∧ (vs ≠ [] →
      vs.prod.num.natAbs + 2 ≤ (vs.map fun v => v.num.natAbs + 2).prod) := by
  induction vs with
  | nil => simp
  | cons v vs ih =>
    obtain ⟨hv, hvs'⟩ := List.forall_mem_cons.mp hvs
    obtain ⟨hden, hle⟩ := ih hvs'
    obtain ⟨m, rfl⟩ := exists_int ((closed_num v).mpr hv)
    obtain ⟨n, hn⟩ := exists_int ((closed_num vs.prod).mpr hden)
    rw [hn, Rat.num_intCast] at hle
    rw [List.prod_cons, hn, ← Int.cast_mul]
    refine ⟨Rat.den_intCast _, fun _ => ?_⟩
    rw [Rat.num_intCast, Int.natAbs_mul, List.map_cons, List.prod_cons, Rat.num_intCast]
    by_cases hnil : vs = []
    · obtain rfl : n = 1 := by
        rw [hnil, List.prod_nil] at hn
        exact_mod_cast hn.symm
      simp [hnil]
    · refine le_trans ?_ (Nat.mul_le_mul_left (m.natAbs + 2) (hle hnil))
      rw [add_mul, mul_add]
      omega

end Coefficients

section Splitting

/-- A factor that is neither a number nor a product. -/
structure Proper (f : Expr Rat) : Prop where
  closed : f.Closed
  not_num : f.isNum = false
  single : factors f = [f]

structure Splits (e : Expr Rat) (v : Rat) (fs : List (Expr Rat)) : Prop where
  integer : v.den = 1
  proper : ∀ f ∈ fs, Proper f
  weight_le : coefficientWeight v + totalWeight fs ≤ e.weight
  size_le : v ≠ 1 → (v.num.natAbs + 2) * totalSize fs ≤ e.size

theorem proper_of_mem {e f : Expr Rat} (he : e.Closed) (hf : f ∈ (factors e).filter (!·.isNum)) :
    Proper f where
  closed := (factors_closed e).mpr he f (List.mem_of_mem_filter hf)
  not_num := by simpa using (List.mem_filter.mp hf).2
  single := factors_of_mem_factors (List.mem_of_mem_filter hf)

theorem numbers_integer {e : Expr Rat} (he : e.Closed) :
    ∀ v ∈ (factors e).filterMap number?, v.den = 1 := by
  intro v hv
  obtain ⟨f, hf, hfv⟩ := List.mem_filterMap.mp hv
  have hclosed := (factors_closed e).mpr he f hf
  rwa [number?_eq_some.mp hfv, closed_num] at hclosed

theorem factors_splits {e : Expr Rat} (he : e.Closed) :
    Splits e ((factors e).filterMap number?).prod ((factors e).filter (!·.isNum)) where
  integer := (natAbs_prod (numbers_integer he)).1
  proper _ hf := proper_of_mem he hf
  weight_le := by
    rw [← factors_weight e, totalWeight_split (factors e)]
    exact Nat.add_le_add_right (coefficientWeight_prod _).1 _
  size_le h1 := by
    rw [← factors_size e, totalSize_split (factors e)]
    refine Nat.mul_le_mul_right _ ((natAbs_prod (numbers_integer he)).2 fun hnil => h1 ?_)
    rw [hnil, List.prod_nil]

theorem splitNumbers_splits {e : Expr Rat} (he : e.Closed) :
    Splits e (splitNumbers e).1 (factorsOf (splitNumbers e).2) := by
  unfold splitNumbers
  split
  · rename_i v
    exact ⟨by simpa using he, by simp [factorsOf],
      by simpa [factorsOf] using coefficientWeight_le v, by simp [factorsOf]⟩
  · have hsplits := factors_splits he
    dsimp only
    split_ifs with hn ho
    · rw [List.isEmpty_iff] at hn
      have hall : (factors e).filter (!·.isNum) = factors e := by
        rw [List.filter_eq_self]
        intro f hf
        cases f with
        | num v => exact absurd (List.filterMap_eq_nil_iff.mp hn _ hf) (by simp [number?])
        | _ => rfl
      rwa [hn, hall, ← foldl_mul_rat] at hsplits
    · rw [List.isEmpty_iff] at ho
      rwa [ho, ← foldl_mul_rat] at hsplits
    · rw [List.isEmpty_iff] at ho
      rw [← foldl_mul_rat] at hsplits
      rwa [factorsOf, product_factors ho fun f hf => (hsplits.proper f hf).single]

end Splitting

end RuleAlgebra.Term
