import RuleAlgebra.Proofs.CommonFactorMasses
import RuleAlgebra.Proofs.ExpressionDegrees
import RuleAlgebra.Proofs.RootFactoring
import RuleAlgebra.Proofs.RootSearch

/-!
Factoring over rational roots, top-down, ends as well: every root that is divided out lowers the
degree of what is left, however many terms that has. So both rules that factor come to an end on
every expression.
-/

namespace RuleAlgebra.Roots

open RuleAlgebra.Expr RuleAlgebra.Term

section Lengths

theorem length_divideOut (root : Rat) (fuel : Nat) (desc : List Rat) :
    (divideOut root fuel desc).1 + (divideOut root fuel desc).2.length = desc.length := by
  fun_induction divideOut root fuel desc with
  | case1 desc => simp
  | case2 fuel desc h n rest hr ih =>
    rw [length_deflate root h.1, hr] at ih
    dsimp only at ih ⊢
    omega
  | case3 fuel desc h => simp

theorem length_divideOutAll (cs desc : List Rat) :
    (divideOutAll cs desc).1.length + (divideOutAll cs desc).2.length = desc.length := by
  induction cs generalizing desc with
  | nil => simp [divideOutAll]
  | cons c cs ih =>
    have hout := length_divideOut c desc.length desc
    have hrest := ih (divideOut c desc.length desc).2
    simp only [divideOutAll, List.length_append, List.length_replicate]
    omega

theorem length_splitZeros (desc : List Rat) :
    (splitZeros desc).1 + (splitZeros desc).2.length = desc.length := by
  simp only [splitZeros, List.length_take]
  omega

theorem length_ofIntegers (coeffs : List Rat) :
    (ofIntegers coeffs).1.length + (ofIntegers coeffs).2.length = coeffs.length := by
  obtain h | ⟨n, desc, hsplit, hfound⟩ := ofIntegers_cases coeffs
  · simp [h]
  · have hlength := length_splitZeros coeffs.reverse
    rw [hsplit, List.length_reverse] at hlength
    dsimp only at hlength
    obtain h | ⟨lead, const, -, -, h⟩ := hfound
    · simpa [h] using hlength
    · have hall := length_divideOutAll (candidates lead const) desc
      simp only [h, List.length_mergeSort, List.length_append, List.length_replicate]
      omega

end Lengths

section Factors

theorem powerOf_degree (x : String) {n : Nat} (hn : n ≠ 0) :
    (powerOf (.var x) n : Expr Rat).degree ≤ n := by
  unfold powerOf
  split_ifs
  · rw [degree_var]
    omega
  · rw [degree_op, opDegree]
    split
    · rename_i k hk
      have hkn : k = n := by
        obtain ⟨v, hv, hint⟩ := toInt?_of_degree? hk
        obtain rfl := num.inj hv
        have := Scalar.toInt?_eq_some.mp hint
        rw [Scalar.ofNat_rat] at this
        exact_mod_cast this.symm
      rw [degree_var]
      omega
    · rw [degree_var, degree_ofNat]
      omega

theorem build_degree (asc : List Rat) (x : String) :
    ∃ e, build asc x = .ok e ∧ e.degree ≤ asc.length - 1 := by
  refine ⟨_, sum_rat _, writtenSum_degree fun t ht => ?_⟩
  obtain ⟨⟨c, d⟩, hm, rfl⟩ := List.mem_map.mp (List.mem_reverse.mp ht)
  have hd : d < asc.length := by
    have := List.snd_lt_of_mem_zipIdx hm
    omega
  dsimp only
  split_ifs with h0
  · simp [restDegree]
  · have := powerOf_degree x h0
    rw [restDegree]
    omega

theorem linearFactor_degree (root : Rat) (x : String) :
    ∃ e, linearFactor root (.var x) = .ok e ∧ (e : Expr Rat).degree = 1 := by
  by_cases h0 : root = 0
  · exact ⟨.var x, by simp [linearFactor, h0]; rfl, degree_var x⟩
  · refine ⟨_, by simp [linearFactor, h0, Expr.ofRat?]; rfl, ?_⟩
    split_ifs <;> simp [opDegree]

/-- A factor of lower degree than a polynomial with the given number of coefficients, or a power of
one. -/
def LowFactor (n : Nat) (e : Expr Rat) : Prop :=
  e.degree + 2 ≤ n ∨ ∃ base v, e = .op .pow base (num v) ∧ base.degree + 2 ≤ n

theorem rootFactors_low {n : Nat} (hn : 3 ≤ n) (roots : List Rat) (x : String) :
    ∃ fs, rootFactors (.var x) roots = .ok fs ∧ ∀ f ∈ fs, LowFactor n f := by
  obtain ⟨fs, hfs, hall⟩ := rootFactors_ok fun root _ => linearFactor_degree root x
  refine ⟨fs, hfs, forall_mem_of_forall₂ hall fun root f hf => ?_⟩
  obtain ⟨d, hdegree, rfl⟩ := hf
  split_ifs
  · exact Or.inl (by omega)
  · exact Or.inr ⟨d, _, rfl, by omega⟩

theorem factor_low {coeffs : List Rat} (hlength : 3 ≤ coeffs.length) (x : String) :
    ∃ r, factor coeffs x = .ok r ∧
      ∀ d ∈ r, ∃ fs, d = Term.product fs ∧ ∀ f ∈ fs, LowFactor coeffs.length f := by
  obtain ⟨⟨roots, rest⟩, hfound⟩ : ∃ found, ofIntegers coeffs = found := ⟨_, rfl⟩
  obtain ⟨fs, hfs, hlow⟩ := rootFactors_low hlength roots x
  obtain ⟨r, hr, hnone, hfactored⟩ := factor_factored hfound hfs
  refine ⟨r, hr, fun d hd => ?_⟩
  have hroots : 0 < roots.length := by
    apply List.length_pos_of_ne_nil
    rw [ne_eq, ← hnone]
    rintro rfl
    cases hd
  have hleft : roots.length + (rest.map (· / roots.foldl (fun s r => s * (r.den : Rat)) 1)).length =
      coeffs.length := by
    rw [List.length_map]
    simpa [hfound] using length_ofIntegers coeffs
  generalize rest.map (· / roots.foldl (fun s r => s * (r.den : Rat)) 1) = left at hleft hfactored
  cases hfactored d hd with
  | linear => exact ⟨fs, rfl, hlow⟩
  | constant c =>
    have hc : LowFactor coeffs.length (num c) := Or.inl (by simp; omega)
    exact ⟨num c :: fs, rfl, List.forall_mem_cons.mpr ⟨hc, hlow⟩⟩
  | remaining he =>
    obtain ⟨e, he', hdegree⟩ := build_degree left.reverse x
    obtain rfl := Except.ok.inj (he'.symm.trans he)
    rw [List.length_reverse] at hdegree
    exact ⟨fs ++ [e], rfl, List.forall_mem_append.mpr
      ⟨hlow, List.forall_mem_singleton.mpr (Or.inl (by omega))⟩⟩

end Factors

end RuleAlgebra.Roots

namespace RuleAlgebra.Rules

open RuleAlgebra.Expr

section Descent

theorem factorRationalRoots_mul (l r : Expr Rat) :
    factorRationalRoots (op .mul l r) = .ok (op .mul l r) := rfl

theorem factorRationalRoots_ends_num (v : Rat) : Simplifier.Ends factorRationalRoots (num v) :=
  .intro rfl (by simp [children])

/-- On a factor of lower degree, or a power of one, the rule ends, and on the parts of it. -/
theorem factorRationalRoots_ends_low {n : Nat} {e : Expr Rat} (h : Roots.LowFactor (n + 1) e)
    (less : ∀ d : Expr Rat, d.degree < n → Simplifier.Ends factorRationalRoots d) :
    Simplifier.Ends factorRationalRoots e ∧
      ∀ c ∈ e.children, Simplifier.Ends factorRationalRoots c := by
  rcases h with h | ⟨base, v, rfl, h⟩
  · refine ⟨less e (by omega), fun c hc => less c ?_⟩
    have := degree_children e c hc
    omega
  · have hparts : ∀ c ∈ (op .pow base (num v)).children, Simplifier.Ends factorRationalRoots c := by
      simpa [children] using ⟨less base (by omega), factorRationalRoots_ends_num v⟩
    exact ⟨.intro rfl hparts, hparts⟩

theorem factorRationalRoots_ends (e : Expr Rat) : Simplifier.Ends factorRationalRoots e := by
  refine Simplifier.ends_of_measure degree factorRationalRoots_ends_num
    (fun e c hc => Or.inl (degree_children e c hc)) (fun e less parts => ?_) e
  obtain h | ⟨x, coeffs, -, hcoeffs, hlength, h⟩ := factorRationalRoots_cases e
  · exact .intro h parts
  · obtain ⟨r, hr, hlow⟩ := Roots.factor_low hlength x
    rw [hr, ok_bind] at h
    cases r with
    | none => exact .intro h parts
    | some d =>
      obtain ⟨fs, rfl, hfs⟩ := hlow d rfl
      have hdegree := numericCoefficients_length hcoeffs
      obtain ⟨n, hn⟩ : ∃ n, coeffs.length = n + 1 := ⟨coeffs.length - 1, by omega⟩
      have hends := fun f hf => factorRationalRoots_ends_low (hn ▸ hfs f hf)
        fun d hd => less d (by omega)
      exact .intro h (Simplifier.ends_product_parts factorRationalRoots_mul
        (fun f hf => (hends f hf).1) fun f hf => (hends f hf).2)

/-- In exact arithmetic both rules that factor end on every expression when they are applied
top-down, although what they make of a part can be larger than the part was. -/
theorem topDown_factoring_ends (e : Expr Rat) :
    Simplifier.TopDownEnds factorCommonTerm e ∧ Simplifier.TopDownEnds factorRationalRoots e :=
  ⟨(factorCommonTerm_ends e).topDown, (factorRationalRoots_ends e).topDown⟩

end Descent

end RuleAlgebra.Rules
