import RuleAlgebra.Proofs.CommonFactors
import RuleAlgebra.Proofs.TermMasses
import RuleAlgebra.Proofs.TopDownRewriting

/-!
Taking common factors out of a sum, top-down, ends: what is left of the sum weighs less than the sum
did. A coefficient loses the prime factors of the divisor, and a shared power is used up in the term
where it is lowest; that others are written as longer powers adds nothing to their mass.
-/

namespace RuleAlgebra.Rules

open RuleAlgebra.Expr RuleAlgebra.Term

section Powers

/-- The mass of a base with an exponent, where a power with a number as exponent weighs at least
one, so that lowering the exponent never adds to it. -/
def powerMass (p : Expr Rat × Expr Rat) : Nat :=
  match p.2 with
  | .num v => if v = 0 then 0 else max 1 p.1.mass
  | e => p.1.mass + e.mass + 1

def powersMass (ps : PowerList) : Nat := (ps.map powerMass).sum

@[simp] theorem powersMass_nil : powersMass [] = 0 := rfl

@[simp] theorem powersMass_cons (p : Expr Rat × Expr Rat) (ps : PowerList) :
    powersMass (p :: ps) = powerMass p + powersMass ps := by simp [powersMass]

theorem powerMass_num (base : Expr Rat) (v : Rat) :
    powerMass (base, num v) = if v = 0 then 0 else max 1 base.mass := rfl

theorem powerMass_powerParts {f : Expr Rat} (hnum : f.isNum = false) (hsingle : factors f = [f]) :
    powerMass (powerParts f) ≤ f.mass := by
  have hpos := mass_pos hnum hsingle
  unfold powerParts
  split
  · rename_i base exponent
    cases exponent with
    | num v =>
      rw [powerMass_num, mass_op, opMass, isNum, if_pos rfl]
      split_ifs <;> omega
    | _ => simp [powerMass, opMass, isNum]
  · rw [ofNat, powerMass_num, Scalar.ofNat_rat]
    simp only [Nat.cast_one, one_ne_zero, if_false]
    omega

theorem factorOf?_mass (p : Expr Rat × Expr Rat) : restMass (factorOf? p) ≤ powerMass p := by
  obtain ⟨base, exponent⟩ := p
  cases exponent with
  | num v =>
    rw [powerMass_num]
    simp only [factorOf?, powerFactor?, Scalar.beq_rat, Scalar.zero_rat, Scalar.one_rat,
      decide_eq_true_eq]
    split_ifs
    · simp [restMass]
    · rw [restMass]
      omega
    · simp [restMass, opMass, isNum]
  | _ => simp [factorOf?, powerMass, restMass, opMass, isNum]

theorem mass_filterMap_factorOf? (ps : PowerList) :
    ((ps.filterMap factorOf?).map mass).sum ≤ powersMass ps := by
  induction ps with
  | nil => simp
  | cons p ps ih =>
    have hp := factorOf?_mass p
    rw [powersMass_cons, List.filterMap_cons]
    split
    · omega
    · rename_i f hf
      rw [hf, restMass] at hp
      rw [List.map_cons, List.sum_cons]
      omega

theorem powersMass_powerParts {rest : Option (Expr Rat)} (h : NumberFree rest) :
    powersMass ((factorsOf rest).map powerParts) ≤ restMass rest := by
  cases rest with
  | none => simp [factorsOf]
  | some e =>
    rw [restMass, ← sum_factors mass_mul e, powersMass, List.map_map]
    exact List.sum_le_sum fun f hf =>
      powerMass_powerParts (h f hf) (factors_of_mem_factors hf)

theorem base_mass {base : Expr Rat} {v : Rat} (hv : v ≠ 0) {ps : PowerList}
    (h : (base, num v) ∈ ps) : base.mass ≤ powersMass ps := by
  have hle : powerMass (base, num v) ≤ powersMass ps :=
    List.le_sum_of_mem (List.mem_map.mpr ⟨_, h, rfl⟩)
  rw [powerMass_num, if_neg hv] at hle
  omega

end Powers

section Lowering

variable {base : Expr Rat} {low : Rat}

theorem powerMass_lowered (base : Expr Rat) {low v : Rat} (hlow : 0 < low) (hle : low ≤ v) :
    powerMass (base, num (v - low)) ≤ powerMass (base, num v) := by
  have hv : v ≠ 0 := (hlow.trans_le hle).ne'
  rw [powerMass_num, powerMass_num, if_neg hv]
  split_ifs <;> omega

theorem lowerPower_mass (hlow : 0 < low) (ps : PowerList) :
    powersMass (lowerPower base low ps) ≤ powersMass ps := by
  induction ps with
  | nil => exact le_rfl
  | cons p ps ih =>
    obtain ⟨b, e⟩ := p
    rw [lowerPower]
    split
    · rename_i v hv
      obtain rfl := number?_eq_some.mp hv
      split_ifs with hb
      · simp only [Bool.and_eq_true, beq_iff_eq, Scalar.le_rat, decide_eq_true_eq] at hb
        have := powerMass_lowered b hlow hb.2
        rw [powersMass_cons, powersMass_cons]
        omega
      · rw [powersMass_cons, powersMass_cons]
        omega
    · rw [powersMass_cons, powersMass_cons]
      omega

theorem lowerPower_mass_lt (hlow : 0 < low) {ps : PowerList} (h : FirstPower base low ps) :
    powersMass (lowerPower base low ps) < powersMass ps := by
  obtain ⟨before, after, rfl, hbefore⟩ := h
  induction before with
  | nil =>
    rw [List.nil_append, lowerPower]
    simp only [number?, BEq.rfl, Scalar.le_rat, le_refl, decide_true, Bool.and_true, if_true,
      sub_self]
    rw [powersMass_cons, powersMass_cons, powerMass_num, powerMass_num, if_pos rfl,
      if_neg hlow.ne']
    omega
  | cons p before ih =>
    obtain ⟨b, e⟩ := p
    have hlt := ih fun w hw => hbefore w (List.mem_cons_of_mem _ hw)
    rw [List.cons_append, lowerPower]
    split
    · rename_i v hv
      obtain rfl := number?_eq_some.mp hv
      rw [if_neg, powersMass_cons, powersMass_cons]
      · omega
      · simp only [Bool.and_eq_true, beq_iff_eq, Scalar.le_rat, decide_eq_true_eq, not_and, not_le]
        rintro rfl
        exact hbefore v List.mem_cons_self
    · rw [powersMass_cons, powersMass_cons]
      omega

theorem foldl_lowerPower_mass {shared : List (Expr Rat × Rat)} (hpos : ∀ s ∈ shared, 0 < s.2)
    (ps : PowerList) :
    powersMass (shared.foldl (fun ps (base, low) => lowerPower base low ps) ps) ≤
      powersMass ps := by
  induction shared generalizing ps with
  | nil => exact le_rfl
  | cons s shared ih =>
    obtain ⟨hs, hpos⟩ := List.forall_mem_cons.mp hpos
    exact (ih hpos _).trans (lowerPower_mass hs ps)

theorem withoutShared_powers {shared : List (Expr Rat × Rat)} (hne : shared ≠ [])
    (rest : Option (Expr Rat)) : restMass (withoutShared shared rest) ≤
      powersMass (shared.foldl (fun ps (base, low) => lowerPower base low ps)
        ((factorsOf rest).map powerParts)) := by
  unfold withoutShared
  rw [if_neg (by simpa using hne)]
  dsimp only
  split
  · simp [restMass]
  · rename_i hkept
    rw [restMass, sum_product mass_mul (by simpa using hkept)]
    exact mass_filterMap_factorOf? _

theorem withoutShared_mass {shared : List (Expr Rat × Rat)} (hpos : ∀ s ∈ shared, 0 < s.2)
    {rest : Option (Expr Rat)} (h : NumberFree rest) :
    restMass (withoutShared shared rest) ≤ restMass rest := by
  by_cases hne : shared = []
  · simp [withoutShared, hne]
  · exact ((withoutShared_powers hne rest).trans (foldl_lowerPower_mass hpos _)).trans
      (powersMass_powerParts h)

theorem withoutShared_mass_lt {s : Expr Rat × Rat} {shared : List (Expr Rat × Rat)}
    (hpos : ∀ p ∈ s :: shared, 0 < p.2) {rest : Option (Expr Rat)} (h : NumberFree rest)
    (hfirst : FirstPower s.1 s.2 ((factorsOf rest).map powerParts)) :
    restMass (withoutShared (s :: shared) rest) < restMass rest := by
  obtain ⟨hs, hshared⟩ := List.forall_mem_cons.mp hpos
  calc restMass (withoutShared (s :: shared) rest)
      ≤ powersMass (shared.foldl (fun ps (base, low) => lowerPower base low ps)
          (lowerPower s.1 s.2 ((factorsOf rest).map powerParts))) :=
        withoutShared_powers (by simp) rest
    _ ≤ powersMass (lowerPower s.1 s.2 ((factorsOf rest).map powerParts)) :=
        foldl_lowerPower_mass hshared _
    _ < powersMass ((factorsOf rest).map powerParts) := lowerPower_mass_lt hs hfirst
    _ ≤ restMass rest := powersMass_powerParts h

end Lowering

section Terms

variable {g : Nat} {cs : List (Coefficient Rat)}

theorem divided_one (c : Coefficient Rat) : divided 1 c = c := by
  cases c <;> simp [divided]

theorem divided_mass {c : Coefficient Rat} (h : DividesAll g 0 cs) (hc : c ∈ cs) :
    fractionMass (divided g c) = 0 ∧ numMass (c.value / g) ≤ numMass c.value ∧
      (c.value ≠ 0 → numMass (c.value / g) < numMass c.value) := by
  obtain ⟨n, hn, k, rfl⟩ := h.integers c hc
  have hg : (g : Rat) ≠ 0 := by exact_mod_cast Nat.ne_zero_of_lt h.one_lt
  have hk : c.value / g = (k : Int) := by
    rw [hn]
    push_cast
    field_simp
  have hlt : c.value ≠ 0 → numMass (c.value / g) < numMass c.value := by
    intro h0
    rw [hn] at h0 ⊢
    exact numMass_div_lt h.one_lt (dvd_mul_right _ _) (by exact_mod_cast h0)
  refine ⟨?_, ?_, hlt⟩
  · cases c with
    | inexact v => rfl
    | exact q =>
      rw [Coefficient.value_exact] at hk
      simp [divided, fractionMass, hk]
  · by_cases h0 : c.value = 0
    · simp [h0]
    · exact (hlt h0).le

theorem reduced_coefficient (h : g = 1 ∨ DividesAll g 0 cs) {c : Coefficient Rat} (hc : c ∈ cs) :
    numMass (divided g c).value + fractionMass (divided g c) ≤
      numMass c.value + fractionMass c := by
  rcases h with rfl | h
  · rw [divided_one]
  · obtain ⟨hfraction, hle, -⟩ := divided_mass h hc
    rw [hfraction, value_divided]
    omega

theorem summandMass_le (t : Term Rat) : summandMass t ≤ termMass t + 1 := by
  unfold summandMass
  split_ifs <;> omega

variable {ts : List (Term Rat)} (hfree : ∀ t ∈ ts, NumberFree t.rest)
include hfree

theorem reduced_mass (hg : g = 1 ∨ DividesAll g 0 (ts.map (·.coefficient))) {t : Term Rat}
    (ht : t ∈ ts) : termMass (reduced g (sharedOf ts) t) ≤ termMass t := by
  have hc := reduced_coefficient hg (List.mem_map.mpr ⟨t, ht, rfl⟩)
  have hrest := withoutShared_mass (sharedOf_sharedBy ts).positive (hfree t ht)
  simp only [termMass, reduced]
  omega

theorem exists_reduced_lt (hg : g = 1 ∨ DividesAll g 0 (ts.map (·.coefficient)))
    (h : ¬(g = 1 ∧ (sharedOf ts).isEmpty = true)) :
    ∃ t ∈ ts, termMass (reduced g (sharedOf ts) t) < termMass t := by
  have hpositive := (sharedOf_sharedBy ts).positive
  rcases hg with rfl | hg
  · obtain ⟨s, shared, hs⟩ := List.exists_cons_of_ne_nil (l := sharedOf ts) (by simpa using h)
    obtain ⟨powers, hpowers, hfirst⟩ := (sharedOf_sharedBy ts).attained s (by simp [hs])
    obtain ⟨t, ht, rfl⟩ := List.mem_map.mp hpowers
    rw [hs] at hpositive ⊢
    have hrest := withoutShared_mass_lt hpositive (hfree t ht) hfirst
    refine ⟨t, ht, ?_⟩
    simp only [termMass, reduced, divided_one]
    omega
  · obtain ⟨c, hc, hc0⟩ := hg.nonzero.resolve_left (by simp)
    obtain ⟨hfraction, -, hlt⟩ := divided_mass hg hc
    obtain ⟨t, ht, rfl⟩ := List.mem_map.mp hc
    have hrest := withoutShared_mass hpositive (hfree t ht)
    have := hlt hc0
    refine ⟨t, ht, ?_⟩
    simp only [termMass, reduced, hfraction, value_divided]
    omega

theorem sum_reduced_lt (hg : g = 1 ∨ DividesAll g 0 (ts.map (·.coefficient)))
    (h : ¬(g = 1 ∧ (sharedOf ts).isEmpty = true)) :
    ((ts.map (reduced g (sharedOf ts))).map summandMass).sum < termsMass ts := by
  rw [List.map_map, termsMass]
  refine List.sum_lt_sum _ _ (fun t ht => ?_) ?_
  · exact (summandMass_le _).trans (Nat.add_le_add_right (reduced_mass hfree hg ht) 1)
  · obtain ⟨t, ht, hlt⟩ := exists_reduced_lt hfree hg h
    exact ⟨t, ht, (summandMass_le _).trans_lt (Nat.add_lt_add_right hlt 1)⟩

theorem shared_base_mass {s : Expr Rat × Rat} (hs : s ∈ sharedOf ts) :
    ∃ t ∈ ts, s.1.mass ≤ termMass t := by
  obtain ⟨powers, hpowers, hfirst⟩ := (sharedOf_sharedBy ts).attained s hs
  obtain ⟨t, ht, rfl⟩ := List.mem_map.mp hpowers
  have hbase := base_mass ((sharedOf_sharedBy ts).positive s hs).ne' hfirst.mem
  have hrest := powersMass_powerParts (hfree t ht)
  refine ⟨t, ht, ?_⟩
  rw [termMass]
  omega

end Terms

section Descent

theorem append_terms_mass {ls rs : List (Term Rat)} {m n : Nat} (hl : termsMass ls ≤ m + 1)
    (hr : termsMass rs ≤ n + 1) :
    termsMass (ls ++ rs) ≤ m + n + 2 ∧ ∀ t ∈ ls ++ rs, termMass t < m + n + 1 := by
  have hmem {ts : List (Term Rat)} {t : Term Rat} (ht : t ∈ ts) : termMass t + 1 ≤ termsMass ts :=
    List.le_sum_of_mem (List.mem_map.mpr ⟨t, ht, rfl⟩)
  refine ⟨by rw [termsMass_append]; omega, fun t ht => ?_⟩
  rcases List.mem_append.mp ht with ht | ht
  · have := hmem ht
    omega
  · have := hmem ht
    omega

theorem mass_sum {o : Arithmetic} (ho : o.isAdditive = true) (l r : Expr Rat) :
    (op o l r).mass = l.mass + r.mass + 1 := by
  cases o with
  | add => exact mass_op .add
  | sub => exact mass_op .sub
  | _ => cases ho

theorem sum_terms_mass {o : Arithmetic} (ho : o.isAdditive = true) (l r : Expr Rat) :
    ∃ ts, terms (op o l r) = .ok ts ∧ termsMass ts ≤ (op o l r).mass + 1 ∧
      (∀ t ∈ ts, termMass t < (op o l r).mass) ∧ ∀ t ∈ ts, NumberFree t.rest := by
  rw [mass_sum ho]
  obtain ⟨ls, hls, wls, fls⟩ := ofSum_mass (show Int.natAbs 1 = 1 from rfl) l
  cases o with
  | add =>
    obtain ⟨rs, hrs, wrs, frs⟩ := ofSum_mass (show Int.natAbs 1 = 1 from rfl) r
    obtain ⟨htotal, heach⟩ := append_terms_mass wls wrs
    exact ⟨ls ++ rs, by simp only [terms, ofSum, hls, hrs]; rfl, htotal, heach,
      List.forall_mem_append.mpr ⟨fls, frs⟩⟩
  | sub =>
    obtain ⟨rs, hrs, wrs, frs⟩ := ofSum_mass (show Int.natAbs (-1) = 1 from rfl) r
    obtain ⟨htotal, heach⟩ := append_terms_mass wls wrs
    exact ⟨ls ++ rs, by simp only [terms, ofSum, hls, hrs]; rfl, htotal, heach,
      List.forall_mem_append.mpr ⟨fls, frs⟩⟩
  | _ => cases ho

/-- A sum that is changed becomes a product of numbers, powers of lighter bases and a lighter
sum. -/
theorem factorCommonTerm_lighter {o : Arithmetic} (ho : o.isAdditive = true) (l r : Expr Rat) :
    factorCommonTerm (op o l r) = .ok (op o l r) ∨ ∃ g shared inside,
      factorCommonTerm (op o l r) = .ok (op .mul (Term.product (outside g shared)) inside) ∧
        (∀ s ∈ shared, s.1.mass < (op o l r).mass) ∧ inside.mass < (op o l r).mass := by
  obtain ⟨ts, hts, htotal, heach, hfree⟩ := sum_terms_mass ho l r
  obtain ⟨g, hg, hdivides⟩ := commonDivisor_rat 0 (ts.map (·.coefficient))
  have hmass := writtenSum_mass (ts.map (reduced g (sharedOf ts)))
  rw [factorCommonTerm_eq ho hts hg]
  split_ifs with hnone
  · exact Or.inl rfl
  · refine Or.inr ⟨g, sharedOf ts, _, rfl, fun s hs => ?_, ?_⟩
    · obtain ⟨t, ht, hle⟩ := shared_base_mass hfree hs
      exact hle.trans_lt (heach t ht)
    · have hlt := sum_reduced_lt hfree hdivides hnone
      have hpos := mass_sum ho l r
      omega

theorem factorCommonTerm_ends_num (v : Rat) : Simplifier.Ends factorCommonTerm (num v) :=
  .intro rfl (by simp [children])

theorem factorCommonTerm_ends_outside {shared : List (Expr Rat × Rat)}
    (h : ∀ s ∈ shared, Simplifier.Ends factorCommonTerm s.1) (g : Nat) :
    ∀ f ∈ outside g shared, Simplifier.Ends factorCommonTerm f := by
  have hpowers : ∀ f ∈ shared.filterMap fun s => powerFactor? s.1 s.2,
      Simplifier.Ends factorCommonTerm f := by
    intro f hf
    obtain ⟨s, hs, hpower⟩ := List.mem_filterMap.mp hf
    unfold powerFactor? at hpower
    split_ifs at hpower
    · obtain rfl := Option.some.inj hpower
      exact h s hs
    · obtain rfl := Option.some.inj hpower
      exact .intro rfl (by simpa [children] using ⟨h s hs, factorCommonTerm_ends_num s.2⟩)
  unfold outside
  split_ifs
  · exact hpowers
  · exact List.forall_mem_cons.mpr ⟨factorCommonTerm_ends_num g, hpowers⟩

theorem factorCommonTerm_mul (l r : Expr Rat) :
    factorCommonTerm (op .mul l r) = .ok (op .mul l r) := rfl

theorem factorCommonTerm_ends (e : Expr Rat) : Simplifier.Ends factorCommonTerm e := by
  refine Simplifier.ends_of_measure mass factorCommonTerm_ends_num mass_children
    (fun e less parts => ?_) e
  rcases factorCommonTerm_cases e with h | ⟨o, l, r, rfl, ho⟩
  · exact .intro h parts
  · rcases factorCommonTerm_lighter ho l r with h | ⟨g, shared, inside, h, hshared, hinside⟩
    · exact .intro h parts
    · have houtside := factorCommonTerm_ends_outside (fun s hs => less _ (hshared s hs)) g
      refine .intro h ?_
      simpa [children] using ⟨Simplifier.ends_product factorCommonTerm_mul
        (factorCommonTerm_ends_num _) houtside, less _ hinside⟩

end Descent

end RuleAlgebra.Rules
