import RuleAlgebra.Proofs.BinaryZeros
import RuleAlgebra.Proofs.LinearEquations
import RuleAlgebra.Proofs.OverflowingRuns
import RuleAlgebra.Proofs.PolynomialSolutions

/-!
When solving an equation divides by zero. A polynomial is solved by dividing by its leading
coefficient, and only a leading coefficient that is written as the number zero is left out; one that
merely has the value zero stays. The division by it happens in the quadratic formula, and in the
formula for what is left of an integer polynomial when its lowest zeros are split off.
-/

namespace RuleAlgebra

namespace Scalar

/-- What a comparison with zero tells: the exact value is zero. Twice a number is zero only where the
number is, and so is what an integer is rounded to; the discriminant `b² - 4ac` with a vanishing `a`
is not negative. -/
structure ZeroTested (α : Type) [Scalar α] : Prop where
  value {a : α} : (a == zero) = true ↔ toRat? a = some 0
  double {a : α} : (ofNat 2 * a == zero) = true ↔ (a == zero) = true
  round {n : Int} {a : α} : ofRat? n = some a → ∃ q, toRat? a = some q ∧ (q = 0 ↔ n = 0)
  not_negative {a b c : α} : (a == zero) = true → lt (b * b - ofNat 4 * a * c) zero = false
  nonneg {a b c : α} {p q : Rat} : (a == zero) = true → toRat? b = some p → toRat? c = some q →
    le zero (b * b - ofNat 4 * a * c) = true

theorem zeroTested_rat : ZeroTested Rat where
  value := by simp
  double := by simp
  round := by
    rintro n _ ⟨⟩
    exact ⟨n, rfl, Int.cast_eq_zero⟩
  not_negative := by
    intro a b c ha
    obtain rfl : a = 0 := by simpa using ha
    simpa using mul_self_nonneg b
  nonneg := by
    intro a b c p q ha _ _
    obtain rfl : a = 0 := by simpa using ha
    simpa using mul_self_nonneg b

theorem zeroTested_float : ZeroTested Float where
  value := Binary64.beq_zero_iff_toRat? _
  double := by
    intro a
    change (ofNat 2 * a == (0 : Float)) = true ↔ (a == (0 : Float)) = true
    rw [Binary64.beq_zero_iff_unpack, Binary64.beq_zero_iff_unpack, Binary64.double_eq_zero_iff]
  round := Binary64.toRat?_of_ofRat?_intCast
  not_negative ha := decide_eq_false (Binary64.discriminant_not_negative ha _ _)
  nonneg := by
    intro a b c p q ha hb hc
    exact decide_eq_true (Binary64.discriminant_nonneg ha b c (Binary64.isFinite_of_toRat? hb)
      (Binary64.isFinite_of_toRat? hc))

end Scalar

namespace Roots

section Leading

theorem head?_hornerSteps (x acc : Rat) (cs : List Rat) :
    (hornerSteps x acc cs).head? = some acc := by
  cases cs <;> rfl

theorem head?_deflate (desc : List Rat) (root : Rat) : (deflate desc root).head? = desc.head? := by
  cases desc with
  | nil => rfl
  | cons c cs => exact head?_hornerSteps root c cs.dropLast

theorem head?_divideOut (root : Rat) (fuel : Nat) (desc : List Rat) :
    (divideOut root fuel desc).2.head? = desc.head? := by
  induction fuel generalizing desc with
  | zero => rfl
  | succ fuel ih =>
    unfold divideOut
    split_ifs
    · exact (ih _).trans (head?_deflate desc root)
    · rfl

theorem head?_divideOutAll (candidates desc : List Rat) :
    (divideOutAll candidates desc).2.head? = desc.head? := by
  induction candidates generalizing desc with
  | nil => rfl
  | cons c cs ih => exact (ih _).trans (head?_divideOut c desc.length desc)

theorem head?_splitZeros (desc : List Rat) : (splitZeros desc).2.head? = desc.head? := by
  cases desc with
  | nil => rfl
  | cons c cs =>
    have hpos : 0 < (c :: cs).length - (splitZeros (c :: cs)).1 := by
      simp only [splitZeros, List.length_cons]
      omega
    change ((c :: cs).take ((c :: cs).length - (splitZeros (c :: cs)).1)).head? = some c
    rw [List.head?_take, if_neg hpos.ne']
    rfl

theorem head?_ofIntegers (coeffs : List Rat) : (ofIntegers coeffs).2.head? = coeffs.getLast? := by
  rw [← List.head?_reverse]
  obtain h | ⟨n, desc, hsplit, hfound⟩ := ofIntegers_cases coeffs
  · rw [h]
  · have hhead := head?_splitZeros coeffs.reverse
    rw [hsplit] at hhead
    obtain h | ⟨lead, const, -, -, h⟩ := hfound
    · rwa [h]
    · rw [h]
      exact (head?_divideOutAll _ desc).trans hhead

theorem candidates_zero (const : Nat) : candidates 0 const = [] := by
  have hnone :
      ((divisors const).flatMap fun (p : Nat) => (divisors 0).map fun q => mkRat p q) = [] :=
    List.flatMap_eq_nil_iff.mpr fun _ _ => rfl
  simp [candidates, hnone, distinct]

/-- A vanishing leading coefficient leaves no candidates, so that only zeros are split off. -/
theorem ofIntegers_of_vanishing {coeffs : List Rat} (hlead : coeffs.getLast? = some 0)
    (hintegers : ∀ q ∈ coeffs, q.den = 1) :
    let n := min (coeffs.takeWhile (· = 0)).length (coeffs.length - 1)
    ofIntegers coeffs = (List.replicate n 0, (coeffs.drop n).reverse) := by
  intro n
  have hne : coeffs ≠ [] := by
    rintro rfl
    simp at hlead
  have hall : (coeffs.reverse.isEmpty || coeffs.reverse.any (·.den != 1)) = false := by
    simpa [hne] using hintegers
  have hsplit : splitZeros coeffs.reverse = (n, (coeffs.drop n).reverse) := by
    rw [List.reverse_drop]
    simp only [splitZeros, List.reverse_reverse, List.length_reverse, n]
  have hhead : (coeffs.drop n).reverse.head? = some 0 := by
    have h := head?_splitZeros coeffs.reverse
    rwa [hsplit, List.head?_reverse (l := coeffs), hlead] at h
  obtain ⟨low, hlow⟩ : ∃ low, (coeffs.drop n).reverse.getLast? = some low := by
    rw [← Option.isSome_iff_exists, List.getLast?_isSome]
    rintro hnil
    simp [hnil] at hhead
  have hsorted : (List.replicate n (0 : Rat)).mergeSort (· ≤ ·) = List.replicate n 0 :=
    List.mergeSort_of_pairwise (by simp [List.pairwise_replicate])
  simp only [ofIntegers, hall, hsplit, hhead, hlow, Bool.false_eq_true, if_false, Rat.num_zero,
    Int.natAbs_zero, candidates_zero, divideOutAll, List.append_nil, hsorted]
  split_ifs <;> rfl

theorem ofIntegers_of_zeros (k : Nat) {m n : Int} (hne : m ≠ 0 ∨ n ≠ 0) :
    let qs : List Rat := List.replicate k 0 ++ [(m : Rat), (n : Rat), 0]
    ofIntegers qs = if m = 0 then (List.replicate (k + 1) 0, [0, (n : Rat)])
      else (List.replicate k 0, [0, (n : Rat), (m : Rat)]) := by
  intro qs
  have hzeros : ∀ q ∈ List.replicate k (0 : Rat), decide (q = 0) = true := by
    intro q hq
    simpa using List.eq_of_mem_replicate hq
  have hintegers : ∀ q ∈ qs, q.den = 1 := by
    intro q hq
    simp only [qs, List.mem_append, List.mem_cons, List.not_mem_nil, or_false] at hq
    rcases hq with hq | rfl | rfl | rfl
    · rw [List.eq_of_mem_replicate hq, Rat.den_zero]
    · exact Rat.den_intCast m
    · exact Rat.den_intCast n
    · rfl
  have hlast : qs.getLast? = some 0 := by simp [qs]
  rw [ofIntegers_of_vanishing hlast hintegers]
  split_ifs with hm
  · subst hm
    have hn : n ≠ 0 := by simpa using hne
    simp [qs, List.takeWhile_append_of_pos hzeros, hn, List.drop_append]
  · simp [qs, List.takeWhile_append_of_pos hzeros, hm]

theorem integers_of_short {qs : List Rat} (hlength : 4 ≤ qs.length)
    (hshort : (ofIntegers qs).2.length < 4) : ∀ q ∈ qs, q.den = 1 := by
  by_contra hintegers
  have hsome : (qs.reverse.isEmpty || qs.reverse.any (·.den != 1)) = true := by
    simpa using Or.inr hintegers
  simp only [ofIntegers, hsome, if_true, List.length_reverse] at hshort
  omega

theorem eq_of_ofIntegers_short {qs : List Rat} (hlead : qs.getLast? = some 0)
    (hlength : 4 ≤ qs.length) (hlong : 1 < (ofIntegers qs).2.length)
    (hshort : (ofIntegers qs).2.length < 4) : ∃ (k : Nat) (m n : Int), (m ≠ 0 ∨ n ≠ 0) ∧
      qs = List.replicate k 0 ++ [(m : Rat), (n : Rat), 0] := by
  have hintegers := integers_of_short hlength hshort
  rw [ofIntegers_of_vanishing hlead hintegers, List.length_reverse, List.length_drop]
    at hlong hshort
  have hsplit : qs.takeWhile (· = 0) ++ qs.dropWhile (· = 0) = qs :=
    List.takeWhile_append_dropWhile
  have hzeros : qs.takeWhile (· = 0) = List.replicate (qs.takeWhile (· = 0)).length 0 :=
    List.eq_replicate_of_mem fun q hq => by simpa using List.mem_takeWhile_imp hq
  have hsizes := congrArg List.length hsplit
  have hhead := List.head?_dropWhile_not (fun q : Rat => decide (q = 0)) qs
  rw [List.length_append] at hsizes
  generalize (qs.takeWhile (· = 0)).length = k at hzeros hsizes hlong hshort
  generalize qs.dropWhile (· = 0) = rest at hsplit hsizes hhead
  rw [hzeros] at hsplit
  subst hsplit
  have hnum (q : Rat) (hq : q ∈ rest) : ((q.num : Int) : Rat) = q :=
    Rat.coe_int_num_of_den_eq_one (hintegers q (List.mem_append_right _ hq))
  match rest with
  | [] | [_] | _ :: _ :: _ :: _ :: _ =>
    simp only [List.length_nil, List.length_cons] at hsizes
    omega
  | [p, r] =>
    obtain rfl : r = 0 := by simpa using hlead
    obtain ⟨j, rfl⟩ : ∃ j, k = j + 1 := ⟨k - 1, by simp at hlength; omega⟩
    refine ⟨j, 0, p.num, .inr (by simpa using hhead), ?_⟩
    rw [hnum p (by simp), List.replicate_succ', List.append_assoc]
    simp
  | [p, q, r] =>
    obtain rfl : r = 0 := by simpa using hlead
    refine ⟨k, p.num, q.num, .inl (by simpa using hhead), ?_⟩
    rw [hnum p (by simp), hnum q (by simp)]

end Leading

end Roots

namespace Expr

theorem symbolicCoefficients_last {α : Type} [Scalar α] {e : Expr α} {x : String}
    {simplify : Expr α → Except Failure (Expr α)} {cs : List (Expr α)}
    (h : e.symbolicCoefficients x simplify = .ok (some cs)) (v : α)
    (hv : cs.getLast? = some (num v)) : (v == Scalar.zero) = false := by
  unfold symbolicCoefficients at h
  split at h
  · cases h
  · obtain ⟨ds, -, h⟩ := bind_eq_ok.mp h
    obtain rfl := Option.some.inj (Except.ok.inj h)
    exact (getLast?_trimEnd hv :)

end Expr

namespace Solver

open Scalar Traced

variable {α β : Type} [Scalar α] {x : String}

abbrev divided : Failure := .arithmetic .divisionByZero

/-- The values of the coefficients make the solution divide by zero: the leading one of a quadratic
polynomial vanishes; or in a longer polynomial all but the second and third one from the end do, and
these are integers and not both zero. -/
def Vanishing (vs : List α) : Prop :=
  ∃ zs c b a, vs = zs ++ [c, b, a] ∧ (a == zero) = true ∧
    (zs = [] ∨ (∀ z ∈ zs, (z == zero) = true) ∧ ∃ m n : Int, toRat? c = some (m : Rat) ∧
      toRat? b = some (n : Rat) ∧ (m ≠ 0 ∨ n ≠ 0))

theorem vanishing_triple {c b a : α} : Vanishing [c, b, a] ↔ (a == zero) = true := by
  constructor
  · rintro ⟨zs, c', b', a', h, ha, -⟩
    have h : [] ++ [c, b, a] = zs ++ [c', b', a'] := h
    obtain ⟨rfl, h⟩ := List.append_inj' h rfl
    cases h
    exact ha
  · exact fun h => ⟨[], c, b, a, rfl, h, .inl rfl⟩

section Divisions

theorem quotient_zero {a b : α} (h : (b == zero) = true) : quotient a b = .error divided := by
  simp [quotient, h]
  rfl

theorem quotient_nonzero {a b : α} (h : (b == zero) = false) : quotient a b = .ok (a / b) := by
  simp [quotient, h]
  rfl

theorem quadraticRoots_zero (hz : ZeroTested α) {methods : NumericMethods α} {a b d : α}
    (h : (a == zero) = true) : quadraticRoots methods a b d = .error divided := by
  simp only [quadraticRoots, quotient_zero (hz.double.mpr h)]
  rfl

theorem quadraticRoots_nonzero (hz : ZeroTested α) (methods : NumericMethods α) {a : α} (b d : α)
    (h : (a == zero) = false) : ∃ vs, quadraticRoots methods a b d = .ok vs := by
  have hdouble : (ofNat 2 * a == zero) = false := by
    rw [← Bool.not_eq_true, hz.double, h]
    decide
  simp only [quadraticRoots, quotient_nonzero hdouble]
  exact ⟨_, rfl⟩

theorem round_divided (q : Rat) :
    Outcome (fun v : α => ofRat? q = some v) (· ≠ divided) (Coefficient.round q) := by
  unfold Coefficient.round
  cases (ofRat? q : Option α) with
  | none => exact (nofun : Failure.overflow ≠ divided)
  | some v => rfl

theorem exactValues_divided (vs : List α) :
    Outcome (fun qs => vs.map toRat? = qs.map some) (· ≠ divided) (Roots.exactValues vs) := by
  have hpairs : Outcome (List.Forall₂ (fun (v : α) q => toRat? v = some q) vs) (· ≠ divided)
      (Roots.exactValues vs) := by
    apply outcome_mapM
    intro v
    cases toRat? v with
    | none => exact (nofun : Failure.overflow ≠ divided)
    | some q => rfl
  apply hpairs.mono
  intro qs h
  exact (map_eq_of_forall₂ h fun v q hq => hq.symm).symm

theorem snapped_divided (vs : List α) : Outcome (fun _ => True) (· ≠ divided) (snapped vs) := by
  apply (outcome_forall_mapM (P := fun _ => True) _).mono fun _ _ => trivial
  intro v _
  unfold Roots.snap
  split
  · split_ifs
    · exact (nofun : Failure.overflow ≠ divided)
    · exact (nofun : Failure.request .notANumber ≠ divided)
  · exact (round_divided _).bind fun _ _ => trivial

theorem numbers_divided (vs : List α) : Outcome (fun _ => True) (· ≠ divided) (numbers vs) :=
  (snapped_divided vs).bind fun _ _ => trivial

end Divisions

section Equations

variable (hα : Ranged α) (hz : ZeroTested α)
include hα hz

theorem solveQuadratic_zero {s : Solver α} {a b c : Expr α} {na nb nc : α}
    (ha : a.closedValue? = some na) (hb : b.closedValue? = some nb) (hc : c.closedValue? = some nc)
    (h : (na == zero) = true) :
    Ensures (s.solveQuadratic a b c x) (fun _ => False) (· = divided) := by
  obtain ⟨e, he⟩ := Roots.build_result hα [nc, nb, na] x
  have hd : lt (nb * nb - ofNat 4 * na * nc) zero = false := hz.not_negative h
  simp only [solveQuadratic, ha, hb, hc, he, lift_ok_bind]
  refine (ensures_step trivial).bind (P := fun _ => True) fun _ _ => ?_
  rw [hd, quadraticRoots_zero hz h]
  exact fun _ => rfl

theorem solveQuadratic_nonzero {s : Solver α} {a b c : Expr α} {na nb nc : α}
    (ha : a.closedValue? = some na) (hb : b.closedValue? = some nb) (hc : c.closedValue? = some nc)
    (h : (na == zero) = false) :
    Ensures (s.solveQuadratic a b c x) (fun _ => True) (· ≠ divided) := by
  obtain ⟨e, he⟩ := Roots.build_result hα [nc, nb, na] x
  simp only [solveQuadratic, ha, hb, hc, he, lift_ok_bind]
  refine (ensures_step trivial).bind (P := fun _ => True) fun _ _ => ?_
  split_ifs
  · exact ensures_pure trivial
  · obtain ⟨vs, hvs⟩ := quadraticRoots_nonzero hz s.methods nb
      (nb * nb - ofNat 4 * na * nc) h
    rw [hvs, lift_ok_bind]
    exact (ensures_lift (numbers_divided _)).bind fun _ _ => ensures_pure trivial

theorem remainingRoots_divided {s : Solver α} {any : Bool} {cs : List α}
    (htriple : ∀ c b a, cs = [c, b, a] → (a == zero) = false)
    (hpair : any = true → ∀ c b, cs = [c, b] → (b == zero) = false) :
    Ensures (s.remainingRoots any cs x) (fun _ => True) (· ≠ divided) := by
  have numeric : Ensures (remainingRoots.numeric s cs x) (fun _ => True) (· ≠ divided) := by
    unfold remainingRoots.numeric
    split_ifs
    · exact ensures_throw (nofun : Failure.engine _ ≠ divided)
    · obtain ⟨e, he⟩ := Roots.build_result hα cs x
      rw [he, lift_ok_bind]
      exact (ensures_step trivial).bind (P := fun _ => True) fun _ _ => ensures_pure trivial
  unfold remainingRoots
  split
  · rename_i c b a
    dsimp only
    split_ifs
    · obtain ⟨vs, hvs⟩ := quadraticRoots_nonzero hz s.methods b (b * b - ofNat 4 * a * c)
        (htriple c b a rfl)
      rw [hvs]
      exact ensures_lift trivial
    · exact ensures_pure trivial
  · rename_i c b
    split_ifs with hany
    · rw [quotient_nonzero (hpair hany c b rfl), lift_ok_bind]
      exact ensures_pure trivial
    · exact numeric
  · split_ifs
    · exact numeric
    · exact ensures_pure trivial

omit hα in
theorem remainingRoots_zero {s : Solver α} {any : Bool} {c b a : α} {p q : Rat}
    (ha : (a == zero) = true) (hb : toRat? b = some p) (hc : toRat? c = some q) :
    Ensures (s.remainingRoots any [c, b, a] x) (fun _ => False) (· = divided) := by
  simp only [remainingRoots, hz.nonneg ha hb hc, if_true, quadraticRoots_zero hz ha]
  exact fun _ => rfl

omit hα hz in
theorem remainingRoots_slope_zero {s : Solver α} {b a : α} (ha : (a == zero) = true) :
    Ensures (s.remainingRoots true [b, a] x) (fun _ => False) (· = divided) := by
  simp only [remainingRoots, if_true, quotient_zero ha]
  exact fun _ => rfl

omit hα in
theorem round_integer {n : Int} (hn : InRange α n) :
    ∃ (v : α) (q : Rat), Coefficient.round (n : Rat) = .ok v ∧ toRat? v = some q ∧
      (q = 0 ↔ n = 0) := by
  obtain ⟨v, hv⟩ := Option.isSome_iff_exists.mp hn
  obtain ⟨q, hq, hzero⟩ := hz.round hv
  exact ⟨v, q, by rw [Coefficient.round, hv]; rfl, hq, hzero⟩

theorem solvePolynomial_zero {s : Solver α} {coeffs : List (Expr α)} {vs : List α}
    (hvs : coeffs.mapM Expr.closedValue? = some vs) (hlength : 4 ≤ vs.length) (h : Vanishing vs) :
    Ensures (s.solvePolynomial coeffs x) (fun _ => False) (· = divided) := by
  obtain ⟨zs, c, b, a, rfl, ha, hrest⟩ := h
  obtain ⟨hzs, m, n, hc, hb, hmn⟩ := hrest.resolve_left (by rintro rfl; simp at hlength)
  let qs : List Rat := List.replicate zs.length 0 ++ [(m : Rat), (n : Rat), 0]
  have hexact : Roots.exactValues (zs ++ [c, b, a]) = .ok qs := by
    apply Roots.exactValues_eq_ok
    have hzeros : zs.map toRat? = zs.map fun _ => some (0 : Rat) :=
      List.map_congr_left fun z hz' => hz.value.mp (hzs z hz')
    simp [qs, hzeros, hc, hb, hz.value.mp ha]
  have hrational : Roots.rational (zs ++ [c, b, a]) = .ok (Roots.ofIntegers qs) := by
    rw [Roots.rational, hexact]
    rfl
  have h0 : InRange α (0 : Int) := by simpa using hα.value (hz.value.mp ha)
  obtain ⟨c', p, hc', hp, -⟩ := round_integer hz (hα.value hc)
  obtain ⟨b', q, hb', hq, -⟩ := round_integer hz (hα.value hb)
  obtain ⟨a', r, ha', hr, hr0⟩ := round_integer hz h0
  rw [Int.cast_zero] at ha'
  obtain rfl : r = 0 := hr0.mpr rfl
  -- the roots that are found are all zero
  have hfound (k : Nat) : Outcome (fun _ : List α => True) (· = divided)
      ((List.replicate k (0 : Rat)).mapM Coefficient.round) := by
    apply (outcome_forall_mapM (P := fun _ => True) _).mono fun _ _ => trivial
    intro z hz'
    rw [List.eq_of_mem_replicate hz', ha']
    trivial
  have hleft := Roots.ofIntegers_of_zeros zs.length hmn
  rw [hleft] at hrational
  split_ifs at hrational with hm
  · apply solvePolynomial_ends hα hvs hrational (hfound _) (R := (· = [b', a']))
    · simp [hb', ha', pure, Except.pure, Outcome]
    · rintro found _ - rfl
      exact (remainingRoots_slope_zero (hz.value.mpr hr)).bind fun _ => False.elim
  · apply solvePolynomial_ends hα hvs hrational (hfound _) (R := (· = [c', b', a']))
    · simp [hc', hb', ha', pure, Except.pure, Outcome]
    · rintro found _ - rfl
      exact (remainingRoots_zero hz (hz.value.mpr hr) hq hp).bind fun _ => False.elim

omit hα in
/-- When what is left of a polynomial with its last coefficient rounded to zero is short, the
polynomial is of the shape that makes its solution divide by zero. -/
theorem vanishing_of_short {vs : List α} {qs : List Rat} {r : Rat} {a : α}
    (hqs : vs.map toRat? = qs.map some) (hlength : 4 ≤ vs.length)
    (hlong : 1 < (Roots.ofIntegers qs).2.length) (hshort : (Roots.ofIntegers qs).2.length < 4)
    (hr : (Roots.ofIntegers qs).2.head? = some r) (hround : ofRat? r = some a)
    (ha : (a == zero) = true) : Vanishing vs := by
  have hlength' : 4 ≤ qs.length := by
    rwa [← List.length_map (f := toRat?), hqs, List.length_map] at hlength
  have hlast : qs.getLast? = some r := by rw [← Roots.head?_ofIntegers, hr]
  -- the last coefficient is an integer, which is rounded to zero only when it is zero
  have hden : r.den = 1 := Roots.integers_of_short hlength' hshort r (List.mem_of_getLast? hlast)
  rw [← Rat.coe_int_num_of_den_eq_one hden] at hround
  obtain ⟨q, hq, hq0⟩ := hz.round hround
  obtain rfl : (0 : Rat) = q := Option.some.inj ((hz.value.mp ha).symm.trans hq)
  rw [Rat.zero_of_num_zero (hq0.mp rfl)] at hlast
  obtain ⟨k, m, n, hmn, rfl⟩ := Roots.eq_of_ofIntegers_short hlast hlength' hlong hshort
  rw [List.map_append, List.map_eq_append_iff] at hqs
  obtain ⟨zs, ws, rfl, hzs, hws⟩ := hqs
  obtain ⟨c, ws, rfl, hc, hws⟩ := List.map_eq_cons_iff.mp hws
  obtain ⟨b, ws, rfl, hb, hws⟩ := List.map_eq_cons_iff.mp hws
  obtain ⟨a', ws, rfl, ha', hws⟩ := List.map_eq_cons_iff.mp hws
  obtain rfl := List.map_eq_nil_iff.mp hws
  refine ⟨zs, c, b, a', rfl, hz.value.mpr ha', .inr ⟨fun z hz' => ?_, m, n, hc, hb, hmn⟩⟩
  have hmem : toRat? z ∈ (List.replicate k (0 : Rat)).map some := hzs ▸ List.mem_map_of_mem hz'
  rw [List.map_replicate] at hmem
  exact hz.value.mpr (List.eq_of_mem_replicate hmem)

omit hα in
theorem last_nonzero {vs remaining : List α} {qs : List Rat}
    (hqs : vs.map toRat? = qs.map some) (hlength : 4 ≤ vs.length) (h : ¬Vanishing vs)
    (hpairs : List.Forall₂ (fun q v => ofRat? q = some v) (Roots.ofIntegers qs).2.reverse remaining) :
    ∀ a ∈ remaining.getLast?, 1 < remaining.length → remaining.length < 4 →
      (a == zero) = false := by
  intro a ha hlong hshort
  rw [← List.forall₂_reverse_iff, List.reverse_reverse] at hpairs
  rw [← List.length_reverse, ← hpairs.length_eq] at hlong hshort
  rw [← List.head?_reverse] at ha
  by_contra hzero
  generalize hrest : (Roots.ofIntegers qs).2 = rest at hpairs hlong hshort
  generalize remaining.reverse = desc at hpairs ha
  cases hpairs with
  | nil => simp at ha
  | cons hround _ =>
    obtain rfl := Option.some.inj ha
    apply h
    apply vanishing_of_short hz hqs hlength _ _ (by rw [hrest]; rfl) hround (by simpa using hzero)
    · rwa [hrest]
    · rwa [hrest]

theorem solvePolynomial_nonzero {s : Solver α} {coeffs : List (Expr α)} {vs : List α}
    (hvs : coeffs.mapM Expr.closedValue? = some vs) (hlength : 4 ≤ vs.length) (h : ¬Vanishing vs) :
    Ensures (s.solvePolynomial coeffs x) (fun _ => True) (· ≠ divided) := by
  obtain hexact := exactValues_divided vs
  cases hqs : Roots.exactValues vs with
  | error f =>
    rw [hqs] at hexact
    simp only [solvePolynomial, hvs, Roots.rational, hqs]
    exact fun _ => hexact
  | ok qs =>
    rw [hqs] at hexact
    have hrational : Roots.rational vs = .ok (Roots.ofIntegers qs) := by
      rw [Roots.rational, hqs]
      rfl
    apply solvePolynomial_ends hα hvs hrational
    · exact outcome_mapM (round_divided (α := α)) _
    · exact outcome_mapM (round_divided (α := α)) _
    · intro found remaining _ hpairs
      have hlast := last_nonzero hz hexact hlength h hpairs
      have hcoeffs : Ensures (s.remainingRoots (!(Roots.ofIntegers qs).1.isEmpty) remaining x)
          (fun _ => True) (· ≠ divided) := by
        apply remainingRoots_divided hα hz
        · rintro c b a rfl
          exact hlast a rfl (by simp) (by simp)
        · rintro - c b rfl
          exact hlast b rfl (by simp) (by simp)
      apply hcoeffs.bind
      intro others _
      apply (ensures_lift (snapped_divided _)).bind
      intro all _
      exact (ensures_lift (numbers_divided _)).bind fun _ _ => ensures_pure trivial

end Equations

section Dispatch

variable (hα : Ranged α)
include hα

/-- The standard rules never divide by zero. -/
theorem solveLinear_divided {s : Simplifier α} (hs : s.library = .standard) (cs : List (Expr α)) :
    Ensures (solveLinear s cs x) (fun _ => True) (· ≠ divided) := by
  unfold solveLinear
  split
  · rename_i b a
    obtain ⟨library, maxSteps⟩ := s
    subst hs
    have hrun := run_overflows hα maxSteps maxSteps .plain .real (.op .div (Expr.negative b) a)
    have hlogged : Ensures ((⟨.standard, maxSteps⟩ : Simplifier α).runLogged
        (.op .div (Expr.negative b) a)) (fun _ => True) (· ≠ divided) := by
      apply (hrun.weaken _).bind fun _ _ => ensures_pure trivial
      rintro f ⟨c, -, r, -, ⟨rfl, -⟩ | ⟨hform, -⟩⟩
      · exact nofun
      · cases hform
    apply hlogged.bind
    intro solution _
    exact (ensures_step trivial).bind (P := fun _ => True) fun _ _ => ensures_pure trivial
  · exact ensures_pure trivial

omit hα in
theorem solve_ends {s : Solver α} {equation e : Expr α} {cs : List (Expr α)}
    {P : Solution α → Prop} {F : Failure → Prop}
    (he : (normalize s.simplifier equation).result = .ok e)
    (hcs : e.symbolicCoefficients x s.simplifier.simplify = .ok (some cs))
    (hlinear : cs.length ≤ 2 → Ensures (solveLinear s.simplifier cs x) P F)
    (hquadratic : ∀ c b a, cs = [c, b, a] → Ensures (s.solveQuadratic a b c x) P F)
    (hpolynomial : 4 ≤ cs.length → Ensures (s.solvePolynomial cs x) P F) :
    Ensures (s.solve equation x) P F := by
  have hnormal : Ensures (normalize s.simplifier equation) (· = e) F := by
    intro log
    rw [normalize_logFree s.simplifier equation log, he]
    rfl
  apply hnormal.bind
  rintro _ rfl
  rw [hcs, lift_ok_bind]
  split
  · rename_i hnone
    cases hnone
  · rename_i c b a hsome
    exact hquadratic c b a (Option.some.inj hsome)
  · rename_i ds hthree hsome
    obtain rfl := Option.some.inj hsome
    split_ifs with hshort
    · exact hlinear hshort
    · apply hpolynomial
      match cs, hthree, hshort with
      | [], _, h | [_], _, h | [_, _], _, h => simp at h
      | [c, b, a], h, _ => exact absurd rfl (h c b a)
      | _ :: _ :: _ :: _ :: _, _, _ => simp

omit hα in
theorem values_triple {c b a : Expr α} {vs : List α}
    (hvs : [c, b, a].mapM Expr.closedValue? = some vs) : ∃ nc nb na, vs = [nc, nb, na] ∧
      c.closedValue? = some nc ∧ b.closedValue? = some nb ∧ a.closedValue? = some na := by
  obtain _ | ⟨hc, _ | ⟨hb, _ | ⟨ha, _ | _⟩⟩⟩ := mapM_eq_some.mp hvs
  exact ⟨_, _, _, rfl, hc, hb, ha⟩

theorem solve_vanishing (hz : ZeroTested α) {s : Solver α} {equation e : Expr α}
    {cs : List (Expr α)} {vs : List α} (he : (normalize s.simplifier equation).result = .ok e)
    (hcs : e.symbolicCoefficients x s.simplifier.simplify = .ok (some cs))
    (hvs : cs.mapM Expr.closedValue? = some vs) (h : Vanishing vs) :
    (s.solve equation x).result = .error divided := by
  have hlength := (mapM_eq_some.mp hvs).length_eq
  have hdivides : Ensures (s.solve equation x) (fun _ => False) (· = divided) := by
    apply solve_ends he hcs
    · obtain ⟨zs, c, b, a, rfl, -⟩ := h
      intro hshort
      simp at hlength
      omega
    · rintro c b a rfl
      obtain ⟨nc, nb, na, rfl, hc, hb, ha⟩ := values_triple hvs
      exact solveQuadratic_zero hα hz ha hb hc (vanishing_triple.mp h)
    · intro hlong
      exact solvePolynomial_zero hα hz hvs (hlength ▸ hlong) h
  have hresult := hdivides.result
  generalize (s.solve equation x).result = r at hresult
  cases r with
  | ok sol => exact hresult.elim
  | error f => exact congrArg _ hresult

theorem solve_not_vanishing (hz : ZeroTested α) {s : Solver α}
    (hs : s.simplifier.library = .standard) {equation e : Expr α} {cs : List (Expr α)}
    {vs : List α} (he : (normalize s.simplifier equation).result = .ok e)
    (hcs : e.symbolicCoefficients x s.simplifier.simplify = .ok (some cs))
    (hvs : cs.mapM Expr.closedValue? = some vs) (h : ¬Vanishing vs) :
    (s.solve equation x).result ≠ .error divided := by
  have hlength := (mapM_eq_some.mp hvs).length_eq
  have hsolves : Ensures (s.solve equation x) (fun _ => True) (· ≠ divided) := by
    apply solve_ends he hcs
    · exact fun _ => solveLinear_divided hα hs cs
    · rintro c b a rfl
      obtain ⟨nc, nb, na, rfl, hc, hb, ha⟩ := values_triple hvs
      apply solveQuadratic_nonzero hα hz ha hb hc
      simpa [vanishing_triple] using h
    · intro hlong
      exact solvePolynomial_nonzero hα hz hvs (hlength ▸ hlong) h
  have hresult := hsolves.result
  intro hdivided
  rw [hdivided] at hresult
  exact hresult rfl

/-- Written out as a number, the leading coefficient of a polynomial is not zero. Where all
coefficients have a value, the solver divides by zero exactly when these values make it: when the
leading coefficient of a quadratic polynomial has the value zero, or that of a longer one of which
only the next two coefficients, integers, are not both zero. What is asked of the scalars holds of
exact fractions and of binary64 numbers (`ranged_float`, `zeroTested_float`). -/
theorem solve_divides_iff (hz : ZeroTested α) {s : Solver α}
    (hs : s.simplifier.library = .standard) {equation e : Expr α} {cs : List (Expr α)}
    {vs : List α} (he : (normalize s.simplifier equation).result = .ok e)
    (hcs : e.symbolicCoefficients x s.simplifier.simplify = .ok (some cs))
    (hvs : cs.mapM Expr.closedValue? = some vs) :
    (∀ v, cs.getLast? = some (.num v) → (v == zero) = false) ∧
      ((s.solve equation x).result = .error (.arithmetic .divisionByZero) ↔ Vanishing vs) := by
  refine ⟨Expr.symbolicCoefficients_last hcs, ?_, solve_vanishing hα hz he hcs hvs⟩
  intro h
  by_contra hvanishing
  exact solve_not_vanishing hα hz hs he hcs hvs hvanishing h

end Dispatch

section Examples

/-- The difference `(1/2)² - 1/4`, which no rule folds. -/
def unfoldedZero : Expr Rat :=
  .op .sub (.squared (.op .div (.ofNat 1) (.ofNat 2))) (.op .div (.ofNat 1) (.ofNat 4))

theorem exists_coefficients {s : Simplifier Rat} {equation : Expr Rat} {x : String} {vs : List Rat}
    (h : ((coefficients s equation x).toOption.bind fun cs => cs.bind (·.mapM Expr.closedValue?)) =
      some vs) : ∃ e cs, (normalize s equation).result = .ok e ∧
        e.symbolicCoefficients x s.simplify = .ok (some cs) ∧
        cs.mapM Expr.closedValue? = some vs := by
  obtain ⟨out, hout, h⟩ := Option.bind_eq_some_iff.mp h
  obtain ⟨cs, rfl, hvs⟩ := Option.bind_eq_some_iff.mp h
  obtain ⟨e, he, hcs⟩ := bind_eq_ok.mp (toOption_eq_some.mp hout)
  exact ⟨e, cs, he, hcs, hvs⟩

/-- The equation `((1/2)² - 1/4)x³ + x² - x = 0` has the values `0, -1, 1, 0`. -/
theorem solve_divides_iff_of_cubic :
    let s : Solver Rat := ⟨⟨.standard, 50⟩, ⟨id, fun u _ => u, fun _ => [], fun _ u _ => .ok u⟩,
      true, -10, 10, 1 / 10 ^ 9⟩
    let x : Expr Rat := .var "x"
    let equation := Expr.eq (.op .sub (.op .add (.op .mul unfoldedZero (.op .pow x (.ofNat 3)))
      (.squared x)) x) (.ofNat 0)
    ∃ e cs, (normalize s.simplifier equation).result = .ok e ∧
      e.symbolicCoefficients "x" s.simplifier.simplify = .ok (some cs) ∧
      cs.mapM Expr.closedValue? = some [0, -1, 1, 0] ∧
      (s.solve equation "x").result = .error (.arithmetic .divisionByZero) := by
  intro s x equation
  have hvs : ((coefficients s.simplifier equation "x").toOption.bind fun cs =>
      cs.bind (·.mapM Expr.closedValue?)) = some [0, -1, 1, 0] := by
    decide +kernel
  obtain ⟨e, cs, he, hcs, hvs⟩ := exists_coefficients hvs
  refine ⟨e, cs, he, hcs, hvs, ?_⟩
  refine (solve_divides_iff ranged_rat zeroTested_rat rfl he hcs hvs).2.mpr ?_
  exact ⟨[0], -1, 1, 0, rfl, by simp, .inr ⟨by simp, -1, 1, rfl, rfl, by simp⟩⟩

/-- All coefficients of `((1/2)² - 1/4)x² + x - 1 = 0` have a value, the leading one the value zero,
and the quadratic formula divides by it. -/
theorem solve_divides_at_unfoldedZero :
    let s : Solver Rat := ⟨⟨.standard, 50⟩, ⟨id, fun u _ => u, fun _ => [], fun _ u _ => .ok u⟩,
      true, -10, 10, 1 / 10 ^ 9⟩
    let x : Expr Rat := .var "x"
    let equation := Expr.eq (.op .sub (.op .add (.op .mul unfoldedZero (.squared x)) x) (.ofNat 1))
      (.ofNat 0)
    ∃ e cs, (normalize s.simplifier equation).result = .ok e ∧
      e.symbolicCoefficients "x" s.simplifier.simplify = .ok (some cs) ∧
      cs.mapM Expr.closedValue? = some [-1, 1, 0] ∧
      (s.solve equation "x").result = .error (.arithmetic .divisionByZero) := by
  intro s x equation
  have hvs : ((coefficients s.simplifier equation "x").toOption.bind fun cs =>
      cs.bind (·.mapM Expr.closedValue?)) = some [-1, 1, 0] := by
    decide +kernel
  obtain ⟨e, cs, he, hcs, hvs⟩ := exists_coefficients hvs
  refine ⟨e, cs, he, hcs, hvs, ?_⟩
  exact solve_vanishing ranged_rat zeroTested_rat he hcs hvs (vanishing_triple.mpr (by simp))

end Examples

end Solver

end RuleAlgebra
