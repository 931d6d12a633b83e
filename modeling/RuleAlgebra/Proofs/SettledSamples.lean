import RuleAlgebra.Calculus.Limit
import RuleAlgebra.Proofs.PolynomialSolutions

/-!
Where samples are heading, over fractions. A sequence settles at the first sample that agrees with
the one before it, and close to that sample; only a sequence in which no two successive samples
agree runs to an infinity.
-/

namespace RuleAlgebra.Limit

/-- Two successive samples differ by a hundred-thousandth of the later one, or of one if that is
more, at most. -/
def Agree (previous current : Rat) : Prop := |current - previous| ≤ 1 / 10 ^ 5 * max 1 |current|

/-- No two successive samples agree. -/
def Unsettled (samples : List Rat) : Prop := samples.IsChain fun a b => ¬Agree a b

section Settling

variable {a b c s v : Rat} {samples : List Rat} {before : Option Rat}

theorem agrees_iff : agrees a b = true ↔ Agree a b := by
  norm_num [agrees, Agree, settleTolerance, Scalar.ofDecimal_rat, Scalar.abs_rat, Scalar.max_rat]

/-- An estimate is used when it is no further off than ten times the last difference. -/
theorem accelerate_near (a b c : Rat) : |accelerate a b c - c| ≤ 10 * |c - b| := by
  have hnear : |c - c| ≤ 10 * |c - b| := by
    rw [sub_self, abs_zero]
    positivity
  unfold accelerate
  simp only [Scalar.abs_rat]
  split_ifs with hsame hfar
  · exact hnear
  · exact hnear
  · simpa using hfar

theorem settled?_none : settled? before samples = none ↔ Unsettled samples := by
  induction samples generalizing before with
  | nil => simp [settled?, Unsettled]
  | cons a rest ih =>
    cases rest with
    | nil => simp [settled?, Unsettled]
    | cons b rest =>
      by_cases h : agrees a b = true
      · simp [settled?, h, Unsettled, ← agrees_iff]
      · simp [settled?, h, ih, Unsettled, ← agrees_iff]

theorem Unsettled.cons {early : List Rat} {previous : Rat} (hab : ¬Agree a b)
    (h : Unsettled (early ++ [previous])) (hhead : (early ++ [previous]).head? = some b) :
    Unsettled (a :: early ++ [previous]) := by
  rw [List.cons_append, Unsettled, List.isChain_cons]
  refine ⟨?_, h⟩
  rintro c hc
  rw [hhead] at hc
  obtain rfl := Option.some.inj hc
  exact hab

theorem settled?_some (h : settled? before samples = some v) :
    ∃ early previous s after, samples = early ++ previous :: s :: after ∧
      Unsettled (early ++ [previous]) ∧ Agree previous s ∧ |v - s| ≤ 10 * |s - previous| := by
  induction samples generalizing before with
  | nil => simp [settled?] at h
  | cons a rest ih =>
    cases rest with
    | nil => simp [settled?] at h
    | cons b rest =>
      by_cases hagrees : agrees a b = true
      · simp only [settled?, hagrees, if_true] at h
        refine ⟨[], a, b, rest, rfl, by simp [Unsettled], agrees_iff.mp hagrees, ?_⟩
        obtain rfl := Option.some.inj h
        cases before with
        | none => simp
        | some z => exact accelerate_near z a b
      · simp only [settled?, hagrees, Bool.false_eq_true, if_false] at h
        obtain ⟨early, previous, s, after, hsplit, hchain, hagree, hnear⟩ := ih h
        refine ⟨a :: early, previous, s, after, by rw [hsplit]; rfl, ?_, hagree, hnear⟩
        apply hchain.cons (mt agrees_iff.mpr hagrees)
        have hhead := congrArg List.head? hsplit
        cases early <;> simpa using hhead.symm

end Settling

section Divergence

variable {samples : List Rat} {negative : Bool}

def Towards (negative : Bool) (a b : Rat) : Prop := if negative then b < a else a < b

theorem differences_append (early : List Rat) (a : Rat) (rest : List Rat) :
    differences (early ++ a :: rest) = differences (early ++ [a]) ++ differences (a :: rest) := by
  induction early with
  | nil => simp [differences]
  | cons b early ih =>
    cases early with
    | nil => simp [differences]
    | cons c early =>
      simp only [List.cons_append, differences] at ih ⊢
      rw [ih]

theorem recent_differences (early : List Rat) (a b c d e : Rat) :
    let all := differences (early ++ [a, b, c, d, e])
    all.drop (all.length - 4) = [b - a, c - b, d - c, e - d] := by
  intro all
  have hall : all = differences (early ++ [a]) ++ [b - a, c - b, d - c, e - d] :=
    differences_append early a [b, c, d, e]
  rw [hall, List.length_append]
  simp

theorem exists_last_five (h : 4 < samples.length) :
    ∃ early a b c d e, samples = early ++ [a, b, c, d, e] := by
  have hlength : (samples.drop (samples.length - 5)).length = 5 := by
    rw [List.length_drop]
    omega
  have hsplit := List.take_append_drop (samples.length - 5) samples
  match hlast : samples.drop (samples.length - 5), hlength with
  | [a, b, c, d, e], _ =>
    rw [hlast] at hsplit
    exact ⟨_, a, b, c, d, e, hsplit.symm⟩

theorem divergence?_last (early : List Rat) (a b c d e : Rat) :
    divergence? (early ++ [a, b, c, d, e]) =
      if |e| < 10 then none
      else
        let recent := [b - a, c - b, d - c, e - d]
        let up := recent.all (Scalar.lt Scalar.zero ·)
        let down := recent.all (Scalar.lt · Scalar.zero)
        if (up || down) && steady recent then some (.infinite down) else none := by
  have hrecent := recent_differences early a b c d e
  have hlast : (early ++ [a, b, c, d, e]).getLast? = some e := by simp
  have hlength : ¬(early ++ [a, b, c, d, e]).length ≤ 4 := by simp
  unfold divergence?
  simp only at hrecent
  simp only [hlast, hlength, hrecent, Scalar.abs_rat, Scalar.lt_rat, Scalar.ofNat_rat]
  simp

theorem steady_iff {ds : List Rat} :
    steady ds = true ↔ ds.IsChain fun p q => 1 / 2 * |p| ≤ |q| := by
  have hhalf : (Scalar.ofDecimal 5 (-1) : Rat) = 1 / 2 := by norm_num [Scalar.ofDecimal_rat]
  induction ds with
  | nil => simp [steady]
  | cons p ds ih =>
    cases ds with
    | nil => simp [steady]
    | cons q ds =>
      simp only [steady, hhalf, Scalar.abs_rat, Scalar.le_rat, Bool.and_eq_true,
        decide_eq_true_eq, ih, List.isChain_cons_cons]

theorem up_iff {a b c d e : Rat} :
    [b - a, c - b, d - c, e - d].all (Scalar.lt Scalar.zero ·) = true ↔
      [a, b, c, d, e].IsChain (Towards false) := by
  simp [Towards]

theorem down_iff {a b c d e : Rat} :
    [b - a, c - b, d - c, e - d].all (Scalar.lt · Scalar.zero) = true ↔
      [a, b, c, d, e].IsChain (Towards true) := by
  simp [Towards]

theorem length_of_divergence? {r : Extended Rat} (h : divergence? samples = some r) :
    4 < samples.length := by
  by_contra hshort
  unfold divergence? at h
  cases hlast : samples.getLast? with
  | none => simp [hlast] at h
  | some last => simp [hlast, not_lt.mp hshort] at h

theorem divergence?_iff : divergence? samples = some (.infinite negative) ↔
    ∃ early a b c d e, samples = early ++ [a, b, c, d, e] ∧
      [a, b, c, d, e].IsChain (Towards negative) ∧ 10 ≤ |e| ∧
      [b - a, c - b, d - c, e - d].IsChain fun p q => 1 / 2 * |p| ≤ |q| := by
  constructor
  · intro h
    obtain ⟨early, a, b, c, d, e, rfl⟩ := exists_last_five (length_of_divergence? h)
    rw [divergence?_last] at h
    simp only at h
    split_ifs at h with hsmall hmoves
    obtain ⟨hdirection, hsteady⟩ := Bool.and_eq_true_iff.mp hmoves
    obtain rfl := Extended.infinite.inj (Option.some.inj h)
    rw [steady_iff] at hsteady
    refine ⟨early, a, b, c, d, e, rfl, ?_, not_lt.mp hsmall, hsteady⟩
    cases hdown : [b - a, c - b, d - c, e - d].all (Scalar.lt · Scalar.zero) with
    | true => rwa [down_iff] at hdown
    | false =>
      rwa [hdown, Bool.or_false, up_iff] at hdirection
  · rintro ⟨early, a, b, c, d, e, rfl, hchain, hlarge, hsteady⟩
    rw [← steady_iff] at hsteady
    rw [divergence?_last, if_neg (not_lt.mpr hlarge)]
    simp only
    cases negative with
    | true =>
      rw [← down_iff] at hchain
      rw [hchain, hsteady, Bool.or_true]
      rfl
    | false =>
      have hdown : [b - a, c - b, d - c, e - d].all (Scalar.lt · Scalar.zero) = false := by
        rw [Bool.eq_false_iff, ne_eq, down_iff]
        intro hchain'
        have hup : a < b := (List.isChain_cons_cons.mp hchain).1
        have hdown : b < a := (List.isChain_cons_cons.mp hchain').1
        exact lt_asymm hup hdown
      rw [← up_iff] at hchain
      rw [hchain, hsteady, hdown]
      rfl

theorem divergence?_infinite {r : Extended Rat} (h : divergence? samples = some r) :
    ∃ negative, r = .infinite negative := by
  obtain ⟨early, a, b, c, d, e, rfl⟩ := exists_last_five (length_of_divergence? h)
  rw [divergence?_last] at h
  simp only at h
  split_ifs at h
  exact ⟨_, (Option.some.inj h).symm⟩

end Divergence

theorem settle_of_settled {samples : List Rat} {estimate : Rat}
    (h : settled? none samples = some estimate) :
    ∃ w, settle samples = .ok (some (.finite w)) ∧ |estimate - w| < 1 / 10 ^ 6 := by
  have hpos : (0 : Rat) < 1 / 10 ^ 6 := by norm_num
  obtain ⟨w, hw, hclose, -⟩ := Roots.snap_rat hpos estimate
  have htolerance : (Scalar.ofDecimal 1 (-6) : Rat) = 1 / 10 ^ 6 := by
    norm_num [Scalar.ofDecimal_rat]
  refine ⟨w, ?_, hclose⟩
  simp only [settle, h, htolerance, hw]
  rfl

/-- Samples over fractions always have a verdict. A number that they settle at is close to the first
sample that agrees with the one before it. -/
theorem settle_near (samples : List Rat) : ∃ r, settle samples = .ok r ∧
    (∀ v, r = some (.finite v) → ∃ early previous s after,
      samples = early ++ previous :: s :: after ∧ Unsettled (early ++ [previous]) ∧
      Agree previous s ∧ |v - s| ≤ 1 / 10 ^ 4 * max 1 |s| + 1 / 10 ^ 6) ∧
    (Unsettled samples → r = none ∨ ∃ negative, r = some (.infinite negative)) := by
  cases hsettled : settled? none samples with
  | none =>
    refine ⟨divergence? samples, by simp [settle, hsettled]; rfl, ?_, ?_⟩
    · rintro v hv
      obtain ⟨negative, h⟩ := divergence?_infinite hv
      exact absurd h (by simp)
    · rintro -
      cases hdivergence : divergence? samples with
      | none => exact Or.inl rfl
      | some r =>
        obtain ⟨negative, rfl⟩ := divergence?_infinite hdivergence
        exact Or.inr ⟨negative, rfl⟩
  | some estimate =>
    obtain ⟨early, previous, s, after, hsplit, hchain, hagree, hnear⟩ := settled?_some hsettled
    obtain ⟨w, hsettle, hclose⟩ := settle_of_settled hsettled
    refine ⟨some (.finite w), hsettle, ?_, ?_⟩
    · rintro v hv
      obtain rfl : w = v := by simpa using hv
      refine ⟨early, previous, s, after, hsplit, hchain, hagree, ?_⟩
      calc |w - s| ≤ |w - estimate| + |estimate - s| := abs_sub_le w estimate s
        _ ≤ 1 / 10 ^ 6 + 10 * |s - previous| := by
          rw [abs_sub_comm w estimate]
          exact add_le_add hclose.le hnear
        _ ≤ 1 / 10 ^ 4 * max 1 |s| + 1 / 10 ^ 6 := by
          unfold Agree at hagree
          linarith
    · rintro hnone
      exact absurd hsettled (by simp [settled?_none.mpr hnone])

theorem settle_infinite_iff {samples : List Rat} {negative : Bool} :
    settle samples = .ok (some (.infinite negative)) ↔
      Unsettled samples ∧ divergence? samples = some (.infinite negative) := by
  constructor
  · intro h
    have hunsettled : Unsettled samples := by
      have hiff : settled? none samples = none ↔ Unsettled samples := settled?_none
      rw [← hiff, Option.eq_none_iff_forall_ne_some]
      intro estimate hsettled
      obtain ⟨w, hsettle, -⟩ := settle_of_settled hsettled
      exact absurd (hsettle.symm.trans h) (by simp)
    refine ⟨hunsettled, ?_⟩
    simpa [settle, settled?_none.mpr hunsettled, pure, Except.pure] using h
  · rintro ⟨hunsettled, hdivergence⟩
    simp only [settle, settled?_none.mpr hunsettled, hdivergence]
    rfl

/-- Samples that run to an infinity do not settle; the last five move towards it, and the last one
is of magnitude ten at least. -/
theorem settle_infinite {samples : List Rat} {negative : Bool}
    (h : settle samples = .ok (some (.infinite negative))) :
    Unsettled samples ∧ ∃ early a b c d e, samples = early ++ [a, b, c, d, e] ∧
      [a, b, c, d, e].IsChain (Towards negative) ∧ 10 ≤ |e| := by
  obtain ⟨hunsettled, hdivergence⟩ := settle_infinite_iff.mp h
  obtain ⟨early, a, b, c, d, e, hsplit, hchain, hlarge, -⟩ := divergence?_iff.mp hdivergence
  exact ⟨hunsettled, early, a, b, c, d, e, hsplit, hchain, hlarge⟩

theorem settle_infinite_powers :
    settle ([1, 2, 4, 8, 16] : List Rat) = .ok (some (.infinite false)) ∧
      Unsettled [1, 2, 4, 8, 16] ∧
      ∃ early a b c d e, [1, 2, 4, 8, 16] = early ++ [a, b, c, d, e] ∧
        [a, b, c, d, e].IsChain (Towards false) ∧ 10 ≤ |e| := by
  have hunsettled : Unsettled [1, 2, 4, 8, 16] := by norm_num [Unsettled, Agree]
  have hdivergence : divergence? ([1, 2, 4, 8, 16] : List Rat) = some (.infinite false) :=
    divergence?_iff.mpr ⟨[], 1, 2, 4, 8, 16, rfl, by norm_num [Towards], by norm_num, by norm_num⟩
  have h := settle_infinite_iff.mpr ⟨hunsettled, hdivergence⟩
  exact ⟨h, settle_infinite h⟩

/-- Only the magnitude of the last sample counts, not its sign. -/
theorem settle_infinite_below_zero :
    settle ([-60, -50, -40, -30, -20] : List Rat) = .ok (some (.infinite false)) ∧
      ([-60, -50, -40, -30, -20] : List Rat).getLast? = some (-20) ∧ ¬(10 : Rat) ≤ -20 := by
  have hunsettled : Unsettled [-60, -50, -40, -30, -20] := by norm_num [Unsettled, Agree]
  have hdivergence : divergence? ([-60, -50, -40, -30, -20] : List Rat) = some (.infinite false) :=
    divergence?_iff.mpr
      ⟨[], -60, -50, -40, -30, -20, rfl, by norm_num [Towards], by norm_num, by norm_num⟩
  exact ⟨settle_infinite_iff.mpr ⟨hunsettled, hdivergence⟩, rfl, by norm_num⟩

end RuleAlgebra.Limit
