import RuleAlgebra.Proofs.ArithmeticRules
import RuleAlgebra.Proofs.ScalarMaps

/-!
The rules of the standard library that compute, apart from those that factor, commute with maps of
scalars that keep comparisons, conversions and arithmetic: they look at numbers in no other way.
-/

namespace RuleAlgebra.Rules

open RuleAlgebra.Expr

variable {α β : Type} {φ : α → β}

section Rearrangement

theorem constantFirst_map (e : Expr α) : constantFirst (e.map φ) = (constantFirst e).map φ := by
  rcases e with _ | _ | ⟨o, l, r⟩ | _ | _ | _ <;> try rfl
  cases o <;> try rfl
  cases r with
  | num v =>
    simp only [map_op, map_num, constantFirst, isNum_map]
    split_ifs <;> rfl
  | _ => rfl

theorem associateProducts_map (e : Expr α) :
    associateProducts (e.map φ) = (associateProducts e).map φ := by
  rcases e with _ | _ | ⟨o, l, r⟩ | _ | _ | _ <;> try rfl
  cases o <;> try rfl
  rcases r with _ | _ | ⟨o, _, _⟩ | _ | _ | _ <;> try rfl
  cases o <;> rfl

theorem multiplyFractions_map (e : Expr α) :
    multiplyFractions (e.map φ) = (multiplyFractions e).map φ := by
  fun_cases multiplyFractions e with
  | case1 a n d => rfl
  | case2 n d r hr =>
    apply multiplyFractions.eq_2
    intro m c h
    obtain ⟨m', c', rfl, -⟩ := map_eq_op h
    exact hr m' c' rfl
  | case3 e hright hleft =>
    apply multiplyFractions.eq_3
    · intro a n d h
      obtain ⟨a', q, rfl, -, hq⟩ := map_eq_op h
      obtain ⟨n', d', rfl, -⟩ := map_eq_op hq
      exact hright a' n' d' rfl
    · intro n d b h
      obtain ⟨q, b', rfl, hq, -⟩ := map_eq_op h
      obtain ⟨n', d', rfl, -⟩ := map_eq_op hq
      exact hleft n' d' b' rfl

theorem nestedFractions_map (e : Expr α) :
    nestedFractions (e.map φ) = (nestedFractions e).map φ := by
  fun_cases nestedFractions e with
  | case1 a b c => rfl
  | case2 a b c ha =>
    apply nestedFractions.eq_2
    intro m d h
    obtain ⟨m', d', rfl, -⟩ := map_eq_op h
    exact ha m' d' rfl
  | case3 e hleft hright =>
    apply nestedFractions.eq_3
    · intro a b c h
      obtain ⟨q, c', rfl, hq, -⟩ := map_eq_op h
      obtain ⟨a', b', rfl, -⟩ := map_eq_op hq
      exact hleft a' b' c' rfl
    · intro a b c h
      obtain ⟨a', q, rfl, -, hq⟩ := map_eq_op h
      obtain ⟨b', c', rfl, -⟩ := map_eq_op hq
      exact hright a' b' c' rfl

theorem numbers_map (es : List (Expr α)) :
    (es.map (Expr.map φ)).mapM number? = (es.mapM number?).map (List.map φ) := by
  induction es with
  | nil => rfl
  | cons e es ih =>
    rw [List.map_cons, List.mapM_cons, List.mapM_cons, number?_map, ih]
    cases e.number? with
    | none => rfl
    | some v => cases es.mapM number? <;> rfl

theorem additive?_map (e : Expr α) :
    additive? (e.map φ) = (additive? e).map fun (o, a, b) => (o, a.map φ, b.map φ) := by
  cases e with
  | op o l r =>
    simp only [map_op, additive?]
    split_ifs <;> rfl
  | _ => rfl

theorem distribute_map (e : Expr α) : distribute (e.map φ) = (distribute e).map φ := by
  rcases e with _ | _ | ⟨o, l, r⟩ | _ | _ | _ <;> try rfl
  cases o with
  | mul =>
    simp only [map_op, distribute, additive?_map]
    rcases additive? r with _ | ⟨o, a, b⟩
    · rcases additive? l with _ | ⟨o, a, b⟩ <;> rfl
    · rfl
  | div =>
    simp only [map_op, distribute, additive?_map]
    rcases additive? l with _ | ⟨o, a, b⟩ <;> rfl
  | _ => rfl

end Rearrangement

section Preserving

variable [Scalar α] [Scalar β] (hφ : Scalar.Preserves φ)

include hφ

section Arithmetic

theorem mergeCoefficients_map (e : Expr α) :
    mergeCoefficients (e.map φ) = (mergeCoefficients e).map φ := by
  rcases e with _ | _ | ⟨o, l, r⟩ | _ | _ | _ <;> try rfl
  cases o <;> try rfl
  rcases l with u | _ | _ | _ | _ | _ <;> try rfl
  rcases r with _ | _ | ⟨o, l, r⟩ | _ | _ | _ <;> try rfl
  cases o <;> try rfl
  rcases l with v | _ | _ | _ | _ | _ <;> try rfl
  simp only [map_op, map_num, mergeCoefficients, hφ.mul]

theorem zeroNumerator_map (e : Expr α) : zeroNumerator (e.map φ) = (zeroNumerator e).map φ := by
  rcases e with _ | _ | ⟨o, l, r⟩ | _ | _ | _ <;> try rfl
  cases o <;> try rfl
  simp only [map_op, zeroNumerator, hφ.isNumber]
  split_ifs
  · exact hφ.exprOfNat 0
  · rfl

theorem selfDivision_map (e : Expr α) : selfDivision (e.map φ) = (selfDivision e).map φ := by
  rcases e with _ | _ | ⟨o, l, r⟩ | _ | _ | _ <;> try rfl
  cases o <;> try rfl
  simp only [map_op, selfDivision, hφ.isNumber, beq_map hφ.beq]
  split_ifs
  · exact hφ.exprOfNat 1
  · rfl

theorem negated?_map (e : Expr α) : negated? (e.map φ) = (negated? e).map (Expr.map φ) := by
  cases e with
  | num v =>
    simp only [map_num, negated?, hφ.zero, hφ.lt, hφ.neg]
    split_ifs <;> rfl
  | op o l r =>
    cases o <;> try rfl
    cases l with
    | num v =>
      simp only [map_op, map_num, negated?, hφ.zero, hφ.lt, hφ.neg, hφ.beq_one]
      split_ifs <;> rfl
    | _ => rfl
  | _ => rfl

theorem normalizeSigns_map (e : Expr α) : normalizeSigns (e.map φ) = (normalizeSigns e).map φ := by
  rcases e with _ | _ | ⟨o, l, r⟩ | _ | _ | _ <;> try rfl
  simp only [map_op, normalizeSigns]
  split_ifs
  · rfl
  · have hr := negated?_map hφ r
    rcases r with v | x | ⟨p, n, d⟩ | ⟨f, as⟩ | ⟨u, w⟩ | ⟨x, k, a⟩
    case op =>
      cases p with
      | div =>
        simp only [map_op, negated?_map hφ]
        cases negated? n <;> rfl
      | _ =>
        simp only [map_op] at hr ⊢
        rw [hr]
        cases negated? (op _ n d) <;> rfl
    all_goals
      simp only [map_num, map_var, map_fn, map_eq, map_wild] at hr ⊢
      rw [hr]
      cases (negated? _ : Option (Expr α)) <;>
        simp only [Option.map_none, Option.map_some, map_op, map_num, map_var, map_fn, map_eq,
          map_wild]

theorem exactTolerance_map : (exactTolerance : β) = φ exactTolerance := hφ.ofDecimal 1 (-12)

theorem nearInteger?_map (v : α) : nearInteger? (φ v) = nearInteger? v := by
  have hnearest : Scalar.nearest? (φ v) = Scalar.nearest? v := by
    simp only [Scalar.nearest?, hφ.toRat?]
  unfold nearInteger?
  rw [hnearest]
  congr 1
  funext n
  rw [hφ.ofRat?]
  cases (Scalar.ofRat? (n : Rat) : Option α) with
  | none => rfl
  | some r => simp only [Option.map_some, hφ.sub, hφ.abs, exactTolerance_map hφ, hφ.lt]

theorem nearIntegerNumber?_map (v : α) :
    nearIntegerNumber? (φ v) = Option.map (Expr.map φ) <$> nearIntegerNumber? v := by
  simp only [nearIntegerNumber?, nearInteger?_map hφ]
  cases nearInteger? v with
  | none => rfl
  | some n => exact bind_eq_map (hφ.exprOfRat? n) fun _ => rfl

theorem foldQuotient?_map (hα : Scalar.TellsZero α) (a : α) {b : α} (m : Int) {n : Int}
    (hn : Scalar.toInt? b = some n) :
    foldQuotient? (φ a) (φ b) m n = (foldQuotient? a b m n).map (Expr.map φ) := by
  unfold foldQuotient?
  dsimp only
  by_cases hzero : n = 0
  · rw [if_pos hzero, if_pos hzero]
    rfl
  · have hb : (b == Scalar.zero) = false :=
      Bool.eq_false_iff.mpr fun h => hzero ((hα.toInt? hn).mp h)
    have hg := signedGcd_ne_zero m hzero
    rw [if_neg hzero, if_neg hzero, hφ.div a hb, hφ.div_ofInt hα a hg, hφ.div_ofInt hα b hg]
    split_ifs <;> rfl

theorem foldReciprocal_map (a b : α) :
    foldReciprocal (φ a) (φ b) = Option.map (Expr.map φ) <$> foldReciprocal a b := by
  have hpow : (Scalar.power? (φ a) (-φ b)).bind Scalar.finite? =
      ((Scalar.power? a (-b)).bind Scalar.finite?).map φ := by
    rw [hφ.neg]
    exact hφ.pow a (-b)
  simp only [foldReciprocal, hφ.beq_zero, hpow]
  split_ifs
  · rfl
  · cases (Scalar.power? a (-b)).bind Scalar.finite? with
    | none => rfl
    | some p => simp [hφ.exprOfNat]

theorem foldOperation_map (hα : Scalar.TellsZero α) (o : Arithmetic) (a b : α) :
    foldOperation o (φ a) (φ b) = Option.map (Expr.map φ) <$> foldOperation o a b := by
  have hvalue (p : Arithmetic) : (p.value? (φ a) (φ b)).map (.num : β → Expr β) =
      ((p.value? a b).map .num).map (Expr.map φ) := by
    rw [hφ.value?]
    cases p.value? a b <;> rfl
  unfold foldOperation
  rw [hφ.toInt?, hφ.toInt?]
  cases o with
  | div =>
    cases Scalar.toInt? a with
    | none => exact congrArg pure (hvalue .div)
    | some m =>
      cases hb : Scalar.toInt? b with
      | none => exact congrArg pure (hvalue .div)
      | some n => exact congrArg pure (foldQuotient?_map hφ hα a m hb)
  | pow =>
    cases Scalar.toInt? b with
    | none =>
      cases Scalar.toInt? a
      all_goals
        simp only [hφ.pow]
        cases Arithmetic.pow.value? a b with
        | none => rfl
        | some v => exact nearIntegerNumber?_map hφ v
    | some n =>
      cases Scalar.toInt? a with
      | none => exact congrArg pure (hvalue .pow)
      | some m =>
        dsimp only
        split_ifs
        · exact foldReciprocal_map hφ a b
        · exact congrArg pure (hvalue .pow)
  | _ => exact congrArg pure (hvalue _)

theorem foldFunction_map (f : String) (args : List (Expr α)) :
    foldFunction f (args.map (Expr.map φ)) =
      Option.map (Expr.map φ) <$> foldFunction f args := by
  unfold foldFunction
  rw [numbers_map]
  cases Elementary.ofName? f with
  | none => rfl
  | some g =>
    cases args.mapM number? with
    | none => rfl
    | some vs =>
      have hvalue : g.onList? (vs.map φ) = (g.onList? vs).map φ := by
        rcases vs with _ | ⟨v, _ | _⟩
        · rfl
        · exact hφ.elementary g v
        · rfl
      simp only [Option.map_some, hvalue]
      cases g.onList? vs with
      | none => rfl
      | some v => exact nearIntegerNumber?_map hφ v

theorem foldConstants_map (hα : Scalar.TellsZero α) (e : Expr α) :
    foldConstants (e.map φ) = Expr.map φ <$> foldConstants e := by
  cases e with
  | op o l r =>
    cases l <;> try rfl
    cases r <;> try rfl
    apply bind_eq_map (foldOperation_map hφ hα o _ _)
    intro folded
    cases folded <;> rfl
  | fn f args =>
    simp only [map_fn, foldConstants]
    apply bind_eq_map (foldFunction_map hφ f args)
    intro folded
    cases folded <;> simp
  | _ => rfl

theorem fraction?_map (e : Expr α) : fraction? (e.map φ) = fraction? e := by
  cases e with
  | num v => simp only [map_num, fraction?, hφ.toInt?]
  | op o l r =>
    cases o <;> try rfl
    cases l <;> try rfl
    cases r <;> try rfl
    simp only [map_op, map_num, fraction?, hφ.toInt?]
  | _ => rfl

theorem addFractions_map (e : Expr α) : addFractions (e.map φ) = Expr.map φ <$> addFractions e := by
  cases e with
  | op o l r =>
    simp only [map_op, addFractions, isNum_map, fraction?_map hφ]
    by_cases h : (!o.isAdditive || (l.isNum && r.isNum)) = true
    · rw [if_pos h, if_pos h]
      rfl
    · rw [if_neg h, if_neg h]
      cases fraction? l with
      | none => rfl
      | some p =>
        cases fraction? r with
        | none => rfl
        | some q => exact Term.toExpr_map hφ ⟨.exact _, none⟩
  | _ => rfl

end Arithmetic

section Terms

theorem mergeTerm_map (ts : List (Term α)) (t : Term α) :
    mergeTerm (ts.map (Term.map φ)) (t.map φ) = List.map (Term.map φ) <$> mergeTerm ts t := by
  induction ts with
  | nil => rfl
  | cons s ts ih =>
    have hrest : ((s.map φ).rest == (t.map φ).rest) = (s.rest == t.rest) :=
      option_beq_map hφ.beq s.rest t.rest
    simp only [List.map_cons, mergeTerm, hrest]
    split_ifs
    · exact bind_eq_map (Coefficient.add_map hφ _ _) fun _ => rfl
    · exact bind_eq_map ih fun _ => rfl

theorem combineLikeTerms_map (hα : Scalar.TellsZero α) (e : Expr α) :
    combineLikeTerms (e.map φ) = Expr.map φ <$> combineLikeTerms e := by
  rcases e with _ | _ | ⟨o, l, r⟩ | _ | _ | _ <;> try rfl
  simp only [map_op, combineLikeTerms]
  split_ifs
  · rfl
  · apply bind_eq_map (Term.ofSum_map hφ hα 1 (.op o l r))
    intro terms
    apply bind_eq_map (foldlM_map (mergeTerm_map hφ) terms [])
    intro merged
    rw [List.length_map, List.length_map]
    split_ifs
    · rfl
    · exact Term.sum_map hφ merged

theorem squareArgument?_map (name : String) (rest : Option (Expr α)) :
    squareArgument? name (rest.map (Expr.map φ)) =
      (squareArgument? name rest).map (Expr.map φ) := by
  rcases rest with _ | _ | _ | ⟨o, b, two⟩ | _ | _ | _ <;> try rfl
  cases o <;> try rfl
  rcases b with _ | _ | _ | ⟨f, as⟩ | _ | _ <;> try rfl
  rcases as with _ | ⟨u, _ | _⟩ <;> try rfl
  simp only [Option.map_some, map_op, map_fn, List.map_cons, List.map_nil, squareArgument?,
    hφ.isNumber]
  split_ifs <;> rfl

theorem squareOf_map (name : String) (u : Expr α) :
    squareOf name (u.map φ) = (squareOf name u).map φ := by
  simp [squareOf, squared, hφ.exprOfNat]

theorem otherSquare?_map (rest : Option (Expr α)) :
    otherSquare? (rest.map (Expr.map φ)) = (otherSquare? rest).map (Expr.map φ) := by
  simp only [otherSquare?, squareArgument?_map hφ]
  cases squareArgument? "sin" rest with
  | some u => simp [squareOf_map hφ]
  | none => cases squareArgument? "cos" rest <;> simp [squareOf_map hφ]

omit [Scalar α] [Scalar β] hφ in
theorem mergeAt_map (ts : List (Term α)) (i j : Nat) (t : Term α) :
    mergeAt (ts.map (Term.map φ)) i j (t.map φ) = (mergeAt ts i j t).map (Term.map φ) := by
  simp only [mergeAt, List.zipIdx_map, List.filter_map, List.map_map, List.map_insertIdx]
  rfl

omit [Scalar α] [Scalar β] hφ in
theorem findSome?_zipIdx_map {γ δ : Type} {g : γ → δ} {f : Term α × Nat → Option γ}
    {f' : Term β × Nat → Option δ} (hf : ∀ t i, f' (t.map φ, i) = (f (t, i)).map g)
    (ts : List (Term α)) :
    (ts.map (Term.map φ)).zipIdx.findSome? f' = (ts.zipIdx.findSome? f).map g := by
  rw [List.zipIdx_map, List.findSome?_map, List.map_findSome?]
  congr 1
  funext ⟨t, i⟩
  exact hf t i

theorem sumOfSquares?_map (ts : List (Term α)) :
    sumOfSquares? (ts.map (Term.map φ)) = (sumOfSquares? ts).map (List.map (Term.map φ)) := by
  apply findSome?_zipIdx_map
  intro s i
  have hs : (s.map φ).rest = s.rest.map (Expr.map φ) := rfl
  simp only [hs, squareArgument?_map hφ]
  cases squareArgument? "sin" s.rest with
  | none => rfl
  | some u =>
    apply findSome?_zipIdx_map
    intro t j
    have ht : (t.map φ).rest = t.rest.map (Expr.map φ) := rfl
    have hcoefficient : ((t.map φ).coefficient == (s.map φ).coefficient) =
        (t.coefficient == s.coefficient) := Coefficient.same_map hφ _ _
    have hargument : ((squareArgument? "cos" t.rest).map (Expr.map φ) == some (u.map φ)) =
        (squareArgument? "cos" t.rest == some u) := option_beq_map hφ.beq _ (some u)
    simp only [hcoefficient, ht, squareArgument?_map hφ, hargument]
    split_ifs
    · exact congrArg some (mergeAt_map ts i j ⟨s.coefficient, none⟩)
    · rfl

theorem oneMinusSquare?_map (ts : List (Term α)) :
    oneMinusSquare? (ts.map (Term.map φ)) = (oneMinusSquare? ts).map (List.map (Term.map φ)) := by
  apply findSome?_zipIdx_map
  intro s k
  have hs : (s.map φ).rest.isSome = s.rest.isSome := Option.isSome_map
  simp only [hs]
  split_ifs
  · rfl
  · apply findSome?_zipIdx_map
    intro t i
    have ht : (t.map φ).rest = t.rest.map (Expr.map φ) := rfl
    have hcoefficient : ((t.map φ).coefficient == (s.map φ).coefficient.neg) =
        (t.coefficient == s.coefficient.neg) := by
      rw [← Coefficient.same_map hφ, ← Coefficient.neg_map hφ]
      rfl
    simp only [hcoefficient, ht, otherSquare?_map hφ, Option.map_map]
    split_ifs
    · cases otherSquare? t.rest with
      | none => rfl
      | some square => exact congrArg some (mergeAt_map ts i k ⟨s.coefficient, some square⟩)
    · rfl

theorem pythagoreanIdentity_map (hα : Scalar.TellsZero α) (e : Expr α) :
    pythagoreanIdentity (e.map φ) = Expr.map φ <$> pythagoreanIdentity e := by
  rcases e with _ | _ | ⟨o, l, r⟩ | _ | _ | _ <;> try rfl
  simp only [map_op, pythagoreanIdentity]
  split_ifs
  · rfl
  · apply bind_eq_map (Term.ofSum_map hφ hα 1 (.op o l r))
    intro terms
    rw [sumOfSquares?_map hφ, oneMinusSquare?_map hφ, ← Option.map_or]
    cases (sumOfSquares? terms).or (oneMinusSquare? terms) with
    | none => rfl
    | some ts => exact Term.sum_map hφ ts

end Terms

section Powers

theorem powerFactor?_map (base : Expr α) (v : α) :
    powerFactor? (base.map φ) (φ v) = (powerFactor? base v).map (Expr.map φ) := by
  simp only [powerFactor?, hφ.beq_zero, hφ.beq_one]
  split_ifs <;> rfl

theorem factorOf?_map (p : Expr α × Expr α) :
    factorOf? (p.map (Expr.map φ) (Expr.map φ)) = (factorOf? p).map (Expr.map φ) := by
  obtain ⟨b, exponent⟩ := p
  cases exponent with
  | num v => exact powerFactor?_map hφ b v
  | _ => rfl

theorem withCoefficient_map (c : α) (factors : List (Expr α)) :
    withCoefficient (φ c) (factors.map (Expr.map φ)) = (withCoefficient c factors).map φ := by
  simp only [withCoefficient, hφ.beq_one]
  split_ifs
  · exact Term.product_map hφ factors
  · exact Term.product_map hφ (.num c :: factors)

theorem cancelPower?_map (base : Expr α) (d : α) (ps : List (Expr α × Expr α)) :
    cancelPower? (base.map φ) (φ d) (ps.map (Prod.map (Expr.map φ) (Expr.map φ))) =
      (cancelPower? base d ps).map
        (Prod.map (List.map (Prod.map (Expr.map φ) (Expr.map φ))) φ) := by
  induction ps with
  | nil => rfl
  | cons p ps ih =>
    obtain ⟨b, exponent⟩ := p
    simp only [List.map_cons, Prod.map_apply, cancelPower?, number?_map, ih, beq_map hφ.beq]
    cases exponent.number? with
    | none => cases cancelPower? base d ps <;> rfl
    | some n =>
      simp only [Option.map_some, hφ.min, hφ.sub]
      split_ifs
      · rfl
      · cases cancelPower? base d ps <;> rfl

theorem cancelFactors_map (ps : List (Expr α × Expr α)) (fs : List (Expr α)) :
    cancelFactors (ps.map (Prod.map (Expr.map φ) (Expr.map φ))) (fs.map (Expr.map φ)) =
      Prod.map (List.map (Prod.map (Expr.map φ) (Expr.map φ)))
        (Prod.map (List.map (Expr.map φ)) id) (cancelFactors ps fs) := by
  induction fs generalizing ps with
  | nil => rfl
  | cons f fs ih =>
    simp only [List.map_cons, cancelFactors, Term.powerParts_map hφ, number?_map]
    cases (Term.powerParts f).2.number? with
    | none => simp [ih]
    | some d =>
      simp only [Option.map_some, Option.bind_some, cancelPower?_map hφ]
      cases cancelPower? (Term.powerParts f).1 d ps with
      | none => simp [ih]
      | some c =>
        obtain ⟨qs, left⟩ := c
        simp only [Option.map_some, Prod.map_apply, ih, powerFactor?_map hφ]
        cases powerFactor? (Term.powerParts f).1 left <;> simp

theorem cancelIntegers?_map (hα : Scalar.TellsZero α) (a : α) {b : α}
    (hb : (b == Scalar.zero) = false) :
    cancelIntegers? (φ a) (φ b) = (cancelIntegers? a b).map (Prod.map φ φ) := by
  simp only [cancelIntegers?, hφ.toInt?]
  cases Scalar.toInt? a with
  | none => rfl
  | some m =>
    cases hn : Scalar.toInt? b with
    | none => rfl
    | some n =>
      have hzero : n ≠ 0 := fun h => Bool.eq_false_iff.mp hb ((hα.toInt? hn).mpr h)
      have hg := signedGcd_ne_zero m hzero
      simp only [hφ.div_ofInt hα a hg, hφ.div_ofInt hα b hg]
      split_ifs <;> rfl

omit [Scalar α] [Scalar β] hφ in
theorem factorsOf_map (rest : Option (Expr α)) :
    factorsOf (rest.map (Expr.map φ)) = (factorsOf rest).map (Expr.map φ) := by
  cases rest with
  | none => rfl
  | some e => exact Term.factors_map e

theorem cancelFraction_map (hα : Scalar.TellsZero α) (e : Expr α) :
    cancelFraction (e.map φ) = (cancelFraction e).map φ := by
  rcases e with _ | _ | ⟨o, l, r⟩ | _ | _ | _ <;> try rfl
  cases o <;> try rfl
  simp only [map_op, cancelFraction, Term.splitNumbers_map hφ, hφ.beq_zero, factorsOf_map,
    Term.powerPartsOf_map hφ, cancelFactors_map hφ]
  by_cases hzero : ((Term.splitNumbers l).1 == Scalar.zero ||
      (Term.splitNumbers r).1 == Scalar.zero) = true
  · rw [if_pos hzero, if_pos hzero]
    rfl
  · have hb : ((Term.splitNumbers r).1 == Scalar.zero) = false := by
      simp only [Bool.or_eq_true, not_or, Bool.not_eq_true] at hzero
      exact hzero.2
    have hnumbers : (φ (Term.splitNumbers l).1, φ (Term.splitNumbers r).1) =
        Prod.map φ φ ((Term.splitNumbers l).1, (Term.splitNumbers r).1) := rfl
    have hfactors := filterMap_map_hom (factorOf?_map hφ)
    rw [if_neg hzero, if_neg hzero, cancelIntegers?_map hφ hα _ hb, hnumbers]
    generalize cancelIntegers? (Term.splitNumbers l).1 (Term.splitNumbers r).1 = coefficients
    generalize cancelFactors ((factorsOf (Term.splitNumbers l).2).map Term.powerParts)
      (factorsOf (Term.splitNumbers r).2) = cancelled
    simp only [Option.isNone_map, Option.getD_map, Prod.map_fst, Prod.map_snd, id_eq, hfactors,
      withCoefficient_map hφ, hφ.isNumber]
    split_ifs <;> rfl

theorem powerOfPower_map (e : Expr α) : powerOfPower (e.map φ) = (powerOfPower e).map φ := by
  rcases e with _ | _ | ⟨o, l, r⟩ | _ | _ | _ <;> try rfl
  cases o <;> try rfl
  rcases l with _ | _ | ⟨o, _, _⟩ | _ | _ | _ <;> try rfl
  cases o <;> try rfl
  cases r <;> try rfl
  simp only [map_op, map_num, powerOfPower, hφ.isInteger]
  split_ifs <;> rfl

theorem expandPower_map (e : Expr α) : expandPower (e.map φ) = (expandPower e).map φ := by
  rcases e with _ | _ | ⟨o, l, r⟩ | _ | _ | _ <;> try rfl
  cases o <;> try rfl
  cases r with
  | num v =>
    simp only [map_op, map_num, expandPower, additive?_map, hφ.toInt?]
    cases additive? l with
    | none => rfl
    | some p =>
      cases Scalar.toInt? v with
      | none => rfl
      | some n =>
        simp only [Option.map_some]
        split_ifs
        · rfl
        · simp [hφ.exprOfInt]
        · rfl
  | _ => rfl

theorem addPower_map (ps : Powers α) (p : Expr α × Expr α) :
    addPower (List.map (Prod.map (Expr.map φ) (List.map (Expr.map φ))) ps)
        (p.map (Expr.map φ) (Expr.map φ)) =
      (addPower ps p).map (Prod.map (Expr.map φ) (List.map (Expr.map φ))) := by
  obtain ⟨base, exponent⟩ := p
  induction ps with
  | nil => rfl
  | cons q ps ih =>
    obtain ⟨b, es⟩ := q
    simp only [List.map_cons, Prod.map_apply, addPower, beq_map hφ.beq]
    split_ifs
    · simp
    · simpa using ih

theorem mergedPower?_map (p : Expr α × List (Expr α)) :
    mergedPower? (p.map (Expr.map φ) (List.map (Expr.map φ))) =
      (mergedPower? p).map (Expr.map φ) := by
  obtain ⟨b, es⟩ := p
  simp only [mergedPower?, Prod.map_apply, numbers_map]
  cases es.mapM number? with
  | some vs =>
    simp only [Option.map_some]
    rw [hφ.zero, foldl_map_hom hφ.add, powerFactor?_map hφ]
  | none =>
    cases es with
    | nil => rfl
    | cons e es =>
      simp only [Option.map_none, List.map_cons, Option.map_some, map_op]
      rw [foldl_map_hom (f := Expr.op .add) fun _ _ => rfl]

theorem combinePowers_map (e : Expr α) : combinePowers (e.map φ) = (combinePowers e).map φ := by
  rcases e with _ | _ | ⟨o, l, r⟩ | _ | _ | _ <;> try rfl
  cases o <;> try rfl
  have hfactors : Term.factors (.op .mul (l.map φ) (r.map φ)) =
      (Term.factors (.op .mul l r)).map (Expr.map φ) := Term.factors_map (.op .mul l r)
  simp only [map_op, combinePowers, hfactors]
  generalize Term.factors (.op .mul l r) = fs
  have hmerged := filterMap_map_hom (mergedPower?_map hφ)
  have hpowers := foldl_map_hom (addPower_map hφ)
    ((fs.filter (!·.isNum)).map Term.powerParts) []
  rw [List.map_nil] at hpowers
  rw [numbersOf_map, othersOf_map, Term.powerPartsOf_map hφ, hpowers, hφ.foldl_mul, hφ.beq_zero,
    hmerged, withCoefficient_map hφ]
  simp only [List.length_map, List.all_map, Function.comp_def, Prod.map_snd]
  split_ifs
  · rfl
  · exact hφ.exprOfNat 0
  · rfl

end Powers

end Preserving

end RuleAlgebra.Rules
