import RuleAlgebra.Proofs.StandardRules
import RuleAlgebra.Proofs.Variables

/-!
The results of the rules of the standard library have every inherited property that the expression
has: identities fill skeletons, and the rules that compute build their results from parts of the
expression and numbers. In particular no rule adds a variable.
-/

namespace RuleAlgebra

open RuleAlgebra.Expr RuleAlgebra.Traced

variable {α : Type} {P : Expr α → Prop}

def BothHave (P : Expr α → Prop) (p : Expr α × Expr α) : Prop := P p.1 ∧ P p.2

namespace Rules

section Lists

theorem filterMap_inherits {β : Type} {f : β → Option (Expr α)} {bs : List β}
    (h : ∀ b ∈ bs, ∀ e ∈ f b, P e) : ∀ e ∈ bs.filterMap f, P e := by
  intro e he
  obtain ⟨b, hb, hf⟩ := List.mem_filterMap.mp he
  exact h b hb e hf

theorem getD_inherits {o : Option (Expr α)} {e : Expr α} (ho : ∀ d ∈ o, P d)
    (he : P e) : P (o.getD e) := by
  cases o with
  | none => exact he
  | some d => exact ho d rfl

theorem mem_mergeAt {ts : List (Term α)} {i j : Nat} {t u : Term α} (h : u ∈ mergeAt ts i j t) :
    u = t ∨ u ∈ ts := by
  rcases List.eq_or_mem_of_mem_insertIdx h with h | h
  · exact Or.inl h
  · obtain ⟨⟨v, k⟩, hv, rfl⟩ := List.mem_map.mp h
    exact Or.inr (mem_of_mem_zipIdx (List.mem_of_mem_filter hv))

theorem mergeAt_inherits {ts : List (Term α)} (hts : ∀ t ∈ ts, Term.RestHas P t) {i j : Nat}
    {t : Term α} (ht : Term.RestHas P t) : ∀ u ∈ mergeAt ts i j t, Term.RestHas P u := by
  intro u hu
  rcases mem_mergeAt hu with rfl | hu
  · exact ht
  · exact hts u hu

theorem mergeTerm_inherits [Scalar α] {ts : List (Term α)} {t : Term α}
    (hts : ∀ u ∈ ts, Term.RestHas P u) (ht : Term.RestHas P t) : Yields (∀ u ∈ ·, Term.RestHas P u) (mergeTerm ts t) := by
  induction ts with
  | nil => exact List.forall_mem_singleton.mpr ht
  | cons u us ih =>
    obtain ⟨hu, hus⟩ := List.forall_mem_cons.mp hts
    unfold mergeTerm
    split_ifs
    · apply outcome_after
      intro c
      exact List.forall_mem_cons.mpr ⟨ht, hus⟩
    · apply (ih hus).bind
      intro rest hrest
      exact List.forall_mem_cons.mpr ⟨hu, hrest⟩

end Lists

section Rearrangement

variable (hP : Inherited P) {e : Expr α}
include hP

theorem constantFirst_inherits (h : P e) : P (constantFirst e) := by
  unfold constantFirst
  split
  · split_ifs
    · exact h
    · exact hP.op.mpr (hP.op.mp h).symm
  · exact h

theorem associateProducts_inherits (h : P e) : P (associateProducts e) := by
  unfold associateProducts
  split
  · simpa [hP.op, and_assoc] using h
  · exact h

theorem multiplyFractions_inherits (h : P e) : P (multiplyFractions e) := by
  unfold multiplyFractions
  split
  · simpa [hP.op, and_assoc] using h
  · simpa [hP.op, and_assoc, and_comm, and_left_comm] using h
  · exact h

theorem nestedFractions_inherits (h : P e) : P (nestedFractions e) := by
  unfold nestedFractions
  split
  · simpa [hP.op, and_assoc] using h
  · simpa [hP.op, and_assoc, and_comm, and_left_comm] using h
  · exact h

theorem distribute_inherits (h : P e) : P (distribute e) := by
  obtain hkept | hd := distribute_cases e
  · rwa [hkept]
  · generalize distribute e = d at hd ⊢
    cases hd <;> simp_all [hP.op]

theorem factorsOf_inherits {rest : Option (Expr α)} (h : ∀ e ∈ rest, P e) :
    ∀ f ∈ factorsOf rest, P f := by
  cases rest with
  | none => exact List.forall_mem_nil _
  | some e => exact Term.factors_inherit hP (h e rfl)

theorem option_num_inherits (v : Option α) : ∀ d ∈ v.map num, P d := by
  cases v with
  | none => simp
  | some v => simp [hP.num]

end Rearrangement

section

variable [Scalar α] (hP : Inherited P)
include hP

section Arithmetic

theorem nearIntegerNumber?_inherits (v : α) :
    Yields (∀ d ∈ ·, P d) (nearIntegerNumber? v) := by
  unfold nearIntegerNumber?
  split
  · apply (ofRat?_inherits hP _).bind
    rintro d hd _ ⟨⟩
    exact hd
  · rintro _ ⟨⟩

theorem foldQuotient?_inherits (a b : α) (m n : Int) : ∀ d ∈ foldQuotient? a b m n, P d := by
  unfold foldQuotient?
  dsimp only
  split_ifs <;> simp [hP.op, hP.num]

theorem foldReciprocal_inherits (a b : α) : Yields (∀ d ∈ ·, P d) (foldReciprocal a b) := by
  unfold foldReciprocal
  split_ifs
  · rintro _ ⟨⟩
  · split
    · rintro _ ⟨⟩
      exact hP.op.mpr ⟨hP.num _, hP.num _⟩
    · trivial

theorem foldOperation_inherits (o : Arithmetic) (a b : α) :
    Yields (∀ d ∈ ·, P d) (foldOperation o a b) := by
  unfold foldOperation
  split
  · exact foldQuotient?_inherits hP a b _ _
  · split_ifs
    · exact foldReciprocal_inherits hP a b
    · exact option_num_inherits hP _
  · split
    · exact nearIntegerNumber?_inherits hP _
    · rintro _ ⟨⟩
  · exact option_num_inherits hP _

theorem foldFunction_inherits (f : String) (args : List (Expr α)) :
    Yields (∀ d ∈ ·, P d) (foldFunction f args) := by
  unfold foldFunction
  split
  · split
    · exact nearIntegerNumber?_inherits hP _
    · rintro _ ⟨⟩
  · rintro _ ⟨⟩

omit hP in
theorem foldConstants_inherits : Inherits (foldConstants : Expr α → _) := by
  intro P hP e he
  unfold foldConstants
  split
  · apply (foldOperation_inherits hP _ _ _).bind
    intro folded hfolded
    exact getD_inherits hfolded he
  · apply (foldFunction_inherits hP _ _).bind
    intro folded hfolded
    exact getD_inherits hfolded he
  · exact he

omit hP in
theorem addFractions_inherits : Inherits (addFractions : Expr α → _) := by
  intro P hP e he
  obtain h | ⟨o, l, r, p, q, -, -, -, -, -, h⟩ := addFractions_cases e
  · rw [h]
    exact he
  · rw [h]
    exact Term.toExpr_inherits hP (by simp [Term.RestHas])

theorem mergeCoefficients_inherits {e : Expr α} (h : P e) :
    P (mergeCoefficients e) := by
  unfold mergeCoefficients
  split
  · simpa [hP.op, hP.num] using h
  · exact h

theorem zeroNumerator_inherits {e : Expr α} (h : P e) : P (zeroNumerator e) := by
  unfold zeroNumerator
  split
  · split_ifs
    · exact hP.ofNat 0
    · exact h
  · exact h

theorem Negates.inherits {e d : Expr α} (h : Negates e d) (he : P e) : P d := by
  cases h with
  | number _ => exact hP.num _
  | unit _ r => exact (hP.op.mp he).2
  | product _ r => exact hP.op.mpr ⟨hP.num _, (hP.op.mp he).2⟩

theorem normalizeSigns_inherits {e : Expr α} (h : P e) : P (normalizeSigns e) := by
  obtain hkept | hd := normalizeSigns_cases e
  · rwa [hkept]
  · generalize normalizeSigns e = d at hd ⊢
    cases hd with
    | operand _ l hr =>
      obtain ⟨hl, hr'⟩ := hP.op.mp h
      exact hP.op.mpr ⟨hl, hr.inherits hP hr'⟩
    | numerator _ l hn d =>
      simp only [hP.op] at h ⊢
      exact ⟨h.1, hn.inherits hP h.2.1, h.2.2⟩

end Arithmetic

section Algebraic

omit hP in
theorem combineLikeTerms_inherits : Inherits (combineLikeTerms : Expr α → _) := by
  intro P hP e he
  unfold combineLikeTerms
  split
  · split_ifs
    · exact he
    · apply (Term.ofSum_inherits hP he).bind
      intro ts hts
      have hmerged : Yields (∀ u ∈ ·, Term.RestHas P u) (ts.foldlM mergeTerm []) :=
        outcome_foldlM (List.forall_mem_nil _) fun t ht us hus => mergeTerm_inherits hus (hts t ht)
      apply hmerged.bind
      intro us hus
      split_ifs
      · exact he
      · exact Term.sum_inherits hP hus
  · exact he

theorem selfDivision_inherits {e : Expr α} (h : P e) : P (selfDivision e) := by
  unfold selfDivision
  split
  · split_ifs
    · exact hP.ofNat 1
    · exact h
  · exact h

theorem powerParts_inherits {e : Expr α} (h : P e) : BothHave P (Term.powerParts e) := by
  unfold Term.powerParts
  split
  · exact hP.op.mp h
  · exact ⟨h, hP.ofNat 1⟩

theorem map_powerParts_inherits {fs : List (Expr α)} (h : ∀ f ∈ fs, P f) :
    ∀ p ∈ fs.map Term.powerParts, BothHave P p :=
  List.forall_mem_map.mpr fun f hf => powerParts_inherits hP (h f hf)

theorem powerFactor?_inherits {base : Expr α} (h : P base) (v : α) :
    ∀ f ∈ powerFactor? base v, P f := by
  unfold powerFactor?
  split_ifs
  · simp
  · simpa using h
  · simpa [hP.op, hP.num] using h

theorem factorOf?_inherits {p : Expr α × Expr α} (h : BothHave P p) :
    ∀ f ∈ factorOf? p, P f := by
  unfold factorOf?
  split
  · exact powerFactor?_inherits hP h.1 _
  · simpa [hP.op] using And.intro h.1 h.2

theorem withCoefficient_inherits (c : α) {fs : List (Expr α)} (h : ∀ f ∈ fs, P f) :
    P (withCoefficient c fs) := by
  unfold withCoefficient
  split_ifs
  · exact Term.product_inherits hP h
  · exact Term.product_inherits hP (List.forall_mem_cons.mpr ⟨hP.num c, h⟩)

theorem cancelPower?_inherits {base : Expr α} {d left : α} {ps qs : List (Expr α × Expr α)}
    (hps : ∀ p ∈ ps, BothHave P p) (h : cancelPower? base d ps = some (qs, left)) :
    ∀ q ∈ qs, BothHave P q := by
  induction ps generalizing qs with
  | nil => cases h
  | cons p ps ih =>
    obtain ⟨hp, hps⟩ := List.forall_mem_cons.mp hps
    have hrest (h : (cancelPower? base d ps).map (fun r => (p :: r.1, r.2)) =
        some (qs, left)) : ∀ q ∈ qs, BothHave P q := by
      obtain ⟨⟨rs, left'⟩, hrs, heq⟩ := Option.map_eq_some_iff.mp h
      cases heq
      exact List.forall_mem_cons.mpr ⟨hp, ih hps hrs⟩
    unfold cancelPower? at h
    split at h
    · split_ifs at h
      · cases h
        exact List.forall_mem_cons.mpr ⟨⟨hp.1, hP.num _⟩, hps⟩
      · exact hrest h
    · exact hrest h

theorem cancelFactors_inherits {fs : List (Expr α)} (hfs : ∀ f ∈ fs, P f)
    {ps : List (Expr α × Expr α)} (hps : ∀ p ∈ ps, BothHave P p) :
    (∀ p ∈ (cancelFactors ps fs).1, BothHave P p) ∧
      ∀ f ∈ (cancelFactors ps fs).2.1, P f := by
  induction fs generalizing ps with
  | nil => exact ⟨hps, List.forall_mem_nil _⟩
  | cons f fs ih =>
    obtain ⟨hf, hfs⟩ := List.forall_mem_cons.mp hfs
    unfold cancelFactors
    dsimp only
    split
    · rename_i qs left h
      obtain ⟨d, -, h⟩ := Option.bind_eq_some_iff.mp h
      obtain ⟨hpowers, hkept⟩ := ih hfs (cancelPower?_inherits hP hps h)
      refine ⟨hpowers, List.forall_mem_append.mpr ⟨?_, hkept⟩⟩
      simpa [hP.op] using powerFactor?_inherits hP (powerParts_inherits hP hf).1 left
    · obtain ⟨hpowers, hkept⟩ := ih hfs hps
      exact ⟨hpowers, List.forall_mem_cons.mpr ⟨hf, hkept⟩⟩

theorem cancelFraction_inherits {e : Expr α} (h : P e) : P (cancelFraction e) := by
  unfold cancelFraction
  split
  · rename_i l r
    obtain ⟨hl, hr⟩ := hP.op.mp h
    have hpowers :=
      map_powerParts_inherits hP (factorsOf_inherits hP (Term.splitNumbers_inherits hP hl))
    have hfactors := factorsOf_inherits hP (Term.splitNumbers_inherits hP hr)
    obtain ⟨hleft, hkept⟩ := cancelFactors_inherits hP hfactors hpowers
    have hnumerator := filterMap_inherits fun p hp => factorOf?_inherits hP (hleft p hp)
    dsimp only
    split_ifs
    · exact h
    · exact h
    · exact withCoefficient_inherits hP _ hnumerator
    · exact hP.op.mpr
        ⟨withCoefficient_inherits hP _ hnumerator, withCoefficient_inherits hP _ hkept⟩
  · exact h

end Algebraic

section Trigonometric

theorem squareArgument?_inherits {name : String} {rest : Option (Expr α)} {u : Expr α}
    (hrest : ∀ e ∈ rest, P e) (h : squareArgument? name rest = some u) : P u := by
  unfold squareArgument? at h
  split at h
  · split_ifs at h
    cases h
    exact hP.args (hP.op.mp (hrest _ rfl)).1 u (by simp)
  · cases h

theorem squareOf_inherits {name : String} (hname : name ≠ integralName) {u : Expr α} (h : P u) :
    P (squareOf name u) := by
  simpa [squareOf, hP.squared, hP.call_iff hname] using h

omit hP in
theorem sumOfSquares?_inherits {ts us : List (Term α)} (hts : ∀ t ∈ ts, Term.RestHas P t)
    (h : sumOfSquares? ts = some us) : ∀ u ∈ us, Term.RestHas P u := by
  obtain ⟨⟨t, i⟩, -, h⟩ := List.exists_of_findSome?_eq_some h
  obtain ⟨v, -, h⟩ := Option.bind_eq_some_iff.mp h
  obtain ⟨⟨t', j⟩, -, h⟩ := List.exists_of_findSome?_eq_some h
  simp only [Option.ite_none_right_eq_some] at h
  obtain ⟨-, h⟩ := h
  cases h
  exact mergeAt_inherits hts (by simp [Term.RestHas])

theorem otherSquare?_inherits {rest : Option (Expr α)} (hrest : ∀ e ∈ rest, P e) :
    ∀ d ∈ otherSquare? rest, P d := by
  intro d hd
  unfold otherSquare? at hd
  split at hd
  · rename_i u hu
    cases hd
    exact squareOf_inherits hP (by decide) (squareArgument?_inherits hP hrest hu)
  · obtain ⟨u, hu, rfl⟩ := Option.map_eq_some_iff.mp hd
    exact squareOf_inherits hP (by decide) (squareArgument?_inherits hP hrest hu)

theorem oneMinusSquare?_inherits {ts us : List (Term α)} (hts : ∀ t ∈ ts, Term.RestHas P t)
    (h : oneMinusSquare? ts = some us) : ∀ u ∈ us, Term.RestHas P u := by
  obtain ⟨⟨t, k⟩, -, h⟩ := List.exists_of_findSome?_eq_some h
  simp only [Option.ite_none_left_eq_some] at h
  obtain ⟨⟨t', i⟩, ht', h⟩ := List.exists_of_findSome?_eq_some h.2
  simp only [Option.ite_none_right_eq_some] at h
  obtain ⟨d, hd, rfl⟩ := Option.map_eq_some_iff.mp h.2
  have hother := otherSquare?_inherits hP (hts t' (mem_of_mem_zipIdx ht')) d hd
  exact mergeAt_inherits hts (by simpa [Term.RestHas] using hother)

omit hP in
theorem pythagoreanIdentity_inherits : Inherits (pythagoreanIdentity : Expr α → _) := by
  intro P hP e he
  unfold pythagoreanIdentity
  split
  · split_ifs
    · exact he
    · apply (Term.ofSum_inherits hP he).bind
      intro ts hts
      split
      · rename_i us hus
        apply Term.sum_inherits hP
        rcases Option.or_eq_some_iff.mp hus with h | ⟨-, h⟩
        · exact sumOfSquares?_inherits hts h
        · exact oneMinusSquare?_inherits hP hts h
      · exact he
  · exact he

end Trigonometric

section Powers

omit hP in
theorem addPower_inherits {ps : Powers α} {p : Expr α × Expr α}
    (hps : ∀ q ∈ ps, P q.1 ∧ ∀ e ∈ q.2, P e) (hp : BothHave P p) :
    ∀ q ∈ addPower ps p, P q.1 ∧ ∀ e ∈ q.2, P e := by
  obtain ⟨base, exponent⟩ := p
  induction ps with
  | nil => simpa [addPower] using And.intro hp.1 hp.2
  | cons q ps ih =>
    obtain ⟨hq, hps⟩ := List.forall_mem_cons.mp hps
    unfold addPower
    split_ifs
    · refine List.forall_mem_cons.mpr ⟨⟨hq.1, ?_⟩, hps⟩
      exact List.forall_mem_append.mpr ⟨hq.2, List.forall_mem_singleton.mpr hp.2⟩
    · exact List.forall_mem_cons.mpr ⟨hq, ih hps⟩

omit hP in
theorem foldl_addPower_inherits {ps : List (Expr α × Expr α)} (h : ∀ p ∈ ps, BothHave P p) :
    ∀ q ∈ ps.foldl addPower [], P q.1 ∧ ∀ e ∈ q.2, P e :=
  List.foldlRecOn (motive := fun qs => ∀ q ∈ qs, P q.1 ∧ ∀ e ∈ q.2, P e) ps addPower
    (List.forall_mem_nil _) fun _ hqs p hp => addPower_inherits hqs (h p hp)

theorem mergedPower?_inherits {p : Expr α × List (Expr α)} (hbase : P p.1)
    (hexponents : ∀ e ∈ p.2, P e) : ∀ d ∈ mergedPower? p, P d := by
  unfold mergedPower?
  split
  · exact powerFactor?_inherits hP hbase _
  · split
    · simpa [hP.op] using hbase
    · rename_i e es heq
      rw [heq] at hexponents
      obtain ⟨he, hes⟩ := List.forall_mem_cons.mp hexponents
      simpa [hP.op] using And.intro hbase (Term.foldl_op_inherits hP .add he hes)

theorem combinePowers_inherits {e : Expr α} (h : P e) : P (combinePowers e) := by
  unfold combinePowers
  split
  · rename_i l r
    have hfactors : ∀ f ∈ (Term.factors (op .mul l r)).filter (!·.isNum), P f :=
      fun f hf => Term.factors_inherit hP h f (List.mem_of_mem_filter hf)
    have hpowers := foldl_addPower_inherits (map_powerParts_inherits hP hfactors)
    dsimp only
    split_ifs
    · exact h
    · exact hP.ofNat 0
    · apply withCoefficient_inherits hP
      apply filterMap_inherits
      intro q hq
      obtain ⟨hbase, hexponents⟩ := hpowers q hq
      exact mergedPower?_inherits hP hbase hexponents
  · exact h

theorem powerOfPower_inherits {e : Expr α} (h : P e) : P (powerOfPower e) := by
  unfold powerOfPower
  split
  · split_ifs
    · simpa [hP.op, hP.num, and_assoc] using h
    · exact h
  · exact h

theorem expandPower_inherits {e : Expr α} (h : P e) : P (expandPower e) := by
  obtain hkept | ⟨base, v, n, -, -, -, rfl, hd⟩ := expandPower_cases e
  · rwa [hkept]
  · have hbase := (hP.op.mp h).1
    rw [hd]
    split_ifs
    · exact hP.op.mpr ⟨hbase, hbase⟩
    · simpa [hP.op, hP.ofInt] using hbase

end Powers

section Factoring

omit hP in
theorem sharedPowers_inherits {perTerm : List (List (Expr α × Expr α))}
    (h : ∀ ps ∈ perTerm, ∀ p ∈ ps, BothHave P p) : ∀ q ∈ sharedPowers perTerm, P q.1 := by
  unfold sharedPowers
  split
  · exact List.forall_mem_nil _
  · rename_i first rest
    apply List.foldlRecOn (motive := fun shared : List (Expr α × α) => ∀ q ∈ shared, P q.1)
      first _ (List.forall_mem_nil _)
    rintro shared hshared ⟨base, exponent⟩ hp
    have hbase : P base := (h first (by simp) _ hp).1
    dsimp only
    split
    · split_ifs
      · exact hshared
      · split
        · split_ifs
          · exact List.forall_mem_append.mpr ⟨hshared, List.forall_mem_singleton.mpr hbase⟩
          · exact hshared
        · exact hshared
    · exact hshared

theorem lowerPower_inherits (base : Expr α) (lowest : α) {ps : List (Expr α × Expr α)}
    (h : ∀ p ∈ ps, BothHave P p) : ∀ q ∈ lowerPower base lowest ps, BothHave P q := by
  induction ps with
  | nil => exact h
  | cons p ps ih =>
    obtain ⟨hp, hps⟩ := List.forall_mem_cons.mp h
    unfold lowerPower
    split
    · split_ifs
      · exact List.forall_mem_cons.mpr ⟨⟨hp.1, hP.num _⟩, hps⟩
      · exact List.forall_mem_cons.mpr ⟨hp, ih hps⟩
    · exact List.forall_mem_cons.mpr ⟨hp, ih hps⟩

theorem withoutShared_inherits (shared : List (Expr α × α)) {rest : Option (Expr α)}
    (h : ∀ e ∈ rest, P e) : ∀ e ∈ withoutShared shared rest, P e := by
  unfold withoutShared
  split_ifs
  · exact h
  · have hpowers := map_powerParts_inherits hP (factorsOf_inherits hP h)
    have hlowered := List.foldlRecOn (motive := fun ps => ∀ p ∈ ps, BothHave P p) shared
      (fun ps q => lowerPower q.1 q.2 ps) hpowers
      fun ps hps q _ => lowerPower_inherits hP q.1 q.2 hps
    have hfactors := filterMap_inherits fun p hp => factorOf?_inherits hP (hlowered p hp)
    dsimp only
    split
    · simp
    · simpa [hP.op] using Term.product_inherits hP hfactors

omit hP in
theorem factorCommonTerm_inherits : Inherits (factorCommonTerm : Expr α → _) := by
  intro P hP e he
  unfold factorCommonTerm
  split
  · split_ifs
    · exact he
    · apply (Term.ofSum_inherits hP he).bind
      intro ts hts
      apply outcome_after
      intro g
      have hperTerm : ∀ ps ∈ ts.map fun t => (factorsOf t.rest).map Term.powerParts,
          ∀ p ∈ ps, BothHave P p :=
        List.forall_mem_map.mpr fun t ht =>
          map_powerParts_inherits hP (factorsOf_inherits hP (hts t ht))
      generalize hdef : (if ts.all (·.rest.isSome) = true then _ else _ : List (Expr α × α)) = shared
      have hshared : ∀ q ∈ shared, P q.1 := by
        rw [← hdef]
        split_ifs
        · exact sharedPowers_inherits hperTerm
        · exact List.forall_mem_nil _
      by_cases hg : g = 1 ∧ shared.isEmpty = true
      · rw [if_pos hg]
        exact he
      · rw [if_neg hg]
        have hreduced : Yields (∀ u ∈ ·, Term.RestHas P u) (ts.mapM fun t => do
            let c ← t.coefficient.divide g
            pure (⟨c, withoutShared shared t.rest⟩ : Term α)) := by
          apply outcome_forall_mapM
          intro t ht
          apply outcome_after
          intro c
          exact withoutShared_inherits hP shared (hts t ht)
        apply hreduced.bind
        intro us hus
        apply (ofRat?_inherits hP _).bind
        intro divisor hdivisor
        apply (Term.sum_inherits hP hus).bind
        intro inside hinside
        have hpowers := filterMap_inherits fun q hq => powerFactor?_inherits hP (hshared q hq) q.2
        dsimp only
        refine hP.op.mpr ⟨Term.product_inherits hP ?_, hinside⟩
        split_ifs
        · exact hpowers
        · exact List.forall_mem_cons.mpr ⟨hdivisor, hpowers⟩
  · exact he

end Factoring

end

end Rules

namespace Roots

variable [Scalar α] (hP : Inherited P)
include hP

theorem powerOf_inherits {e : Expr α} (he : P e) (degree : Nat) :
    P (powerOf e degree) := by
  unfold powerOf
  split_ifs
  · exact he
  · simpa [hP.op, hP.ofNat] using he

theorem build_inherits (coeffs : List α) {x : String} (hx : P (var x)) :
    Yields P (build coeffs x) := by
  apply Term.sum_inherits hP
  simp only [List.mem_reverse, List.forall_mem_map]
  rintro ⟨c, d⟩ - e he
  by_cases hd : d = 0
  · simp [hd] at he
  · obtain rfl : powerOf (var x) d = e := by simpa [hd] using he
    exact powerOf_inherits hP hx d

theorem linearFactor_inherits (root : Rat) {e : Expr α} (he : P e) :
    Yields P (linearFactor root e) := by
  unfold linearFactor
  by_cases hroot : root = 0
  · rw [if_pos hroot]
    exact he
  · rw [if_neg hroot]
    apply (ofRat?_inherits hP _).bind
    intro p hp
    apply (ofRat?_inherits hP _).bind
    intro q hq
    have hlhs : P (if root.den = 1 then e else op .mul q e) := by
      split_ifs
      · exact he
      · exact hP.op.mpr ⟨hq, he⟩
    generalize (if root.den = 1 then e else op .mul q e) = lhs at hlhs ⊢
    split_ifs
    · exact hP.op.mpr ⟨hlhs, hp⟩
    · exact hP.op.mpr ⟨hlhs, hp⟩

theorem rootFactors_inherits {e : Expr α} (he : P e) (roots : List Rat) :
    Yields (∀ f ∈ ·, P f) (rootFactors e roots) := by
  apply outcome_forall_mapM
  intro root _
  apply (linearFactor_inherits hP root he).bind
  intro linear hlinear
  dsimp only
  split_ifs
  · exact hlinear
  · exact hP.op.mpr ⟨hlinear, hP.ofNat _⟩

theorem factor_inherits (coeffs : List α) {x : String} (hx : P (var x)) :
    Yields (∀ d ∈ ·, P d) (factor coeffs x) := by
  apply outcome_after
  rintro ⟨roots, rest⟩
  dsimp only
  split_ifs
  · rintro _ ⟨⟩
  · apply (rootFactors_inherits hP hx roots).bind
    intro factors hfactors
    split
    · split_ifs
      · rintro _ ⟨⟩
        exact Term.product_inherits hP hfactors
      · apply (ofRat?_inherits hP _).bind
        rintro c hc _ ⟨⟩
        exact Term.product_inherits hP (List.forall_mem_cons.mpr ⟨hc, hfactors⟩)
    · apply outcome_after
      intro values
      apply (build_inherits hP values hx).bind
      rintro remainder hremainder _ ⟨⟩
      apply Term.product_inherits hP
      exact List.forall_mem_append.mpr ⟨hfactors, List.forall_mem_singleton.mpr hremainder⟩

end Roots

namespace Rules

variable [Scalar α]

theorem factorRationalRoots_inherits : Inherits (factorRationalRoots : Expr α → _) := by
  intro P hP e he
  obtain h | ⟨x, coeffs, hnames, -, -, h⟩ := factorRationalRoots_cases e
  · rw [h]
    exact he
  · have hx : P (var x) := hP.occurrence he (mem_variableNames.mp (by simp [hnames]))
    rw [h]
    apply (Roots.factor_inherits hP _ hx).bind
    intro factored hfactored
    exact getD_inherits hfactored he

theorem identities_inherit :
    ∀ r ∈ (identities : List (Rule α)), Inherits r.apply := by
  simp only [identities, arithmeticIdentities, trigonometricIdentities, exponentialIdentities,
    logarithmicIdentities, List.cons_append, List.nil_append, List.forall_mem_cons,
    List.not_mem_nil, false_imp_iff, implies_true, and_true]
  constructorm* _ ∧ _
  all_goals
    apply patternRule_inherits
    simp [any, sum, difference, product, quotient, power, call, nat, integralName]

theorem computedRules_inherit :
    ∀ r ∈ (computedRules : List (Rule α)), Inherits r.apply := by
  simp only [computedRules, List.forall_mem_cons, List.not_mem_nil, false_imp_iff, implies_true,
    and_true]
  exact ⟨foldConstants_inherits, addFractions_inherits, .ofPure constantFirst_inherits,
    .ofPure mergeCoefficients_inherits, .ofPure zeroNumerator_inherits,
    .ofPure normalizeSigns_inherits, combineLikeTerms_inherits, .ofPure selfDivision_inherits,
    .ofPure associateProducts_inherits, .ofPure multiplyFractions_inherits,
    .ofPure nestedFractions_inherits, .ofPure cancelFraction_inherits,
    pythagoreanIdentity_inherits, .ofPure combinePowers_inherits,
    .ofPure powerOfPower_inherits, .ofPure distribute_inherits, .ofPure expandPower_inherits,
    factorCommonTerm_inherits, factorRationalRoots_inherits⟩

end Rules

theorem Library.standard_inherits [Scalar α] :
    ∀ r ∈ (Library.standard : Library α).rules, Inherits r.apply := by
  intro r hr
  rcases Library.mem_standard hr with hr | hr
  · exact Rules.identities_inherit r hr
  · exact Rules.computedRules_inherit r hr

theorem Library.standard_keepsVariables [Scalar α] :
    ∀ r ∈ (Library.standard : Library α).rules, KeepsVariables r.apply :=
  fun r hr => (Library.standard_inherits r hr).keepsVariables

end RuleAlgebra
