import RuleAlgebra.Proofs.CommonFactors
import RuleAlgebra.Proofs.Identities
import RuleAlgebra.Proofs.PowerRules
import RuleAlgebra.Proofs.RootFactoring

/-!
All rules of the standard library keep the values of expressions without functions.
-/

namespace RuleAlgebra

open RuleAlgebra.Expr

variable {K : Type*} [Field K] {I : Interpretation K}

theorem Library.addAll_rules {α : Type} (l : Library α) (rs : List (Rule α)) :
    (l.addAll rs).rules = l.rules ++ rs := by
  induction rs generalizing l with
  | nil => simp [addAll]
  | cons r rs ih =>
    change (Library.addAll (l.add r) rs).rules = _
    rw [ih]
    simp [add]

theorem Library.mem_standard {α : Type} [Scalar α] {r : Rule α}
    (h : r ∈ (Library.standard : Library α).rules) :
    r ∈ Rules.identities ∨ r ∈ Rules.computedRules := by
  rw [standard, ofRules, addAll_rules] at h
  simp only [empty, List.nil_append, List.mem_flatMap, List.mem_filter, List.mem_append] at h
  obtain ⟨c, -, h, -⟩ := h
  exact h

namespace Rules

theorem squareArgument?_undefined (hcall : ∀ f vs, ¬I.CallDefined f vs) {name : String}
    {rest : Option (Expr Rat)} {u : Expr Rat} (h : squareArgument? name rest = some u) :
    ¬Term.RestDefined I rest := by
  unfold squareArgument? at h
  split at h
  · simp [Term.RestDefined, hcall]
  · simp at h

theorem mem_of_mem_zipIdx {β : Type} {bs : List β} {b : β} {i : Nat} (h : (b, i) ∈ bs.zipIdx) :
    b ∈ bs := (List.mem_zipIdx' h).2 ▸ List.getElem_mem _

theorem sumOfSquares?_undefined (hcall : ∀ f vs, ¬I.CallDefined f vs) {ts us : List (Term Rat)}
    (h : sumOfSquares? ts = some us) : ∃ t ∈ ts, ¬t.Defined I := by
  obtain ⟨⟨s, i⟩, hs, h⟩ := List.exists_of_findSome?_eq_some h
  obtain ⟨u, hu, -⟩ := Option.bind_eq_some_iff.mp h
  exact ⟨s, mem_of_mem_zipIdx hs, squareArgument?_undefined hcall hu⟩

theorem otherSquare?_undefined (hcall : ∀ f vs, ¬I.CallDefined f vs) {rest : Option (Expr Rat)}
    {e : Expr Rat} (h : otherSquare? rest = some e) : ¬Term.RestDefined I rest := by
  unfold otherSquare? at h
  split at h
  · rename_i u hu
    exact squareArgument?_undefined hcall hu
  · obtain ⟨u, hu, -⟩ := Option.map_eq_some_iff.mp h
    exact squareArgument?_undefined hcall hu

theorem oneMinusSquare?_undefined (hcall : ∀ f vs, ¬I.CallDefined f vs) {ts us : List (Term Rat)}
    (h : oneMinusSquare? ts = some us) : ∃ t ∈ ts, ¬t.Defined I := by
  obtain ⟨⟨s, k⟩, hs, h⟩ := List.exists_of_findSome?_eq_some h
  simp only [Option.ite_none_left_eq_some] at h
  obtain ⟨⟨t, i⟩, ht, h⟩ := List.exists_of_findSome?_eq_some h.2
  simp only [Option.ite_none_right_eq_some] at h
  obtain ⟨e, he, -⟩ := Option.map_eq_some_iff.mp h.2
  exact ⟨t, mem_of_mem_zipIdx ht, otherSquare?_undefined hcall he⟩

/-- The rule keeps values when what it makes of the terms of a sum has a sum of the same value. -/
theorem pythagoreanIdentity_keepsValue_of [CharZero K]
    (hkept : ∀ ts us, sumOfSquares? ts = some us ∨ oneMinusSquare? ts = some us →
      (∀ t ∈ ts, t.Defined I) → (∀ u ∈ us, u.Defined I) ∧ Term.total I us = Term.total I ts) :
    KeepsValue I pythagoreanIdentity := by
  intro e
  unfold pythagoreanIdentity
  split
  · rename_i o l r
    split_ifs
    · exact ⟨_, rfl, Refines.refl _⟩
    · obtain ⟨ts, hts, vts, dts⟩ := Term.terms_spec I (.op o l r)
      simp only [hts, ok_bind]
      split
      · rename_i us hus
        obtain ⟨d, hd, vd, dd⟩ := Term.sum_spec I us
        refine ⟨d, hd, fun he => ?_⟩
        obtain ⟨hdefined, htotal⟩ :=
          hkept ts us ((Option.or_eq_some_iff.mp hus).imp_right And.right) (dts he)
        exact ⟨dd hdefined, by rw [vd, htotal, vts]⟩
      · exact ⟨_, rfl, Refines.refl _⟩
  · exact ⟨_, rfl, Refines.refl _⟩

theorem pythagoreanIdentity_keepsValue [CharZero K] (hcall : ∀ f vs, ¬I.CallDefined f vs) :
    KeepsValue I pythagoreanIdentity := by
  apply pythagoreanIdentity_keepsValue_of
  intro ts us h hdefined
  obtain ⟨t, ht, hundefined⟩ : ∃ t ∈ ts, ¬t.Defined I := by
    rcases h with h | h
    · exact sumOfSquares?_undefined hcall h
    · exact oneMinusSquare?_undefined hcall h
  exact absurd (hdefined t ht) hundefined

theorem computedRules_keepsValue [CharZero K] (hI : I.PowerLaws)
    (hcall : ∀ f vs, ¬I.CallDefined f vs) :
    ∀ r ∈ (computedRules : List (Rule Rat)), KeepsValue I r.apply := by
  simp only [computedRules, List.forall_mem_cons, List.not_mem_nil, false_imp_iff, implies_true,
    and_true]
  exact ⟨foldConstants_keepsValue hI hcall, addFractions_keepsValue,
    .ofPure constantFirst_refines, .ofPure mergeCoefficients_refines,
    .ofPure zeroNumerator_refines, .ofPure normalizeSigns_refines, combineLikeTerms_keepsValue,
    .ofPure selfDivision_refines, .ofPure associateProducts_refines,
    .ofPure multiplyFractions_refines, .ofPure nestedFractions_refines,
    .ofPure (cancelFraction_refines hI), pythagoreanIdentity_keepsValue hcall,
    .ofPure (combinePowers_refines hI), .ofPure (powerOfPower_refines hI),
    .ofPure distribute_refines, .ofPure (expandPower_refines hI),
    factorCommonTerm_keepsValue hI, factorRationalRoots_keepsValue hI hcall⟩

end Rules

theorem Library.standard_keepsValue [CharZero K] (hI : I.PowerLaws)
    (hcall : ∀ f vs, ¬I.CallDefined f vs) :
    ∀ r ∈ (Library.standard : Library Rat).rules, KeepsValue I r.apply := by
  intro r hr
  rcases Library.mem_standard hr with hr | hr
  · exact Rules.identities_keepsValue hI hcall r hr
  · exact Rules.computedRules_keepsValue hI hcall r hr

end RuleAlgebra
