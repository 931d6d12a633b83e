import RuleAlgebra.Proofs.EqualRules
import RuleAlgebra.Proofs.MappedRules
import RuleAlgebra.Proofs.StandardRules

/-!
Numbers up to equality. Where arithmetic gives equal results for numbers that compare as equal, such
as the two zeros, the classes of equal numbers are scalars in turn, and an expression stands for one
over the classes. The rules of the standard library that do not factor take alike expressions to
alike ones, since they commute with the map onto the classes.
-/

namespace RuleAlgebra

variable {α : Type}

namespace Scalar

/-- The same number, or numbers that compare as equal. -/
def Alike [BEq α] (u v : α) : Prop := u = v ∨ (u == v) = true

variable (α) in
/-- Arithmetic does not tell numbers apart that compare as equal. -/
structure Congruent [Scalar α] : Prop where
  lt {u u' v v' : α} : Alike u u' → Alike v v' → Scalar.lt u v = Scalar.lt u' v'
  isFinite {u u' : α} : Alike u u' → Scalar.isFinite u = Scalar.isFinite u'
  toRat? {u u' : α} : Alike u u' → Scalar.toRat? u = Scalar.toRat? u'
  neg {u u' : α} : Alike u u' → Alike (-u) (-u')
  add {u u' v v' : α} : Alike u u' → Alike v v' → Alike (u + v) (u' + v')
  sub {u u' v v' : α} : Alike u u' → Alike v v' → Alike (u - v) (u' - v')
  mul {u u' v v' : α} : Alike u u' → Alike v v' → Alike (u * v) (u' * v')
  div {u u' v v' : α} : Alike u u' → Alike v v' → (v == zero) = false → Alike (u / v) (u' / v')
  abs {u u' : α} : Alike u u' → Alike (Scalar.abs u) (Scalar.abs u')
  pow {u u' v v' : α} : Alike u u' → Alike v v' →
    Option.Rel Alike (Arithmetic.pow.value? u v) (Arithmetic.pow.value? u' v')
  elementary (f : Elementary) {u u' : α} : Alike u u' → Option.Rel Alike (f.value? u) (f.value? u')

theorem Alike.eq [BEq α] [LawfulBEq α] {u v : α} (h : Alike u v) : u = v := h.elim id eq_of_beq

theorem rel_of_eq [BEq α] {x y : Option α} (h : x = y) : Option.Rel Alike x y := by
  subst h
  cases x with
  | none => exact .none
  | some v => exact .some (Or.inl rfl)

theorem congruent_of_lawful [Scalar α] [LawfulBEq α] : Congruent α where
  lt h h' := by rw [h.eq, h'.eq]
  isFinite h := by rw [h.eq]
  toRat? h := by rw [h.eq]
  neg h := Or.inl (by rw [h.eq])
  add h h' := Or.inl (by rw [h.eq, h'.eq])
  sub h h' := Or.inl (by rw [h.eq, h'.eq])
  mul h h' := Or.inl (by rw [h.eq, h'.eq])
  div h h' _ := Or.inl (by rw [h.eq, h'.eq])
  abs h := Or.inl (by rw [h.eq])
  pow h h' := rel_of_eq (by rw [h.eq, h'.eq])
  elementary _ _ _ h := rel_of_eq (by rw [h.eq])

end Scalar

section Equality

variable [BEq α] [PartialEquivBEq α] {u u' v v' w : α}

theorem Scalar.Alike.symm (h : Alike u v) : Alike v u := h.imp Eq.symm PartialEquivBEq.symm

theorem Scalar.Alike.trans (h : Alike u v) (h' : Alike v w) : Alike u w := by
  rcases h with rfl | h
  · exact h'
  · rcases h' with rfl | h'
    · exact Or.inr h
    · exact Or.inr (PartialEquivBEq.trans h h')

theorem Scalar.Alike.beq (h : Alike u u') (h' : Alike v v') : (u == v) = (u' == v') := by
  have left : (u == v) = (u' == v) := by
    rcases h with rfl | h
    · rfl
    · exact BEq.congr_left h
  have right : (u' == v) = (u' == v') := by
    rcases h' with rfl | h'
    · rfl
    · exact BEq.congr_right h'
  exact left.trans right

variable (α) in
def alikeSetoid : Setoid α := ⟨Scalar.Alike, fun _ => Or.inl rfl, .symm, .trans⟩

variable (α) in
def NumberClass : Type := Quotient (alikeSetoid α)

namespace NumberClass

def of (v : α) : NumberClass α := Quotient.mk (alikeSetoid α) v

noncomputable def member (c : NumberClass α) : α := Quotient.out c

theorem of_eq_of : of u = of v ↔ Scalar.Alike u v := Quotient.eq

theorem member_of (v : α) : Scalar.Alike (of v).member v := Quotient.mk_out (s := alikeSetoid α) v

end NumberClass

end Equality

namespace NumberClass

open Scalar

variable [Scalar α] [PartialEquivBEq α]

noncomputable instance : Scalar (NumberClass α) where
  beq c d := c.member == d.member
  add c d := of (c.member + d.member)
  sub c d := of (c.member - d.member)
  neg c := of (-c.member)
  mul c d := of (c.member * d.member)
  div c d := of (c.member / d.member)
  lt c d := Scalar.lt c.member d.member
  le c d := Scalar.le c.member d.member
  isNegative c := Scalar.isNegative c.member
  isFinite c := Scalar.isFinite c.member
  toRat? c := Scalar.toRat? c.member
  ofRat? q := (Scalar.ofRat? q).map of
  ofDecimal n x := of (Scalar.ofDecimal n x)
  ofInfinity? negative := (Scalar.ofInfinity? negative).map of
  power? c d := (Scalar.power? c.member d.member).map of
  elementary? f c := (Scalar.elementary? f c.member).map of
  pi := of Scalar.pi
  e := of Scalar.e
  shortest c := Scalar.shortest c.member

theorem map_of_eq {x y : Option α} (h : Option.Rel Alike x y) : x.map of = y.map of := by
  cases h with
  | none => rfl
  | some h => exact congrArg some (of_eq_of.mpr h)

theorem finite?_bind (hα : Congruent α) (x : Option α) :
    (x.map of).bind Scalar.finite? = (x.bind Scalar.finite?).map of := by
  cases x with
  | none => rfl
  | some v =>
    have hfinite : Scalar.isFinite (of v) = Scalar.isFinite v := hα.isFinite (member_of v)
    simp only [Option.map_some, Option.bind_some, Scalar.finite?, hfinite]
    split_ifs <;> rfl

theorem preserves_of (hα : Congruent α) : Preserves (of : α → NumberClass α) where
  beq u v := (member_of u).beq (member_of v)
  lt u v := hα.lt (member_of u) (member_of v)
  isFinite u := hα.isFinite (member_of u)
  toRat? u := hα.toRat? (member_of u)
  ofRat? _ := rfl
  ofDecimal _ _ := rfl
  neg u := of_eq_of.mpr (hα.neg (member_of u))
  add u v := of_eq_of.mpr (hα.add (member_of u) (member_of v))
  sub u v := of_eq_of.mpr (hα.sub (member_of u) (member_of v))
  mul u v := of_eq_of.mpr (hα.mul (member_of u) (member_of v))
  div u v hv := (of_eq_of.mpr (hα.div (member_of u).symm (member_of v).symm hv)).symm
  abs u := by
    have habs : Scalar.abs (of u) = of (Scalar.abs (of u).member) := by
      have hmember : of u = of (of u).member := (of_eq_of.mpr (member_of u)).symm
      simp only [Scalar.abs, apply_ite of, ← hmember]
      rfl
    rw [habs]
    exact of_eq_of.mpr (hα.abs (member_of u))
  pow u v := by
    change ((Scalar.power? (of u).member (of v).member).map of).bind Scalar.finite? = _
    rw [finite?_bind hα]
    exact map_of_eq (hα.pow (member_of u) (member_of v))
  elementary f u := by
    change ((Scalar.elementary? f (of u).member).map of).bind Scalar.finite? = _
    rw [finite?_bind hα]
    exact map_of_eq (hα.elementary f (member_of u))

end NumberClass

namespace Expr

section Alike

variable [BEq α] [PartialEquivBEq α]

mutual

theorem alike_iff : ∀ {p q : Expr α}, Alike p q ↔ p.map NumberClass.of = q.map NumberClass.of
  | num u, q => by
    cases q with
    | num v =>
      rw [map_num, map_num, num.injEq, NumberClass.of_eq_of]
      rfl
    | _ => simp [Alike]
  | var x, q => by cases q <;> simp [Alike]
  | op o l r, q => by cases q <;> simp [Alike, alike_iff]
  | fn f as, q => by
    cases q with
    | fn g bs => simp [Alike, alikeAll_iff]
    | _ => simp [Alike]
  | eq l r, q => by cases q <;> simp [Alike, alike_iff]
  | wild x k a, q => by cases q <;> simp [Alike]

theorem alikeAll_iff : ∀ {ps qs : List (Expr α)},
    AlikeAll ps qs ↔ ps.map (map NumberClass.of) = qs.map (map NumberClass.of)
  | [], qs => by cases qs <;> simp [AlikeAll]
  | p :: ps, qs => by
    cases qs with
    | nil => simp [AlikeAll]
    | cons q qs => simp [AlikeAll, alike_iff, alikeAll_iff]

end

theorem Alike.symm {p q : Expr α} (h : Alike p q) : Alike q p :=
  alike_iff.mpr (alike_iff.mp h).symm

theorem Alike.trans {p q r : Expr α} (h : Alike p q) (h' : Alike q r) : Alike p r :=
  alike_iff.mpr ((alike_iff.mp h).trans (alike_iff.mp h'))

omit [PartialEquivBEq α] in
mutual

theorem Same.alike {p q : Expr α} : Same p q → Alike p q
  | .num h => Or.inr h
  | .var _ => rfl
  | .op _ hl hr => ⟨rfl, hl.alike, hr.alike⟩
  | .fn _ h => ⟨rfl, h.alikeAll⟩
  | .eq hl hr => ⟨hl.alike, hr.alike⟩
  | .wild _ _ _ => ⟨rfl, rfl, rfl⟩

theorem SameAll.alikeAll {ps qs : List (Expr α)} : SameAll ps qs → AlikeAll ps qs
  | .nil => trivial
  | .cons h hs => ⟨h.alike, hs.alikeAll⟩

end

omit [PartialEquivBEq α] in
theorem alike_of_beq {p q : Expr α} (h : (p == q) = true) : Alike p q := (beq_iff_same.mp h).alike

end Alike

section Descent

variable [Scalar α] [PartialEquivBEq α]

theorem Alike.beq {p p' q q' : Expr α} (hp : Alike p p') (hq : Alike q q') :
    (p == q) = (p' == q') := by
  have hof (u v : α) : (NumberClass.of u == NumberClass.of v) = (u == v) :=
    (NumberClass.member_of u).beq (NumberClass.member_of v)
  rw [← beq_map hof p q, ← beq_map hof p' q', alike_iff.mp hp, alike_iff.mp hq]

omit [PartialEquivBEq α] in
theorem Alike.eq [LawfulBEq α] {p q : Expr α} (h : Alike p q) : p = q := by
  apply eq_of_beq
  rw [← (Alike.refl p).beq h]
  exact BEq.rfl

/-- A function that does the same to expressions over the classes of numbers. -/
def Descends (f : Expr α → Except Failure (Expr α)) : Prop :=
  ∃ g : Expr (NumberClass α) → Except Failure (Expr (NumberClass α)),
    ∀ e, g (e.map NumberClass.of) = map NumberClass.of <$> f e

theorem Descends.ofPure {f : Expr α → Expr α} {g : Expr (NumberClass α) → Expr (NumberClass α)}
    (h : ∀ e, g (e.map NumberClass.of) = (f e).map NumberClass.of) :
    Descends fun e => pure (f e) := ⟨fun e => pure (g e), fun e => congrArg pure (h e)⟩

theorem Descends.alike {f : Expr α → Except Failure (Expr α)} (hf : Descends f) {p q : Expr α}
    (h : Alike p q) : Outcomes Alike (f p) (f q) := by
  obtain ⟨g, hg⟩ := hf
  have hmap : map NumberClass.of <$> f p = map NumberClass.of <$> f q := by
    rw [← hg, ← hg, alike_iff.mp h]
  cases hp : f p with
  | error e =>
    cases hq : f q with
    | error e' =>
      rw [hp, hq] at hmap
      exact Except.error.inj hmap
    | ok c => simp [hp, hq, Functor.map, Except.map] at hmap
  | ok b =>
    cases hq : f q with
    | error e' => simp [hp, hq, Functor.map, Except.map] at hmap
    | ok c =>
      rw [hp, hq] at hmap
      exact alike_iff.mpr (Except.ok.inj hmap)

end Descent

end Expr

namespace Rules

open RuleAlgebra.Expr RuleAlgebra.Scalar

variable [Scalar α]

variable [PartialEquivBEq α] (hα : Congruent α) (hz : TellsZero α)

include hα

theorem patternRule_descends (p s : Expr α) : Descends (patternRule p s) :=
  ⟨patternRule (p.map NumberClass.of) (s.map NumberClass.of),
    patternRule_map (NumberClass.preserves_of hα).beq p s⟩

include hz

theorem computedRules_descend {r : Rule α} (hr : r ∈ computedRules)
    (hfactor : r.info.category ≠ some "factor") : Descends r.apply := by
  have hφ := NumberClass.preserves_of hα
  simp only [computedRules, List.mem_cons, List.not_mem_nil, or_false] at hr
  rcases hr with rfl | rfl | rfl | rfl | rfl | rfl | rfl | rfl | rfl | rfl | rfl | rfl | rfl | rfl |
    rfl | rfl | rfl | rfl | rfl
  · exact ⟨_, foldConstants_map hφ hz⟩
  · exact ⟨_, addFractions_map hφ⟩
  · exact .ofPure constantFirst_map
  · exact .ofPure (mergeCoefficients_map hφ)
  · exact .ofPure (zeroNumerator_map hφ)
  · exact .ofPure (normalizeSigns_map hφ)
  · exact ⟨_, combineLikeTerms_map hφ hz⟩
  · exact .ofPure (selfDivision_map hφ)
  · exact .ofPure associateProducts_map
  · exact .ofPure multiplyFractions_map
  · exact .ofPure nestedFractions_map
  · exact .ofPure (cancelFraction_map hφ hz)
  · exact ⟨_, pythagoreanIdentity_map hφ hz⟩
  · exact .ofPure (combinePowers_map hφ)
  · exact .ofPure (powerOfPower_map hφ)
  · exact .ofPure distribute_map
  · exact .ofPure (expandPower_map hφ)
  · exact absurd rfl hfactor
  · exact absurd rfl hfactor

end Rules

end RuleAlgebra
