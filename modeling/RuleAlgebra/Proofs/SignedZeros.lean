import RuleAlgebra.Proofs.BinaryOrder
import RuleAlgebra.Proofs.NumberClasses

/-!
The two zeros of binary64, the only numbers that are equal and not the same. Arithmetic gives equal
results for both, quotients by a zero apart. With what is documented of the functions of the machine
at the zeros, no operation tells equal numbers apart.
-/

namespace RuleAlgebra.Binary64

open Float.Model UnpackedFloat Scalar

section Near

/-- The same number, or zeros. -/
def Near (u v : UnpackedFloat) : Prop := u = v ∨ ∃ s t, u = .zero s ∧ v = .zero t

variable {u u' v v' w : UnpackedFloat}

theorem Near.trans (h : Near u v) (h' : Near v w) : Near u w := by
  rcases h with rfl | ⟨s, t, rfl, rfl⟩
  · exact h'
  · rcases h' with rfl | ⟨_, t', -, rfl⟩
    · exact Or.inr ⟨s, t, rfl, rfl⟩
    · exact Or.inr ⟨s, t', rfl, rfl⟩

theorem Near.map₂ {f : UnpackedFloat → UnpackedFloat → UnpackedFloat}
    (hleft : ∀ s t y, Near (f (.zero s) y) (f (.zero t) y))
    (hright : ∀ s t x, Near (f x (.zero s)) (f x (.zero t))) (h : Near u u') (h' : Near v v') :
    Near (f u v) (f u' v') := by
  have first : Near (f u v) (f u' v) := by
    rcases h with rfl | ⟨s, t, rfl, rfl⟩
    · exact Or.inl rfl
    · exact hleft s t v
  have second : Near (f u' v) (f u' v') := by
    rcases h' with rfl | ⟨s, t, rfl, rfl⟩
    · exact Or.inl rfl
    · exact hright s t u'
  exact first.trans second

theorem Near.neg (h : Near u v) : Near u.neg v.neg := by
  rcases h with rfl | ⟨s, t, rfl, rfl⟩
  · exact Or.inl rfl
  · exact Or.inr ⟨_, _, rfl, rfl⟩

theorem Near.add (h : Near u u') (h' : Near v v') :
    Near (u.add .binary64 v) (u'.add .binary64 v') := by
  refine Near.map₂ ?_ ?_ h h'
  all_goals
    intro s t y
    cases y with
    | zero r => cases s <;> cases t <;> cases r <;> exact Or.inr ⟨_, _, rfl, rfl⟩
    | _ => exact Or.inl rfl

theorem Near.sub (h : Near u u') (h' : Near v v') :
    Near (u.sub .binary64 v) (u'.sub .binary64 v') := by
  refine Near.map₂ ?_ ?_ h h'
  all_goals
    intro s t y
    cases y with
    | zero r => cases s <;> cases t <;> cases r <;> exact Or.inr ⟨_, _, rfl, rfl⟩
    | _ => exact Or.inl rfl

theorem Near.mul (h : Near u u') (h' : Near v v') :
    Near (u.mul .binary64 v) (u'.mul .binary64 v') := by
  refine Near.map₂ ?_ ?_ h h'
  all_goals
    intro s t y
    cases y with
    | zero | finite => exact Or.inr ⟨_, _, rfl, rfl⟩
    | _ => exact Or.inl rfl

/-- The divisor stays the same: the quotients by the two zeros are the two infinities. -/
theorem Near.div (h : Near u u') (v : UnpackedFloat) :
    Near (u.div .binary64 v) (u'.div .binary64 v) := by
  rcases h with rfl | ⟨s, t, rfl, rfl⟩
  · exact Or.inl rfl
  · cases v with
    | infinity | finite => exact Or.inr ⟨_, _, rfl, rfl⟩
    | _ => exact Or.inl rfl

theorem Near.sqrt (h : Near u v) : Near (u.sqrt .binary64) (v.sqrt .binary64) := by
  rcases h with rfl | ⟨s, t, rfl, rfl⟩
  · exact Or.inl rfl
  · exact Or.inr ⟨_, _, rfl, rfl⟩

theorem Near.abs (h : Near u v) : Near u.abs v.abs := by
  rcases h with rfl | ⟨s, t, rfl, rfl⟩ <;> exact Or.inl rfl

theorem Near.alike (h : Near u v) :
    Alike (Float.ofModel (Float.Model.pack u)) (Float.ofModel (Float.Model.pack v)) := by
  rcases h with rfl | ⟨s, t, rfl, rfl⟩
  · exact Or.inl rfl
  · refine Or.inr ?_
    change (Float.Model.pack (.zero s)).unpack.beq (Float.Model.pack (.zero t)).unpack = true
    rw [unpack_pack_zero, unpack_pack_zero]
    rfl

end Near

section Zeros

variable {a a' b b' z z' : Float}

theorem alike_of_zeros (hz : (z == 0) = true) (hz' : (z' == 0) = true) : Alike z z' :=
  Or.inr (PartialEquivBEq.trans hz (PartialEquivBEq.symm hz'))

theorem eq_or_zeros (h : Alike a b) : a = b ∨ (a == 0) = true ∧ (b == 0) = true := by
  rcases h with h | h
  · exact Or.inl h
  · obtain ⟨-, -, h | ⟨rfl, rfl⟩ | ⟨rfl, rfl⟩⟩ := Float.beq_iff_ne_nan_and_eq.mp h
    · exact Or.inl h
    · exact Or.inr (by decide)
    · exact Or.inr (by decide)

theorem near_unpack (h : Alike a b) : Near a.toModel.unpack b.toModel.unpack := by
  rcases eq_or_zeros h with rfl | ⟨ha, hb⟩
  · exact Or.inl rfl
  · obtain ⟨s, hs⟩ := (beq_zero_iff_unpack a).mp ha
    obtain ⟨t, ht⟩ := (beq_zero_iff_unpack b).mp hb
    exact Or.inr ⟨s, t, hs, ht⟩

theorem lt_congr (h : Alike a a') (h' : Alike b b') : a < b ↔ a' < b' := by
  have hcompare (s : Sign) (u : UnpackedFloat) :
      (UnpackedFloat.zero s).lt u = (UnpackedFloat.zero .positive).lt u ∧
        u.lt (.zero s) = u.lt (.zero .positive) := by
    rcases u with (_ | _) | _ | _ | ⟨_ | _, m, e, hm⟩ <;> exact ⟨rfl, rfl⟩
  rw [lt_iff_unpack, lt_iff_unpack]
  rcases near_unpack h with h | ⟨s, t, hs, ht⟩ <;>
    rcases near_unpack h' with h' | ⟨s', t', hs', ht'⟩
  · rw [h, h']
  · rw [h, hs', ht', (hcompare s' _).2, (hcompare t' _).2]
  · rw [h', hs, ht, (hcompare s _).1, (hcompare t _).1]
  · rw [hs, ht, hs', ht']
    rfl

theorem isFinite_congr (h : Alike a b) : a.isFinite = b.isFinite := by
  change a.toModel.unpack.isFinite = b.toModel.unpack.isFinite
  rcases near_unpack h with h | ⟨s, t, hs, ht⟩
  · rw [h]
  · rw [hs, ht]
    rfl

theorem toRat?_congr (h : Alike a b) : toRat? a = toRat? b := by
  rcases eq_or_zeros h with rfl | ⟨ha, hb⟩
  · rfl
  · rw [(beq_zero_iff_toRat? a).mp ha, (beq_zero_iff_toRat? b).mp hb]

theorem abs_congr (h : Alike a b) : Alike (Scalar.abs a) (Scalar.abs b) := by
  rcases eq_or_zeros h with rfl | ⟨ha, hb⟩
  · exact Or.inl rfl
  · have habs {z : Float} (hz : (z == 0) = true) : (Scalar.abs z == 0) = true := by
      unfold Scalar.abs
      split_ifs
      · obtain ⟨s, hs⟩ := (beq_zero_iff_unpack z).mp hz
        refine (beq_zero_iff_unpack _).mpr ⟨-s, ?_⟩
        change (Float.Model.pack z.toModel.unpack.neg).unpack = _
        rw [hs]
        exact unpack_pack_zero (-s)
      · exact hz
    exact alike_of_zeros (habs ha) (habs hb)

theorem rel_finite? (h : Alike a b) : Option.Rel Alike (finite? a) (finite? b) := by
  have hfinite : Scalar.isFinite a = Scalar.isFinite b := isFinite_congr h
  unfold finite?
  rw [hfinite]
  split_ifs
  · exact .some h
  · exact .none

theorem one_unpack : (1 : Float).toModel.unpack = .finite .positive (2 ^ 52) (-52) (by decide) := by
  have hbits : (1 : Float) = Float.ofBits 0x3ff0000000000000 := by decide
  rw [hbits]
  rfl

theorem finite?_reciprocal (hz : (z == 0) = true) : finite? (1 / z) = none := by
  obtain ⟨s, hs⟩ := (beq_zero_iff_unpack z).mp hz
  refine if_neg (Bool.eq_false_iff.mp ?_)
  change (Float.Model.pack
    (.div .binary64 (1 : Float).toModel.unpack z.toModel.unpack)).unpack.isFinite = false
  rw [one_unpack, hs]
  cases s <;> rfl

end Zeros

section Machine

/-- What is documented of the functions of the machine at the zeros. The odd functions have zeros
there, and the others do not see the sign. -/
structure MachineZeros : Prop where
  floor {z : Float} : (z == 0) = true → z.floor = z
  odd {f : Elementary} {z : Float} : f ∈ [.sin, .tan, .asin, .atan, .sinh, .tanh] →
    (z == 0) = true → (apply f z == 0) = true
  even {f : Elementary} {z : Float} : f ∈ [.cos, .acos, .cosh, .exp, .ln] →
    (z == 0) = true → apply f z = apply f 0
  powerOf {z v : Float} : (z == 0) = true → ¬v < 0 → Alike (z.pow v) (Float.pow 0 v)
  powerTo {u z : Float} : (z == 0) = true → u.pow z = 1

variable (hm : MachineZeros) {a a' b b' : Float}

include hm

theorem floor_congr (h : Alike a b) : (a.floor == a) = (b.floor == b) := by
  rcases eq_or_zeros h with rfl | ⟨ha, hb⟩
  · rfl
  · rw [hm.floor ha, hm.floor hb]
    exact (PartialEquivBEq.trans ha (PartialEquivBEq.symm ha)).trans
      (PartialEquivBEq.trans hb (PartialEquivBEq.symm hb)).symm

theorem pow_congr (h : Alike a a') (h' : Alike b b') (hb : ¬((a == 0) = true ∧ b < 0)) :
    Alike (a.pow b) (a'.pow b') := by
  have base : Alike (a.pow b) (a'.pow b) := by
    rcases eq_or_zeros h with rfl | ⟨hz, hz'⟩
    · exact Or.inl rfl
    · have hb : ¬b < 0 := fun hlt => hb ⟨hz, hlt⟩
      exact (hm.powerOf hz hb).trans (hm.powerOf hz' hb).symm
  have exponent : Alike (a'.pow b) (a'.pow b') := by
    rcases eq_or_zeros h' with rfl | ⟨hz, hz'⟩
    · exact Or.inl rfl
    · exact Or.inl ((hm.powerTo hz).trans (hm.powerTo hz').symm)
  exact base.trans exponent

theorem power_congr (h : Alike a a') (h' : Alike b b') :
    Option.Rel Alike (Arithmetic.pow.value? a b) (Arithmetic.pow.value? a' b') := by
  change Option.Rel Alike ((power? a b).bind finite?) ((power? a' b').bind finite?)
  have hbase : (a == 0) = (a' == 0) := h.beq (Or.inl rfl)
  have hnegative : decide (a < 0) = decide (a' < 0) :=
    decide_eq_decide.mpr (lt_congr h (Or.inl rfl))
  have hexponent : decide (b < 0) = decide (b' < 0) :=
    decide_eq_decide.mpr (lt_congr h' (Or.inl rfl))
  unfold power?
  rw [← hbase, ← hnegative, ← hexponent, ← isFinite_congr h', ← floor_congr hm h']
  split_ifs with hzero
  · exact .none
  · exact .none
  · exact rel_finite? (pow_congr hm h h' (by simpa using hzero))

theorem elementary_congr (f : Elementary) (h : Alike a b) :
    Option.Rel Alike (f.value? a) (f.value? b) := by
  change Option.Rel Alike (finite? (apply f a)) (finite? (apply f b))
  rcases eq_or_zeros h with rfl | ⟨ha, hb⟩
  · exact rel_of_eq rfl
  · have even {g : Elementary} (hg : g ∈ [.cos, .acos, .cosh, .exp, .ln]) : apply g a = apply g b :=
      (hm.even hg ha).trans (hm.even hg hb).symm
    cases f with
    | sin | tan | asin | atan | sinh | tanh =>
      exact rel_finite? (alike_of_zeros (hm.odd (by decide) ha) (hm.odd (by decide) hb))
    | cos | acos | cosh | exp | ln => exact rel_finite? (Or.inl (even (by decide)))
    | sec =>
      have hcos : apply .cos a = apply .cos b := even (by decide)
      exact rel_of_eq (congrArg (fun c => finite? (1 / c)) hcos)
    | csc =>
      have hsin {z : Float} (hz : (z == 0) = true) : finite? (apply .csc z) = none :=
        finite?_reciprocal (hm.odd (f := .sin) (by decide) hz)
      exact rel_of_eq ((hsin ha).trans (hsin hb).symm)
    | cot =>
      have htan {z : Float} (hz : (z == 0) = true) : finite? (apply .cot z) = none :=
        finite?_reciprocal (hm.odd (f := .tan) (by decide) hz)
      exact rel_of_eq ((htan ha).trans (htan hb).symm)
    | sqrt => exact rel_finite? (near_unpack h).sqrt.alike
    | abs => exact rel_finite? (near_unpack h).abs.alike

theorem congruent_float : Congruent Float where
  lt h h' := decide_eq_decide.mpr (lt_congr h h')
  isFinite := isFinite_congr
  toRat? := toRat?_congr
  neg h := (near_unpack h).neg.alike
  add h h' := ((near_unpack h).add (near_unpack h')).alike
  sub h h' := ((near_unpack h).sub (near_unpack h')).alike
  mul h h' := ((near_unpack h).mul (near_unpack h')).alike
  div {u u' v v'} h h' hv := by
    rcases eq_or_zeros h' with rfl | ⟨hzero, -⟩
    · exact ((near_unpack h).div v.toModel.unpack).alike
    · exact absurd (hv.symm.trans hzero) Bool.false_ne_true
  abs := abs_congr
  pow := power_congr hm
  elementary f _ _ h := elementary_congr hm f h

end Machine

section Integers

theorem unpackMantissa_pack_neg (u : UnpackedFloat) :
    unpackMantissa (UnpackedFloat.pack .binary64 u.neg) =
      unpackMantissa (UnpackedFloat.pack .binary64 u) := by
  cases u with
  | finite s m e hm =>
    simp only [UnpackedFloat.neg, UnpackedFloat.pack]
    split_ifs <;> simp [packedInfinity]
  | _ => simp [UnpackedFloat.neg, UnpackedFloat.pack, packedInfinity, packedZero]

theorem fractionField_neg (v : Float) : fractionField (-v) = fractionField v := by
  have hbits : UnpackedFloat.pack .binary64 v.toModel.unpack = v.toBits.toBitVec :=
    pack_unpack_of_valid v.toModel.valid
  unfold fractionField
  rw [← hbits, ← unpackMantissa_pack_neg]
  rfl

theorem neg_beq_zero (v : Float) : (-v == 0) = (v == 0) := by
  rw [Bool.eq_iff_iff, beq_zero_iff_toRat?, beq_zero_iff_toRat?, toRat?_eq_zero_iff,
    toRat?_eq_zero_iff, exponentField_neg, fractionField_neg]

theorem round_beq_zero {n : Int} (hn : n ≠ 0) {v : Float} (h : ofRat? n = some v) :
    (v == 0) = false := by
  obtain ⟨q, hq, hzero⟩ := toRat?_of_ofRat?_intCast h
  rw [Bool.eq_false_iff, Ne, beq_zero_iff_toRat?, hq, Option.some.injEq, hzero]
  exact hn

theorem ofNat_beq_zero {n : Nat} (hn : n ≠ 0) : ((Scalar.ofNat n : Float) == 0) = false := by
  have hinfinity : (infinity false == 0) = false := by decide
  change (ofDecimal n 0 == 0) = false
  unfold ofDecimal
  dsimp only
  rw [if_neg hn]
  split_ifs with hlarge hsmall
  · exact hinfinity
  · omega
  · cases h : ofRat? (Rational.ofDecimal n 0) with
    | none => exact hinfinity
    | some v =>
      have hn : (n : Int) ≠ 0 := by exact_mod_cast hn
      have hround : ofRat? ((n : Int) : Rat) = some v := by simpa [Rational.ofDecimal] using h
      exact round_beq_zero hn hround

theorem tellsZero_float : TellsZero Float where
  value := beq_zero_iff_toRat? _
  ofInt {n} hn := by
    cases n with
    | ofNat n => exact ofNat_beq_zero (by simpa using hn)
    | negSucc n => exact (neg_beq_zero _).trans (ofNat_beq_zero (Nat.succ_ne_zero n))
  round hn h := round_beq_zero hn h

end Integers

end RuleAlgebra.Binary64
