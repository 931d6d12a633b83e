import RuleAlgebra.Proofs.BinaryZeros

/-!
The order of binary64 numbers. Numbers are ordered by class, exponent and mantissa, and what is no
number compares with nothing. Numbers of which neither is smaller have a difference that is zero or
no number.
-/

namespace RuleAlgebra.Binary64

open Float.Model UnpackedFloat

section Order

/-- The place of a number in the order: class, exponent and mantissa. -/
def place? : UnpackedFloat → Option (Int ×ₗ Int ×ₗ Int)
  | .notANumber => none
  | .infinity .negative => some (toLex (-2, toLex (0, 0)))
  | .finite .negative m e _ => some (toLex (-1, toLex (-e, -m)))
  | .zero _ => some (toLex (0, toLex (0, 0)))
  | .finite .positive m e _ => some (toLex (1, toLex (e, m)))
  | .infinity .positive => some (toLex (2, toLex (0, 0)))

theorem isLE_then_iff {e e' : Int} {m m' : Nat} :
    ((compare e e').then (compare m m')).isLE = true ↔ e < e' ∨ e = e' ∧ m ≤ m' := by
  rw [Ordering.isLE_then_iff_or, compare_lt_iff_lt, compare_eq_iff_eq, Nat.isLE_compare]

theorem isGE_then_iff {e e' : Int} {m m' : Nat} :
    ((compare e e').then (compare m m')).isGE = true ↔ e' < e ∨ e = e' ∧ m' ≤ m := by
  rw [← Ordering.isLE_swap, Ordering.swap_then, ← Int.compare_swap, ← Nat.compare_swap,
    Ordering.swap_swap, Ordering.swap_swap, isLE_then_iff, @eq_comm _ e e']

theorem le_iff_place {u v : UnpackedFloat} :
    u.le v = true ↔ ∃ p ∈ place? u, ∃ q ∈ place? v, p ≤ q := by
  rcases u with (_ | _) | _ | _ | ⟨_ | _, m, e, hm⟩ <;>
    rcases v with (_ | _) | _ | _ | ⟨_ | _, m', e', hm'⟩ <;>
    simp [UnpackedFloat.le, UnpackedFloat.compare, place?, Prod.Lex.le_iff, isLE_then_iff,
      isGE_then_iff]
  all_goals decide

theorem le_iff_unpack {a b : Float} : a ≤ b ↔ a.toModel.unpack.le b.toModel.unpack :=
  decide_eq_true_iff

theorem lt_iff_unpack {a b : Float} : a < b ↔ a.toModel.unpack.lt b.toModel.unpack :=
  decide_eq_true_iff

theorem float_le_trans {a b c : Float} (hab : a ≤ b) (hbc : b ≤ c) : a ≤ c := by
  rw [le_iff_unpack, le_iff_place] at *
  obtain ⟨p, hp, q, hq, hpq⟩ := hab
  obtain ⟨q', hq', r, hr, hqr⟩ := hbc
  obtain rfl : q = q' := Option.some.inj (hq.symm.trans hq')
  exact ⟨p, hp, r, hr, hpq.trans hqr⟩

end Order

section Small

def IsNought (u : UnpackedFloat) : Prop := u = .notANumber ∨ ∃ s, u = .zero s

variable {v w : Float}

theorem IsNought.pack {u : UnpackedFloat} (h : IsNought u) :
    IsNought (Float.Model.pack u).unpack := by
  rcases h with rfl | ⟨s, rfl⟩
  · exact Or.inl unpack_pack_notANumber
  · exact Or.inr ⟨s, unpack_pack_zero s⟩

theorem IsNought.abs (h : IsNought v.toModel.unpack) :
    IsNought (Scalar.abs v).toModel.unpack := by
  unfold Scalar.abs
  split_ifs
  · change IsNought (Float.Model.pack (.neg v.toModel.unpack)).unpack
    apply IsNought.pack
    rcases h with h | ⟨s, h⟩ <;> rw [h]
    · exact Or.inl rfl
    · exact Or.inr ⟨-s, rfl⟩
  · exact h

theorem IsNought.not_above (h : IsNought v.toModel.unpack) (hw : 0 < w) : ¬w < v := by
  rw [lt_iff_unpack] at *
  change UnpackedFloat.lt (.zero .positive) w.toModel.unpack = true at hw
  generalize w.toModel.unpack = u at hw
  rcases h with h | ⟨s, h⟩ <;> rw [h] <;>
    rcases u with (_ | _) | _ | _ | ⟨_ | _, m, e, hm⟩ <;>
    simp_all [UnpackedFloat.lt, UnpackedFloat.compare]

theorem eq_of_isLE_of_ne_lt {o : Ordering} (hle : o.isLE = true) (hlt : o ≠ .lt) : o = .eq := by
  cases o <;> simp_all

theorem same_of_not_lt {a b : UnpackedFloat} (hle : a.le b = true) (hlt : a.lt b = false) :
    a = b ∨ ∃ s t, a = .zero s ∧ b = .zero t := by
  have heq : a.compare b = some .eq := by
    cases h : a.compare b with
    | none => simp [UnpackedFloat.le, h] at hle
    | some o =>
      rw [eq_of_isLE_of_ne_lt (o := o) (by simpa [UnpackedFloat.le, h] using hle)]
      simpa [UnpackedFloat.lt, h] using hlt
  rcases a with (_ | _) | _ | _ | ⟨_ | _, m, e, hm⟩ <;>
    rcases b with (_ | _) | _ | _ | ⟨_ | _, m', e', hm'⟩ <;>
    simp_all [UnpackedFloat.compare, and_comm, Ordering.swap_eq_eq]

theorem sub_self_isNought (u : UnpackedFloat) : IsNought (.sub .binary64 u u) := by
  rcases u with (_ | _) | _ | (_ | _) | ⟨_ | _, m, e, hm⟩
  · exact Or.inl rfl
  · exact Or.inl rfl
  · exact Or.inl rfl
  · exact Or.inr ⟨_, rfl⟩
  · exact Or.inr ⟨_, rfl⟩
  all_goals
    refine Or.inr ⟨.positive, ?_⟩
    simp only [UnpackedFloat.sub, Int.sub_self, UnpackedFloat.normalize]
    rfl

theorem sub_isNought (hle : v ≤ w) (hlt : ¬v < w) : IsNought (w - v).toModel.unpack := by
  rw [unpack_sub]
  apply IsNought.pack
  rw [lt_iff_unpack, Bool.not_eq_true] at hlt
  rcases same_of_not_lt (le_iff_unpack.mp hle) hlt with heq | ⟨s, t, hv, hw⟩
  · rw [heq]
    exact sub_self_isNought _
  · rw [hv, hw]
    cases s <;> cases t <;> exact Or.inr ⟨_, rfl⟩

end Small

end RuleAlgebra.Binary64
