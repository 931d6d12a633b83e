import RuleAlgebra.Proofs.FactorCosts

/-!
Cancelling the common factors of a quotient, and merging the powers of a product, lower the cost. A
potential pays for them: the weight of the numerator's powers and twice that of the denominator's
factors, which no cancelled pair raises.
-/

namespace RuleAlgebra.Rules

open RuleAlgebra.Expr RuleAlgebra.Term

section Powers

def restWeight : Option (Expr Rat) → Nat
  | none => 0
  | some e => e.weight

def RestClosed : Option (Expr Rat) → Prop
  | none => True
  | some e => e.Closed

def powerWeight (w : Nat) (n : Int) : Nat :=
  if n = 0 then 0 else if n = 1 then w else if n < 0 then w + 12 else w + 9

theorem powerFactor?_weight (base : Expr Rat) (n : Int) :
    restWeight (powerFactor? base (n : Rat)) = powerWeight base.weight n := by
  unfold powerFactor? powerWeight
  simp only [Scalar.beq_rat, Scalar.zero_rat, Scalar.one_rat, decide_eq_true_eq]
  by_cases h0 : n = 0
  · simp [h0, restWeight]
  · by_cases h1 : n = 1
    · simp [h1, restWeight]
    · have h1' : (n : Rat) ≠ 1 := by exact_mod_cast h1
      have h0' : (n : Rat) ≠ 0 := by exact_mod_cast h0
      simp only [h0', h1', h0, h1, if_false, restWeight, weight_op, weight_num, opWeight,
        numWeight_intCast]
      split_ifs <;> omega

theorem powerFactor?_closed {base : Expr Rat} (hb : base.Closed) (n : Int) :
    RestClosed (powerFactor? base (n : Rat)) := by
  unfold powerFactor?
  split_ifs
  · trivial
  · exact hb
  · simp [RestClosed, hb]

theorem closed_filterMap {β : Type} {g : β → Option (Expr Rat)} {bs : List β}
    (h : ∀ b ∈ bs, RestClosed (g b)) : ∀ f ∈ bs.filterMap g, f.Closed := by
  intro f hf
  obtain ⟨b, hb, hg⟩ := List.mem_filterMap.mp hf
  have := h b hb
  rwa [hg] at this

def ClosedPower (p : Expr Rat × Expr Rat) : Prop := p.1.Closed ∧ p.2.Closed

theorem factorOf?_closed {p : Expr Rat × Expr Rat} (hp : ClosedPower p) :
    RestClosed (factorOf? p) := by
  obtain ⟨b, exponent⟩ := p
  unfold factorOf?
  split
  · rename_i v hv
    obtain ⟨n, rfl⟩ := exists_int (hv ▸ hp.2)
    exact powerFactor?_closed hp.1 n
  · exact (closed_op .pow).mpr hp

theorem factorOf?_weight_num (b : Expr Rat) (n : Int) :
    restWeight (factorOf? (b, num (n : Rat))) = powerWeight b.weight n := powerFactor?_weight b n

def powersWeight (ps : List (Expr Rat × Expr Rat)) : Nat := totalWeight (ps.filterMap factorOf?)

@[simp] theorem powersWeight_nil : powersWeight [] = 0 := rfl

@[simp] theorem powersWeight_cons (p : Expr Rat × Expr Rat) (ps : List (Expr Rat × Expr Rat)) :
    powersWeight (p :: ps) = restWeight (factorOf? p) + powersWeight ps := by
  unfold powersWeight
  cases h : factorOf? p <;> simp [h, restWeight]

theorem proper_cases {f : Expr Rat} (hf : Proper f) :
    (∃ b exponent, f = .op .pow b exponent ∧ ClosedPower (b, exponent)) ∨
      powerParts f = (f, ofNat 1) ∧ 10 ≤ f.weight := by
  obtain ⟨hclosed, hnum, hsingle⟩ := hf
  cases f with
  | op o l r =>
    have hl := two_le_weight l
    have hr := two_le_weight r
    cases o with
    | mul =>
      have hfl := factors_weight l
      have hfr := factors_weight r
      rw [factors] at hsingle
      rcases List.append_eq_singleton_iff.mp hsingle with ⟨h, -⟩ | ⟨-, h⟩
      · rw [h, totalWeight_nil] at hfl
        omega
      · rw [h, totalWeight_nil] at hfr
        omega
    | pow => exact Or.inl ⟨l, r, rfl, (closed_op .pow).mp hclosed⟩
    | _ => exact Or.inr ⟨rfl, by simp only [weight_op, opWeight]; omega⟩
  | num v => simp [isNum] at hnum
  | _ => simp at hclosed

theorem ten_le_weight {f : Expr Rat} (hf : Proper f) : 10 ≤ f.weight := by
  rcases proper_cases hf with ⟨b, exponent, rfl, -⟩ | ⟨-, h⟩
  · have hb := two_le_weight b
    have he := two_le_weight exponent
    simp only [weight_op, opWeight]
    omega
  · exact h

theorem powerParts_closed {f : Expr Rat} (hf : Proper f) : ClosedPower (powerParts f) := by
  rcases proper_cases hf with ⟨b, exponent, rfl, h⟩ | ⟨h, -⟩
  · exact h
  · rw [h]
    exact ⟨hf.closed, closed_ofNat 1⟩

theorem powerParts_weight {f : Expr Rat} (hf : Proper f) :
    factorOf? (powerParts f) = some f ∨ restWeight (factorOf? (powerParts f)) + 9 ≤ f.weight := by
  rcases proper_cases hf with ⟨b, exponent, rfl, hb, he⟩ | ⟨h, -⟩
  · cases exponent with
    | num v =>
      obtain ⟨n, rfl⟩ := exists_int he
      by_cases hn : n = 0 ∨ n = 1
      · right
        rw [powerParts, factorOf?_weight_num]
        rw [weight_op, weight_num, numWeight_intCast]
        rcases hn with rfl | rfl <;> simp [powerWeight, opWeight]
      · left
        rw [not_or] at hn
        have h0 : (n : Rat) ≠ 0 := by exact_mod_cast hn.1
        have h1 : (n : Rat) ≠ 1 := by exact_mod_cast hn.2
        simp only [powerParts, factorOf?, powerFactor?, Scalar.beq_rat, Scalar.zero_rat,
          Scalar.one_rat, h0, h1, decide_false, Bool.false_eq_true, if_false]
    | op o l r => exact Or.inl rfl
    | _ => simp at he
  · left
    rw [h]
    simp [factorOf?, ofNat, powerFactor?]

theorem filterMap_powerParts {fs : List (Expr Rat)}
    (h : ∀ f ∈ fs, factorOf? (powerParts f) = some f) :
    (fs.map powerParts).filterMap factorOf? = fs := by
  rw [List.filterMap_map]
  exact (List.filterMap_congr h).trans List.filterMap_some

theorem powerParts_powersWeight {fs : List (Expr Rat)} (hfs : ∀ f ∈ fs, Proper f) :
    (∀ f ∈ fs, factorOf? (powerParts f) = some f) ∨
      powersWeight (fs.map powerParts) + 9 ≤ totalWeight fs := by
  induction fs with
  | nil => simp
  | cons f fs ih =>
    obtain ⟨hf, hfs'⟩ := List.forall_mem_cons.mp hfs
    rw [List.map_cons, powersWeight_cons, totalWeight_cons, List.forall_mem_cons]
    rcases powerParts_weight hf with h | h <;> rcases ih hfs' with h' | h'
    · exact Or.inl ⟨h, h'⟩
    · right
      rw [h, restWeight]
      omega
    · right
      rw [powersWeight, filterMap_powerParts h']
      omega
    · right
      omega

end Powers

section Cancelling

/-- Cancelling against a factor of weight `w`, the power `d` of a base of weight `b`, pays for what
is left of both powers. -/
def Pays (b : Nat) (d : Int) (w : Nat) : Prop :=
  ∀ n : Int, powerWeight b (n - min n d) + 2 * powerWeight b (d - min n d) +
    min 3 (powerWeight b n) ≤ powerWeight b n + 2 * w

theorem pays_of_power (b : Nat) (d : Int) : Pays b d (b + numWeight (d : Rat) + 7) := by
  intro n
  rw [numWeight_intCast]
  unfold powerWeight
  rcases le_total n d with h | h
  · rw [min_eq_left h]
    split_ifs <;> omega
  · rw [min_eq_right h]
    split_ifs <;> omega

theorem pays_of_factor {b : Nat} (hb : 10 ≤ b) : Pays b 1 b := by
  intro n
  unfold powerWeight
  rcases le_total n 1 with h | h
  · rw [min_eq_left h]
    split_ifs <;> omega
  · rw [min_eq_right h]
    split_ifs <;> omega

theorem pays_of_proper {f base : Expr Rat} {d : Rat} (hf : Proper f)
    (h : powerParts f = (base, num d)) : ∃ n : Int, d = n ∧ Pays base.weight n f.weight := by
  rcases proper_cases hf with ⟨b, exponent, rfl, -, he⟩ | ⟨h', hten⟩
  · obtain ⟨rfl, rfl⟩ := Prod.mk.inj h
    obtain ⟨n, rfl⟩ := exists_int he
    exact ⟨n, rfl, by simpa [opWeight] using pays_of_power b.weight n⟩
  · rw [h'] at h
    obtain ⟨rfl, hd⟩ := Prod.mk.inj h
    obtain rfl : d = 1 := by simpa [ofNat, eq_comm] using hd
    exact ⟨1, by simp, pays_of_factor hten⟩

/-- Cancelling a factor of weight `w` against the powers `ps` left the powers `qs` and the factors
`kept`, and saved the weight `k`. -/
structure Leaves (k : Nat) (ps : List (Expr Rat × Expr Rat)) (w : Nat)
    (qs : List (Expr Rat × Expr Rat)) (kept : List (Expr Rat)) : Prop where
  powers_closed : ∀ q ∈ qs, ClosedPower q
  kept_closed : ∀ f ∈ kept, f.Closed
  weight_le : powersWeight qs + 2 * totalWeight kept + k ≤ powersWeight ps + 2 * w

section Leaving

variable {k w v : Nat} {ps qs rs : List (Expr Rat × Expr Rat)} {fs gs : List (Expr Rat)}

theorem Leaves.refl (hps : ∀ p ∈ ps, ClosedPower p) (hfs : ∀ f ∈ fs, f.Closed) :
    Leaves 0 ps (totalWeight fs) ps fs := ⟨hps, hfs, le_rfl⟩

theorem Leaves.trans (h : Leaves k ps w qs fs) (h' : Leaves 0 qs v rs gs) :
    Leaves k ps (w + v) rs (fs ++ gs) where
  powers_closed := h'.powers_closed
  kept_closed f hf := (List.mem_append.mp hf).elim (h.kept_closed f) (h'.kept_closed f)
  weight_le := by
    have hle := h.weight_le
    have hle' := h'.weight_le
    rw [totalWeight_append]
    omega

theorem Leaves.consPower (h : Leaves k ps w qs fs) {p : Expr Rat × Expr Rat} (hp : ClosedPower p) :
    Leaves k (p :: ps) w (p :: qs) fs where
  powers_closed := List.forall_mem_cons.mpr ⟨hp, h.powers_closed⟩
  kept_closed := h.kept_closed
  weight_le := by
    have hle := h.weight_le
    rw [powersWeight_cons, powersWeight_cons]
    omega

theorem Leaves.consFactor (h : Leaves k ps w qs fs) {f : Expr Rat} (hf : f.Closed) :
    Leaves k ps (f.weight + w) qs (f :: fs) where
  powers_closed := h.powers_closed
  kept_closed := List.forall_mem_cons.mpr ⟨hf, h.kept_closed⟩
  weight_le := by
    have hle := h.weight_le
    rw [totalWeight_cons]
    omega

end Leaving

theorem totalWeight_toList (rest : Option (Expr Rat)) :
    totalWeight rest.toList = restWeight rest := by
  cases rest <;> simp [restWeight]

theorem closed_toList {rest : Option (Expr Rat)} (h : RestClosed rest) :
    ∀ f ∈ rest.toList, f.Closed := by
  intro f hf
  rw [Option.mem_toList] at hf
  rwa [hf] at h

theorem cancelPower?_leaves {k w : Nat} (hk : k ≤ 3) {base : Expr Rat} {d : Int} {left : Rat}
    {ps qs : List (Expr Rat × Expr Rat)} (h : cancelPower? base (d : Rat) ps = some (qs, left))
    (hw : Pays base.weight d w) (hps : ∀ p ∈ ps, ClosedPower p)
    (hall : ∀ p ∈ ps, k ≤ restWeight (factorOf? p)) :
    Leaves k ps w qs (powerFactor? base left).toList := by
  induction ps generalizing qs with
  | nil => simp [cancelPower?] at h
  | cons p ps ih =>
    obtain ⟨b, exponent⟩ := p
    obtain ⟨hp, hps'⟩ := List.forall_mem_cons.mp hps
    obtain ⟨hkp, hall'⟩ := List.forall_mem_cons.mp hall
    -- a power of another base, or with an exponent that is no number, is passed over
    have pass : (cancelPower? base d ps).map (fun (ps, left) => ((b, exponent) :: ps, left)) =
        some (qs, left) → Leaves k ((b, exponent) :: ps) w qs (powerFactor? base left).toList := by
      intro h
      obtain ⟨⟨qs', left'⟩, hc, heq⟩ := Option.map_eq_some_iff.mp h
      obtain ⟨rfl, rfl⟩ := Prod.mk.inj heq
      exact (ih hc hps' hall').consPower hp
    unfold cancelPower? at h
    split at h
    · rename_i v hv
      obtain rfl := number?_eq_some.mp hv
      split_ifs at h with hb
      · obtain rfl : b = base := by simpa using hb
        obtain ⟨n, rfl⟩ := exists_int hp.2
        have hmin : min (n : Rat) (d : Rat) = ((min n d : Int) : Rat) := by simp
        simp only [Option.some.injEq, Prod.mk.injEq, Scalar.min_rat, hmin, ← Int.cast_sub] at h
        obtain ⟨rfl, rfl⟩ := h
        refine ⟨List.forall_mem_cons.mpr ⟨⟨hp.1, closed_intCast _⟩, hps'⟩,
          closed_toList (powerFactor?_closed hp.1 _), ?_⟩
        have hpay := hw n
        rw [factorOf?_weight_num] at hkp
        rw [powersWeight_cons, powersWeight_cons, totalWeight_toList, factorOf?_weight_num,
          factorOf?_weight_num, powerFactor?_weight]
        omega
      · exact pass h
    · exact pass h

/-- Cancelling the factors of a denominator saves weight, unless it changes nothing. -/
theorem cancelFactors_leaves {fs : List (Expr Rat)} (hfs : ∀ f ∈ fs, Proper f) :
    ∀ {k : Nat} {ps : List (Expr Rat × Expr Rat)}, k ≤ 3 → (∀ p ∈ ps, ClosedPower p) →
      (∀ p ∈ ps, k ≤ restWeight (factorOf? p)) →
      cancelFactors ps fs = (ps, fs, false) ∨
        Leaves k ps (totalWeight fs) (cancelFactors ps fs).1 (cancelFactors ps fs).2.1 := by
  induction fs with
  | nil => intro k ps _ _ _; exact Or.inl rfl
  | cons f fs ih =>
    intro k ps hk hps hall
    obtain ⟨hf, hfs'⟩ := List.forall_mem_cons.mp hfs
    rw [totalWeight_cons, cancelFactors]
    dsimp only
    split
    · rename_i qs left hc
      right
      obtain ⟨d, hd, hcancel⟩ := Option.bind_eq_some_iff.mp hc
      have hparts : powerParts f = ((powerParts f).1, num d) :=
        Prod.ext rfl (number?_eq_some.mp hd)
      obtain ⟨n, rfl, hpays⟩ := pays_of_proper hf hparts
      have hleaves := cancelPower?_leaves hk hcancel hpays hps hall
      apply hleaves.trans
      rcases ih hfs' (k := 0) (by omega) hleaves.powers_closed (by simp) with h | h
      · rw [h]
        exact Leaves.refl hleaves.powers_closed fun g hg => (hfs' g hg).closed
      · exact h
    · rcases ih hfs' hk hps hall with h | h
      · left
        rw [h]
      · exact Or.inr (h.consFactor hf.closed)

theorem cancelFactors_lists {ns ds : List (Expr Rat)} (hns : ∀ f ∈ ns, Proper f)
    (hds : ∀ f ∈ ds, Proper f) :
    let cancelled := cancelFactors (ns.map powerParts) ds
    ((∀ f ∈ cancelled.1.filterMap factorOf?, f.Closed) ∧ ∀ g ∈ cancelled.2.1, g.Closed) ∧
      (totalWeight (cancelled.1.filterMap factorOf?) + 2 * totalWeight cancelled.2.1 + 3 ≤
          totalWeight ns + 2 * totalWeight ds ∨
        cancelled.2.2 = false ∧ cancelled.1.filterMap factorOf? = ns ∧ cancelled.2.1 = ds) := by
  intro cancelled
  have hps : ∀ p ∈ ns.map powerParts, ClosedPower p := by
    intro p hp
    obtain ⟨f, hf, rfl⟩ := List.mem_map.mp hp
    exact powerParts_closed (hns f hf)
  have closed {k : Nat} {w : Nat} {qs : List (Expr Rat × Expr Rat)} {kept : List (Expr Rat)}
      (h : Leaves k (ns.map powerParts) w qs kept) :
      (∀ f ∈ qs.filterMap factorOf?, f.Closed) ∧ ∀ g ∈ kept, g.Closed :=
    ⟨closed_filterMap fun q hq => factorOf?_closed (h.powers_closed q hq), h.kept_closed⟩
  -- a power to zero or one disappears whether anything is cancelled or not
  rcases powerParts_powersWeight hns with hall | hliteral
  · have hthree : ∀ p ∈ ns.map powerParts, 3 ≤ restWeight (factorOf? p) := by
      intro p hp
      obtain ⟨f, hf, rfl⟩ := List.mem_map.mp hp
      have hten := ten_le_weight (hns f hf)
      rw [hall f hf, restWeight]
      omega
    have hfactors := filterMap_powerParts hall
    rcases cancelFactors_leaves hds le_rfl hps hthree with h | h
    · have hrefl := closed (Leaves.refl hps fun f hf => (hds f hf).closed)
      rw [show cancelled = (ns.map powerParts, ds, false) from h]
      exact ⟨hrefl, Or.inr ⟨rfl, hfactors, rfl⟩⟩
    · have hle := h.weight_le
      rw [powersWeight, powersWeight, hfactors] at hle
      exact ⟨closed h, Or.inl hle⟩
  · have h : Leaves 0 (ns.map powerParts) (totalWeight ds) cancelled.1 cancelled.2.1 := by
      rcases cancelFactors_leaves (k := 0) hds (by omega) hps (by simp) with h | h
      · rw [show cancelled = (ns.map powerParts, ds, false) from h]
        exact Leaves.refl hps fun f hf => (hds f hf).closed
      · exact h
    have hle := h.weight_le
    rw [powersWeight] at hle
    exact ⟨closed h, Or.inl (by omega)⟩

end Cancelling

section Quotients

theorem withCoefficient_weight (c : Rat) (fs : List (Expr Rat)) :
    (withCoefficient c fs).isNumber 1 = true ∧ (withCoefficient c fs).weight = 2 ∧ c = 1 ∨
      (withCoefficient c fs).weight = coefficientWeight c + totalWeight fs := by
  unfold withCoefficient
  by_cases hc : c = 1
  · by_cases hfs : fs = []
    · simp [hc, hfs, Term.product, isNumber_iff, ofNat, numWeight]
    · right
      simp [hc, product_weight hfs]
  · right
    simp [hc, product_weight, coefficientWeight]

theorem withCoefficient_size (c : Rat) (fs : List (Expr Rat)) :
    (withCoefficient c fs).size ≤ (c.num.natAbs + 2) * totalSize fs := by
  unfold withCoefficient
  by_cases hc : c = 1
  · by_cases hfs : fs = []
    · simp [hc, hfs, Term.product, ofNat]
    · simp only [hc, Scalar.one_rat, BEq.rfl, if_true, product_size hfs]
      exact Nat.le_mul_of_pos_left _ (by simp)
  · simp [hc, product_size]

theorem withCoefficient_closed {c : Rat} {fs : List (Expr Rat)} (hc : c.den = 1)
    (hfs : ∀ f ∈ fs, f.Closed) : (withCoefficient c fs).Closed := by
  unfold withCoefficient
  split_ifs
  · exact (product_closed fs).mpr hfs
  · exact (product_closed _).mpr (List.forall_mem_cons.mpr ⟨(closed_num c).mpr hc, hfs⟩)

theorem cancelIntegers?_smaller {a b c d : Rat} (h : cancelIntegers? a b = some (c, d))
    (hb : b ≠ 0) : (c.den = 1 ∧ d.den = 1 ∧ 0 < d) ∧ (b < 0 ∨ (a ≠ 1 ∧ b ≠ 1) ∧
      (a < 0 ↔ c < 0) ∧ c.num.natAbs ≤ a.num.natAbs ∧ d.num.natAbs < b.num.natAbs) := by
  unfold cancelIntegers? at h
  split at h
  · rename_i m n hm hn
    obtain rfl := Scalar.toInt?_eq_some.mp hm
    obtain rfl := Scalar.toInt?_eq_some.mp hn
    change (if signedGcd m n = 1 then none else some ((m : Rat) / Scalar.ofInt (signedGcd m n),
      (n : Rat) / Scalar.ofInt (signedGcd m n))) = some (c, d) at h
    split_ifs at h with hg
    obtain ⟨p, q, hp, hq, hpos, hsmaller⟩ := reduced_parts (Int.cast_ne_zero.mp hb) hg
    simp only [Option.some.injEq, Prod.mk.injEq, Scalar.ofInt_rat, hp, hq] at h
    obtain ⟨rfl, rfl⟩ := h
    refine ⟨⟨Rat.den_intCast p, Rat.den_intCast q, by exact_mod_cast hpos⟩, ?_⟩
    rcases hsmaller with hneg | ⟨hsign, hn0, hpm, hqn⟩
    · exact Or.inl (by exact_mod_cast hneg)
    · right
      -- one has no divisor in common with any number
      have hone : m ≠ 1 ∧ n ≠ 1 := by
        constructor <;> rintro rfl <;> exact hg (by simp [signedGcd, not_lt.mpr hn0.le])
      exact ⟨by exact_mod_cast hone, by exact_mod_cast hsign, by simpa using hpm,
        by simpa using hqn⟩
  · cases h

theorem quotient_lowers {l r n d : Expr Rat} (hn : n.Closed) (hd : d.Closed)
    (hweight : n.weight < l.weight + 2 * r.weight + 4)
    (hcost : d.isNumber 1 = false → (Expr.op .div n d).cost < (Expr.op .div l r).cost) :
    (if d.isNumber 1 then n else .op .div n d).Closed ∧
      (if d.isNumber 1 then n else .op .div n d).cost < (Expr.op .div l r).cost := by
  split_ifs with hone
  · exact ⟨hn, cost_lt_of_weight (by simpa [opWeight] using hweight)⟩
  · exact ⟨(closed_op .div).mpr ⟨hn, hd⟩, hcost (by simpa using hone)⟩

theorem quotient_lowers_of_saved {l r : Expr Rat} {a b : Rat} {ns ds fs gs : List (Expr Rat)}
    (hl : Splits l a ns) (hr : Splits r b ds) (hfs : ∀ f ∈ fs, f.Closed) (hgs : ∀ g ∈ gs, g.Closed)
    (hsaved : totalWeight fs + 2 * totalWeight gs + 3 ≤ totalWeight ns + 2 * totalWeight ds) :
    let n := withCoefficient a fs
    let d := withCoefficient b gs
    (if d.isNumber 1 then n else .op .div n d).Closed ∧
      (if d.isNumber 1 then n else .op .div n d).cost < (Expr.op .div l r).cost := by
  have hlw := hl.weight_le
  have hrw := hr.weight_le
  have hn : (withCoefficient a fs).weight ≤ coefficientWeight a + totalWeight fs + 2 := by
    rcases withCoefficient_weight a fs with h | h <;> omega
  refine quotient_lowers (withCoefficient_closed hl.integer hfs)
    (withCoefficient_closed hr.integer hgs) (by omega) fun hone => cost_lt_of_weight ?_
  have hd : (withCoefficient b gs).weight = coefficientWeight b + totalWeight gs := by
    rcases withCoefficient_weight b gs with h | h
    · exact absurd h.1 (by simp [hone])
    · exact h
  simp only [weight_op, opWeight]
  omega

theorem coefficientWeight_of_ne {c : Rat} (hc : c ≠ 1) : coefficientWeight c = numWeight c :=
  if_neg hc

theorem withCoefficient_weight_le {d : Rat} {gs : List (Expr Rat)} (hd : 0 < d)
    (hone : (withCoefficient d gs).isNumber 1 = false) :
    (withCoefficient d gs).weight ≤ 2 + totalWeight gs := by
  have hd2 : coefficientWeight d ≤ 2 :=
    (coefficientWeight_le d).trans (numWeight_of_nonneg hd.le).le
  rcases withCoefficient_weight d gs with h | h
  · exact absurd h.1 (by simp [hone])
  · omega

section Reduced

variable {l r : Expr Rat} {a b c d : Rat} {ns ds fs gs : List (Expr Rat)} (hl : Splits l a ns)
  (hr : Splits r b ds) (hb : b ≠ 0) (hcancel : cancelIntegers? a b = some (c, d))
  (hfs : ∀ f ∈ fs, f.Closed) (hgs : ∀ g ∈ gs, g.Closed)
include hl hr hb hcancel hfs hgs

/-- A divisor that becomes positive pays for a numerator that becomes negative. -/
theorem quotient_lowers_of_negative (hneg : b < 0)
    (hlists : totalWeight fs + 2 * totalWeight gs ≤ totalWeight ns + 2 * totalWeight ds) :
    let n := withCoefficient c fs
    let m := withCoefficient d gs
    (if m.isNumber 1 then n else .op .div n m).Closed ∧
      (if m.isNumber 1 then n else .op .div n m).cost < (Expr.op .div l r).cost := by
  obtain ⟨⟨hcden, hdden, hdpos⟩, -⟩ := cancelIntegers?_smaller hcancel hb
  have hlw := hl.weight_le
  have hrw := hr.weight_le
  have hb5 : coefficientWeight b = 5 := by
    rw [coefficientWeight_of_ne (by linarith), numWeight_of_neg hneg]
  have hn : (withCoefficient c fs).weight ≤ 5 + totalWeight fs := by
    have hc5 := (coefficientWeight_le c).trans (numWeight_le c)
    rcases withCoefficient_weight c fs with h | h <;> omega
  refine quotient_lowers (withCoefficient_closed hcden hfs) (withCoefficient_closed hdden hgs)
    (by omega) fun hone => cost_lt_of_weight ?_
  have hm := withCoefficient_weight_le hdpos hone
  simp only [weight_op, opWeight]
  omega

/-- When only the numbers change they become smaller. -/
theorem quotient_lowers_of_positive (hpos : ¬b < 0) (hlists : fs = ns ∧ gs = ds ∨
      totalWeight fs + 2 * totalWeight gs + 3 ≤ totalWeight ns + 2 * totalWeight ds) :
    let n := withCoefficient c fs
    let m := withCoefficient d gs
    (if m.isNumber 1 then n else .op .div n m).Closed ∧
      (if m.isNumber 1 then n else .op .div n m).cost < (Expr.op .div l r).cost := by
  obtain ⟨⟨hcden, hdden, hdpos⟩, hsmaller⟩ := cancelIntegers?_smaller hcancel hb
  obtain ⟨⟨ha1, hb1⟩, hsign, hca, hdb⟩ := hsmaller.resolve_left hpos
  have hlw := hl.weight_le
  have hrw := hr.weight_le
  have hle : totalWeight fs + 2 * totalWeight gs ≤ totalWeight ns + 2 * totalWeight ds := by
    rcases hlists with ⟨rfl, rfl⟩ | h
    · exact le_rfl
    · omega
  have hb2 : coefficientWeight b = 2 := by
    rw [coefficientWeight_of_ne hb1, numWeight_of_nonneg (not_lt.mp hpos)]
  have hn : (withCoefficient c fs).weight ≤ coefficientWeight a + totalWeight fs := by
    have ha2 := two_le_numWeight a
    have hac : numWeight c = numWeight a := by simp only [numWeight, hsign]
    have hc := coefficientWeight_le c
    rw [coefficientWeight_of_ne ha1]
    rcases withCoefficient_weight c fs with h | h <;> omega
  refine quotient_lowers (withCoefficient_closed hcden hfs) (withCoefficient_closed hdden hgs)
    (by omega) fun hone => cost_lt.mpr ?_
  have hm := withCoefficient_weight_le hdpos hone
  simp only [weight_op, opWeight, size_op, opSize]
  rcases hlists with ⟨rfl, rfl⟩ | h
  · have hns : (withCoefficient c fs).size ≤ l.size :=
      (withCoefficient_size c fs).trans
        ((Nat.mul_le_mul_right _ (by omega)).trans (hl.size_le ha1))
    have hms : (withCoefficient d gs).size < r.size :=
      (withCoefficient_size d gs).trans_lt
        ((Nat.mul_lt_mul_of_pos_right (by omega) (totalSize_pos gs)).trans_le (hr.size_le hb1))
    omega
  · left
    omega

theorem quotient_lowers_of_reduced (hlists : fs = ns ∧ gs = ds ∨
      totalWeight fs + 2 * totalWeight gs + 3 ≤ totalWeight ns + 2 * totalWeight ds) :
    let n := withCoefficient c fs
    let m := withCoefficient d gs
    (if m.isNumber 1 then n else .op .div n m).Closed ∧
      (if m.isNumber 1 then n else .op .div n m).cost < (Expr.op .div l r).cost := by
  by_cases hneg : b < 0
  · apply quotient_lowers_of_negative hl hr hb hcancel hfs hgs hneg
    rcases hlists with ⟨rfl, rfl⟩ | h
    · exact le_rfl
    · omega
  · exact quotient_lowers_of_positive hl hr hb hcancel hfs hgs hneg hlists

end Reduced

theorem cancelFraction_lowers : Lowers fun e => pure (cancelFraction e) := by
  apply Lowers.ofPure
  intro e he
  unfold cancelFraction
  split
  · rename_i l r
    have hclosed := (closed_op .div).mp he
    have hl := splitNumbers_splits hclosed.1
    have hr := splitNumbers_splits hclosed.2
    generalize splitNumbers l = n at *
    generalize splitNumbers r = m at *
    obtain ⟨a, numerator⟩ := n
    obtain ⟨b, denominator⟩ := m
    obtain ⟨⟨hfs, hgs⟩, hlists⟩ := cancelFactors_lists hl.proper hr.proper
    dsimp only at hl hr hfs hgs hlists ⊢
    split
    · exact ⟨he, Or.inl rfl⟩
    · rename_i hzero
      have hb : b ≠ 0 := by
        simp only [Bool.or_eq_true, Scalar.beq_rat, Scalar.zero_rat, decide_eq_true_eq,
          not_or] at hzero
        exact hzero.2
      cases hcancel : cancelIntegers? a b with
      | none =>
        split
        · exact ⟨he, Or.inl rfl⟩
        · rename_i hchanged
          have hsaved := hlists.resolve_right fun h => hchanged (by simp [h.1])
          obtain ⟨hc, hlt⟩ := quotient_lowers_of_saved hl hr hfs hgs hsaved
          exact ⟨hc, Or.inr hlt⟩
      | some coefficients =>
        obtain ⟨hc, hlt⟩ := quotient_lowers_of_reduced hl hr hb hcancel hfs hgs
          (hlists.symm.imp_left And.right)
        exact ⟨hc, Or.inr hlt⟩
  · exact ⟨he, Or.inl rfl⟩

end Quotients

end RuleAlgebra.Rules
