import RuleAlgebra.Proofs.CancellationCosts
import RuleAlgebra.Proofs.PowerRules

/-!
Merging the equal bases of a product lowers the cost: a sum of exponents makes a lighter factor than
the factors that had them.
-/

namespace RuleAlgebra.Rules

open RuleAlgebra.Expr RuleAlgebra.Term

section Powers

def exponentWeight (w : Nat) : Expr Rat → Nat
  | .num v => if v = 1 then max w 10 else w + numWeight v + 7
  | e => w + e.weight + 7

theorem exponentWeight_num (w : Nat) (n : Int) : exponentWeight w (num (n : Rat)) =
    if n = 1 then max w 10 else if n < 0 then w + 12 else w + 9 := by
  have h : ((n : Rat) = 1) = (n = 1) := by simp
  simp only [exponentWeight, numWeight_intCast, h]
  split_ifs <;> omega

theorem exponentWeight_of_not_num {w : Nat} {e : Expr Rat} (h : e.isNum = false) :
    exponentWeight w e = w + e.weight + 7 := by
  cases e <;> first | rfl | simp [isNum] at h

theorem le_exponentWeight {w : Nat} (hw : 2 ≤ w) (e : Expr Rat) :
    e.weight + 8 ≤ exponentWeight w e := by
  cases hnum : e.isNum with
  | false =>
    rw [exponentWeight_of_not_num hnum]
    omega
  | true =>
    cases e with
    | num v =>
      rw [exponentWeight, weight_num]
      split_ifs with h
      · rw [h, numWeight_of_nonneg (by norm_num)]
        omega
      · omega
    | _ => simp [isNum] at hnum

theorem exponentWeight_powerParts {f : Expr Rat} (hf : Proper f) :
    exponentWeight (powerParts f).1.weight (powerParts f).2 ≤ f.weight := by
  rcases proper_cases hf with ⟨b, exponent, rfl, -⟩ | ⟨h, hten⟩
  · have hb := two_le_weight b
    cases exponent with
    | num v =>
      have hv := two_le_numWeight v
      simp only [powerParts, exponentWeight, weight_op, weight_num, opWeight]
      split_ifs <;> omega
    | _ => exact le_rfl
  · rw [h]
    simp [exponentWeight, ofNat, hten]

theorem exponentWeight_add {w : Nat} (hw : 2 ≤ w) (m n : Int) :
    exponentWeight w (num ((m + n : Int) : Rat)) <
      exponentWeight w (num (m : Rat)) + exponentWeight w (num (n : Rat)) := by
  simp only [exponentWeight_num]
  split_ifs <;> omega

theorem powerWeight_le (w : Nat) (n : Int) :
    powerWeight w n ≤ exponentWeight w (num (n : Rat)) := by
  rw [exponentWeight_num]
  unfold powerWeight
  split_ifs <;> omega

theorem foldl_add_weight (e : Expr Rat) (es : List (Expr Rat)) :
    (es.foldl (.op .add) e).weight + 6 = totalWeight (e :: es) + 6 * (e :: es).length := by
  induction es generalizing e with
  | nil => simp
  | cons f es ih =>
    rw [List.foldl_cons, ih]
    simp [opWeight]
    omega

theorem foldl_add_closed (e : Expr Rat) (es : List (Expr Rat)) :
    (es.foldl (.op .add) e).Closed ↔ ∀ f ∈ e :: es, f.Closed := by
  induction es generalizing e with
  | nil => simp
  | cons f es ih => simp [ih, and_assoc]

theorem totalWeight_le_exponents {w : Nat} (hw : 2 ≤ w) {es : List (Expr Rat)}
    (h : ∃ e ∈ es, e.isNum = false) :
    totalWeight es + 8 * es.length + w ≤ (es.map (exponentWeight w)).sum + 1 := by
  have hall (es : List (Expr Rat)) :
      totalWeight es + 8 * es.length ≤ (es.map (exponentWeight w)).sum := by
    induction es with
    | nil => simp
    | cons e es ih =>
      have he := le_exponentWeight hw e
      rw [totalWeight_cons, List.length_cons, List.map_cons, List.sum_cons]
      omega
  induction es with
  | nil => simp at h
  | cons e es ih =>
    rw [totalWeight_cons, List.length_cons, List.map_cons, List.sum_cons]
    cases hnum : e.isNum with
    | false =>
      have hes := hall es
      rw [exponentWeight_of_not_num hnum]
      omega
    | true =>
      have he := le_exponentWeight hw e
      have hes := ih (by simpa [hnum] using h)
      omega

theorem exists_not_num {es : List (Expr Rat)} (h : es.mapM number? = none) :
    ∃ e ∈ es, e.isNum = false := by
  induction es with
  | nil => simp at h
  | cons e es ih =>
    cases e with
    | num v =>
      have hes : es.mapM number? = none := by
        cases hes : es.mapM number? with
        | none => rfl
        | some vs => simp [List.mapM_cons, number?, hes] at h
      obtain ⟨f, hf, hnum⟩ := ih hes
      exact ⟨f, by simp [hf], hnum⟩
    | _ => exact ⟨_, List.mem_cons_self, rfl⟩

def groupWeight (p : Expr Rat × List (Expr Rat)) : Nat :=
  (p.2.map (exponentWeight p.1.weight)).sum

theorem mergedPower?_weight {p : Expr Rat × List (Expr Rat)} (hb : p.1.Closed)
    (he : ∀ e ∈ p.2, e.Closed) (hne : p.2 ≠ []) :
    RestClosed (mergedPower? p) ∧ restWeight (mergedPower? p) ≤ groupWeight p ∧
      (2 ≤ p.2.length → restWeight (mergedPower? p) < groupWeight p) := by
  obtain ⟨b, es⟩ := p
  have hw := two_le_weight b
  unfold mergedPower? groupWeight
  dsimp only at hb he hne ⊢
  split
  · rename_i vs hvs
    obtain rfl := mapM_number?_eq_some.mp hvs
    obtain ⟨ns, rfl⟩ : ∃ ns : List Int, vs = ns.map (↑) := by
      refine ⟨vs.map Rat.num, ?_⟩
      rw [List.map_map]
      refine (List.map_id vs).symm.trans (List.map_congr_left fun v hv => ?_)
      exact ((Rat.den_eq_one_iff v).mp
        ((closed_num v).mp (he _ (List.mem_map_of_mem hv)))).symm
    have hsum : (ns.map ((↑) : Int → Rat)).sum = ((ns.sum : Int) : Rat) := by
      rw [Int.cast_list_sum]
    have hns : ns ≠ [] := by simpa using hne
    obtain ⟨hle, hlt⟩ := foldr_le_sum (f := fun n : Int => exponentWeight b.weight (num (n : Rat)))
      (g := (· + ·)) (u := 0) (exponentWeight_add hw) add_zero hns
    have hpower := powerWeight_le b.weight ns.sum
    rw [foldl_add_rat, hsum, powerFactor?_weight]
    simp only [List.map_map, Function.comp_def, List.length_map] at hle hlt ⊢
    exact ⟨powerFactor?_closed hb _, hpower.trans hle, fun h => hpower.trans_lt (hlt h)⟩
  · rename_i hnone
    -- an exponent that is no number leaves room for the additions
    have hes := totalWeight_le_exponents hw (exists_not_num hnone)
    cases es with
    | nil => exact absurd rfl hne
    | cons e es =>
      have hadd := foldl_add_weight e es
      simp only [restWeight, RestClosed, closed_op, weight_op, opWeight]
      rw [List.length_cons] at *
      exact ⟨⟨hb, (foldl_add_closed e es).mpr he⟩, by omega, fun h => by omega⟩

def groupsWeight (ps : Powers Rat) : Nat := (ps.map groupWeight).sum

def ClosedGroups (ps : Powers Rat) : Prop := ∀ p ∈ ps, p.1.Closed ∧ ∀ e ∈ p.2, e.Closed

theorem addPower_groupsWeight (ps : Powers Rat) (p : Expr Rat × Expr Rat) :
    groupsWeight (addPower ps p) = groupsWeight ps + exponentWeight p.1.weight p.2 := by
  obtain ⟨base, exponent⟩ := p
  induction ps with
  | nil => simp [addPower, groupsWeight, groupWeight]
  | cons q ps ih =>
    obtain ⟨b, es⟩ := q
    by_cases hb : b == base
    · obtain rfl : b = base := by simpa using hb
      simp [addPower, groupsWeight, groupWeight]
      omega
    · simp only [groupsWeight] at ih
      simp [addPower, hb, groupsWeight, ih, add_assoc]

theorem addPower_closed {ps : Powers Rat} {p : Expr Rat × Expr Rat} (hps : ClosedGroups ps)
    (hp : ClosedPower p) : ClosedGroups (addPower ps p) := by
  obtain ⟨base, exponent⟩ := p
  induction ps with
  | nil => simpa [addPower, ClosedGroups, ClosedPower] using hp
  | cons q ps ih =>
    obtain ⟨b, es⟩ := q
    obtain ⟨hq, hps'⟩ := List.forall_mem_cons.mp hps
    by_cases hb : b == base
    · simp only [addPower, hb, if_true]
      refine List.forall_mem_cons.mpr ⟨⟨hq.1, fun e he => ?_⟩, hps'⟩
      rcases List.mem_append.mp he with he | he
      · exact hq.2 e he
      · rw [List.mem_singleton.mp he]
        exact hp.2
    · simp only [addPower, hb]
      exact List.forall_mem_cons.mpr ⟨hq, ih hps'⟩

theorem foldl_addPower_closed {fs : List (Expr Rat)} (hfs : ∀ f ∈ fs, Proper f) (ps : Powers Rat)
    (hps : ClosedGroups ps) : ClosedGroups ((fs.map powerParts).foldl addPower ps) ∧
      groupsWeight ((fs.map powerParts).foldl addPower ps) ≤ groupsWeight ps + totalWeight fs := by
  induction fs generalizing ps with
  | nil => simpa using hps
  | cons f fs ih =>
    obtain ⟨hf, hfs'⟩ := List.forall_mem_cons.mp hfs
    obtain ⟨hclosed, hle⟩ := ih hfs' _ (addPower_closed hps (powerParts_closed hf))
    have hweight := exponentWeight_powerParts hf
    rw [addPower_groupsWeight] at hle
    rw [List.map_cons, List.foldl_cons, totalWeight_cons]
    exact ⟨hclosed, by omega⟩

theorem mergedPowers_weight {ps : Powers Rat} (hps : ClosedGroups ps) (hne : ∀ p ∈ ps, p.2 ≠ []) :
    (∀ f ∈ ps.filterMap mergedPower?, f.Closed) ∧
      totalWeight (ps.filterMap mergedPower?) ≤ groupsWeight ps ∧
      ((∃ p ∈ ps, 2 ≤ p.2.length) →
        totalWeight (ps.filterMap mergedPower?) < groupsWeight ps) := by
  refine ⟨closed_filterMap fun p hp =>
    (mergedPower?_weight (hps p hp).1 (hps p hp).2 (hne p hp)).1, ?_⟩
  induction ps with
  | nil => simp
  | cons p ps ih =>
    obtain ⟨hp, hps'⟩ := List.forall_mem_cons.mp hps
    obtain ⟨hnep, hne'⟩ := List.forall_mem_cons.mp hne
    obtain ⟨-, hle, hlt⟩ := mergedPower?_weight hp.1 hp.2 hnep
    obtain ⟨hles, hlts⟩ := ih hps' hne'
    have hcons : totalWeight ((p :: ps).filterMap mergedPower?) =
        restWeight (mergedPower? p) + totalWeight (ps.filterMap mergedPower?) := by
      cases h : mergedPower? p <;> simp [h, restWeight]
    have hsum : groupsWeight (p :: ps) = groupWeight p + groupsWeight ps := by simp [groupsWeight]
    rw [hcons, hsum]
    refine ⟨by omega, fun h => ?_⟩
    rcases (List.exists_mem_cons_iff _ _ _).mp h with h | h
    · have := hlt h
      omega
    · have := hlts h
      omega

theorem combinePowers_lowers : Lowers fun e => pure (combinePowers e) := by
  apply Lowers.ofPure
  intro e he
  unfold combinePowers
  split
  · rename_i l r
    have hfour : 4 ≤ (Expr.op .mul l r).weight := by
      have hl := two_le_weight l
      have hr := two_le_weight r
      simp only [weight_op, opWeight]
      omega
    have htotal := (factors_weight (.op .mul l r)).symm.trans (totalWeight_split _)
    have hsplits := factors_splits he
    dsimp only
    generalize (factors (.op .mul l r)).filterMap number? = vs at *
    generalize (factors (.op .mul l r)).filter (!·.isNum) = fs at *
    obtain ⟨hclosed, hgroups⟩ :=
      foldl_addPower_closed hsplits.proper [] (by simp [ClosedGroups])
    have hne := foldl_addPower_ne_nil (fs.map powerParts) [] (by simp)
    obtain ⟨hmclosed, hmle, hmlt⟩ := mergedPowers_weight hclosed hne
    obtain ⟨hcle, hclt⟩ := coefficientWeight_prod vs
    rw [show groupsWeight [] = 0 from rfl, zero_add] at hgroups
    split
    · exact ⟨he, Or.inl rfl⟩
    · rename_i hmerge
      have hlt : coefficientWeight vs.prod + totalWeight
          (((fs.map powerParts).foldl addPower []).filterMap mergedPower?) <
            (Expr.op .mul l r).weight := by
        simp only [Bool.and_eq_true, decide_eq_true_eq, not_and_or, not_lt, List.all_eq_true,
          not_forall, beq_iff_eq] at hmerge
        -- either two numbers are multiplied, or a base has two exponents to add
        rcases hmerge with h | ⟨p, hp, hlength⟩
        · have := hclt h
          omega
        · have hpos := List.length_pos_iff.mpr (hne p hp)
          have := hmlt ⟨p, hp, by omega⟩
          omega
      rw [foldl_mul_rat]
      split
      · exact ⟨closed_ofNat 0, Or.inr (cost_lt_of_weight (by rw [weight_ofNat]; omega))⟩
      · refine ⟨withCoefficient_closed hsplits.integer hmclosed, Or.inr (cost_lt_of_weight ?_)⟩
        rcases withCoefficient_weight vs.prod
          (((fs.map powerParts).foldl addPower []).filterMap mergedPower?) with h | h <;> omega
  · exact ⟨he, Or.inl rfl⟩

end Powers

end RuleAlgebra.Rules
