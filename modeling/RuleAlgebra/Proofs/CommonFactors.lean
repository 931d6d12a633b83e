import RuleAlgebra.Proofs.AlgebraicRules
import RuleAlgebra.Rules.Factoring

/-!
Pulling out of a sum what all of its terms share keeps the value of the sum. A power is shared when
every term has one that is at least as high, so that what is left of it has no negative exponent;
in one of the terms it is used up.
-/

namespace RuleAlgebra.Rules

open RuleAlgebra.Expr

abbrev PowerList := List (Expr Rat × Expr Rat)

section Divisors

/-- What holds of a divisor other than one: it divides all coefficients, which are integers, and not
all that it divides is zero. -/
structure DividesAll (d g : Nat) (cs : List (Coefficient Rat)) : Prop where
  one_lt : 1 < d
  dvd : d ∣ g
  integers : ∀ c ∈ cs, ∃ n : Int, c.value = n ∧ (d : Int) ∣ n
  nonzero : g ≠ 0 ∨ ∃ c ∈ cs, c.value ≠ 0

theorem truncate_intCast (n : Int) : truncate (n : Rat) = n := by simp [truncate]

theorem DividesAll.cons {d g : Nat} {n : Int} {c : Coefficient Rat} {cs : List (Coefficient Rat)}
    (h : DividesAll d (Nat.gcd g n.natAbs) cs) (hc : c.value = n) : DividesAll d g (c :: cs) where
  one_lt := h.one_lt
  dvd := h.dvd.trans (Nat.gcd_dvd_left _ _)
  integers := List.forall_mem_cons.mpr
    ⟨⟨n, hc, Int.natCast_dvd.mpr (h.dvd.trans (Nat.gcd_dvd_right _ _))⟩, h.integers⟩
  nonzero := by
    rcases h.nonzero with hg | ⟨b, hb, hv⟩
    · by_cases hg0 : g = 0
      · refine Or.inr ⟨c, by simp, fun hzero => hg ?_⟩
        have hn : n = 0 := by exact_mod_cast hc.symm.trans hzero
        simp [hg0, hn]
      · exact Or.inl hg0
    · exact Or.inr ⟨b, by simp [hb], hv⟩

theorem commonDivisor_rat (g : Nat) (cs : List (Coefficient Rat)) :
    ∃ d, commonDivisor g cs = .ok d ∧ (d = 1 ∨ DividesAll d g cs) := by
  induction cs generalizing g with
  | nil =>
    refine ⟨_, rfl, ?_⟩
    split_ifs with hg
    · exact Or.inl rfl
    · exact Or.inr ⟨by omega, dvd_rfl, by simp, Or.inl (by omega)⟩
  | cons c cs ih =>
    simp only [commonDivisor, Coefficient.toScalar_rat, ok_bind, Coefficient.toRat?_rat]
    split
    · rename_i hint hq
      obtain ⟨n, hn⟩ := Scalar.isInteger_iff.mp hint
      obtain rfl := Option.some.inj hq
      rw [hn, truncate_intCast]
      obtain ⟨d, hd, hor⟩ := ih (Nat.gcd g n.natAbs)
      exact ⟨d, hd, hor.imp_right fun h => h.cons hn⟩
    · exact ⟨1, rfl, Or.inl rfl⟩

theorem divisor_ne_zero {d g : Nat} {cs : List (Coefficient Rat)} (h : d = 1 ∨ DividesAll d g cs) :
    d ≠ 0 := by
  rcases h with rfl | h
  · exact one_ne_zero
  · exact Nat.ne_zero_of_lt h.one_lt

end Divisors

section Shared

theorem mem_exponentsOf {base : Expr Rat} {powers : PowerList} {v : Rat} :
    v ∈ exponentsOf base powers ↔ (base, num v) ∈ powers := by
  simp only [exponentsOf, List.mem_filterMap, Option.ite_none_right_eq_some, beq_iff_eq,
    number?_eq_some]
  constructor
  · rintro ⟨⟨b, e⟩, hp, rfl, rfl⟩
    exact hp
  · exact fun hp => ⟨_, hp, rfl, rfl⟩

theorem foldl_max_spec (v : Rat) (vs : List Rat) :
    vs.foldl Scalar.max v ∈ v :: vs ∧ ∀ u ∈ v :: vs, u ≤ vs.foldl Scalar.max v := by
  induction vs generalizing v with
  | nil => simp
  | cons w vs ih =>
    obtain ⟨hmem, hle⟩ := ih (Max.max v w)
    obtain ⟨hhead, htail⟩ := List.forall_mem_cons.mp hle
    obtain ⟨hv, hw⟩ := max_le_iff.mp hhead
    rw [List.foldl_cons, Scalar.max_rat]
    refine ⟨?_, List.forall_mem_cons.mpr ⟨hv, List.forall_mem_cons.mpr ⟨hw, htail⟩⟩⟩
    rcases List.mem_cons.mp hmem with h | h
    · rw [h]
      rcases max_choice v w with hm | hm <;> simp [hm]
    · simp [h]

def HasPower (base : Expr Rat) (v : Rat) (perTerm : List PowerList) : Prop :=
  ∀ powers ∈ perTerm, ∃ w, (base, num w) ∈ powers ∧ v ≤ w

/-- Whether the first power of the base that is not lower is exactly this one. -/
def FirstPower (base : Expr Rat) (v : Rat) (powers : PowerList) : Prop :=
  ∃ before after, powers = before ++ (base, num v) :: after ∧
    ∀ w, (base, num w) ∈ before → w < v

theorem FirstPower.mem {base : Expr Rat} {v : Rat} {powers : PowerList}
    (h : FirstPower base v powers) : (base, num v) ∈ powers := by
  obtain ⟨before, after, rfl, -⟩ := h
  simp

theorem firstPower_of_highest {base : Expr Rat} {v : Rat} {powers : PowerList}
    (hmem : (base, num v) ∈ powers) (hle : ∀ w, (base, num w) ∈ powers → w ≤ v) :
    FirstPower base v powers := by
  obtain ⟨before, after, rfl, hnot⟩ := List.eq_append_cons_of_mem hmem
  refine ⟨before, after, rfl, fun w hw => lt_of_le_of_ne (hle w (by simp [hw])) ?_⟩
  rintro rfl
  exact hnot hw

theorem lowestExponent?_spec {base : Expr Rat} {lowest v : Rat} {perTerm : List PowerList}
    (h : lowestExponent? base lowest perTerm = some v) :
    v ≤ lowest ∧ HasPower base v perTerm ∧
      (v = lowest ∨ ∃ powers ∈ perTerm, FirstPower base v powers) := by
  induction perTerm generalizing lowest with
  | nil =>
    obtain rfl := Option.some.inj h
    exact ⟨le_rfl, by simp [HasPower], Or.inl rfl⟩
  | cons powers rest ih =>
    simp only [lowestExponent?] at h
    split at h
    · simp at h
    · rename_i w ws hexp
      obtain ⟨hmem, hhigh⟩ := foldl_max_spec w ws
      rw [← hexp] at hmem hhigh
      simp only [mem_exponentsOf] at hmem hhigh
      obtain ⟨hle, hall, hor⟩ := ih h
      rw [Scalar.min_rat] at hle hor
      obtain ⟨hlow, hmax⟩ := le_min_iff.mp hle
      refine ⟨hlow, List.forall_mem_cons.mpr ⟨⟨_, hmem, hmax⟩, hall⟩, ?_⟩
      rcases hor with hor | ⟨qs, hqs, hq⟩
      · rcases min_choice lowest (ws.foldl Scalar.max w) with hm | hm
        · exact Or.inl (hor.trans hm)
        · refine Or.inr ⟨powers, by simp, ?_⟩
          rw [hor, hm]
          exact firstPower_of_highest hmem hhigh
      · exact Or.inr ⟨qs, by simp [hqs], hq⟩

theorem lowestExponent?_pos {base : Expr Rat} {lowest : Rat} {perTerm : List PowerList}
    (hpos : 0 < lowest) (h : ∀ powers ∈ perTerm, ∃ w, (base, num w) ∈ powers ∧ 0 < w) :
    ∃ v, lowestExponent? base lowest perTerm = some v ∧ 0 < v := by
  induction perTerm generalizing lowest with
  | nil => exact ⟨lowest, rfl, hpos⟩
  | cons powers rest ih =>
    obtain ⟨⟨w, hw, hw0⟩, hrest⟩ := List.forall_mem_cons.mp h
    rw [← mem_exponentsOf] at hw
    rw [lowestExponent?]
    split
    · rename_i hnone
      rw [hnone] at hw
      cases hw
    · rename_i u us hexp
      rw [hexp] at hw
      refine ih ?_ hrest
      rw [Scalar.min_rat]
      exact lt_min hpos (hw0.trans_le ((foldl_max_spec u us).2 w hw))

/-- What holds of the powers that are pulled out: the bases are different, the exponents positive,
every term has at least these powers, and some term has no higher one before exactly this one. -/
structure SharedBy (perTerm : List PowerList) (shared : List (Expr Rat × Rat)) : Prop where
  nodup : (shared.map (·.1)).Nodup
  positive : ∀ s ∈ shared, 0 < s.2
  hasPower : ∀ s ∈ shared, HasPower s.1 s.2 perTerm
  attained : ∀ s ∈ shared, ∃ powers ∈ perTerm, FirstPower s.1 s.2 powers

theorem SharedBy.nil (perTerm : List PowerList) : SharedBy perTerm [] :=
  ⟨List.nodup_nil, by simp, by simp, by simp⟩

theorem SharedBy.append {perTerm : List PowerList} {shared : List (Expr Rat × Rat)}
    {base : Expr Rat} {v : Rat} (h : SharedBy perTerm shared) (hnew : ∀ s ∈ shared, s.1 ≠ base)
    (hpos : 0 < v) (hhas : HasPower base v perTerm)
    (hatt : ∃ powers ∈ perTerm, FirstPower base v powers) :
    SharedBy perTerm (shared ++ [(base, v)]) where
  nodup := by
    rw [List.map_append, List.nodup_append]
    refine ⟨h.nodup, List.nodup_singleton _, ?_⟩
    rintro b hb c hc rfl
    obtain ⟨s, hs, rfl⟩ := List.mem_map.mp hb
    exact hnew s hs (List.mem_singleton.mp hc)
  positive := List.forall_mem_append.mpr ⟨h.positive, List.forall_mem_singleton.mpr hpos⟩
  hasPower := List.forall_mem_append.mpr ⟨h.hasPower, List.forall_mem_singleton.mpr hhas⟩
  attained := List.forall_mem_append.mpr ⟨h.attained, List.forall_mem_singleton.mpr hatt⟩

def shareNext {α : Type} [Scalar α] (rest : List (List (Expr α × Expr α)))
    (shared : List (Expr α × α)) : Expr α × Expr α → List (Expr α × α)
  | (base, exponent) =>
    match exponent.number? with
    | some v =>
      if !Scalar.lt Scalar.zero v then shared
      else
        match lowestExponent? base v rest with
        | some lowest =>
          if Scalar.lt Scalar.zero lowest && !shared.any (·.1 == base) then
            shared ++ [(base, lowest)]
          else shared
        | none => shared
    | none => shared

theorem sharedPowers_cons (first : PowerList) (rest : List PowerList) :
    sharedPowers (first :: rest) = first.foldl (shareNext rest) [] := rfl

def Shareable (rest : List PowerList) (base : Expr Rat) (v low : Rat) : Prop :=
  0 < v ∧ lowestExponent? base v rest = some low ∧ 0 < low

theorem shareNext_cases (rest : List PowerList) (shared : List (Expr Rat × Rat))
    (p : Expr Rat × Expr Rat) :
    (∃ base v low, p = (base, num v) ∧ Shareable rest base v low ∧ (∀ s ∈ shared, s.1 ≠ base) ∧
        shareNext rest shared p = shared ++ [(base, low)]) ∨
      shareNext rest shared p = shared ∧
        ∀ base v low, p = (base, num v) → Shareable rest base v low → ∃ s ∈ shared, s.1 = base := by
  obtain ⟨base, exponent⟩ := p
  rw [shareNext]
  split
  · rename_i v hv
    obtain rfl := number?_eq_some.mp hv
    by_cases h0 : 0 < v
    · simp only [Scalar.lt_rat, Scalar.zero_rat, h0, decide_true, Bool.not_true, Bool.false_eq_true,
        if_false]
      split
      · rename_i low hlow
        split_ifs with hnew
        · simp only [Bool.and_eq_true, decide_eq_true_eq, Bool.not_eq_true', List.any_eq_false,
            beq_iff_eq] at hnew
          exact Or.inl ⟨base, v, low, rfl, ⟨h0, hlow, hnew.1⟩, hnew.2, rfl⟩
        · refine Or.inr ⟨rfl, ?_⟩
          rintro _ _ low' ⟨⟩ ⟨-, hlow', hpos⟩
          obtain rfl := Option.some.inj (hlow.symm.trans hlow')
          simpa [hpos] using hnew
      · rename_i hnone
        refine Or.inr ⟨rfl, ?_⟩
        rintro _ _ low ⟨⟩ ⟨-, hlow, -⟩
        exact absurd (hnone.symm.trans hlow) (by simp)
    · simp only [Scalar.lt_rat, Scalar.zero_rat, h0, decide_false, Bool.not_false, if_true,
        true_and]
      right
      rintro _ _ _ ⟨⟩ ⟨hv0, -⟩
      exact absurd hv0 h0
  · rename_i hnone
    refine Or.inr ⟨rfl, ?_⟩
    rintro _ _ _ ⟨⟩
    simp [number?] at hnone

theorem Shareable.attained {before after : PowerList} {rest : List PowerList} {base : Expr Rat}
    {v low : Rat} (h : Shareable rest base v low)
    (hbefore : ∀ w low', (base, num w) ∈ before → ¬Shareable rest base w low') :
    ∃ powers ∈ (before ++ (base, num v) :: after) :: rest, FirstPower base low powers := by
  obtain ⟨hv, hlow, hpos⟩ := h
  obtain ⟨-, hall, hor⟩ := lowestExponent?_spec hlow
  rcases hor with rfl | ⟨powers, hpowers, hfirst⟩
  · refine ⟨_, by simp, before, after, rfl, fun w hw => ?_⟩
    -- a higher power before this one would have been shared in its place
    by_contra hle
    have hw0 : 0 < w := hv.trans_le (not_lt.mp hle)
    obtain ⟨low', hlow', hpos'⟩ := lowestExponent?_pos hw0 fun powers hpowers => by
      obtain ⟨u, hu, hle⟩ := hall powers hpowers
      exact ⟨u, hu, hpos.trans_le hle⟩
    exact hbefore w low' hw ⟨hw0, hlow', hpos'⟩
  · exact ⟨powers, by simp [hpowers], hfirst⟩

theorem foldl_shareNext_spec (before after : PowerList) (rest : List PowerList) :
    SharedBy ((before ++ after) :: rest) (before.foldl (shareNext rest) []) ∧
      ∀ base v low, (base, num v) ∈ before → Shareable rest base v low →
        ∃ s ∈ before.foldl (shareNext rest) [], s.1 = base := by
  induction before using List.reverseRecOn generalizing after with
  | nil => exact ⟨.nil _, by simp⟩
  | append_singleton before p ih =>
    obtain ⟨hshared, hlisted⟩ := ih (p :: after)
    rw [List.append_assoc, List.singleton_append, List.foldl_append, List.foldl_cons,
      List.foldl_nil]
    generalize before.foldl (shareNext rest) [] = shared at hshared hlisted ⊢
    rcases shareNext_cases rest shared p with ⟨base, v, low, rfl, h, hnew, heq⟩ | ⟨heq, h⟩
    · rw [heq]
      obtain ⟨hle, hall, -⟩ := lowestExponent?_spec h.2.1
      refine ⟨hshared.append hnew h.2.2 (List.forall_mem_cons.mpr ⟨⟨v, by simp, hle⟩, hall⟩)
        (h.attained fun w low' hw hs => ?_), fun b w low' hmem hs => ?_⟩
      · obtain ⟨s, hs, hbase⟩ := hlisted base w low' hw hs
        exact hnew s hs hbase
      · rcases List.mem_append.mp hmem with hmem | hmem
        · obtain ⟨s, hs, hbase⟩ := hlisted b w low' hmem hs
          exact ⟨s, by simp [hs], hbase⟩
        · obtain ⟨rfl, -⟩ := Prod.mk.inj (List.mem_singleton.mp hmem)
          exact ⟨(b, low), by simp, rfl⟩
    · rw [heq]
      refine ⟨hshared, fun b w low' hmem hs => ?_⟩
      rcases List.mem_append.mp hmem with hmem | hmem
      · exact hlisted b w low' hmem hs
      · exact h b w low' (List.mem_singleton.mp hmem).symm hs

theorem sharedPowers_sharedBy (perTerm : List PowerList) :
    SharedBy perTerm (sharedPowers perTerm) := by
  cases perTerm with
  | nil => exact .nil []
  | cons first rest =>
    have h := (foldl_shareNext_spec first [] rest).1
    rwa [List.append_nil, ← sharedPowers_cons] at h

end Shared

section Lowering

variable {K : Type*} [Field K] {I : Interpretation K}

structure SplitsOff (I : Interpretation K) (base : Expr Rat) (low : Rat)
    (powers left : PowerList) : Prop where
  defined : ∀ p ∈ left, (powerOf p).Defined I
  eval : powersEval I powers = I.power (base.eval I) low * powersEval I left
  other : ∀ p ∈ powers, p.1 ≠ base → p ∈ left

theorem SplitsOff.cons {base : Expr Rat} {low : Rat} {powers left : PowerList}
    {p : Expr Rat × Expr Rat} (h : SplitsOff I base low powers left)
    (hp : (powerOf p).Defined I) : SplitsOff I base low (p :: powers) (p :: left) where
  defined := List.forall_mem_cons.mpr ⟨hp, h.defined⟩
  eval := by
    rw [powersEval_cons, powersEval_cons, h.eval]
    ring
  other q hq hne := by
    rcases List.mem_cons.mp hq with rfl | hq
    · exact List.mem_cons_self
    · exact List.mem_cons_of_mem _ (h.other q hq hne)

theorem splitsOff_head [CharZero K] (hI : I.PowerLaws) {base : Expr Rat} {low v : Rat}
    {powers : PowerList} (hlow : 0 < low) (hle : low ≤ v)
    (hd : ∀ p ∈ (base, num v) :: powers, (powerOf p).Defined I)
    (hbase : I.PowerDefined (base.eval I) low) :
    SplitsOff I base low ((base, num v) :: powers) ((base, num (v - low)) :: powers) := by
  obtain ⟨hp, hps⟩ := List.forall_mem_cons.mp hd
  simp only [powerOf, defined_pow, eval_num] at hp
  obtain ⟨dsplit, vsplit⟩ := hI.split hle (Or.inl hlow) hp.2 hbase
  refine ⟨List.forall_mem_cons.mpr ⟨?_, hps⟩, ?_, ?_⟩
  · simpa [powerOf, hp.1.1] using dsplit
  · simp only [powersEval_cons, powerOf, eval_pow, eval_num, vsplit, mul_assoc]
  · rintro q hq hne
    rcases List.mem_cons.mp hq with rfl | hq
    · exact absurd rfl hne
    · exact List.mem_cons_of_mem _ hq

theorem lowerPower_splitsOff [CharZero K] (hI : I.PowerLaws) {base : Expr Rat} {low v : Rat}
    {powers : PowerList} (hlow : 0 < low) (hle : low ≤ v)
    (hd : ∀ p ∈ powers, (powerOf p).Defined I) (hbase : I.PowerDefined (base.eval I) low)
    (hmem : (base, num v) ∈ powers) :
    SplitsOff I base low powers (lowerPower base low powers) := by
  induction powers with
  | nil => simp at hmem
  | cons p powers ih =>
    obtain ⟨b, e⟩ := p
    obtain ⟨hp, hps⟩ := List.forall_mem_cons.mp hd
    simp only [lowerPower]
    split
    · rename_i w hw
      rw [number?_eq_some] at hw
      subst hw
      split_ifs with hb
      · simp only [Bool.and_eq_true, beq_iff_eq, Scalar.le_rat, decide_eq_true_eq] at hb
        obtain ⟨rfl, hw⟩ := hb
        exact splitsOff_head hI hlow hw hd hbase
      · refine (ih hps ?_).cons hp
        rcases List.mem_cons.mp hmem with heq | hmem
        · obtain ⟨rfl, hvw⟩ := Prod.mk.inj heq
          obtain rfl := num.inj hvw
          simp [hle] at hb
        · exact hmem
    · rename_i hnone
      refine (ih hps ?_).cons hp
      rcases List.mem_cons.mp hmem with heq | hmem
      · obtain ⟨-, rfl⟩ := Prod.mk.inj heq
        simp [number?] at hnone
      · exact hmem

def sharedEval (I : Interpretation K) (shared : List (Expr Rat × Rat)) : K :=
  (shared.map fun s => I.power (s.1.eval I) s.2).prod

theorem foldl_lowerPower_spec [CharZero K] (hI : I.PowerLaws) {shared : List (Expr Rat × Rat)}
    {powers : PowerList} (hnodup : (shared.map (·.1)).Nodup) (hpos : ∀ s ∈ shared, 0 < s.2)
    (hhas : ∀ s ∈ shared, ∃ v, (s.1, num v) ∈ powers ∧ s.2 ≤ v)
    (hbase : ∀ s ∈ shared, I.PowerDefined (s.1.eval I) s.2)
    (hd : ∀ p ∈ powers, (powerOf p).Defined I) :
    let left := shared.foldl (fun ps (base, low) => lowerPower base low ps) powers
    (∀ p ∈ left, (powerOf p).Defined I) ∧
      powersEval I powers = sharedEval I shared * powersEval I left := by
  induction shared generalizing powers with
  | nil => simpa [sharedEval] using hd
  | cons s shared ih =>
    obtain ⟨base, low⟩ := s
    obtain ⟨hne, hnodup⟩ := List.nodup_cons.mp hnodup
    obtain ⟨hp, hpos⟩ := List.forall_mem_cons.mp hpos
    obtain ⟨⟨v, hv, hle⟩, hhas⟩ := List.forall_mem_cons.mp hhas
    obtain ⟨hb, hbase⟩ := List.forall_mem_cons.mp hbase
    have hsplit := lowerPower_splitsOff hI hp hle hd hb hv
    have hkept : ∀ t ∈ shared, ∃ w, (t.1, num w) ∈ lowerPower base low powers ∧ t.2 ≤ w := by
      intro t ht
      obtain ⟨w, hw, hlw⟩ := hhas t ht
      refine ⟨w, hsplit.other _ hw ?_, hlw⟩
      rintro rfl
      exact hne (List.mem_map.mpr ⟨t, ht, rfl⟩)
    obtain ⟨dl, vl⟩ := ih hnodup hpos hkept hbase hsplit.defined
    refine ⟨dl, ?_⟩
    rw [hsplit.eval, vl]
    simp [sharedEval, mul_assoc]

theorem withoutShared_spec [CharZero K] (hI : I.PowerLaws) {shared : List (Expr Rat × Rat)}
    {rest : Option (Expr Rat)} {perTerm : List PowerList} (hs : SharedBy perTerm shared)
    (hbase : ∀ s ∈ shared, I.PowerDefined (s.1.eval I) s.2)
    (hmem : (factorsOf rest).map Term.powerParts ∈ perTerm)
    (hd : Term.RestDefined I rest) :
    Term.RestDefined I (withoutShared shared rest) ∧
      Term.restEval I rest = sharedEval I shared * Term.restEval I (withoutShared shared rest) := by
  unfold withoutShared
  split_ifs with hempty
  · rw [List.isEmpty_iff] at hempty
    exact ⟨hd, by simp [hempty, sharedEval]⟩
  · obtain ⟨dl, vl⟩ := foldl_lowerPower_spec hI hs.nodup hs.positive
      (fun s h => hs.hasPower s h _ hmem) hbase (powerParts_defined hI hd)
    rw [← powerParts_product hI rest, vl, ← factorOf?_product hI]
    dsimp only at dl ⊢
    have dkept := defined_filterMap (g := factorOf?) fun p hp => factorOf?_defined (dl p hp)
    split
    · rename_i hkept
      exact ⟨trivial, by simp [hkept, Term.restEval]⟩
    · refine ⟨?_, by simp [Term.restEval]⟩
      simpa [Term.RestDefined] using dkept

end Lowering

section Factoring

variable {K : Type*} [Field K] [CharZero K] {I : Interpretation K}

theorem sharedEval_filterMap (hI : I.PowerLaws) (shared : List (Expr Rat × Rat)) :
    ((shared.filterMap fun s => powerFactor? s.1 s.2).map (eval I)).prod =
      sharedEval I shared := by
  rw [prod_filterMap]
  simp only [sharedEval, powerFactor?_eval hI]

def sharedOf {α : Type} [Scalar α] (ts : List (Term α)) : List (Expr α × α) :=
  if ts.all (·.rest.isSome) then
    sharedPowers (ts.map fun t => (factorsOf t.rest).map Term.powerParts)
  else []

theorem sharedOf_sharedBy (ts : List (Term Rat)) :
    SharedBy (ts.map fun t => (factorsOf t.rest).map Term.powerParts) (sharedOf ts) := by
  unfold sharedOf
  split_ifs
  · exact sharedPowers_sharedBy _
  · exact .nil _

theorem sharedOf_powerDefined (hI : I.PowerLaws) {ts : List (Term Rat)}
    (hd : ∀ t ∈ ts, t.Defined I) : ∀ s ∈ sharedOf ts,
      s.1.Defined I ∧ I.PowerDefined (s.1.eval I) s.2 := by
  intro s hs
  obtain ⟨powers, hpowers, hmem⟩ := (sharedOf_sharedBy ts).attained s hs
  obtain ⟨t, ht, rfl⟩ := List.mem_map.mp hpowers
  have := powerParts_defined hI (hd t ht) _ hmem.mem
  simp only [powerOf, defined_pow, eval_num] at this
  exact ⟨this.1.1, this.2⟩

def outside (g : Nat) (shared : List (Expr Rat × Rat)) : List (Expr Rat) :=
  let powers := shared.filterMap fun s => powerFactor? s.1 s.2
  if g = 1 then powers else num (g : Rat) :: powers

theorem outside_eval (hI : I.PowerLaws) (g : Nat) (shared : List (Expr Rat × Rat)) :
    ((outside g shared).map (eval I)).prod = g * sharedEval I shared := by
  unfold outside
  rw [← sharedEval_filterMap hI]
  split_ifs with hg
  · simp [hg]
  · simp

omit [CharZero K] in
theorem outside_defined {shared : List (Expr Rat × Rat)}
    (h : ∀ s ∈ shared, s.1.Defined I ∧ I.PowerDefined (s.1.eval I) s.2) (g : Nat) :
    ∀ f ∈ outside g shared, f.Defined I := by
  have hpowers : ∀ p ∈ shared.filterMap fun s => powerFactor? s.1 s.2, p.Defined I :=
    defined_filterMap fun s hs => powerFactor?_defined (h s hs).1 (h s hs).2
  unfold outside
  split_ifs
  · exact hpowers
  · exact List.forall_mem_cons.mpr ⟨defined_num I _, hpowers⟩

def divided (g : Nat) : Coefficient Rat → Coefficient Rat
  | .exact q => .exact (q / g)
  | .inexact v => .inexact (v / g)

@[simp] theorem value_divided (g : Nat) (c : Coefficient Rat) :
    (divided g c).value = c.value / g := by
  cases c <;> rfl

def reduced (g : Nat) (shared : List (Expr Rat × Rat)) (t : Term Rat) : Term Rat :=
  ⟨divided g t.coefficient, withoutShared shared t.rest⟩

/-- What is pulled out times what is left of the terms has the value of the terms. -/
theorem total_reduced {g : Nat} (hg : g ≠ 0) {shared : List (Expr Rat × Rat)}
    {ts : List (Term Rat)} (h : ∀ t ∈ ts, Term.restEval I t.rest =
      sharedEval I shared * Term.restEval I (withoutShared shared t.rest)) :
    Term.total I ts = g * sharedEval I shared * Term.total I (ts.map (reduced g shared)) := by
  have hgK : (g : K) ≠ 0 := Nat.cast_ne_zero.mpr hg
  induction ts with
  | nil => simp
  | cons t ts ih =>
    obtain ⟨ht, hts⟩ := List.forall_mem_cons.mp h
    rw [List.map_cons, Term.total_cons, Term.total_cons, ih hts, Term.eval, Term.eval, ht, reduced,
      value_divided]
    push_cast
    field_simp

theorem mapM_reduced (g : Nat) (shared : List (Expr Rat × Rat)) (ts : List (Term Rat)) :
    (ts.mapM fun t => do
      let c ← t.coefficient.divide g
      pure (⟨c, withoutShared shared t.rest⟩ : Term Rat) : Except Failure _) =
        .ok (ts.map (reduced g shared)) := by
  have h (t : Term Rat) : (do
      let c ← t.coefficient.divide g
      pure (⟨c, withoutShared shared t.rest⟩ : Term Rat) : Except Failure _) =
        pure (reduced g shared t) := by
    obtain ⟨c, rest⟩ := t
    cases c <;> rfl
  simp only [h, List.mapM_pure]
  rfl

theorem factorCommonTerm_eq {o : Arithmetic} (ho : o.isAdditive = true) {l r : Expr Rat}
    {ts : List (Term Rat)} (hts : Term.terms (.op o l r) = .ok ts) {g : Nat}
    (hg : commonDivisor 0 (ts.map (·.coefficient)) = .ok g) :
    factorCommonTerm (.op o l r) =
      if g = 1 ∧ (sharedOf ts).isEmpty = true then .ok (.op o l r)
      else .ok (.op .mul (Term.product (outside g (sharedOf ts)))
        (Term.writtenSum (ts.map (reduced g (sharedOf ts))))) := by
  have hshared : (if ts.all (·.rest.isSome) then
      sharedPowers (ts.map fun t => (factorsOf t.rest).map Term.powerParts) else []) =
        sharedOf ts := rfl
  simp only [factorCommonTerm, ho, Bool.not_true, Bool.false_eq_true, if_false, hts, hg, ok_bind,
    hshared, mapM_reduced, Expr.ofRat?, Scalar.ofRat?_rat, pure_bind, Term.sum_rat]
  rfl

theorem factorCommonTerm_cases (e : Expr Rat) : factorCommonTerm e = .ok e ∨
    ∃ o l r, e = .op o l r ∧ o.isAdditive = true := by
  unfold factorCommonTerm
  split
  · rename_i o l r
    cases ho : o.isAdditive with
    | true => exact Or.inr ⟨o, l, r, rfl, ho⟩
    | false => exact Or.inl rfl
  · exact Or.inl rfl

theorem factorCommonTerm_keepsValue (hI : I.PowerLaws) : KeepsValue I factorCommonTerm := by
  intro e
  rcases factorCommonTerm_cases e with h | ⟨o, l, r, rfl, ho⟩
  · exact ⟨_, h, Refines.refl _⟩
  · obtain ⟨ts, hts, vts, dts⟩ := Term.terms_spec I (.op o l r)
    obtain ⟨g, hg, hdivides⟩ := commonDivisor_rat 0 (ts.map (·.coefficient))
    rw [factorCommonTerm_eq ho hts hg]
    split_ifs
    · exact ⟨_, rfl, Refines.refl _⟩
    · refine ⟨_, rfl, fun hd => ?_⟩
      have hbase := sharedOf_powerDefined hI (dts hd)
      have hrest := fun t ht => withoutShared_spec hI (sharedOf_sharedBy ts)
        (fun s hs => (hbase s hs).2) (List.mem_map.mpr ⟨t, ht, rfl⟩) (dts hd t ht)
      have hvalue := total_reduced (divisor_ne_zero hdivides) fun t ht => (hrest t ht).2
      refine ⟨(defined_mul I _ _).mpr ⟨(Term.product_defined I _).mpr (outside_defined hbase g),
        Term.writtenSum_defined I ?_⟩, ?_⟩
      · exact List.forall_mem_map.mpr fun t ht => (hrest t ht).1
      · rw [eval_mul, Term.product_eval, outside_eval hI, Term.writtenSum_eval, ← vts, hvalue]

end Factoring

end RuleAlgebra.Rules
