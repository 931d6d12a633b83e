import RuleAlgebra.Polynomial.Coefficients
import RuleAlgebra.Proofs.ExactScalars

/-!
The linear form of an expression, read without rounding. The form has the value of the expression
for all values of the unknowns, the other parts of the expression being fixed numbers.
-/

namespace RuleAlgebra

variable {α : Type} [Scalar α]

namespace LinearForm

variable {K : Type*} {value : α → K} {slopes steps : List (String × α)} {sign v : α}
  {x y : String}

def coefficient (value : α → K) (slopes : List (String × α)) (x : String) : K :=
  value (((slopes.find? (·.1 == x)).map (·.2)).getD Scalar.zero)

theorem coefficient_cons (m : String × α) :
    coefficient value (m :: slopes) x =
      if m.1 = x then value m.2 else coefficient value slopes x := by
  by_cases hx : m.1 = x <;> simp [coefficient, hx]

section Names

theorem addSlope_cons_self (hx : x ∉ slopes.map (·.1)) (u : α) :
    addSlope sign ((x, u) :: slopes) x v = (x, u + sign * v) :: slopes := by
  have hsame : ∀ m ∈ slopes, (if m.1 = x then (m.1, m.2 + sign * v) else m) = id m := by
    intro m hm
    exact if_neg fun hmx => hx (List.mem_map.mpr ⟨m, hm, hmx⟩)
  simpa [addSlope] using (List.map_congr_left hsame).trans (List.map_id slopes)

theorem addSlope_cons_ne {m : String × α} (hm : m.1 ≠ x) :
    addSlope sign (m :: slopes) x v = m :: addSlope sign slopes x v := by
  unfold addSlope
  by_cases hany : slopes.any (·.1 == x) = true <;> simp [hm, hany]

theorem mem_keys_addSlope (hs : (slopes.map (·.1)).Nodup)
    (hy : y ∈ (addSlope sign slopes x v).map (·.1)) : y ∈ slopes.map (·.1) ∨ y = x := by
  induction slopes with
  | nil => exact Or.inr (by simpa [addSlope] using hy)
  | cons m slopes ih =>
    obtain ⟨hm, hslopes⟩ := List.nodup_cons.mp hs
    by_cases hmx : m.1 = x
    · obtain ⟨z, u⟩ := m
      obtain rfl : z = x := hmx
      rw [addSlope_cons_self hm] at hy
      exact Or.inl hy
    · rw [addSlope_cons_ne hmx, List.map_cons, List.mem_cons] at hy
      rcases hy with rfl | hy
      · exact Or.inl (by simp)
      · exact (ih hslopes hy).imp_left (List.mem_cons_of_mem _)

theorem nodup_addSlope (hs : (slopes.map (·.1)).Nodup) :
    ((addSlope sign slopes x v).map (·.1)).Nodup := by
  induction slopes with
  | nil => simp [addSlope]
  | cons m slopes ih =>
    obtain ⟨hm, hslopes⟩ := List.nodup_cons.mp hs
    by_cases hmx : m.1 = x
    · obtain ⟨z, u⟩ := m
      obtain rfl : z = x := hmx
      rw [addSlope_cons_self hm]
      exact hs
    · rw [addSlope_cons_ne hmx, List.map_cons, List.nodup_cons]
      exact ⟨fun hmem => (mem_keys_addSlope hslopes hmem).elim hm hmx, ih hslopes⟩

theorem nodup_addSlopes (hs : (slopes.map (·.1)).Nodup) :
    ((steps.foldl (fun out m => addSlope sign out m.1 m.2) slopes).map (·.1)).Nodup := by
  induction steps generalizing slopes with
  | nil => exact hs
  | cons m steps ih => exact ih (nodup_addSlope hs)

end Names

variable [Field K] [LinearOrder K] {unknowns : List String} {σ : String → K} {f g : LinearForm α}

def offset (value : α → K) (f : LinearForm α) : K := value (f.constant.getD Scalar.zero)

def total (value : α → K) (unknowns : List String) (σ : String → K) (f : LinearForm α) : K :=
  f.offset value + (unknowns.map fun x => coefficient value f.slopes x * σ x).sum

theorem coefficient_nil (h : Scalar.Exact value) : coefficient value [] x = 0 := h.zero

theorem coefficient_eq_zero (h : Scalar.Exact value) (hx : x ∉ slopes.map (·.1)) :
    coefficient value slopes x = 0 := by
  induction slopes with
  | nil => exact coefficient_nil h
  | cons m slopes ih =>
    simp only [List.map_cons, List.mem_cons, not_or] at hx
    rw [coefficient_cons, if_neg (Ne.symm hx.1), ih hx.2]

theorem coefficient_map {r : α → α} {c : K} (hr : ∀ v, value (r v) = c * value v)
    (h : Scalar.Exact value) :
    coefficient value (slopes.map fun (x, v) => (x, r v)) x = c * coefficient value slopes x := by
  induction slopes with
  | nil => simp [coefficient_nil h]
  | cons m slopes ih =>
    rw [List.map_cons, coefficient_cons, coefficient_cons, ih]
    split_ifs
    · exact hr m.2
    · rfl

theorem coefficient_addSlope (h : Scalar.Exact value) (hs : (slopes.map (·.1)).Nodup) :
    coefficient value (addSlope sign slopes x v) y =
      coefficient value slopes y + if x = y then value sign * value v else 0 := by
  induction slopes with
  | nil => simp [addSlope, coefficient_cons, coefficient_nil h, h.add, h.mul, h.zero]
  | cons m slopes ih =>
    obtain ⟨hm, hslopes⟩ := List.nodup_cons.mp hs
    by_cases hmx : m.1 = x
    · obtain ⟨z, u⟩ := m
      obtain rfl : z = x := hmx
      rw [addSlope_cons_self hm, coefficient_cons, coefficient_cons]
      by_cases hy : z = y <;> simp [hy, h.add, h.mul]
    · rw [addSlope_cons_ne hmx, coefficient_cons, coefficient_cons, ih hslopes]
      by_cases hy : m.1 = y
      · simp [hy, show x ≠ y from fun hxy => hmx (hy.trans hxy.symm)]
      · simp [hy]

theorem coefficient_addSlopes (h : Scalar.Exact value) (hs : (slopes.map (·.1)).Nodup)
    (ht : (steps.map (·.1)).Nodup) :
    coefficient value (steps.foldl (fun out m => addSlope sign out m.1 m.2) slopes) y =
      coefficient value slopes y + value sign * coefficient value steps y := by
  induction steps generalizing slopes with
  | nil => simp [coefficient_nil h]
  | cons m steps ih =>
    obtain ⟨hm, hsteps⟩ := List.nodup_cons.mp ht
    rw [List.foldl_cons, ih (nodup_addSlope hs) hsteps, coefficient_addSlope h hs,
      coefficient_cons]
    by_cases hy : m.1 = y
    · have hzero : coefficient value steps y = 0 := coefficient_eq_zero h (hy ▸ hm)
      rw [if_pos hy, if_pos hy, hzero]
      ring
    · rw [if_neg hy, if_neg hy]
      ring

omit [Scalar α] in
theorem nodup_map {r : α → α} (hf : (f.slopes.map (·.1)).Nodup) :
    ((f.map r).slopes.map (·.1)).Nodup := by
  simpa [map, List.map_map, Function.comp_def] using hf

theorem total_combine (h : Scalar.Exact value) (hf : (f.slopes.map (·.1)).Nodup)
    (hg : (g.slopes.map (·.1)).Nodup) :
    (combine sign f g).total value unknowns σ =
      f.total value unknowns σ + value sign * g.total value unknowns σ := by
  have hoffset : (combine sign f g).offset value = f.offset value + value sign * g.offset value := by
    cases hc : g.constant with
    | none => simp [offset, combine, hc, h.zero]
    | some c => simp [offset, combine, hc, h.add, h.mul]
  have hcoefficient (x : String) : coefficient value (combine sign f g).slopes x =
      coefficient value f.slopes x + value sign * coefficient value g.slopes x :=
    coefficient_addSlopes h hf hg
  simp only [total, hoffset, hcoefficient, add_mul, List.sum_map_add, mul_assoc,
    List.sum_map_mul_left]
  ring

theorem total_map (h : Scalar.Exact value) {r : α → α} {c : K}
    (hr : ∀ v, value (r v) = c * value v) :
    (f.map r).total value unknowns σ = c * f.total value unknowns σ := by
  have hoffset : (f.map r).offset value = c * f.offset value := by
    cases hc : f.constant with
    | none => simp [offset, map, hc, h.zero]
    | some k => simp [offset, map, hc, hr]
  have hcoefficient (x : String) : coefficient value (f.map r).slopes x =
      c * coefficient value f.slopes x := coefficient_map hr h
  simp only [total, hoffset, hcoefficient, mul_assoc, List.sum_map_mul_left]
  ring

theorem total_ofConstant (h : Scalar.Exact value) (v : α) :
    (ofConstant v).total value unknowns σ = value v := by
  simp [total, ofConstant, offset, coefficient_nil h]

theorem total_onlyConstant (h : Scalar.Exact value) {v : α} (hv : f.onlyConstant? = some v) :
    f.total value unknowns σ = value v := by
  obtain ⟨constant, slopes⟩ := f
  unfold onlyConstant? at hv
  split_ifs at hv with hempty
  obtain rfl : slopes = [] := List.isEmpty_iff.mp hempty
  obtain rfl : constant = some v := hv
  exact total_ofConstant h v

theorem total_unknown (h : Scalar.Exact value) (hu : unknowns.Nodup) (hx : x ∈ unknowns) :
    (⟨none, [(x, Scalar.one)]⟩ : LinearForm α).total value unknowns σ = σ x := by
  have hcoefficient (y : String) : coefficient value [(x, Scalar.one)] y * σ y =
      if y = x then σ y else 0 := by
    rw [coefficient_cons, coefficient_nil h]
    by_cases hy : y = x
    · simp [hy, h.one]
    · simp [hy, Ne.symm hy]
  simp [total, offset, h.zero, hcoefficient, List.sum_map_ite_eq, hu, hx]

end LinearForm

namespace Expr

theorem closedValue?_eq_some {e : Expr α} {v : α} :
    e.closedValue? = some v ↔ e.evaluate .empty = .ok v := toOption_eq_some

section Closed

variable {env : Environment α}

theorem mem_constants_of_variableValue {x : String} {v : α}
    (hv : variableValue .empty x = .ok v) : x ∈ constants := by
  by_contra hne
  obtain ⟨hpi, he⟩ : x ≠ "pi" ∧ x ≠ "e" := by simpa [constants] using hne
  simp [variableValue, Environment.empty, constantValue?, hpi, he, throw, throwThe,
    MonadExceptOf.throw] at hv

theorem variableValue_closed {x : String} {v : α} (hv : variableValue .empty x = .ok v)
    (hx : x ∈ constants → env x = none) : variableValue env x = .ok v := by
  rw [← hv]
  simp [variableValue, hx (mem_constants_of_variableValue hv), Environment.empty]

mutual

theorem evaluate_closed : ∀ {e : Expr α} {v : α}, e.evaluate .empty = .ok v →
    (∀ x, e.contains x = true → x ∈ constants → env x = none) → e.evaluate env = .ok v
  | num v, _, hv, _ => hv
  | var x, _, hv, hx => variableValue_closed hv (hx x (by simp [contains]))
  | op o l r, v, hv, hx => by
    simp only [evaluate, bind_eq_ok] at hv ⊢
    obtain ⟨a, ha, b, hb, hvalue⟩ := hv
    simp only [contains, Bool.or_eq_true, or_imp, forall_and] at hx
    exact ⟨a, evaluate_closed ha hx.1, b, evaluate_closed hb hx.2, hvalue⟩
  | fn f as, v, hv, hx => by
    simp only [evaluate] at hv ⊢
    split at hv
    · exact absurd hv (by simp [throw, throwThe, MonadExceptOf.throw])
    · rename_i g hg
      obtain ⟨vs, hvs, hvalue⟩ := bind_eq_ok.mp hv
      rw [evaluateArgs_closed hvs hx, ok_bind]
      exact hvalue
  | eq l r, _, hv, _ => absurd hv (by simp [evaluate, throw, throwThe, MonadExceptOf.throw])
  | wild n k a, _, hv, _ => absurd hv (by simp [evaluate, throw, throwThe, MonadExceptOf.throw])

theorem evaluateArgs_closed : ∀ {as : List (Expr α)} {vs : List α},
    evaluateArgs .empty as = .ok vs →
    (∀ x, anyContains x as = true → x ∈ constants → env x = none) → evaluateArgs env as = .ok vs
  | [], _, hv, _ => hv
  | a :: as, vs, hv, hx => by
    simp only [evaluateArgs, bind_eq_ok] at hv ⊢
    obtain ⟨u, hu, us, hus, hvs⟩ := hv
    simp only [anyContains, Bool.or_eq_true, or_imp, forall_and] at hx
    exact ⟨u, evaluate_closed hu hx.1, us, evaluateArgs_closed hus hx.2, hvs⟩

end

end Closed

end Expr

/-- The unknowns have values that stand for those of `σ`, and the other named constants keep their
own. -/
structure Environment.Reads {K : Type*} (env : Environment α) (value : α → K)
    (unknowns : List String) (σ : String → K) : Prop where
  unknown : ∀ x ∈ unknowns, ∃ v, env x = some v ∧ value v = σ x
  constant : ∀ x ∈ constants, x ∉ unknowns → env x = none

namespace Expr

variable {K : Type*} [Field K] [LinearOrder K] {value : α → K} {unknowns : List String}
  {env : Environment α} {σ : String → K}

/-- The form has distinct names, and the expression has a value, which is that of the form. -/
def HasTotal (value : α → K) (unknowns : List String) (env : Environment α) (σ : String → K)
    (e : Expr α) (f : LinearForm α) : Prop :=
  (f.slopes.map (·.1)).Nodup ∧
    ∃ w, e.evaluate env = .ok w ∧ value w = f.total value unknowns σ

theorem hasTotal_closed (h : Scalar.Exact value) (hread : env.Reads value unknowns σ) {e : Expr α}
    {f : LinearForm α} (hfree : ¬unknowns.any (fun x => contains x e) = true)
    (hf : e.closedValue?.map .ofConstant = some f) : HasTotal value unknowns env σ e f := by
  obtain ⟨v, hv, rfl⟩ := Option.map_eq_some_iff.mp hf
  have hevaluate : e.evaluate env = .ok v := by
    apply evaluate_closed (closedValue?_eq_some.mp hv)
    intro x hx hconstant
    exact hread.constant x hconstant fun hmem => hfree (List.any_eq_true.mpr ⟨x, hmem, hx⟩)
  exact ⟨List.nodup_nil, v, hevaluate, (LinearForm.total_ofConstant h v).symm⟩

theorem hasTotal_unknown (h : Scalar.Exact value) (hu : unknowns.Nodup)
    (hread : env.Reads value unknowns σ) {x : String} (hx : x ∈ unknowns) :
    HasTotal value unknowns env σ (var x) ⟨none, [(x, Scalar.one)]⟩ := by
  obtain ⟨v, hv, hvalue⟩ := hread.unknown x hx
  refine ⟨List.nodup_singleton x, v, ?_, ?_⟩
  · simp [evaluate, variableValue, hv, pure, Except.pure]
  · rw [hvalue, LinearForm.total_unknown h hu hx]

section Operations

variable {l r : Expr α} {f g k : LinearForm α}

theorem evaluate_op {o : Arithmetic} {a b c : α} (ha : l.evaluate env = .ok a)
    (hb : r.evaluate env = .ok b) (hc : o.value? a b = some c) :
    (op o l r).evaluate env = .ok c := by
  simp [evaluate, ha, hb, operationValue, hc, pure, Except.pure]

theorem hasTotal_combine (h : Scalar.Exact value) {sign : α} {o : Arithmetic}
    {run : α → α → α} (hrun : ∀ a b, o.value? a b = Scalar.finite? (run a b))
    (hvalue : ∀ a b, value (run a b) = value a + value sign * value b)
    (hl : HasTotal value unknowns env σ l f) (hr : HasTotal value unknowns env σ r g) :
    HasTotal value unknowns env σ (op o l r) (LinearForm.combine sign f g) := by
  obtain ⟨hf, a, ha, va⟩ := hl
  obtain ⟨hg, b, hb, vb⟩ := hr
  refine ⟨LinearForm.nodup_addSlopes hf, run a b, evaluate_op ha hb ?_, ?_⟩
  · rw [hrun, h.finite?]
  · rw [hvalue, va, vb, LinearForm.total_combine h hf hg]

theorem hasTotal_add (h : Scalar.Exact value) (hl : HasTotal value unknowns env σ l f)
    (hr : HasTotal value unknowns env σ r g) :
    HasTotal value unknowns env σ (op .add l r) (LinearForm.combine Scalar.one f g) :=
  hasTotal_combine h (fun _ _ => rfl) (fun a b => by rw [h.add, h.one, one_mul]) hl hr

theorem hasTotal_sub (h : Scalar.Exact value) (hl : HasTotal value unknowns env σ l f)
    (hr : HasTotal value unknowns env σ r g) :
    HasTotal value unknowns env σ (op .sub l r) (LinearForm.combine (Scalar.ofInt (-1)) f g) := by
  refine hasTotal_combine h (fun _ _ => rfl) (fun a b => ?_) hl hr
  rw [h.sub, h.minusOne]
  ring

theorem hasTotal_mul (h : Scalar.Exact value) (hl : HasTotal value unknowns env σ l f)
    (hr : HasTotal value unknowns env σ r g) (hk : (k.slopes.map (·.1)).Nodup)
    (htotal : k.total value unknowns σ = f.total value unknowns σ * g.total value unknowns σ) :
    HasTotal value unknowns env σ (op .mul l r) k := by
  obtain ⟨-, a, ha, va⟩ := hl
  obtain ⟨-, b, hb, vb⟩ := hr
  refine ⟨hk, a * b, evaluate_op ha hb (h.finite? _), ?_⟩
  rw [h.mul, va, vb, htotal]

theorem hasTotal_scaleLeft (h : Scalar.Exact value) (hl : HasTotal value unknowns env σ l f)
    (hr : HasTotal value unknowns env σ r g) {v : α} (hv : f.onlyConstant? = some v) :
    HasTotal value unknowns env σ (op .mul l r) (g.map (v * ·)) := by
  refine hasTotal_mul h hl hr (LinearForm.nodup_map hr.1) ?_
  rw [LinearForm.total_map h (h.mul v), LinearForm.total_onlyConstant h hv]

theorem hasTotal_scaleRight (h : Scalar.Exact value) (hl : HasTotal value unknowns env σ l f)
    (hr : HasTotal value unknowns env σ r g) {v : α} (hv : g.onlyConstant? = some v) :
    HasTotal value unknowns env σ (op .mul l r) (f.map (· * v)) := by
  have hscale (u : α) : value (u * v) = value v * value u := by rw [h.mul, mul_comm]
  refine hasTotal_mul h hl hr (LinearForm.nodup_map hl.1) ?_
  rw [LinearForm.total_map h hscale, LinearForm.total_onlyConstant h hv, mul_comm]

theorem hasTotal_div (h : Scalar.Exact value) (hl : HasTotal value unknowns env σ l f)
    (hr : HasTotal value unknowns env σ r g) {v : α} (hv : g.onlyConstant? = some v)
    (hzero : ¬(v == Scalar.zero) = true) :
    HasTotal value unknowns env σ (op .div l r) (f.map (· / v)) := by
  obtain ⟨hf, a, ha, va⟩ := hl
  obtain ⟨-, b, hb, vb⟩ := hr
  rw [LinearForm.total_onlyConstant h hv] at vb
  have hv0 : value v ≠ 0 := by rwa [h.beq, h.zero] at hzero
  have hb0 : ¬(b == Scalar.zero) = true := by rwa [h.beq, h.zero, vb]
  refine ⟨LinearForm.nodup_map hf, a / b, evaluate_op ha hb ?_, ?_⟩
  · rw [Arithmetic.value?, if_neg hb0, h.finite?]
  · have hr (u : α) : value (u / v) = (value v)⁻¹ * value u := by
      rw [h.div hv0, div_eq_inv_mul]
    rw [LinearForm.total_map h hr, h.div (by rwa [vb]), va, vb, div_eq_inv_mul]

end Operations

/-- An expression with a linear form has a value at all values of the unknowns, and the form has the
same. -/
theorem linearForm?_total (h : Scalar.Exact value) (hu : unknowns.Nodup)
    (hread : env.Reads value unknowns σ) : ∀ {e : Expr α} {f : LinearForm α},
      e.linearForm? unknowns = some f → HasTotal value unknowns env σ e f
  | num v, f, hf => by
    obtain rfl := Option.some.inj hf
    exact ⟨List.nodup_nil, v, rfl, (LinearForm.total_ofConstant h v).symm⟩
  | var y, f, hf => by
    unfold linearForm? at hf
    split_ifs at hf with hy
    · obtain rfl := Option.some.inj hf
      exact hasTotal_unknown h hu hread (by simpa using hy)
    · apply hasTotal_closed h hread _ hf
      intro hany
      obtain ⟨x, hx, hxy⟩ := List.any_eq_true.mp hany
      obtain rfl : y = x := by simpa [contains] using hxy
      exact hy (by simpa using hx)
  | op o l r, f, hf => by
    unfold linearForm? at hf
    split_ifs at hf with hfree
    · exact hasTotal_closed h hread (by simpa using hfree) hf
    · obtain ⟨p, hp, hf⟩ := Option.bind_eq_some_iff.mp hf
      obtain ⟨q, hq, hf⟩ := Option.bind_eq_some_iff.mp hf
      have hl := linearForm?_total h hu hread hp
      have hr := linearForm?_total h hu hread hq
      cases o with
      | add =>
        obtain rfl := Option.some.inj hf
        exact hasTotal_add h hl hr
      | sub =>
        obtain rfl := Option.some.inj hf
        exact hasTotal_sub h hl hr
      | mul =>
        -- one factor has to be a number, and the form of the other one is scaled
        dsimp only at hf
        split at hf
        · rename_i v hv
          obtain rfl := Option.some.inj hf
          exact hasTotal_scaleLeft h hl hr hv
        · rename_i v _ hv
          obtain rfl := Option.some.inj hf
          exact hasTotal_scaleRight h hl hr hv
        · cases hf
      | div =>
        dsimp only at hf
        split at hf
        · rename_i v hv
          split_ifs at hf with hzero
          obtain rfl := Option.some.inj hf
          exact hasTotal_div h hl hr hv hzero
        · cases hf
      | pow => cases hf
  -- calls, equations and wildcards have a form only when no unknown occurs in them
  | fn g as, f, hf => by
    unfold linearForm? at hf
    split_ifs at hf with hfree
    exact hasTotal_closed h hread (by simpa using hfree) hf
  | eq l r, f, hf => by
    unfold linearForm? at hf
    split_ifs at hf with hfree
    exact hasTotal_closed h hread (by simpa using hfree) hf
  | wild n k a, f, hf => by
    unfold linearForm? at hf
    split_ifs at hf with hfree
    exact hasTotal_closed h hread (by simpa using hfree) hf

end Expr

end RuleAlgebra
