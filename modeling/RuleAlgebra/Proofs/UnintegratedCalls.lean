import RuleAlgebra.Proofs.IntegrationRules
import RuleAlgebra.Proofs.SparsePolynomials

/-!
What integration does with functions. A linear argument has no function of the variable, so every
function that is integrated stands where a rule asks for its name and for a single argument, and
any other one leaves an integral. The square of a secant is integrated by its first argument,
whatever arguments follow.
-/

namespace RuleAlgebra.Expr

open RuleAlgebra.Traced

variable {α : Type} {x : String}

section Calls

variable {f : String} {as : List (Expr α)}

/-- The functions of the table, and the secant for its square. -/
def integratedFunctions : List String :=
  ["sin", "cos", "tan", "exp", "ln", "sqrt", "sinh", "cosh", "sec"]

/-- A function that has an integral, with a single argument. -/
def IsTabled (f : String) (as : List (Expr α)) : Prop := f ∈ integratedFunctions ∧ ∃ u, as = [u]

/-- An integral was left unevaluated somewhere in the expression. -/
def LeavesIntegral (F : Expr α) : Prop := ∃ as, fn integralName as ∈ F.walk

theorem leavesIntegral_op {o : Arithmetic} {l r : Expr α}
    (h : LeavesIntegral l ∨ LeavesIntegral r) : LeavesIntegral (op o l r) := by
  rcases h with ⟨as, h⟩ | ⟨as, h⟩ <;> exact ⟨as, by simp [walk, h]⟩

/-- No function in the expression mentions the variable. -/
def NoCall (x : String) (e : Expr α) : Prop :=
  ∀ f as, fn f as ∈ e.walk → anyContains x as = false

theorem noCall_of_free {e : Expr α} (h : e.contains x = false) : NoCall x e := by
  intro f as hf
  rw [Bool.eq_false_iff] at h ⊢
  intro hx
  apply h
  rw [contains_iff_mem_walk]
  rw [anyContains_iff_mem_walk] at hx
  exact walk_subset hf (List.mem_cons_of_mem _ hx)

theorem noCall_op {o : Arithmetic} {l r : Expr α} (hl : NoCall x l) (hr : NoCall x r) :
    NoCall x (op o l r) := by
  intro f as hf
  simp only [walk, List.mem_cons, reduceCtorEq, false_or, List.mem_append] at hf
  exact hf.elim (hl f as) (hr f as)

end Calls

variable [Scalar α] {simplify : Expr α → Except Failure (Expr α)}

section Linear

theorem Expands.noCall {e : Expr α} {p : Sparse α} (h : Expands x e p) : NoCall x e := by
  induction h with
  | free he => exact noCall_of_free he
  | unknown => simp [NoCall, walk]
  | add _ _ ihl ihr | sub _ _ ihl ihr | mul _ _ ihl ihr => exact noCall_op ihl ihr
  | div _ hr ihl => exact noCall_op ihl (noCall_of_free hr)
  | pow _ hn ihl =>
    obtain ⟨v, rfl, -⟩ := toInt?_of_degree? hn
    exact noCall_op ihl (noCall_of_free rfl)

def IsLinear (simplify : Expr α → Except Failure (Expr α)) (x : String) (u : Expr α) : Prop :=
  ∃ k b, u.linearParts x simplify = .ok (some (k, b))

theorem symbolicCoefficients_noCall {e : Expr α} {cs : List (Expr α)}
    (h : e.symbolicCoefficients x simplify = .ok (some cs)) : NoCall x e := by
  unfold symbolicCoefficients at h
  split at h
  · cases h
  · rename_i p hp
    exact (sparse?_expands hp).noCall

theorem IsLinear.noCall {u : Expr α} (h : IsLinear simplify x u) : NoCall x u := by
  obtain ⟨k, b, h⟩ := h
  have hpolynomial (h : (u.symbolicCoefficients x simplify >>= linearParts.slope) =
      .ok (some (k, b))) : NoCall x u := by
    obtain ⟨_ | cs, hcs, hslope⟩ := bind_eq_ok.mp h
    · cases hslope
    · exact symbolicCoefficients_noCall hcs
  unfold linearParts at h
  split at h
  · simp [NoCall, walk]
  · exact hpolynomial h

theorem HasSlope.noCall {u k : Expr α} (h : HasSlope simplify x u k) : NoCall x u :=
  IsLinear.noCall ⟨k, h⟩

end Linear

section Covering

/-- A part of the square of a secant with a linear argument that is followed by others: the secant,
or a part of the others. The square may be a divisor with the opposite exponent. -/
def InWideSecant (simplify : Expr α → Except Failure (Expr α)) (x : String) (t c : Expr α) :
    Prop :=
  ∃ u v us n, op .pow (fn "sec" (u :: v :: us)) n ∈ t.walk ∧ IsLinear simplify x u ∧
    (n.isNumber 2 = true ∨ ∃ w, n = num w ∧ (num (-w)).isNumber 2 = true) ∧
    (c = fn "sec" (u :: v :: us) ∨ c ∈ walkArgs (v :: us))

theorem InWideSecant.mono {s t c : Expr α} (h : InWideSecant simplify x s c)
    (hst : s.walk ⊆ t.walk) : InWideSecant simplify x t c := by
  obtain ⟨u, v, us, n, hmem, hrest⟩ := h
  exact ⟨u, v, us, n, hst hmem, hrest⟩

/-- Every function of the variable is tabled, or a part of a wide secant. -/
def Covered (simplify : Expr α → Except Failure (Expr α)) (x : String) (t : Expr α) : Prop :=
  ∀ f as, fn f as ∈ t.walk → anyContains x as = true →
    IsTabled f as ∨ InWideSecant simplify x t (fn f as)

variable {t a b u : Expr α}

theorem NoCall.covered (h : NoCall x t) : Covered simplify x t := by
  intro f as hf hx
  simp [h f as hf] at hx

theorem covered_op {o : Arithmetic} (ha : Covered simplify x a) (hb : Covered simplify x b) :
    Covered simplify x (op o a b) := by
  intro f as hf hx
  simp only [walk, List.mem_cons, reduceCtorEq, false_or, List.mem_append] at hf
  rcases hf with hf | hf
  · exact (ha f as hf hx).imp id (·.mono fun c hc => by simp [walk, hc])
  · exact (hb f as hf hx).imp id (·.mono fun c hc => by simp [walk, hc])

theorem NoCall.covered_call {f : String} (hf : f ∈ integratedFunctions) (hu : NoCall x u) :
    Covered simplify x (fn f [u]) := by
  intro g as hg hx
  simp only [walk, walkArgs, List.append_nil, List.mem_cons, fn.injEq] at hg
  rcases hg with ⟨rfl, rfl⟩ | hg
  · exact .inl ⟨hf, u, rfl⟩
  · simp [hu g as hg] at hx

theorem IsLinear.covered_secant {us : List (Expr α)} (hu : IsLinear simplify x u) {n : Expr α}
    (hn : n.isNumber 2 = true ∨ ∃ w, n = num w ∧ (num (-w)).isNumber 2 = true) :
    Covered simplify x (op .pow (fn "sec" (u :: us)) n) := by
  have hnum : ∃ w, n = num w := by
    rcases hn with hn | ⟨w, rfl, -⟩
    · cases n with
      | num w => exact ⟨w, rfl⟩
      | _ => cases hn
    · exact ⟨w, rfl⟩
  obtain ⟨w, rfl⟩ := hnum
  cases us with
  | nil => exact covered_op (hu.noCall.covered_call (by decide)) (noCall_of_free rfl).covered
  | cons v us =>
    intro f as hf hx
    have hwide (hc : fn f as = fn "sec" (u :: v :: us) ∨ fn f as ∈ walkArgs (v :: us)) :
        InWideSecant simplify x (op .pow (fn "sec" (u :: v :: us)) (num w)) (fn f as) :=
      ⟨u, v, us, num w, self_mem_walk _, hu, hn, hc⟩
    have hparts : fn f as = fn "sec" (u :: v :: us) ∨ fn f as ∈ u.walk ∨
        fn f as ∈ walkArgs (v :: us) := by
      simpa [walk, walkArgs] using hf
    rcases hparts with hf | hf | hf
    · exact .inr (hwide (.inl hf))
    · simp [hu.noCall f as hf] at hx
    · exact .inr (hwide (.inr hf))

end Covering

section Integrals

variable {t a b u : Expr α}

/-- Why a power has an integral: neither part has a function of the variable, or it is the square
of a secant. -/
def IsIntegrablePower (simplify : Expr α → Except Failure (Expr α)) (x : String) (a b : Expr α) :
    Prop :=
  (NoCall x a ∧ NoCall x b) ∨
    ∃ u us, a = fn "sec" (u :: us) ∧ IsLinear simplify x u ∧ b.isNumber 2 = true

theorem noCall_of_isNumber {n : Int} (h : b.isNumber n = true) : NoCall x b := by
  cases b with
  | num v => exact noCall_of_free rfl
  | _ => cases h

theorem IntegratesPower.covers {F : Expr α} (h : IntegratesPower simplify x a b F) :
    LeavesIntegral F ∨ IsIntegrablePower simplify x a b := by
  cases h with
  | unevaluated => exact .inl ⟨_, self_mem_walk _⟩
  | secant us hb hu => exact .inr (.inr ⟨_, us, rfl, ⟨_, hu⟩, hb⟩)
  | reciprocal hb ha => exact .inr (.inl ⟨ha.noCall, noCall_of_isNumber hb⟩)
  | raised hb ha => exact .inr (.inl ⟨ha.noCall, noCall_of_free hb⟩)
  | exponential ha hb => exact .inr (.inl ⟨noCall_of_free ha, hb.noCall⟩)

theorem IsIntegrablePower.covered (h : IsIntegrablePower simplify x a b) :
    Covered simplify x (op .pow a b) := by
  rcases h with ⟨ha, hb⟩ | ⟨u, us, rfl, hu, hb⟩
  · exact (noCall_op ha hb).covered
  · exact hu.covered_secant (.inl hb)

theorem IsIntegrablePower.covered_reciprocal {n : Expr α} (hr : reciprocalPower? x b = some (u, n))
    (h : IsIntegrablePower simplify x u n) : Covered simplify x b := by
  unfold reciprocalPower? at hr
  split at hr
  · split at hr
    · rename_i f w hsqrt
      cases hr
      subst hsqrt
      rcases h with ⟨hu, -⟩ | ⟨_, _, _, _, hn⟩
      · exact hu.covered_call (by decide)
      · cases hn
    · cases hr
  · rename_i base m
    split at hr
    · rename_i hm
      cases hr
      rcases h with ⟨hu, -⟩ | ⟨v, us, rfl, hv, hn⟩
      · exact (noCall_op hu (noCall_of_free (isFreeOf_iff.mp hm))).covered
      · apply hv.covered_secant
        split at hn
        · rename_i w
          exact .inr ⟨w, rfl, hn⟩
        · cases hn
    · cases hr
  · cases hr

theorem tableIntegral?_tabled {f : String} {outer : Expr α} (h : tableIntegral? f u = some outer) :
    f ∈ integratedFunctions := by
  unfold tableIntegral? at h
  split at h <;> first | decide | cases h

theorem Integrates.covers {F : Expr α} (h : Integrates simplify x t F) :
    LeavesIntegral F ∨ Covered simplify x t := by
  induction h with
  | unevaluated => exact .inl ⟨_, self_mem_walk _⟩
  | constant ht => exact .inr (noCall_of_free ht).covered
  | self => exact .inr (by simp [Covered, walk])
  | sum _ _ _ iha ihb =>
    rcases iha with ha | ha
    · exact .inl (leavesIntegral_op (.inl ha))
    · exact ihb.imp (leavesIntegral_op ∘ .inr) (covered_op ha)
  | leftFactor ha _ ihb =>
    exact ihb.imp (leavesIntegral_op ∘ .inr) (covered_op (noCall_of_free ha).covered)
  | rightFactor hb _ iha =>
    exact iha.imp (leavesIntegral_op ∘ .inr) (covered_op · (noCall_of_free hb).covered)
  | divisor hb _ iha =>
    exact iha.imp (leavesIntegral_op ∘ .inl) (covered_op · (noCall_of_free hb).covered)
  | logarithm ha hb => exact .inr (covered_op (noCall_of_free ha).covered hb.noCall.covered)
  | reciprocal ha hb hF =>
    exact hF.covers.imp (leavesIntegral_op ∘ .inr) fun h =>
      covered_op (noCall_of_free ha).covered (h.covered_reciprocal hb)
  | power hF => exact hF.covers.imp id (·.covered)
  | table hf hu => exact .inr (hu.noCall.covered_call (tableIntegral?_tabled hf))

theorem antiderivative_covers (t : Expr α) :
    Ensures (antiderivative simplify x t) (fun F => LeavesIntegral F ∨ Covered simplify x t)
      fun _ => True :=
  (antiderivative_integrates t).mono fun _ h => h.covers

/-- The square of a secant has the integral of its first argument, whatever the others are. -/
theorem antiderivative_secant {us : List (Expr α)} {n k c : Expr α}
    (hx : anyContains x (u :: us) = true) (hu : u.linearParts x simplify = .ok (some (k, c)))
    (hn : n.isNumber 2 = true) :
    (antiderivative simplify x (op .pow (fn "sec" (u :: us)) n)).result =
      .ok (overSlope (fn "tan" [u]) k) := by
  cases n with
  | num w =>
    have hmentions : (op .pow (fn "sec" (u :: us)) (num w)).isFreeOf x = false := by
      simp [isFreeOf, contains, hx]
    have hconstant : (num w : Expr α).isFreeOf x = true := rfl
    simp only [antiderivative, hmentions, Bool.false_eq_true, if_false, anyPowerIntegral,
      hconstant, if_true, baseIntegral, secantSquare?, hn, slope?, hu]
    rfl
  | _ => cases hn

/-- A function of the variable with another name or number of arguments leaves an integral, unless
it stands in the square of a secant of several arguments, the first of them linear. Such a square
is integrated. -/
theorem untabled_call_leaves_integral {t F : Expr α} {log : Log α}
    (h : ((antiderivative simplify x t).run.run log).1 = .ok F) :
    (∀ f as, fn f as ∈ t.walk → anyContains x as = true → ¬IsTabled f as →
      LeavesIntegral F ∨ InWideSecant simplify x t (fn f as)) ∧
    ∀ u v us n k c, anyContains x (u :: v :: us) = true →
      u.linearParts x simplify = .ok (some (k, c)) → n.isNumber 2 = true →
      (antiderivative simplify x (op .pow (fn "sec" (u :: v :: us)) n)).result =
        .ok (overSlope (fn "tan" [u]) k) := by
  have hcovers : Outcome (fun F => LeavesIntegral F ∨ Covered simplify x t) (fun _ => True)
      ((antiderivative simplify x t).run.run log).1 := antiderivative_covers t log
  rw [h] at hcovers
  refine ⟨?_, fun u v us n k c => antiderivative_secant⟩
  intro f as hf hx htabled
  rcases hcovers with hF | hcovered
  · exact .inl hF
  · exact .inr ((hcovered f as hf hx).resolve_left htabled)

/-- The product `2*foo(x)`. -/
def twiceUnknown : Expr Rat := op .mul (num 2) (fn "foo" [var "x"])

theorem untabled_call_leaves_integral_of_unknown :
    ∃ F, (antiderivative .ok "x" twiceUnknown).result = .ok F ∧
      fn "foo" [var "x"] ∈ twiceUnknown.walk ∧
      anyContains "x" [(var "x" : Expr Rat)] = true ∧
      ¬IsTabled "foo" [(var "x" : Expr Rat)] ∧ LeavesIntegral F ∧
      (antiderivative .ok "x" (op .pow (fn "sec" [var "x", fn "foo" [var "x"]])
        (num (2 : Rat)))).result = .ok (overSlope (fn "tan" [var "x"]) (ofNat 1)) := by
  let F : Expr Rat := op .mul (num 2) (fn integralName [fn "foo" [var "x"], var "x"])
  have hF : (antiderivative .ok "x" twiceUnknown).result = .ok F := by with_unfolding_all rfl
  have hcall : fn "foo" [var "x"] ∈ twiceUnknown.walk := by simp [twiceUnknown, walk]
  have hx : anyContains "x" [(var "x" : Expr Rat)] = true := rfl
  have hunknown : ¬IsTabled "foo" [(var "x" : Expr Rat)] := by simp [IsTabled, integratedFunctions]
  have hrun : ((antiderivative .ok "x" twiceUnknown).run.run #[]).1 = .ok F := hF
  obtain ⟨hcalls, hsecant⟩ := untabled_call_leaves_integral hrun
  refine ⟨F, hF, hcall, hx, hunknown, ?_,
    hsecant _ _ _ _ _ (ofNat 0) rfl rfl (isNumber_iff.mpr rfl)⟩
  rcases hcalls _ _ hcall hx hunknown with hleft | ⟨u, v, us, n, hsec, -⟩
  · exact hleft
  · simp [twiceUnknown, walk, walkArgs] at hsec

/-- The square of a secant of two arguments is integrated, with no integral left. -/
theorem wide_secant_integrated :
    ¬∀ (t F : Expr Rat), ¬LeavesIntegral t → (antiderivative .ok "x" t).result = .ok F →
      ∀ f as, fn f as ∈ t.walk → anyContains "x" as = true → ¬IsTabled f as →
        LeavesIntegral F := by
  intro h
  have hleft : LeavesIntegral (fn "tan" [(var "x" : Expr Rat)]) := by
    apply h (op .pow (fn "sec" [var "x", var "y"]) (num 2)) _ ?_ (by with_unfolding_all rfl)
      "sec" [var "x", var "y"] ?_ rfl ?_
    · simp [LeavesIntegral, integralName, walk, walkArgs]
    · simp [walk]
    · simp [IsTabled]
  simp [LeavesIntegral, integralName, walk, walkArgs] at hleft

end Integrals

end RuleAlgebra.Expr
