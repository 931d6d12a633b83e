import RuleAlgebra.Proofs.AnswerVariables
import RuleAlgebra.Proofs.UnintegratedCalls

/-!
The integrals that are left in an answer. Each is the function `integral` of an integrand and the
variable of integration, which no rule touches: rules leave numbers and variables alone, and what
they make of the integrand stays in its place. Bounds are put for that variable too, so between
bounds the second argument is the bound.
-/

namespace RuleAlgebra

open RuleAlgebra.Expr RuleAlgebra.Traced

variable {α : Type} {bs : List (Expr α)}

namespace Expr

/-- Every integral in the expression has two arguments, the second of them one of `bs`. -/
def IntegralsOver (bs : List (Expr α)) (t : Expr α) : Prop :=
  ∀ as, fn integralName as ∈ t.walk → ∃ d, ∃ b ∈ bs, as = [d, b]

section Integrals

theorem IntegralsOver.mono {bs' : List (Expr α)} {t : Expr α} (h : IntegralsOver bs t)
    (hbs : bs ⊆ bs') : IntegralsOver bs' t := by
  intro as has
  obtain ⟨d, b, hb, rfl⟩ := h as has
  exact ⟨d, b, hbs hb, rfl⟩

theorem integralsOver_nil_iff {t : Expr α} : IntegralsOver [] t ↔ ¬LeavesIntegral t := by
  simp [IntegralsOver, LeavesIntegral]

theorem integralsOver_fn {f : String} {as : List (Expr α)} :
    IntegralsOver bs (fn f as) ↔
      (f = integralName → ∃ d, ∃ b ∈ bs, as = [d, b]) ∧ ∀ a ∈ as, IntegralsOver bs a := by
  simp only [IntegralsOver, walk, List.mem_cons, fn.injEq, mem_walkArgs]
  constructor
  · intro h
    exact ⟨fun hf => h as (.inl ⟨hf.symm, rfl⟩), fun a ha cs hcs => h cs (.inr ⟨a, ha, hcs⟩)⟩
  · rintro ⟨hcall, hargs⟩ cs (⟨hf, rfl⟩ | ⟨a, ha, hcs⟩)
    · exact hcall hf.symm
    · exact hargs a ha cs hcs

theorem integralsOver_inherited (bs : List (Expr α)) : Inherited (IntegralsOver bs) where
  num v := by simp [IntegralsOver, walk]
  op := by simp [IntegralsOver, walk, or_imp, forall_and]
  eq := by simp [IntegralsOver, walk, or_imp, forall_and]
  args h := (integralsOver_fn.mp h).2
  call hf h := integralsOver_fn.mpr ⟨fun hf' => absurd hf' hf, h⟩
  occurrence _ _ := by simp [IntegralsOver, walk]

theorem integralsHave {x : String} (hx : var x ∈ bs) : IntegralsHave (IntegralsOver bs) x where
  self := by simp [IntegralsOver, walk]
  integral {e} he := by
    refine integralsOver_fn.mpr ⟨fun _ => ⟨e, var x, hx, rfl⟩, ?_⟩
    simpa [he] using (by simp [IntegralsOver, walk] : IntegralsOver bs (var x))

mutual

theorem fn_mem_walk_substitute {x f : String} {v : α} {as : List (Expr α)} :
    ∀ t : Expr α, fn f as ∈ (t.substitute x (num v)).walk →
      ∃ cs, fn f cs ∈ t.walk ∧ as = substituteArgs cs x (num v)
  | num w, h | wild n k a, h => by simp [substitute, walk] at h
  | var y, h => by
    rw [substitute] at h
    split_ifs at h <;> simp [walk] at h
  | op o l r, h | eq l r, h => by
    simp only [substitute, walk, List.mem_cons, reduceCtorEq, false_or, List.mem_append] at h
    rcases h with h | h
    · obtain ⟨cs, hcs, rfl⟩ := fn_mem_walk_substitute l h
      exact ⟨cs, by simp [walk, hcs], rfl⟩
    · obtain ⟨cs, hcs, rfl⟩ := fn_mem_walk_substitute r h
      exact ⟨cs, by simp [walk, hcs], rfl⟩
  | fn g cs, h => by
    simp only [substitute, walk, List.mem_cons, fn.injEq] at h
    rcases h with ⟨rfl, rfl⟩ | h
    · exact ⟨cs, by simp [walk], rfl⟩
    · obtain ⟨ds, hds, rfl⟩ := fn_mem_walkArgs_substitute cs h
      exact ⟨ds, by simp [walk, hds], rfl⟩

theorem fn_mem_walkArgs_substitute {x f : String} {v : α} {as : List (Expr α)} :
    ∀ ts : List (Expr α), fn f as ∈ walkArgs (substituteArgs ts x (num v)) →
      ∃ cs, fn f cs ∈ walkArgs ts ∧ as = substituteArgs cs x (num v)
  | [], h => by simp [substituteArgs, walkArgs] at h
  | t :: ts, h => by
    simp only [substituteArgs, walkArgs, List.mem_append] at h
    rcases h with h | h
    · obtain ⟨cs, hcs, rfl⟩ := fn_mem_walk_substitute t h
      exact ⟨cs, by simp [walkArgs, hcs], rfl⟩
    · obtain ⟨cs, hcs, rfl⟩ := fn_mem_walkArgs_substitute ts h
      exact ⟨cs, by simp [walkArgs, hcs], rfl⟩

end

theorem IntegralsOver.substitute {x : String} {t : Expr α} (h : IntegralsOver [var x] t) (v : α) :
    IntegralsOver [num v] (t.substitute x (num v)) := by
  intro as has
  obtain ⟨cs, hcs, rfl⟩ := fn_mem_walk_substitute t has
  obtain ⟨d, b, hb, rfl⟩ := h cs hcs
  obtain rfl := List.mem_singleton.mp hb
  exact ⟨d.substitute x (num v), num v, by simp, by simp [substituteArgs, Expr.substitute]⟩

end Integrals

section Leaves

def FixesLeaves (f : Expr α → Except Failure (Expr α)) : Prop :=
  (∀ v, f (num v) = .ok (num v)) ∧ ∀ x, f (var x) = .ok (var x)

def IsLeaf (t : Expr α) : Prop := (∃ v, t = num v) ∨ ∃ x, t = var x

theorem FixesLeaves.transform {f : Expr α → Except Failure (Expr α)} (hf : FixesLeaves f)
    {t : Expr α} (ht : IsLeaf t) : t.transform f = .ok t := by
  rcases ht with ⟨v, rfl⟩ | ⟨x, rfl⟩
  · exact hf.1 v
  · exact hf.2 x

theorem FixesLeaves.callsKeep {f : Expr α → Except Failure (Expr α)} (hf : FixesLeaves f)
    (hbs : ∀ b ∈ bs, IsLeaf b) : CallsKeep (IntegralsOver bs) f := by
  intro g as as' has htransformed has'
  refine integralsOver_fn.mpr ⟨?_, has'⟩
  intro hg
  obtain ⟨d, b, hb, rfl⟩ := (integralsOver_fn.mp has).1 hg
  simp only [transformArgs, bind_eq_ok, hf.transform (hbs b hb), pure, Except.pure,
    Except.ok.injEq] at htransformed
  obtain ⟨d', -, cs, ⟨c, rfl, ds, rfl, rfl⟩, rfl⟩ := htransformed
  exact ⟨d', b, hb, rfl⟩

end Leaves

end Expr

section Rules

variable [Scalar α]

theorem Rules.identities_fixLeaves :
    ∀ r ∈ (Rules.identities : List (Rule α)), FixesLeaves r.apply := by
  simp only [identities, arithmeticIdentities, trigonometricIdentities, exponentialIdentities,
    logarithmicIdentities, List.cons_append, List.nil_append, List.forall_mem_cons,
    List.not_mem_nil, false_imp_iff, implies_true, and_true]
  constructorm* _ ∧ _
  all_goals exact ⟨fun _ => rfl, fun _ => rfl⟩

theorem Rules.computedRules_fixLeaves :
    ∀ r ∈ (Rules.computedRules : List (Rule α)), FixesLeaves r.apply := by
  simp only [computedRules, List.forall_mem_cons, List.not_mem_nil, false_imp_iff, implies_true,
    and_true]
  constructorm* _ ∧ _
  all_goals exact ⟨fun _ => rfl, fun _ => rfl⟩

theorem Library.standard_fixesLeaves :
    ∀ r ∈ (Library.standard : Library α).rules, FixesLeaves r.apply := by
  intro r hr
  rcases Library.mem_standard hr with hr | hr
  · exact Rules.identities_fixLeaves r hr
  · exact Rules.computedRules_fixLeaves r hr

end Rules

namespace Simplifier

variable [Scalar α] {s : Simplifier α} (hs : s.library = .standard) (hbs : ∀ b ∈ bs, IsLeaf b)
  {e : Expr α}
include hs hbs

theorem runPlain_integrals (he : IntegralsOver bs e) :
    Ensures (s.runPlain e) (fun d => IntegralsOver bs d.1) fun _ => True := by
  have hplain : TargetForm.plain ≠ .factored := by decide
  refine run_preserves ?_ (absurd · hplain) s.maxSteps he
  intro r hr c hc
  rw [hs] at hr
  exact transform_inherits (integralsOver_inherited bs)
    (Library.standard_inherits r hr _ (integralsOver_inherited bs))
    ((Library.standard_fixesLeaves r hr).callsKeep hbs) c hc

theorem runLogged_integrals (he : IntegralsOver bs e) :
    Ensures (s.runLogged e) (IntegralsOver bs) fun _ => True := by
  apply (runPlain_integrals hs hbs he).bind
  intro d hd
  exact ensures_pure hd

end Simplifier

namespace Engine

variable [Scalar α]

/-- The second arguments of the integrals that are left: the variable of integration, or the bounds
that are put for it. -/
def secondArguments (x : String) : Option (α × α) → List (Expr α)
  | none => [var x]
  | some (low, high) => [num low, num high]

theorem integrate_ensures {g : Engine α} (hg : g.simplifier.library = .standard)
    {input : Input α} (he : Yields (IntegralsOver []) input.expr) (x : String)
    (bounds : Option (α × α)) :
    Ensures (g.integrate input x bounds)
      (fun a => IntegralsOver (secondArguments x bounds) a.result) fun _ => True := by
  have hx : ∀ b ∈ [(var x : Expr α)], IsLeaf b := by simp [IsLeaf]
  have hsimplify (d : Expr α) (hd : IntegralsOver [var x] d) :
      Yields (IntegralsOver [var x]) (g.simplifier.simplify d) :=
    (Simplifier.runLogged_integrals hg hx hd).result
  apply (ensures_lift he).bind
  intro e he
  have hanti := (antiderivative_inherits (x := x) (integralsOver_inherited [var x]) hsimplify
    (integralsHave (by simp)) e (he.mono (by simp))).bind fun raw hraw =>
      Simplifier.runPlain_integrals hg hx hraw
  apply hanti.recording.bind
  rintro ⟨anti, settled⟩ (hanti : IntegralsOver [var x] anti)
  rcases bounds with _ | ⟨low, high⟩
  · have hresult : IntegralsOver [var x] (.op .add anti (.var constantName)) :=
      (integralsOver_inherited _).op.mpr ⟨hanti, by simp [IntegralsOver, walk]⟩
    apply (ensures_step hresult).bind
    intro d hd
    exact answer_ensures hd
  · have hleaves : ∀ b ∈ [(num low : Expr α), num high], IsLeaf b := by simp [IsLeaf]
    -- each bound has taken the place of the variable, also as the argument of an integral
    have hdifference : IntegralsOver [num low, num high]
        (.op .sub (anti.substitute x (num high)) (anti.substitute x (num low))) :=
      (integralsOver_inherited _).op.mpr
        ⟨(hanti.substitute high).mono (by simp), (hanti.substitute low).mono (by simp)⟩
    apply (ensures_step hdifference).bind
    intro difference hdifference
    generalize boundsValue anti _ _ = value
    obtain ⟨numeric, status⟩ := value
    cases numeric with
    | some v => exact answer_ensures ((integralsOver_inherited _).num v)
    | none =>
      apply (Simplifier.runLogged_integrals hg hleaves hdifference).bind
      intro d hd
      exact answer_ensures hd

/-- An integral that is left in an answer has two arguments. The second is the variable of
integration, or between bounds the bound that was put for it. -/
theorem integrate_second_arguments {g : Engine α} (hg : g.simplifier.library = .standard)
    {input : Input α} {e : Expr α} (he : input.expr = .ok e) (hno : ¬LeavesIntegral e) (x : String)
    (bounds : Option (α × α)) {a : Answer α} (h : (g.integrate input x bounds).result = .ok a) :
    ∀ as, fn integralName as ∈ a.result.walk → ∃ d, ∃ b ∈ secondArguments x bounds, as = [d, b] := by
  have hinput : Yields (IntegralsOver []) input.expr := by
    rw [he]
    exact integralsOver_nil_iff.mpr hno
  have ha := (integrate_ensures hg hinput x bounds).result
  rw [h] at ha
  exact ha

/-- The product `x*sin(x)`, which no rule integrates. -/
def sineProduct : Expr Rat := .op .mul (.var "x") (.fn "sin" [.var "x"])

theorem integrate_second_arguments_of_sum :
    let e : Expr Rat := .op .add sineProduct (.var "x")
    rational.simplifier.library = .standard ∧ ¬LeavesIntegral e ∧
      ∃ a, (rational.integrate (.tree e) "x" none).result = .ok a ∧
        a.result = .op .add (.op .add (.fn integralName [sineProduct, .var "x"])
          (.op .div (.op .pow (.var "x") (.num 2)) (.num 2))) (.var "C") ∧
        ∀ as, fn integralName as ∈ a.result.walk →
          ∃ d, ∃ b ∈ secondArguments "x" none, as = [d, b] := by
  intro e
  have hno : ¬LeavesIntegral e := by
    simp [e, sineProduct, LeavesIntegral, integralName, walk, walkArgs]
  have hresult : (rational.integrate (.tree e) "x" none).result.toOption.map (·.result) =
      some (.op .add (.op .add (.fn integralName [sineProduct, .var "x"])
        (.op .div (.op .pow (.var "x") (.num 2)) (.num 2))) (.var "C")) :=
    eq_of_beq (by decide +kernel)
  obtain ⟨a, ha, hvalue⟩ := Option.map_eq_some_iff.mp hresult
  have ha := toOption_eq_some.mp ha
  have hlibrary : rational.simplifier.library = .standard := rfl
  have he : (Input.tree e).expr = .ok e := rfl
  exact ⟨hlibrary, hno, a, ha, hvalue, integrate_second_arguments hlibrary he hno "x" none ha⟩

/-- Between bounds the second argument of an integral need not be the variable of integration. -/
theorem definite_integral_replaces_variable :
    ¬∀ (e : Expr Rat) (x : String) (bounds : Option (Rat × Rat)) (a : Answer Rat),
      ¬LeavesIntegral e → (rational.integrate (.tree e) x bounds).result = .ok a →
        ∀ as, fn integralName as ∈ a.result.walk → ∃ d, as = [d, .var x] := by
  intro h
  have hno : ¬LeavesIntegral sineProduct := by
    simp [sineProduct, LeavesIntegral, integralName, walk, walkArgs]
  have hresult : (rational.integrate (.tree sineProduct) "x" (some (0, 1))).result.toOption.map
      (·.result) = some (.op .sub (.fn integralName [.fn "sin" [.num 1], .num 1])
        (.fn integralName [.num 0, .num 0])) :=
    eq_of_beq (by decide +kernel)
  obtain ⟨a, ha, hvalue⟩ := Option.map_eq_some_iff.mp hresult
  obtain ⟨d, hd⟩ := h sineProduct "x" (some (0, 1)) a hno (toOption_eq_some.mp ha)
    [.num 0, .num 0] (by simp [hvalue, walk])
  simp at hd

end Engine

end RuleAlgebra
