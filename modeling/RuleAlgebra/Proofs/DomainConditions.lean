import Mathlib
import RuleAlgebra.Expr.Domain
import RuleAlgebra.Proofs.Printing
import RuleAlgebra.Proofs.RealEvaluation

/-!
The conditions of an expression describe where it has a real value. Each part of an expression puts
the condition of its root on its own parts; a list of conditions keeps one for each text, which is
enough where conditions that print alike are the same comparison.
-/

namespace RuleAlgebra

open RuleAlgebra.Expr
open scoped RealScalar

/-- How a condition compares the value of its subject. -/
inductive Comparison where
  | nonzero | positive | nonnegative | atMostOne
  deriving DecidableEq

namespace Comparison

def text : Comparison → String
  | nonzero => " != 0" | positive => " > 0" | nonnegative => " >= 0" | atMostOne => " <= 1"

def Holds : Comparison → ℝ → Prop
  | nonzero, v => v ≠ 0
  | positive, v => 0 < v
  | nonnegative, v => 0 ≤ v
  | atMostOne, v => v ≤ 1

theorem append_text_inj {a b : String} {r s : Comparison} (h : a ++ r.text = b ++ s.text) :
    a = b ∧ r = s := by
  have hreverse := congrArg (fun u => u.toList.reverse) h
  cases r <;> cases s <;> simp [text] at hreverse ⊢ <;> exact String.toList_inj.mp hreverse

end Comparison

namespace Condition

section Texts

variable {α : Type}

def subject : Condition α → Expr α
  | nonzero e | positive e | nonnegative e => e
  | cosNonzero e => fn "cos" [e]
  | sinNonzero e => fn "sin" [e]
  | atMostOne e => fn "abs" [e]

def comparison : Condition α → Comparison
  | nonzero _ | cosNonzero _ | sinNonzero _ => .nonzero
  | positive _ => .positive
  | nonnegative _ => .nonnegative
  | atMostOne _ => .atMostOne

theorem text_eq [Scalar α] (c : Condition α) : c.text = c.subject.text ++ c.comparison.text := by
  cases c <;>
    simp [text, subject, comparison, Comparison.text, Expr.text, texts, parens, toString,
      ← String.toList_inj]

end Texts

section Values

variable {env : Environment ℝ} {v : ℝ} {c d : Condition Rat}

/-- The subject has a value that compares as it should. -/
def Holds (env : Environment ℝ) (c : Condition Rat) : Prop :=
  ∃ v, HasValue env c.subject v ∧ c.comparison.Holds v

/-- The subject has a value that does not compare as it should. -/
def Fails (env : Environment ℝ) (c : Condition Rat) : Prop :=
  ∃ v, HasValue env c.subject v ∧ ¬c.comparison.Holds v

theorem holds_iff (h : HasValue env c.subject v) : c.Holds env ↔ c.comparison.Holds v := by
  constructor
  · rintro ⟨w, hw, hholds⟩
    rwa [h.unique hw]
  · exact fun hholds => ⟨v, h, hholds⟩

theorem holds_of_not_fails (h : HasValue env c.subject v) (hc : ¬c.Fails env) : c.Holds env :=
  (holds_iff h).mpr (by_contra fun hv => hc ⟨v, h, hv⟩)

theorem Holds.not_fails (h : c.Holds env) : ¬c.Fails env := by
  rintro ⟨v, hv, hfails⟩
  exact hfails ((holds_iff hv).mp h)

end Values

end Condition

namespace Expr

section Listing

variable {α : Type} [Scalar α] {c : Condition α} {p : Expr α} {found : List (Condition α)}

def addCondition (found : List (Condition α)) (part : Expr α) : List (Condition α) :=
  match part.rootCondition? with
  | some c => if found.any (·.text == c.text) then found else found ++ [c]
  | none => found

theorem mem_addCondition (h : c ∈ addCondition found p) :
    c ∈ found ∨ p.rootCondition? = some c := by
  unfold addCondition at h
  split at h
  · rename_i d hd
    split_ifs at h
    · exact .inl h
    · rcases List.mem_append.mp h with h | h
      · exact .inl h
      · obtain rfl := List.mem_singleton.mp h
        exact .inr hd
  · exact .inl h

theorem subset_addCondition : found ⊆ addCondition found p := by
  unfold addCondition
  split
  · split_ifs
    · exact List.Subset.refl _
    · exact List.subset_append_left _ _
  · exact List.Subset.refl _

theorem addCondition_lists (h : p.rootCondition? = some c) :
    ∃ d ∈ addCondition found p, d.text = c.text := by
  simp only [addCondition, h]
  split_ifs with hany
  · obtain ⟨d, hd, htext⟩ := List.any_eq_true.mp hany
    exact ⟨d, hd, eq_of_beq htext⟩
  · exact ⟨c, by simp, rfl⟩

theorem foldl_addCondition (ps : List (Expr α)) (found : List (Condition α)) :
    (∀ c ∈ ps.foldl addCondition found, c ∈ found ∨ ∃ p ∈ ps, p.rootCondition? = some c) ∧
      found ⊆ ps.foldl addCondition found ∧
      ∀ p ∈ ps, ∀ c, p.rootCondition? = some c →
        ∃ d ∈ ps.foldl addCondition found, d.text = c.text := by
  induction ps generalizing found with
  | nil => simp
  | cons q ps ih =>
    obtain ⟨hmem, hsubset, hlists⟩ := ih (addCondition found q)
    refine ⟨fun c hc => ?_, List.Subset.trans subset_addCondition hsubset, fun p hp c hc => ?_⟩
    · rcases hmem c hc with hc | ⟨p, hp, hc⟩
      · exact (mem_addCondition hc).imp_right fun h => ⟨q, by simp, h⟩
      · exact .inr ⟨p, by simp [hp], hc⟩
    · rcases List.mem_cons.mp hp with rfl | hp
      · obtain ⟨d, hd, htext⟩ := addCondition_lists hc
        exact ⟨d, hsubset hd, htext⟩
      · exact hlists p hp c hc

theorem mem_conditions {t : Expr α} (h : c ∈ t.conditions) :
    ∃ p ∈ t.walk, p.rootCondition? = some c :=
  ((foldl_addCondition t.walk []).1 c h).resolve_left List.not_mem_nil

theorem conditions_list {t : Expr α} (hp : p ∈ t.walk) (hc : p.rootCondition? = some c) :
    ∃ d ∈ t.conditions, d.text = c.text :=
  (foldl_addCondition t.walk []).2.2 p hp c hc

def probes : List String := ["cos", "sin", "abs"]

theorem subject_cases {t : Expr α} (h : t.rootCondition? = some c) :
    ∃ e ∈ t.children, c.subject = e ∨ ∃ f ∈ probes, c.subject = fn f [e] := by
  unfold rootCondition? at h
  split at h
  · rename_i l r
    split_ifs at h
    obtain rfl := Option.some.inj h
    exact ⟨r, by simp [children], .inl rfl⟩
  · rename_i l r
    split_ifs at h
    obtain ⟨v, -, h⟩ := Option.bind_eq_some_iff.mp h
    refine ⟨l, by simp [children], .inl ?_⟩
    split_ifs at h <;> obtain rfl := Option.some.inj h <;> rfl
  · rename_i f a
    split_ifs at h
    refine ⟨a, by simp [children], ?_⟩
    unfold argumentCondition? at h
    split at h <;> cases h <;> simp [Condition.subject, probes]
  · cases h

end Listing

section Varying

variable {α : Type}

theorem varies_iff {t : Expr α} :
    t.varies = true ↔ ∃ x, t.contains x = true ∧ x ∉ constants := by
  simp [varies, mem_variableNames]

theorem varies_op (o : Arithmetic) (l r : Expr α) :
    (op o l r).varies = (l.varies || r.varies) := by
  rw [Bool.eq_iff_iff, Bool.or_eq_true]
  simp only [varies_iff, contains, Bool.or_eq_true, or_and_right, exists_or]

theorem varies_call (f : String) (a : Expr α) : (fn f [a]).varies = a.varies := by
  rw [Bool.eq_iff_iff]
  simp only [varies_iff, contains, anyContains, Bool.or_false]

/-- A number or a quotient of numbers. -/
def IsLiteral : Expr α → Prop
  | num _ => True
  | op .div (num _) (num _) => True
  | _ => False

theorem IsLiteral.varies {r : Expr α} (h : r.IsLiteral) : r.varies = false := by
  unfold IsLiteral at h
  split at h
  · rfl
  · rw [varies_op]
    rfl
  · exact h.elim

end Varying

section Parts

variable {env : Environment ℝ} {u v : ℝ} {t l r a : Expr Rat} {c : Condition Rat}

theorem hasValue_exponent {q : Rat} (h : exponentValue? r = some q) : HasValue env r q := by
  unfold exponentValue? at h
  split at h
  · obtain rfl := Option.some.inj h
    exact hasValue_num.mpr rfl
  · rename_i a b
    split_ifs at h with hb
    obtain rfl := Option.some.inj h
    have hb : (b : ℝ) ≠ 0 := by simpa using hb
    exact hasValue_op.mpr ⟨a, b, hasValue_num.mpr rfl, hasValue_num.mpr rfl,
      div_value?_real.mpr ⟨hb, by push_cast; rfl⟩⟩
  · cases h

theorem IsLiteral.exponentValue? (h : r.IsLiteral) (hr : HasValue env r v) :
    ∃ q, exponentValue? r = some q := by
  unfold IsLiteral at h
  split at h
  · exact ⟨_, rfl⟩
  · rename_i a b
    obtain ⟨x, y, -, hy, hvalue⟩ := hasValue_op.mp hr
    obtain ⟨hne, -⟩ := div_value?_real.mp hvalue
    have hb : b ≠ 0 := by
      rintro rfl
      exact hne (by simpa using (hasValue_num.mp hy).symm)
    exact ⟨a / b, by simp [Expr.exponentValue?, hb]⟩
  · exact h.elim

theorem powerCondition?_iff {q : Rat} (hl : HasValue env l u) (hq : exponentValue? r = some q) :
    (∃ w, Arithmetic.pow.value? u (q : ℝ) = some w) ↔
      ∀ c, powerCondition? l r = some c → c.Holds env := by
  have hinteger : (∃ n : Int, (q : ℝ) = n) ↔ Scalar.isInteger q = true := by
    rw [Scalar.isInteger_iff]
    exact exists_congr fun n => by exact_mod_cast Iff.rfl
  have hcondition (c : Condition Rat) (hc : c.subject = l) :
      c.Holds env ↔ c.comparison.Holds u := Condition.holds_iff (hc ▸ hl)
  simp only [pow_value?_real, exists_and_left, exists_eq', and_true, ← not_exists, hinteger,
    powerCondition?, hq, Option.bind_some]
  by_cases hint : Scalar.isInteger q = true
  · by_cases hneg : q < 0
    · simp [hint, hneg, hcondition (.nonzero l) rfl, Condition.comparison, Comparison.Holds]
    · simp [hint, hneg]
  · by_cases hneg : q < 0
    · have hpositive : 0 < u ↔ u ≠ 0 ∧ 0 ≤ u := by
        rw [lt_iff_le_and_ne, and_comm, ne_comm]
      simp [hint, hneg, hcondition (.positive l) rfl, Condition.comparison, Comparison.Holds,
        hpositive]
    · simp [hint, hneg, hcondition (.nonnegative l) rfl, Condition.comparison, Comparison.Holds]

theorem ofName?_name {f : String} {g : Elementary} (h : Elementary.ofName? f = some g) :
    f = g.name := by
  unfold Elementary.ofName? at h
  split at h <;> first | (cases h; rfl) | cases h

theorem argumentCondition?_iff {f : String} {g : Elementary} (hg : Elementary.ofName? f = some g)
    (ha : HasValue env a u) :
    (∃ w, RealScalar.elementary? g u = some w) ↔
      ∀ c, argumentCondition? f a = some c → c.Holds env := by
  have hcall {h : Elementary} {w : ℝ} (hw : RealScalar.elementary? h u = some w) :
      HasValue env (fn h.name [a]) w :=
    hasValue_fn.mpr ⟨h, a, u, by cases h <;> rfl, rfl, ha, hw⟩
  have hcos : (Condition.cosNonzero a).Holds env ↔ Real.cos u ≠ 0 :=
    Condition.holds_iff (hcall (h := .cos) rfl)
  have hsin : (Condition.sinNonzero a).Holds env ↔ Real.sin u ≠ 0 :=
    Condition.holds_iff (hcall (h := .sin) rfl)
  have habs : (Condition.atMostOne a).Holds env ↔ |u| ≤ 1 :=
    Condition.holds_iff (hcall (h := .abs) rfl)
  have hpositive : (Condition.positive a).Holds env ↔ 0 < u :=
    Condition.holds_iff ha
  have hnonnegative : (Condition.nonnegative a).Holds env ↔ 0 ≤ u :=
    Condition.holds_iff ha
  obtain rfl := ofName?_name hg
  cases g <;>
    simp [argumentCondition?, RealScalar.elementary?, Elementary.name, hcos, hsin, habs, hpositive,
      hnonnegative]

theorem rootCondition?_holds (h : HasValue env t v) (hc : t.rootCondition? = some c) :
    c.Holds env := by
  unfold rootCondition? at hc
  split at hc
  · rename_i l r
    split_ifs at hc
    obtain rfl := Option.some.inj hc
    obtain ⟨x, y, -, hy, hvalue⟩ := hasValue_op.mp h
    exact ⟨y, hy, (div_value?_real.mp hvalue).1⟩
  · rename_i l r
    split_ifs at hc
    obtain ⟨x, y, hx, hy, hvalue⟩ := hasValue_op.mp h
    obtain ⟨q, hq, -⟩ := Option.bind_eq_some_iff.mp hc
    obtain rfl := hy.unique (hasValue_exponent hq)
    exact (powerCondition?_iff hx hq).mp ⟨v, hvalue⟩ c hc
  · rename_i f a
    split_ifs at hc
    obtain ⟨g, b, u, hg, hb, hu, hvalue⟩ := hasValue_fn.mp h
    obtain rfl := List.singleton_inj.mp hb
    exact (argumentCondition?_iff hg hu).mp ⟨v, hvalue⟩ c hc
  · cases hc

theorem HasValue.conditions (h : HasValue env t v) (hc : c ∈ t.conditions) : c.Holds env := by
  obtain ⟨p, hp, hroot⟩ := mem_conditions hc
  obtain ⟨u, hu⟩ := h.parts p hp
  exact rootCondition?_holds hu hroot

end Parts

section Completeness

variable {env : Environment ℝ} {s t : Expr Rat} {c : Condition Rat}

/-- All that the conditions do not tell about is in order: there are no equations and wildcards, the
functions are known ones of one argument, powers that vary have literal exponents, variables are
assigned, and parts that do not vary have a value that is not zero in a divisor. -/
structure OtherwiseDefined (env : Environment ℝ) (t : Expr Rat) : Prop where
  noEquation : ∀ l r, eq l r ∉ t.walk
  noWildcard : ∀ n k a, wild n k a ∉ t.walk
  call : ∀ f as, fn f as ∈ t.walk → ∃ g a, Elementary.ofName? f = some g ∧ as = [a]
  exponent : ∀ l r, op .pow l r ∈ t.walk → (op .pow l r).varies = true → r.IsLiteral
  constantPart : ∀ p ∈ t.walk, p.varies = false → ∃ v, HasValue env p v
  constantDivisor : ∀ l r, op .div l r ∈ t.walk → r.varies = false → ¬HasValue env r 0
  assigned : ∀ x, var x ∈ t.walk → x ∉ constants → ∃ v, env x = some v

theorem OtherwiseDefined.of_subset (h : OtherwiseDefined env t) (hs : s.walk ⊆ t.walk) :
    OtherwiseDefined env s where
  noEquation l r hmem := h.noEquation l r (hs hmem)
  noWildcard n k a hmem := h.noWildcard n k a (hs hmem)
  call f as hmem := h.call f as (hs hmem)
  exponent l r hmem := h.exponent l r (hs hmem)
  constantPart p hmem := h.constantPart p (hs hmem)
  constantDivisor l r hmem := h.constantDivisor l r (hs hmem)
  assigned x hmem := h.assigned x (hs hmem)

theorem hasValue_variable {x : String} (h : x ∉ constants → ∃ v, env x = some v) :
    ∃ v, HasValue env (var x) v := by
  simp only [hasValue_var, variableValue]
  cases henv : env x with
  | some v => exact ⟨v, rfl⟩
  | none =>
    have hx : x ∈ constants := by
      by_contra hx
      obtain ⟨v, hv⟩ := h hx
      simp [henv] at hv
    simp only [constants, List.mem_cons, List.not_mem_nil, or_false] at hx
    rcases hx with rfl | rfl
    · exact ⟨_, rfl⟩
    · exact ⟨_, rfl⟩

theorem subject_hasValue (hchildren : ∀ e ∈ t.children, ∃ v, HasValue env e v)
    (h : t.rootCondition? = some c) : ∃ v, HasValue env c.subject v := by
  obtain ⟨e, he, hsubject⟩ := subject_cases h
  obtain ⟨v, hv⟩ := hchildren e he
  rcases hsubject with hsubject | ⟨f, hf, hsubject⟩
  · exact ⟨v, hsubject ▸ hv⟩
  · have hcall {g : Elementary} {w : ℝ} (hg : Elementary.ofName? f = some g)
        (hw : RealScalar.elementary? g v = some w) : ∃ w, HasValue env c.subject w :=
      ⟨w, hsubject ▸ hasValue_fn.mpr ⟨g, e, v, hg, rfl, hv, hw⟩⟩
    simp only [probes, List.mem_cons, List.not_mem_nil, or_false] at hf
    rcases hf with rfl | rfl | rfl
    · exact hcall (g := .cos) rfl rfl
    · exact hcall (g := .sin) rfl rfl
    · exact hcall (g := .abs) rfl rfl

theorem OtherwiseDefined.operation {o : Arithmetic} {l r : Expr Rat} {x y : ℝ}
    (h : OtherwiseDefined env (op o l r)) (hx : HasValue env l x) (hy : HasValue env r y)
    (hc : ∀ c, (op o l r).rootCondition? = some c → c.Holds env) :
    ∃ v, HasValue env (op o l r) v := by
  have hvalue {v : ℝ} (hv : o.value? x y = some v) : ∃ v, HasValue env (op o l r) v :=
    ⟨v, hasValue_op.mpr ⟨x, y, hx, hy, hv⟩⟩
  cases o with
  | add => exact hvalue (finite?_real (x + y))
  | sub => exact hvalue (finite?_real (x - y))
  | mul => exact hvalue (finite?_real (x * y))
  | div =>
    have hne : y ≠ 0 := by
      by_cases hvaries : r.varies = true
      · exact (Condition.holds_iff hy).mp (hc (.nonzero r) (if_pos hvaries))
      · rintro rfl
        exact h.constantDivisor l r (self_mem_walk _) (Bool.eq_false_iff.mpr hvaries) hy
    exact hvalue (div_value?_real.mpr ⟨hne, rfl⟩)
  | pow =>
    by_cases hvaries : (op .pow l r).varies = true
    · have hliteral := h.exponent l r (self_mem_walk _) hvaries
      have hl : l.varies = true := by simpa [varies_op, hliteral.varies] using hvaries
      obtain ⟨q, hq⟩ := hliteral.exponentValue? hy
      obtain rfl := hy.unique (hasValue_exponent hq)
      obtain ⟨w, hw⟩ := (powerCondition?_iff hx hq).mpr fun c hroot =>
        hc c ((if_pos hl).trans hroot)
      exact hvalue hw
    · exact h.constantPart _ (self_mem_walk _) (Bool.eq_false_iff.mpr hvaries)

theorem OtherwiseDefined.application {f : String} {g : Elementary} {a : Expr Rat} {u : ℝ}
    (h : OtherwiseDefined env (fn f [a])) (hg : Elementary.ofName? f = some g)
    (hu : HasValue env a u) (hc : ∀ c, (fn f [a]).rootCondition? = some c → c.Holds env) :
    ∃ v, HasValue env (fn f [a]) v := by
  by_cases hvaries : a.varies = true
  · obtain ⟨w, hw⟩ := (argumentCondition?_iff hg hu).mpr fun c hroot =>
      hc c ((if_pos hvaries).trans hroot)
    exact ⟨w, hasValue_fn.mpr ⟨g, a, u, hg, rfl, hu, hw⟩⟩
  · apply h.constantPart _ (self_mem_walk _)
    rw [varies_call]
    exact Bool.eq_false_iff.mpr hvaries

theorem OtherwiseDefined.hasValue : ∀ {t : Expr Rat}, OtherwiseDefined env t →
    (∀ p ∈ t.walk, ∀ c, p.rootCondition? = some c → ¬c.Fails env) → ∃ v, HasValue env t v
  | num q, _, _ => ⟨q, hasValue_num.mpr rfl⟩
  | var x, h, _ => hasValue_variable (h.assigned x (self_mem_walk _))
  | eq l r, h, _ => absurd (self_mem_walk _) (h.noEquation l r)
  | wild n k a, h, _ => absurd (self_mem_walk _) (h.noWildcard n k a)
  | fn f as, h, hc => by
    obtain ⟨g, a, hg, rfl⟩ := h.call f as (self_mem_walk _)
    have hs : a.walk ⊆ (fn f [a]).walk := by simp [walk, walkArgs]
    obtain ⟨u, hu⟩ := (h.of_subset hs).hasValue fun p hp => hc p (hs hp)
    apply h.application hg hu
    intro c hroot
    obtain ⟨w, hw⟩ := subject_hasValue (by simpa [children] using ⟨u, hu⟩) hroot
    exact Condition.holds_of_not_fails hw (hc _ (self_mem_walk _) c hroot)
  | op o l r, h, hc => by
    have hsl : l.walk ⊆ (op o l r).walk := by simp [walk]
    have hsr : r.walk ⊆ (op o l r).walk := by simp [walk]
    obtain ⟨x, hx⟩ := (h.of_subset hsl).hasValue fun p hp => hc p (hsl hp)
    obtain ⟨y, hy⟩ := (h.of_subset hsr).hasValue fun p hp => hc p (hsr hp)
    apply h.operation hx hy
    intro c hroot
    obtain ⟨w, hw⟩ := subject_hasValue (by simpa [children] using ⟨⟨x, hx⟩, y, hy⟩) hroot
    exact Condition.holds_of_not_fails hw (hc _ (self_mem_walk _) c hroot)

end Completeness

section Texts

variable {t p e : Expr Rat} {c : Condition Rat}

theorem ofText_text (h : PrintableTerm t) (hw : t.wildcards = []) : ofText t.text = .ok t := by
  have hreads : ReadsAs false t.text t.rank t := readsAs_text t h (by simp [hw])
  obtain ⟨p, hp, heq⟩ := hreads.read
  exact eq_of_beq heq ▸ hp

theorem child_mem_walk (h : e ∈ t.children) : e ∈ t.walk := by
  cases t with
  | num v | var x | wild n k a => cases h
  | op o l r | eq l r =>
    simp only [children, List.mem_cons, List.not_mem_nil, or_false] at h
    rcases h with rfl | rfl <;> simp [walk, self_mem_walk]
  | fn f as => exact List.mem_cons_of_mem _ (mem_walkArgs.mpr ⟨e, h, self_mem_walk e⟩)

theorem ofText_subject (h : PrintableTerm t) (hw : t.wildcards = []) (hp : p ∈ t.walk)
    (hc : p.rootCondition? = some c) : ofText c.subject.text = .ok c.subject := by
  obtain ⟨e, he, hsubject⟩ := subject_cases hc
  have hwalk : e.walk ⊆ t.walk :=
    List.Subset.trans (walk_subset (child_mem_walk he)) (walk_subset hp)
  have hprintable : PrintableTerm e := fun u hu => h u (hwalk hu)
  have hwild : ∀ n, n ∉ e.wildcards := by
    intro n hn
    obtain ⟨k, a, hmem⟩ := mem_wildcards.mp hn
    have hnone : n ∈ t.wildcards := mem_wildcards.mpr ⟨k, a, hwalk hmem⟩
    simp [hw] at hnone
  rcases hsubject with hsubject | ⟨f, hf, hsubject⟩
  · rw [hsubject]
    exact ofText_text hprintable (List.eq_nil_iff_forall_not_mem.mpr hwild)
  · have hname : ∀ f ∈ probes, IsFunctionName f := by
      simp only [probes, List.forall_mem_cons, List.not_mem_nil, false_implies, implies_true,
        and_true]
      exact ⟨⟨by decide, by decide, by decide, by decide⟩,
        ⟨by decide, by decide, by decide, by decide⟩, ⟨by decide, by decide, by decide, by decide⟩⟩
    rw [hsubject]
    apply ofText_text
    · simp [hname f hf, hprintable]
    · simp [List.eq_nil_iff_forall_not_mem, hwild]

/-- Parts whose conditions print alike are compared alike. -/
def TextsTellApart (t : Expr Rat) : Prop :=
  ∀ p ∈ t.walk, ∀ q ∈ t.walk, ∀ c d, p.rootCondition? = some c → q.rootCondition? = some d →
    c.text = d.text → c.subject = d.subject ∧ c.comparison = d.comparison

theorem textsTellApart (h : PrintableTerm t) (hw : t.wildcards = []) : TextsTellApart t := by
  intro p hp q hq c d hc hd htext
  rw [c.text_eq, d.text_eq] at htext
  obtain ⟨hsubject, hcomparison⟩ := Comparison.append_text_inj htext
  have hread := ofText_subject h hw hp hc
  rw [hsubject, ofText_subject h hw hq hd] at hread
  exact ⟨(Except.ok.inj hread).symm, hcomparison⟩

end Texts

section Domain

/-- Where an expression has a value, all its conditions hold. Conversely, where none fails, it has
one, if all else is in order and no condition is lost to another of the same text. No condition is
lost if the expression can be printed and read back: the text of a condition then tells what it
is. -/
theorem conditions_describe_domain (env : Environment ℝ) (t : Expr Rat) :
    ((∃ v, HasValue env t v) → ∀ c ∈ t.conditions, c.Holds env) ∧
      (OtherwiseDefined env t → TextsTellApart t → (∀ c ∈ t.conditions, ¬c.Fails env) →
        ∃ v, HasValue env t v) ∧
      (PrintableTerm t → t.wildcards = [] → TextsTellApart t ∧ ∀ c ∈ t.conditions,
        c.text = c.subject.text ++ c.comparison.text ∧ ofText c.subject.text = .ok c.subject) := by
  refine ⟨?_, ?_, ?_⟩
  · rintro ⟨v, hv⟩ c hc
    exact hv.conditions hc
  · intro h happart hc
    apply h.hasValue
    intro p hp c hroot hfails
    obtain ⟨d, hd, htext⟩ := conditions_list hp hroot
    obtain ⟨q, hq, hother⟩ := mem_conditions hd
    obtain ⟨hsubject, hcomparison⟩ := happart q hq p hp d c hother hroot htext
    apply hc d hd
    rwa [Condition.Fails, hsubject, hcomparison]
  · intro h hw
    refine ⟨textsTellApart h hw, fun c hc => ⟨c.text_eq, ?_⟩⟩
    obtain ⟨p, hp, hroot⟩ := mem_conditions hc
    exact ofText_subject h hw hp hroot

def comparisons (t : Expr Rat) : List (Expr Rat × Comparison) :=
  t.conditions.map fun c => (c.subject, c.comparison)

theorem conditions_hold {env : Environment ℝ} {t : Expr Rat}
    (h : ∀ q ∈ t.comparisons, ∃ v, HasValue env q.1 v ∧ q.2.Holds v) :
    ∀ c ∈ t.conditions, c.Holds env :=
  fun _ hc => h _ (List.mem_map_of_mem hc)

/-- `ln(x)/(x - 1)`. -/
def logQuotient : Expr Rat := op .div (fn "ln" [var "x"]) (op .sub (var "x") (num 1))

theorem conditions_describe_domain_of_quotient :
    PrintableTerm logQuotient ∧ logQuotient.wildcards = [] ∧
      OtherwiseDefined (.single "x" 2) logQuotient ∧
      logQuotient.conditions.map (·.text) = ["x - 1 != 0", "x > 0"] ∧
      (∀ c ∈ logQuotient.conditions, c.Holds (.single "x" 2)) ∧
      ∃ v, HasValue (.single "x" 2) logQuotient v := by
  have hprintable : PrintableTerm logQuotient := by
    have hone : Decimal.Readable (1 : Rat) := ⟨rfl, by decide +kernel, by decide +kernel⟩
    have hln : IsFunctionName "ln" := ⟨by decide, by decide, by decide, by decide⟩
    have hx : Text.isIdentifier "x" = true := by decide
    simp [logQuotient, hone, hln, hx]
  have hother : OtherwiseDefined (.single "x" 2) logQuotient := by
    have hx : (var "x" : Expr Rat).varies = true := by decide
    constructor
    · simp [logQuotient, walk, walkArgs]
    · simp [logQuotient, walk, walkArgs]
    · simp [logQuotient, walk, walkArgs, Elementary.ofName?]
    · simp [logQuotient, walk, walkArgs]
    · simp [logQuotient, walk, walkArgs, varies_op, varies_call, hx]
    · simp [logQuotient, walk, walkArgs, varies_op, hx]
    · simp [logQuotient, walk, walkArgs, Environment.single, Environment.update]
  have hcomparisons : logQuotient.comparisons =
      [(op .sub (var "x") (num 1), .nonzero), (var "x", .positive)] :=
    eq_of_beq (by decide +kernel)
  have hfails : ∀ c ∈ logQuotient.conditions, ¬c.Fails (.single "x" 2) := by
    have hx : HasValue (.single "x" 2) (var "x") 2 := rfl
    have hdivisor : HasValue (.single "x" 2) (op .sub (var "x") (num 1)) (2 - 1) :=
      hasValue_op.mpr ⟨2, 1, hx, hasValue_num.mpr (by norm_num), rfl⟩
    refine fun c hc => (conditions_hold ?_ c hc).not_fails
    simp only [hcomparisons, List.forall_mem_cons, List.not_mem_nil, false_implies, implies_true,
      and_true]
    exact ⟨⟨_, hdivisor, by norm_num [Comparison.Holds]⟩, ⟨_, hx, by norm_num [Comparison.Holds]⟩⟩
  obtain ⟨hsound, hcomplete, htexts⟩ := conditions_describe_domain (.single "x" 2) logQuotient
  have hvalue := hcomplete hother (htexts hprintable rfl).1 hfails
  exact ⟨hprintable, rfl, hother, by decide +kernel, hsound hvalue, hvalue⟩

/-- `1/(x - 10000000000000000) + 1/(x - 10000000000000002)`. -/
def alikePoles : Expr Rat :=
  op .add (op .div (num 1) (op .sub (var "x") (num 10000000000000000)))
    (op .div (num 1) (op .sub (var "x") (num 10000000000000002)))

/-- Twelve digits do not tell the two poles apart, and only the first has its condition listed. -/
theorem no_value_at_second_pole :
    OtherwiseDefined (.single "x" 10000000000000002) alikePoles ∧
      (∀ c ∈ alikePoles.conditions, c.text = "x - 1e+16 != 0" ∧
        ofText "x - 1e+16" = .ok c.subject ∧ c.Holds (.single "x" 10000000000000002)) ∧
      ¬∃ v, HasValue (.single "x" 10000000000000002) alikePoles v := by
  have hx : HasValue (.single "x" 10000000000000002) (var "x") 10000000000000002 := rfl
  have hother : OtherwiseDefined (.single "x" 10000000000000002) alikePoles := by
    have hvaries : (var "x" : Expr Rat).varies = true := by decide
    constructor
    · simp [alikePoles, walk]
    · simp [alikePoles, walk]
    · simp [alikePoles, walk]
    · simp [alikePoles, walk]
    · simp [alikePoles, walk, varies_op, hvaries]
    · simp only [alikePoles, walk, List.cons_append, List.nil_append, List.mem_cons, op.injEq,
        reduceCtorEq, List.not_mem_nil, false_and, true_and, false_or, or_false]
      rintro l r (⟨-, rfl⟩ | ⟨-, rfl⟩) <;> simp [varies_op, hvaries]
    · simp [alikePoles, walk, Environment.single, Environment.update]
  have hcomparisons : alikePoles.comparisons =
      [(op .sub (var "x") (num 10000000000000000), .nonzero)] :=
    eq_of_beq (by decide +kernel)
  have hholds : ∀ c ∈ alikePoles.conditions, c.Holds (.single "x" 10000000000000002) := by
    apply conditions_hold
    simp only [hcomparisons, List.forall_mem_singleton]
    refine ⟨_, hasValue_op.mpr ⟨_, _, hx, hasValue_num.mpr rfl, rfl⟩, ?_⟩
    norm_num [Comparison.Holds]
  have hread : ofText "x - 1e+16" = .ok (op .sub (var "x") (num 10000000000000000) : Expr Rat) := by
    have hpole : Decimal.Readable (10000000000000000 : Rat) :=
      ⟨rfl, by decide +kernel, by decide +kernel⟩
    have hname : Text.isIdentifier "x" = true := by decide
    have htext : (op .sub (var "x") (num 10000000000000000) : Expr Rat).text = "x - 1e+16" := by
      decide +kernel
    rw [← htext]
    exact ofText_text (by simp [hpole, hname]) rfl
  refine ⟨hother, fun c hc => ?_, ?_⟩
  · have hmem : (c.subject, c.comparison) ∈ alikePoles.comparisons := List.mem_map_of_mem hc
    rw [hcomparisons, List.mem_singleton, Prod.mk.injEq] at hmem
    refine ⟨?_, hmem.1 ▸ hread, hholds c hc⟩
    rw [c.text_eq, hmem.1, hmem.2]
    decide +kernel
  · rintro ⟨v, hv⟩
    obtain ⟨_, y, -, hy, -⟩ := hasValue_op.mp hv
    obtain ⟨_, d, -, hd, hquotient⟩ := hasValue_op.mp hy
    obtain ⟨hne, -⟩ := div_value?_real.mp hquotient
    have hzero : HasValue (.single "x" 10000000000000002)
        (op .sub (var "x") (num 10000000000000002)) 0 :=
      hasValue_op.mpr ⟨_, 10000000000000002, hx, hasValue_num.mpr (by norm_num),
        by simp [Arithmetic.value?]⟩
    exact hne (hd.unique hzero)

end Domain

end Expr

end RuleAlgebra
