import RuleAlgebra.Proofs.Occurrences
import RuleAlgebra.Proofs.SignedNumerals

/-!
Equality of expressions as a relation that follows the shape of both. Numbers may differ in how they
represent equal values.
-/

namespace RuleAlgebra.Expr

variable {α : Type}

section Shapes

variable [BEq α] {x : String}

mutual

inductive Same : Expr α → Expr α → Prop
  | num {u v : α} (h : (u == v) = true) : Same (.num u) (.num v)
  | var (x : String) : Same (.var x) (.var x)
  | op (o : Arithmetic) {l l' r r' : Expr α} (hl : Same l l') (hr : Same r r') :
    Same (.op o l r) (.op o l' r')
  | fn (f : String) {as bs : List (Expr α)} (h : SameAll as bs) : Same (.fn f as) (.fn f bs)
  | eq {l l' r r' : Expr α} (hl : Same l l') (hr : Same r r') : Same (.eq l r) (.eq l' r')
  | wild (x : String) (k : WildcardKind) (a : Option String) : Same (.wild x k a) (.wild x k a)

inductive SameAll : List (Expr α) → List (Expr α) → Prop
  | nil : SameAll [] []
  | cons {a b : Expr α} {as bs : List (Expr α)} (h : Same a b) (hs : SameAll as bs) :
    SameAll (a :: as) (b :: bs)

end

mutual

theorem Same.of_same : ∀ {p q : Expr α}, same p q = true → Same p q
  | .num u, q, h => by
    cases q with
    | num v => exact .num h
    | _ => simp [same] at h
  | .var x, q, h => by
    cases q with
    | var y =>
      obtain rfl : x = y := by simpa [same] using h
      exact .var x
    | _ => simp [same] at h
  | .op o l r, q, h => by
    cases q with
    | op o' l' r' =>
      simp only [same, Bool.and_eq_true, beq_iff_eq] at h
      obtain ⟨⟨rfl, hl⟩, hr⟩ := h
      exact .op o (.of_same hl) (.of_same hr)
    | _ => simp [same] at h
  | .fn f as, q, h => by
    cases q with
    | fn g bs =>
      simp only [same, Bool.and_eq_true, beq_iff_eq] at h
      obtain ⟨rfl, has⟩ := h
      exact .fn f (.of_sameArgs has)
    | _ => simp [same] at h
  | .eq l r, q, h => by
    cases q with
    | eq l' r' =>
      simp only [same, Bool.and_eq_true] at h
      exact .eq (.of_same h.1) (.of_same h.2)
    | _ => simp [same] at h
  | .wild x k a, q, h => by
    cases q with
    | wild y k' a' =>
      obtain ⟨⟨rfl, rfl⟩, rfl⟩ : (x = y ∧ k = k') ∧ a = a' := by simpa [same] using h
      exact .wild x k a
    | _ => simp [same] at h

theorem SameAll.of_sameArgs : ∀ {ps qs : List (Expr α)}, sameArgs ps qs = true → SameAll ps qs
  | [], qs, h => by
    cases qs with
    | nil => exact .nil
    | cons => simp [sameArgs] at h
  | p :: ps, qs, h => by
    cases qs with
    | nil => simp [sameArgs] at h
    | cons q qs =>
      simp only [sameArgs, Bool.and_eq_true] at h
      exact .cons (.of_same h.1) (.of_sameArgs h.2)

end

mutual

theorem Same.same {p q : Expr α} : Same p q → Expr.same p q = true
  | .num h => h
  | .var x => by simp [Expr.same]
  | .op o hl hr => by simp [Expr.same, hl.same, hr.same]
  | .fn f h => by simp [Expr.same, h.sameArgs]
  | .eq hl hr => by simp [Expr.same, hl.same, hr.same]
  | .wild x k a => by simp [Expr.same]

theorem SameAll.sameArgs {ps qs : List (Expr α)} : SameAll ps qs → Expr.sameArgs ps qs = true
  | .nil => rfl
  | .cons h hs => by simp [Expr.sameArgs, h.same, hs.sameArgs]

end

theorem beq_iff_same {p q : Expr α} : (p == q) = true ↔ Same p q := ⟨.of_same, (·.same)⟩

theorem same_fn {f g : String} {as bs : List (Expr α)} :
    Same (.fn f as) (.fn g bs) ↔ f = g ∧ SameAll as bs := by
  constructor
  · rintro ⟨⟩
    exact ⟨rfl, ‹_›⟩
  · rintro ⟨rfl, h⟩
    exact .fn f h

theorem SameAll.length_eq {as bs : List (Expr α)} : SameAll as bs → as.length = bs.length
  | .nil => rfl
  | .cons _ hs => congrArg (· + 1) hs.length_eq

mutual

theorem Same.symm [PartialEquivBEq α] {p q : Expr α} : Same p q → Same q p
  | .num h => .num (PartialEquivBEq.symm h)
  | .var x => .var x
  | .op o hl hr => .op o hl.symm hr.symm
  | .fn f h => .fn f h.symm
  | .eq hl hr => .eq hl.symm hr.symm
  | .wild x k a => .wild x k a

theorem SameAll.symm [PartialEquivBEq α] {ps qs : List (Expr α)} : SameAll ps qs → SameAll qs ps
  | .nil => .nil
  | .cons h hs => .cons h.symm hs.symm

end

mutual

theorem Same.trans [PartialEquivBEq α] : ∀ {p q r : Expr α}, Same p q → Same q r → Same p r
  | _, _, _, .num h, .num h' => .num (PartialEquivBEq.trans h h')
  | _, _, _, .var x, .var _ => .var x
  | _, _, _, .op o hl hr, .op _ hl' hr' => .op o (hl.trans hl') (hr.trans hr')
  | _, _, _, .fn f h, .fn _ h' => .fn f (h.trans h')
  | _, _, _, .eq hl hr, .eq hl' hr' => .eq (hl.trans hl') (hr.trans hr')
  | _, _, _, .wild x k a, .wild _ _ _ => .wild x k a

theorem SameAll.trans [PartialEquivBEq α] : ∀ {ps qs rs : List (Expr α)}, SameAll ps qs →
    SameAll qs rs → SameAll ps rs
  | _, _, _, .nil, .nil => .nil
  | _, _, _, .cons h hs, .cons h' hs' => .cons (h.trans h') (hs.trans hs')

end

mutual

theorem Same.contains {p q : Expr α} : Same p q → p.contains x = q.contains x
  | .num _ => rfl
  | .var _ => rfl
  | .op _ hl hr => by simp [Expr.contains, hl.contains, hr.contains]
  | .fn _ h => by simp [Expr.contains, h.anyContains]
  | .eq hl hr => by simp [Expr.contains, hl.contains, hr.contains]
  | .wild _ _ _ => rfl

theorem SameAll.anyContains {ps qs : List (Expr α)} :
    SameAll ps qs → Expr.anyContains x ps = Expr.anyContains x qs
  | .nil => rfl
  | .cons h hs => by simp [Expr.anyContains, h.contains, hs.anyContains]

end

end Shapes

section Numbers

variable [Scalar α]

def FiniteNumbers (t : Expr α) : Prop := ∀ v, num v ∈ t.walk → Scalar.isFinite v = true

theorem finiteNumbers_num {v : α} : FiniteNumbers (num v) ↔ Scalar.isFinite v = true := by
  simp [FiniteNumbers, walk]

theorem finiteNumbers_op {o : Arithmetic} {l r : Expr α} :
    FiniteNumbers (op o l r) ↔ FiniteNumbers l ∧ FiniteNumbers r := by
  simp [FiniteNumbers, walk, or_imp, forall_and]

theorem finiteNumbers_eq {l r : Expr α} :
    FiniteNumbers (eq l r) ↔ FiniteNumbers l ∧ FiniteNumbers r := by
  simp [FiniteNumbers, walk, or_imp, forall_and]

theorem finiteNumbers_fn {f : String} {as : List (Expr α)} :
    FiniteNumbers (fn f as) ↔ ∀ a ∈ as, FiniteNumbers a := by
  simp only [FiniteNumbers, walk, List.mem_cons, reduceCtorEq, false_or, mem_walkArgs]
  constructor
  · exact fun h a ha v hv => h v ⟨a, ha, hv⟩
  · rintro h v ⟨a, ha, hv⟩
    exact h a ha v hv

theorem beq_of_common [FaithfulScalar α] {a b c : α} (ha : Scalar.isFinite a = true)
    (hb : Scalar.isFinite b = true) (hca : (c == a) = true) (hcb : (c == b) = true) :
    (a == b) = true := by
  obtain ⟨q, hq⟩ := FaithfulScalar.toRat?_of_isFinite ha
  obtain ⟨q', hq'⟩ := FaithfulScalar.toRat?_of_isFinite hb
  have hc := (FaithfulScalar.beq_iff hq).mp hca
  have hc' := (FaithfulScalar.beq_iff hq').mp hcb
  obtain rfl : q = q' := Option.some.inj (hc.symm.trans hc')
  exact (FaithfulScalar.beq_iff hq').mpr hq

mutual

theorem Same.of_common [FaithfulScalar α] : ∀ {p u v : Expr α}, Same p u → Same p v →
    FiniteNumbers u → FiniteNumbers v → Same u v
  | _, _, _, .num hpu, .num hpv, hu, hv =>
    .num (beq_of_common (finiteNumbers_num.mp hu) (finiteNumbers_num.mp hv) hpu hpv)
  | _, _, _, .var x, .var _, _, _ => .var x
  | _, _, _, .op o hl hr, .op _ hl' hr', hu, hv => by
    obtain ⟨ul, ur⟩ := finiteNumbers_op.mp hu
    obtain ⟨vl, vr⟩ := finiteNumbers_op.mp hv
    exact .op o (hl.of_common hl' ul vl) (hr.of_common hr' ur vr)
  | _, _, _, .fn f h, .fn _ h', hu, hv =>
    .fn f (h.of_common h' (finiteNumbers_fn.mp hu) (finiteNumbers_fn.mp hv))
  | _, _, _, .eq hl hr, .eq hl' hr', hu, hv => by
    obtain ⟨ul, ur⟩ := finiteNumbers_eq.mp hu
    obtain ⟨vl, vr⟩ := finiteNumbers_eq.mp hv
    exact .eq (hl.of_common hl' ul vl) (hr.of_common hr' ur vr)
  | _, _, _, .wild x k a, .wild _ _ _, _, _ => .wild x k a

theorem SameAll.of_common [FaithfulScalar α] : ∀ {ps us vs : List (Expr α)}, SameAll ps us →
    SameAll ps vs → (∀ u ∈ us, FiniteNumbers u) → (∀ v ∈ vs, FiniteNumbers v) → SameAll us vs
  | _, _, _, .nil, .nil, _, _ => .nil
  | _, _, _, .cons h hs, .cons h' hs', hu, hv => by
    obtain ⟨hu, hus⟩ := List.forall_mem_cons.mp hu
    obtain ⟨hv, hvs⟩ := List.forall_mem_cons.mp hv
    exact .cons (h.of_common h' hu hv) (hs.of_common hs' hus hvs)

end

end Numbers

end RuleAlgebra.Expr
