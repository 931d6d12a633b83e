import RuleAlgebra.Proofs.EqualExpressions
import RuleAlgebra.Proofs.PowerRules
import RuleAlgebra.Proofs.RuleSwitches
import RuleAlgebra.Proofs.SettledRuns
import RuleAlgebra.Proofs.StandardRules

/-!
The expanded form. Multiplying out makes an expression larger wherever it changes a part of it, so a
pass that ends with an equal expression has changed nothing on the way. What the loop settles at has
no sum left to multiply out, at any depth.
-/

namespace RuleAlgebra

namespace Expr

variable {α : Type}

section Sizes

variable {l r : Expr α}

@[simp] theorem complexity_op (o : Arithmetic) :
    (op o l r).complexity = l.complexity + r.complexity + 1 := by
  simp [complexity, walk]

@[simp] theorem complexity_eq_sides : (eq l r).complexity = l.complexity + r.complexity + 1 := by
  simp [complexity, walk]

@[simp] theorem complexity_fn (f : String) (as : List (Expr α)) :
    (fn f as).complexity = (walkArgs as).length + 1 := by
  simp [complexity, walk]

theorem walkArgs_cons_length (a : Expr α) (as : List (Expr α)) :
    (walkArgs (a :: as)).length = a.complexity + (walkArgs as).length := by
  simp [complexity, walkArgs]

theorem complexity_pos (t : Expr α) : 0 < t.complexity :=
  List.length_pos_of_mem (self_mem_walk t)

variable [BEq α]

mutual

theorem Same.complexity_eq {p q : Expr α} : Same p q → p.complexity = q.complexity
  | .num _ => rfl
  | .var _ => rfl
  | .wild _ _ _ => rfl
  | .op _ hl hr => by simp [hl.complexity_eq, hr.complexity_eq]
  | .eq hl hr => by simp [hl.complexity_eq, hr.complexity_eq]
  | .fn _ h => by simp [h.walkArgs_length]

theorem SameAll.walkArgs_length {as bs : List (Expr α)} :
    SameAll as bs → (walkArgs as).length = (walkArgs bs).length
  | .nil => rfl
  | .cons h hs => by
    rw [walkArgs_cons_length, walkArgs_cons_length, h.complexity_eq, hs.walkArgs_length]

end

end Sizes

section Growth

variable {f : Expr α → Except Failure (Expr α)} {e d l l' r r' : Expr α}

/-- Whatever the function changes is larger afterwards. -/
def Grows (f : Expr α → Except Failure (Expr α)) : Prop :=
  ∀ e, ∃ d, f e = .ok d ∧ (d = e ∨ e.complexity < d.complexity)

def Untouched (f : Expr α → Except Failure (Expr α)) (e : Expr α) : Prop :=
  ∀ c ∈ e.walk, f c = .ok c

/-- The result of applying a function to all parts: larger, unless no part was changed. -/
def GrowsTo (f : Expr α → Except Failure (Expr α)) (e d : Expr α) : Prop :=
  d = e ∧ Untouched f e ∨ e.complexity < d.complexity

theorem GrowsTo.le (h : GrowsTo f e d) : e.complexity ≤ d.complexity := by
  rcases h with ⟨rfl, -⟩ | h
  · exact le_rfl
  · exact h.le

theorem Grows.leaf (hf : Grows f) (hwalk : e.walk = [e]) : ∃ d, f e = .ok d ∧ GrowsTo f e d := by
  obtain ⟨d, hd, hsize⟩ := hf e
  refine ⟨d, hd, hsize.imp_left ?_⟩
  rintro rfl
  refine ⟨rfl, ?_⟩
  rw [Untouched, hwalk]
  exact List.forall_mem_singleton.mpr hd

theorem Grows.node (hf : Grows f) (node : Expr α → Expr α → Expr α)
    (hwalk : ∀ a b, (node a b).walk = node a b :: (a.walk ++ b.walk)) (hl : GrowsTo f l l')
    (hr : GrowsTo f r r') : ∃ d, f (node l' r') = .ok d ∧ GrowsTo f (node l r) d := by
  have hnode (a b : Expr α) : (node a b).complexity = a.complexity + b.complexity + 1 := by
    simp [complexity, hwalk]
  obtain ⟨d, hd, hsize⟩ := hf (node l' r')
  refine ⟨d, hd, ?_⟩
  have hle : (node l' r').complexity ≤ d.complexity := by
    rcases hsize with rfl | hlt
    · exact le_rfl
    · exact hlt.le
  have hll := hl.le
  have hrr := hr.le
  rw [hnode] at hle
  rcases hl with ⟨rfl, hul⟩ | hl
  · rcases hr with ⟨rfl, hur⟩ | hr
    · refine hsize.imp_left ?_
      rintro rfl
      refine ⟨rfl, ?_⟩
      rw [Untouched, hwalk]
      exact List.forall_mem_cons.mpr ⟨hd, List.forall_mem_append.mpr ⟨hul, hur⟩⟩
    · exact Or.inr (by rw [hnode]; omega)
  · exact Or.inr (by rw [hnode]; omega)

mutual

theorem Grows.transform (hf : Grows f) : ∀ e : Expr α, ∃ d, e.transform f = .ok d ∧ GrowsTo f e d
  | num v => hf.leaf rfl
  | var x => hf.leaf rfl
  | wild n k a => hf.leaf rfl
  | op o l r => by
    obtain ⟨l', hl, growsl⟩ := hf.transform l
    obtain ⟨r', hr, growsr⟩ := hf.transform r
    obtain ⟨d, hd, hgrows⟩ := hf.node (op o) (fun _ _ => by simp [walk]) growsl growsr
    exact ⟨d, by simpa only [Expr.transform, hl, hr, ok_bind] using hd, hgrows⟩
  | eq l r => by
    obtain ⟨l', hl, growsl⟩ := hf.transform l
    obtain ⟨r', hr, growsr⟩ := hf.transform r
    obtain ⟨d, hd, hgrows⟩ := hf.node eq (fun _ _ => by simp [walk]) growsl growsr
    exact ⟨d, by simpa only [Expr.transform, hl, hr, ok_bind] using hd, hgrows⟩
  | fn g as => by
    obtain ⟨bs, hbs, hargs⟩ := hf.transformArgs as
    obtain ⟨d, hd, hsize⟩ := hf (fn g bs)
    refine ⟨d, by simpa only [Expr.transform, hbs, ok_bind] using hd, ?_⟩
    rcases hargs with ⟨rfl, hparts⟩ | hlt
    · refine hsize.imp_left ?_
      rintro rfl
      refine ⟨rfl, ?_⟩
      rw [Untouched, walk]
      exact List.forall_mem_cons.mpr ⟨hd, hparts⟩
    · right
      rw [complexity_fn] at hsize ⊢
      rcases hsize with rfl | hsize
      · rw [complexity_fn]
        omega
      · omega

theorem Grows.transformArgs (hf : Grows f) : ∀ as : List (Expr α),
    ∃ bs, Expr.transformArgs f as = .ok bs ∧
      (bs = as ∧ (∀ c ∈ walkArgs as, f c = .ok c) ∨
        (walkArgs as).length < (walkArgs bs).length)
  | [] => ⟨[], rfl, Or.inl ⟨rfl, by simp [walkArgs]⟩⟩
  | a :: as => by
    obtain ⟨b, hb, hgrows⟩ := hf.transform a
    obtain ⟨bs, hbs, hargs⟩ := hf.transformArgs as
    refine ⟨b :: bs, by simp only [Expr.transformArgs, hb, hbs, ok_bind]; rfl, ?_⟩
    have hle := hgrows.le
    rw [walkArgs_cons_length, walkArgs_cons_length]
    rcases hargs with ⟨rfl, hparts⟩ | hlt
    · rcases hgrows with ⟨rfl, hua⟩ | hlt
      · exact Or.inl ⟨rfl, List.forall_mem_append.mpr ⟨hua, hparts⟩⟩
      · exact Or.inr (by omega)
    · exact Or.inr (by omega)

end

end Growth

end Expr

namespace Rules

open RuleAlgebra.Expr

variable {α : Type}

theorem distribute_grows : Grows fun e : Expr α => pure (distribute e) := by
  intro e
  refine ⟨distribute e, rfl, ?_⟩
  obtain h | h := distribute_cases e
  · exact Or.inl h
  · right
    generalize distribute e = d at h ⊢
    cases h with
    | right _ l a b =>
      have hl := complexity_pos l
      simp only [complexity_op]
      omega
    | left _ a b r =>
      have hr := complexity_pos r
      simp only [complexity_op]
      omega
    | numerator _ a b r =>
      have hr := complexity_pos r
      simp only [complexity_op]
      omega

theorem expandPower_grows [Scalar α] : Grows fun e : Expr α => pure (expandPower e) := by
  intro e
  refine ⟨expandPower e, rfl, ?_⟩
  obtain h | ⟨base, v, n, hsum, -, -, rfl, h⟩ := expandPower_cases e
  · exact Or.inl h
  · right
    obtain ⟨⟨o, a, b⟩, hparts⟩ := Option.isSome_iff_exists.mp hsum
    obtain ⟨rfl, -⟩ := additive?_eq_some.mp hparts
    have ha := complexity_pos a
    have hb := complexity_pos b
    have hnum (w : α) : (num w : Expr α).complexity = 1 := rfl
    rw [h]
    split_ifs <;> simp only [complexity_op, ofInt, hnum] <;> omega

end Rules

namespace Expr

open RuleAlgebra.Rules

variable {α : Type}

def IsAdditive (t : Expr α) : Prop := ∃ l r, t = op .add l r ∨ t = op .sub l r

/-- Nothing is left to multiply out: no product has a sum or a difference as a factor, no quotient has
one as its numerator, and no integer power from the square to the sixth has one as its base. -/
structure Expanded [Scalar α] (t : Expr α) : Prop where
  factors : ∀ {l r}, op .mul l r ∈ t.walk → ¬l.IsAdditive ∧ ¬r.IsAdditive
  numerators : ∀ {l r}, op .div l r ∈ t.walk → ¬l.IsAdditive
  powers : ∀ {base v n}, op .pow base (num v) ∈ t.walk → Scalar.toInt? v = some n → 2 ≤ n → n ≤ 6 →
    ¬base.IsAdditive

theorem additive?_of_isAdditive {t : Expr α} (h : t.IsAdditive) :
    ∃ o a b, additive? t = some (o, a, b) ∧ o.isAdditive = true := by
  obtain ⟨l, r, rfl | rfl⟩ := h
  · exact ⟨_, _, _, rfl, rfl⟩
  · exact ⟨_, _, _, rfl, rfl⟩

theorem expanded_of_untouched [Scalar α] {t : Expr α}
    (hd : Untouched (fun e => pure (distribute e)) t)
    (hp : Untouched (fun e => pure (expandPower e)) t) : Expanded t where
  factors {l r} h := by
    have hkept : distribute (op .mul l r) = op .mul l r := Except.ok.inj (hd _ h)
    constructor
    · intro hl
      obtain ⟨o, a, b, hsum, ho⟩ := additive?_of_isAdditive hl
      cases hr : additive? r with
      | none =>
        simp only [distribute, hr, hsum, op.injEq] at hkept
        cases hkept.1
        cases ho
      | some parts =>
        obtain ⟨o', a', b'⟩ := parts
        simp only [distribute, hr, op.injEq] at hkept
        cases hkept.1
        cases (additive?_eq_some.mp hr).2
    · intro hr
      obtain ⟨o, a, b, hsum, ho⟩ := additive?_of_isAdditive hr
      simp only [distribute, hsum, op.injEq] at hkept
      cases hkept.1
      cases ho
  numerators {l r} h := by
    intro hl
    have hkept : distribute (op .div l r) = op .div l r := Except.ok.inj (hd _ h)
    obtain ⟨o, a, b, hsum, ho⟩ := additive?_of_isAdditive hl
    simp only [distribute, hsum, op.injEq] at hkept
    cases hkept.1
    cases ho
  powers {base v n} h hv hlow hhigh := by
    intro hbase
    have hkept : expandPower (op .pow base (num v)) = op .pow base (num v) :=
      Except.ok.inj (hp _ h)
    obtain ⟨o, a, b, hsum, -⟩ := additive?_of_isAdditive hbase
    simp [expandPower, hsum, hv, hlow, maxExpandPower, hhigh] at hkept

end Expr

namespace Simplifier

open RuleAlgebra.Expr RuleAlgebra.Traced RuleAlgebra.Rules

variable {α : Type} {e d : Expr α}

section Passes

variable [BEq α]

theorem applyUp_grows {r : Rule α} (hr : Grows r.apply) (category : String) (e : Expr α) :
    ∃ d, (applyUp category e r).result = .ok d ∧ GrowsTo r.apply e d := by
  obtain ⟨d, hd, hgrows⟩ := hr.transform e
  unfold applyUp
  rw [result_bind fun d => record_logFree category r e d, result_lift, hd, ok_bind, record]
  split_ifs with hsame
  · -- a result that is equal has the same size, so no part was changed
    refine ⟨e, rfl, Or.inl ⟨rfl, ?_⟩⟩
    rcases hgrows with ⟨-, huntouched⟩ | hlt
    · exact huntouched
    · exact absurd (beq_iff_same.mp hsame).complexity_eq hlt.ne'
  · exact ⟨d, rfl, hgrows⟩

theorem foldlM_applyUp_grows {rs : List (Rule α)} (hrs : ∀ r ∈ rs, Grows r.apply)
    (category : String) (e : Expr α) :
    ∃ d, (rs.foldlM (applyUp category) e).result = .ok d ∧
      ((∀ r ∈ rs, Untouched r.apply e) ∧ d = e ∨ e.complexity < d.complexity) := by
  induction rs generalizing e with
  | nil => exact ⟨e, rfl, Or.inl ⟨List.forall_mem_nil _, rfl⟩⟩
  | cons r rs ih =>
    obtain ⟨hr, hrs⟩ := List.forall_mem_cons.mp hrs
    obtain ⟨c, hc, hgrows⟩ := applyUp_grows hr category e
    obtain ⟨d, hd, hrest⟩ := ih hrs c
    refine ⟨d, ?_, ?_⟩
    · rw [List.foldlM_cons, result_bind fun c => logFree_foldlM (applyUp_logFree category) rs c, hc,
        ok_bind, hd]
    rcases hgrows with ⟨rfl, hfirst⟩ | hlt
    · exact hrest.imp_left fun ⟨hall, hde⟩ => ⟨List.forall_mem_cons.mpr ⟨hfirst, hall⟩, hde⟩
    · right
      rcases hrest with ⟨-, rfl⟩ | hlt'
      · exact hlt
      · exact hlt.trans hlt'

end Passes

variable [Scalar α] {s : Simplifier α} {domain : NumberDomain} {limit : Nat} {log : Log α}

theorem rulesFor_expand (hs : s.library = .standard) (domain : NumberDomain) :
    s.rulesFor domain "expand" =
      [computedAlways "distribute" "expand" "Multiply out products of sums" distribute,
        computedAlways "expand-power" "expand" "Write small integer powers of sums as products"
          expandPower] := by
  rw [rulesFor, hs, Library.rulesIn]
  simp only [Library.isActive, Library.standard, Library.ofRules, Library.addAll_rules,
    Library.disabled_addAll]
  cases domain <;> rfl

theorem rulesFor_expand_grow (hs : s.library = .standard) (domain : NumberDomain) :
    ∀ r ∈ s.rulesFor domain "expand", Grows r.apply := by
  rw [rulesFor_expand hs]
  intro r hr
  rcases List.mem_pair.mp hr with rfl | rfl
  · exact distribute_grows
  · exact expandPower_grows

/-- When multiplying out comes to an end on its own, nothing is left to multiply out, at any depth. -/
theorem settled_expanded (hs : s.library = .standard)
    (h : ((s.fixpoint domain ["expand"] limit e).run.run log).1 = .ok (d, true)) : Expanded d := by
  obtain ⟨c, hpass, hsame⟩ := pass_of_settled (Prod.ext h rfl)
  obtain ⟨c', hc', hcases⟩ := foldlM_applyUp_grows (rulesFor_expand_grow hs domain) "expand" d
  rw [pass, List.foldlM_cons] at hpass
  simp only [List.foldlM_nil, bind_pure] at hpass
  obtain rfl := Except.ok.inj (hpass.symm.trans hc')
  rcases hcases with ⟨huntouched, -⟩ | hlt
  · rw [rulesFor_expand hs] at huntouched
    obtain ⟨hdistribute, hrest⟩ := List.forall_mem_cons.mp huntouched
    exact expanded_of_untouched hdistribute (hrest _ (List.mem_singleton.mpr rfl))
  · exact absurd (beq_iff_same.mp hsame).complexity_eq hlt.ne'

/-- Multiplying out `x * (a + 1) ^ 2` takes three passes, and a fourth one that changes nothing. -/
theorem settled_expanded_of_square :
    let s : Simplifier Rat := ⟨.standard, 50⟩
    let x : Expr Rat := var "x"
    let a : Expr Rat := var "a"
    let e : Expr Rat := op .mul x (op .pow (op .add a (num 1)) (num 2))
    let d : Expr Rat := op .add
      (op .add (op .mul x (op .mul a a)) (op .mul x (op .mul (num 1) a)))
      (op .add (op .mul x (op .mul a (num 1))) (op .mul x (op .mul (num 1) (num 1))))
    (s.fixpoint .real ["expand"] 4 e).result = .ok (d, true) ∧ Expanded d := by
  intro s x a e d
  have h : (s.fixpoint .real ["expand"] 4 e).result = .ok (d, true) :=
    toOption_eq_some.mp (eq_of_beq (by decide +kernel))
  exact ⟨h, settled_expanded rfl h⟩

end Simplifier

end RuleAlgebra
