import RuleAlgebra.Expr.Printer
import RuleAlgebra.Proofs.Occurrences

/-!
Sums grouped to the left. In LaTeX a sum or a difference stands without parentheses to the right of
a plus sign, so that rewriting `a + (b + c)` as `(a + b) + c`, or `a + (b - c)` as `(a + b) - c`,
leaves the LaTeX of an expression as it is.
-/

namespace RuleAlgebra.Expr

variable {α : Type}

section Steps

/-- Regroups one sum in an expression to the left. -/
inductive Regroups : Expr α → Expr α → Prop where
  | sum (a b c : Expr α) : Regroups (op .add a (op .add b c)) (op .add (op .add a b) c)
  | difference (a b c : Expr α) : Regroups (op .add a (op .sub b c)) (op .sub (op .add a b) c)
  | left {o : Arithmetic} {l l' : Expr α} (r : Expr α) :
      Regroups l l' → Regroups (op o l r) (op o l' r)
  | right {o : Arithmetic} (l : Expr α) {r r' : Expr α} :
      Regroups r r' → Regroups (op o l r) (op o l r')
  | argument {f : String} (as : List (Expr α)) {a a' : Expr α} (bs : List (Expr α)) :
      Regroups a a' → Regroups (fn f (as ++ a :: bs)) (fn f (as ++ a' :: bs))
  | lhs {l l' : Expr α} (r : Expr α) : Regroups l l' → Regroups (eq l r) (eq l' r)
  | rhs (l : Expr α) {r r' : Expr α} : Regroups r r' → Regroups (eq l r) (eq l r')

abbrev RegroupsTo : Expr α → Expr α → Prop := Relation.ReflTransGen Regroups

variable {l l' r r' : Expr α}

theorem regroupsTo_op (o : Arithmetic) (hl : RegroupsTo l l') (hr : RegroupsTo r r') :
    RegroupsTo (op o l r) (op o l' r') :=
  (hl.lift (op o · r) fun _ _ h => h.left r).trans (hr.lift (op o l' ·) fun _ _ h => h.right l')

theorem regroupsTo_eq (hl : RegroupsTo l l') (hr : RegroupsTo r r') :
    RegroupsTo (eq l r) (eq l' r') :=
  (hl.lift (eq · r) fun _ _ h => h.lhs r).trans (hr.lift (eq l' ·) fun _ _ h => h.rhs l')

theorem regroupsTo_fn (f : String) {as bs : List (Expr α)} (h : List.Forall₂ RegroupsTo as bs)
    (done : List (Expr α)) : RegroupsTo (fn f (done ++ as)) (fn f (done ++ bs)) := by
  induction h generalizing done with
  | nil => exact .refl
  | @cons a b as bs hab _ ih =>
    have hfirst : RegroupsTo (fn f (done ++ a :: as)) (fn f (done ++ b :: as)) :=
      hab.lift (fun a => fn f (done ++ a :: as)) fun _ _ h => h.argument done as
    exact hfirst.trans (by simpa using ih (done ++ [b]))

theorem Regroups.isNum {s t : Expr α} (h : Regroups s t) : s.isNum = false ∧ t.isNum = false := by
  cases h <;> exact ⟨rfl, rfl⟩

end Steps

section Latex

variable [Scalar α] {s t l r r' : Expr α} {o : Arithmetic}

theorem Regroups.rank (h : Regroups s t) : s.rank = t.rank := by
  cases h <;> rfl

theorem latex_op_of_not_num (r : Expr α) (h : l.isNum = false) :
    latex (op o l r) = latexOperation o l r l.latex r.latex := by
  cases l with
  | num v => simp [Expr.isNum] at h
  | _ => cases o <;> rfl

theorem negated?_num (v : α) (h : r.isNum = false) :
    negated? (op .mul (num v) r) = if v == Scalar.ofInt (-1) then some r else none := by
  cases r with
  | num w => simp [Expr.isNum] at h
  | _ => rfl

theorem latex_add (l r : Expr α) : latex (op .add l r) =
    latexParensIf (l.rank < 1) l.latex ++ " + " ++ latexParensIf (r.rank < 1) r.latex := rfl

theorem latex_sub (l r : Expr α) : latex (op .sub l r) =
    latexParensIf (l.rank < 1) l.latex ++ " - " ++ latexParensIf (r.rank ≤ 1) r.latex := rfl

theorem latexOperation_congr (left : String) (hrank : r.rank = r'.rank)
    (hlatex : r.latex = r'.latex) :
    latexOperation o l r left r.latex = latexOperation o l r' left r'.latex := by
  cases o <;> simp only [latexOperation, hrank, hlatex]

theorem latex_op_right (hr : r.isNum = false) (hr' : r'.isNum = false) (hrank : r.rank = r'.rank)
    (hlatex : r.latex = r'.latex) : latex (op o l r) = latex (op o l r') := by
  have hoperation := latexOperation_congr (o := o) (l := l) l.latex hrank hlatex
  cases hl : l.isNum with
  | false => rw [latex_op_of_not_num r hl, latex_op_of_not_num r' hl, hoperation]
  | true =>
    cases l with
    | num v =>
      cases o with
      -- a product with minus one is written as a negation, which depends on what is negated
      | mul =>
        simp only [latex, negated?_num v hr, negated?_num v hr', hrank, hlatex]
        split_ifs
        · rfl
        · simpa [latex, hlatex] using hoperation
      | _ => exact hoperation
    | _ => simp [Expr.isNum] at hl

theorem latexArgs_append (as bs : List (Expr α)) :
    latexArgs (as ++ bs) = latexArgs as ++ latexArgs bs := by
  induction as with
  | nil => rfl
  | cons a as ih => rw [List.cons_append, latexArgs, ih, latexArgs, List.cons_append]

theorem Regroups.latex (h : Regroups s t) : s.latex = t.latex := by
  induction h with
  | sum a b c =>
    simp [latex_add, Expr.rank, Arithmetic.rank, latexParensIf, String.append_assoc]
  | difference a b c =>
    simp [latex_add, latex_sub, Expr.rank, Arithmetic.rank, latexParensIf, String.append_assoc]
  | @left o l l' r h ih =>
    rw [latex_op_of_not_num r h.isNum.1, latex_op_of_not_num r h.isNum.2, ih]
    cases o <;> simp only [latexOperation, h.rank]
  | right l h ih => exact latex_op_right h.isNum.1 h.isNum.2 h.rank ih
  | argument as bs _ ih => simp only [Expr.latex, latexArgs_append, latexArgs, ih]
  | lhs r _ ih => simp only [Expr.latex, ih]
  | rhs l _ ih => simp only [Expr.latex, ih]

theorem RegroupsTo.latex (h : RegroupsTo s t) : s.latex = t.latex := by
  induction h with
  | refl => rfl
  | tail _ h ih => exact ih.trans h.latex

end Latex

section Grouped

def Grouped (t : Expr α) : Prop := ∀ u, ¬Regroups t u

def isSum : Expr α → Bool
  | op o _ _ => o.isAdditive
  | _ => false

variable {o : Arithmetic} {l r : Expr α}

theorem isSum_of_grouped (h : Grouped (op .add l r)) : r.isSum = false := by
  cases r with
  | op o b c =>
    cases o with
    | add => exact (h _ (.sum l b c)).elim
    | sub => exact (h _ (.difference l b c)).elim
    | _ => rfl
  | _ => rfl

theorem grouped_op : Grouped (op o l r) ↔
    Grouped l ∧ Grouped r ∧ (o = .add → r.isSum = false) := by
  constructor
  · intro h
    refine ⟨fun u hu => h _ (hu.left r), fun u hu => h _ (hu.right l), ?_⟩
    rintro rfl
    exact isSum_of_grouped h
  · rintro ⟨hl, hr, hsum⟩ u hu
    cases hu with
    | sum a b c => simpa [isSum, Arithmetic.isAdditive] using hsum rfl
    | difference a b c => simpa [isSum, Arithmetic.isAdditive] using hsum rfl
    | left _ h => exact hl _ h
    | right _ h => exact hr _ h

theorem grouped_eq : Grouped (eq l r) ↔ Grouped l ∧ Grouped r := by
  constructor
  · exact fun h => ⟨fun u hu => h _ (hu.lhs r), fun u hu => h _ (hu.rhs l)⟩
  · rintro ⟨hl, hr⟩ u hu
    cases hu with
    | lhs _ h => exact hl _ h
    | rhs _ h => exact hr _ h

theorem grouped_fn {f : String} {as : List (Expr α)} :
    Grouped (fn f as) ↔ ∀ a ∈ as, Grouped a := by
  constructor
  · intro h a ha u hu
    obtain ⟨bs, cs, rfl⟩ := List.append_of_mem ha
    exact h _ (hu.argument bs cs)
  · intro h u hu
    cases hu with
    | argument bs cs ha => exact h _ (by simp) _ ha

theorem grouped_leaf {t : Expr α} (h : t.children = []) : Grouped t := by
  intro u hu
  cases hu <;> simp [children] at h

end Grouped

section Regrouping

def appendSum (l : Expr α) : Expr α → Expr α
  | op .add a b => op .add (appendSum l a) b
  | op .sub a b => op .sub (appendSum l a) b
  | r => op .add l r

mutual

/-- Rewrites every `a + (b + c)` as `(a + b) + c`, and every `a + (b - c)` as `(a + b) - c`. -/
def regrouped : Expr α → Expr α
  | op .add l r => appendSum (regrouped l) (regrouped r)
  | op o l r => op o (regrouped l) (regrouped r)
  | fn f as => fn f (regroupedAll as)
  | eq l r => eq (regrouped l) (regrouped r)
  | leaf => leaf

def regroupedAll : List (Expr α) → List (Expr α)
  | [] => []
  | a :: as => regrouped a :: regroupedAll as

end

theorem regroupsTo_appendSum (l r : Expr α) : RegroupsTo (op .add l r) (appendSum l r) := by
  induction r using appendSum.induct with
  | case1 a b ih => exact .head (.sum l a b) (regroupsTo_op .add ih .refl)
  | case2 a b ih => exact .head (.difference l a b) (regroupsTo_op .sub ih .refl)
  | case3 r hadd hsub => rw [appendSum.eq_3 l r hadd hsub]

theorem grouped_appendSum {l r : Expr α} (hl : Grouped l) (hr : Grouped r) :
    Grouped (appendSum l r) := by
  induction r using appendSum.induct with
  | case1 a b ih =>
    obtain ⟨ha, hb, hsum⟩ := grouped_op.mp hr
    exact grouped_op.mpr ⟨ih ha, hb, hsum⟩
  | case2 a b ih =>
    obtain ⟨ha, hb, -⟩ := grouped_op.mp hr
    exact grouped_op.mpr ⟨ih ha, hb, by simp⟩
  | case3 r hadd hsub =>
    rw [appendSum.eq_3 l r hadd hsub]
    refine grouped_op.mpr ⟨hl, hr, fun _ => ?_⟩
    cases r with
    | op o a b =>
      cases o with
      | add => exact (hadd a b rfl).elim
      | sub => exact (hsub a b rfl).elim
      | _ => rfl
    | _ => rfl

mutual

theorem regrouped_spec : ∀ t : Expr α, RegroupsTo t t.regrouped ∧ Grouped t.regrouped
  | num _ | var _ | wild _ _ _ => ⟨.refl, grouped_leaf rfl⟩
  | eq l r => by
    obtain ⟨tl, gl⟩ := regrouped_spec l
    obtain ⟨tr, gr⟩ := regrouped_spec r
    exact ⟨regroupsTo_eq tl tr, grouped_eq.mpr ⟨gl, gr⟩⟩
  | fn f as => by
    obtain ⟨tas, gas⟩ := regroupedAll_spec as
    exact ⟨regroupsTo_fn f tas [], grouped_fn.mpr gas⟩
  | op o l r => by
    obtain ⟨tl, gl⟩ := regrouped_spec l
    obtain ⟨tr, gr⟩ := regrouped_spec r
    cases o with
    | add =>
      exact ⟨(regroupsTo_op .add tl tr).trans (regroupsTo_appendSum _ _), grouped_appendSum gl gr⟩
    | _ => exact ⟨regroupsTo_op _ tl tr, grouped_op.mpr ⟨gl, gr, by simp⟩⟩

theorem regroupedAll_spec : ∀ as : List (Expr α),
    List.Forall₂ RegroupsTo as (regroupedAll as) ∧ ∀ a ∈ regroupedAll as, Grouped a
  | [] => ⟨.nil, by simp [regroupedAll]⟩
  | a :: as => by
    obtain ⟨ta, ga⟩ := regrouped_spec a
    obtain ⟨tas, gas⟩ := regroupedAll_spec as
    exact ⟨.cons ta tas, List.forall_mem_cons.mpr ⟨ga, gas⟩⟩

end

end Regrouping

end RuleAlgebra.Expr
