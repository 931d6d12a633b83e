import RuleAlgebra.Proofs.EqualExpressions
import RuleAlgebra.Proofs.LatexCommands
import RuleAlgebra.Proofs.RegroupedSums

/-!
LaTeX is unambiguous up to the grouping of sums. With its commands replaced, the LaTeX of an
expression whose sums are grouped to the left is read as that expression, so that two expressions
with the same LaTeX become equal when their sums are regrouped.
-/

namespace RuleAlgebra.Expr

open Scalar Text Lexeme Grammar Latex

variable {α : Type} [Scalar α]

section Typesetting

def LatexRoot : Expr α → Prop
  | num v => Decimal.Readable v
  | var x => isIdentifier x = true
  | op _ _ _ => True
  | fn f as => isIdentifier f = true ∧ f ≠ "integral" ∧ as ≠ []
  | eq _ _ => False
  | .wild _ _ _ => False

/-- Names are identifiers, functions have arguments, numbers survive being written and read back,
and there are neither integrals nor wildcards nor equations. -/
def LatexTerm (t : Expr α) : Prop := ∀ u ∈ t.walk, LatexRoot u

def LatexPrintable : Expr α → Prop
  | eq l r => LatexTerm l ∧ LatexTerm r
  | t => LatexTerm t

variable {s t l r : Expr α}

@[simp] theorem latexTerm_num {v : α} : LatexTerm (num v) ↔ Decimal.Readable v := by
  simp [LatexTerm, walk, LatexRoot]

@[simp] theorem latexTerm_var {x : String} :
    LatexTerm (var x : Expr α) ↔ isIdentifier x = true := by
  simp [LatexTerm, walk, LatexRoot]

@[simp] theorem latexTerm_wild {x : String} {k : WildcardKind} {a : Option String} :
    ¬LatexTerm (Expr.wild x k a : Expr α) := fun h => h _ (self_mem_walk _)

@[simp] theorem latexTerm_eq : ¬LatexTerm (eq l r) := fun h => h _ (self_mem_walk _)

@[simp] theorem latexTerm_op {o : Arithmetic} :
    LatexTerm (op o l r) ↔ LatexTerm l ∧ LatexTerm r := by
  simp only [LatexTerm, walk, List.forall_mem_cons, List.forall_mem_append, LatexRoot, true_and]

@[simp] theorem latexTerm_fn {f : String} {as : List (Expr α)} :
    LatexTerm (fn f as) ↔
      (isIdentifier f = true ∧ f ≠ "integral" ∧ as ≠ []) ∧ ∀ a ∈ as, LatexTerm a := by
  simp only [LatexTerm, walk, List.forall_mem_cons, LatexRoot, mem_walkArgs]
  refine and_congr_right fun _ => ⟨fun h a ha u hu => h u ⟨a, ha, hu⟩, ?_⟩
  rintro h u ⟨a, ha, hu⟩
  exact h a ha u hu

theorem Regroups.latexTerm (h : Regroups s t) (hs : LatexTerm s) : LatexTerm t := by
  induction h with
  | sum | difference => simpa [and_assoc] using hs
  | left _ _ ih => exact latexTerm_op.mpr ⟨ih (latexTerm_op.mp hs).1, (latexTerm_op.mp hs).2⟩
  | right _ _ ih => exact latexTerm_op.mpr ⟨(latexTerm_op.mp hs).1, ih (latexTerm_op.mp hs).2⟩
  | argument as bs _ ih =>
    obtain ⟨⟨hf, hint, -⟩, hall⟩ := latexTerm_fn.mp hs
    simp only [List.forall_mem_append, List.forall_mem_cons] at hall
    refine latexTerm_fn.mpr ⟨⟨hf, hint, by simp⟩, ?_⟩
    simp only [List.forall_mem_append, List.forall_mem_cons]
    exact ⟨hall.1, ih hall.2.1, hall.2.2⟩
  | lhs | rhs => exact (latexTerm_eq hs).elim

theorem RegroupsTo.latexTerm (h : RegroupsTo s t) (hs : LatexTerm s) : LatexTerm t := by
  induction h with
  | refl => exact hs
  | tail _ hstep ih => exact hstep.latexTerm ih

end Typesetting

section Calling

mutual

/-- The expression with a prefix before the names of functions, so that each can be called. -/
def prefixed : Expr α → Expr α
  | op o l r => op o (prefixed l) (prefixed r)
  | fn f as => fn ("f_" ++ f) (prefixedAll as)
  | eq l r => eq (prefixed l) (prefixed r)
  | leaf => leaf

def prefixedAll : List (Expr α) → List (Expr α)
  | [] => []
  | a :: as => prefixed a :: prefixedAll as

end

variable {t r : Expr α}

@[simp] theorem rank_prefixed (t : Expr α) : t.prefixed.rank = t.rank := by
  cases t <;> rfl

omit [Scalar α] in
@[simp] theorem isNum_prefixed (t : Expr α) : t.prefixed.isNum = t.isNum := by
  cases t <;> rfl

theorem isFunctionName_prefixed {f : String} (hf : isIdentifier f = true) :
    IsFunctionName ("f_" ++ f) := by
  have hchars : ("f_" ++ f).toList = 'f' :: '_' :: f.toList := by simp
  have hother {s : String} (hs : s.toList.take 2 ≠ ['f', '_']) : "f_" ++ f ≠ s := by
    rintro rfl
    exact hs (by rw [hchars]; rfl)
  refine ⟨isIdentifier_iff.mpr ⟨_, _, hchars, by decide, ?_⟩, ?_, hother (by simp),
    hother (by simp)⟩
  · exact List.forall_mem_cons.mpr ⟨by decide, isIdentifier_chars hf⟩
  · have hpos := isIdentifier_length_pos hf
    rw [← String.length_toList, hchars, List.length_cons, List.length_cons, String.length_toList]
    omega

end Calling

section Reading

variable {l r a b : Expr α} {f s s' left left' right right' : String} {n : Nat}

/-- LaTeX that is read as an expression once its commands are replaced. -/
def Typesets (latex : String) (n : Nat) (t : Expr α) : Prop :=
  ∃ s, Rewrites Closes latex s ∧ ReadsAs false s n t

theorem Typesets.parensIf {m : Nat} {c : Bool} (h : Typesets s n a) (hc : c = false → m ≤ n) :
    Typesets (latexParensIf c s) m a := by
  obtain ⟨s', hs, hread⟩ := h
  exact ⟨_, hs.parensIf c, hread.parensIf hc⟩

theorem typesets_num [FaithfulScalar α] {v : α} (h : Decimal.Readable v) :
    Typesets (Decimal.text v) (num v).rank (num v) := by
  refine ⟨_, ?_, readsAs_num h⟩
  have hmagnitude := numeral_plain h.isDecimal
  cases hlt : Scalar.lt v zero with
  | false =>
    rw [Decimal.text_of_nonneg h.finite hlt]
    exact rewrites_plain hmagnitude
  | true =>
    have hminus : Rewrites Anything "-" "-" := rewrites_plain (by simp [starters])
    rw [Decimal.text_of_neg h.finite hlt]
    exact hminus.start (rewrites_plain hmagnitude)

theorem typesets_name {x : String} (hx : isIdentifier x = true) :
    Typesets (if x = "pi" then "\\pi" else x) n (var x : Expr α) :=
  ⟨_, rewrites_variable hx, readsAs_name hx⟩

theorem typesets_negation [FaithfulScalar α] {v : α} (hv : (v == Scalar.ofInt (-1)) = true)
    (ha : a.isNum = false) (h : Typesets s r.rank a) :
    Typesets ("-" ++ latexParensIf (r.rank ≤ 2) s) 2 (op .mul (num v) a) := by
  have hminus : Rewrites Anything "-" "-" := rewrites_plain (by simp [starters])
  obtain ⟨s', hs, hread⟩ := h.parensIf (m := 3) (c := r.rank ≤ 2)
    fun hc => not_le.mp (of_decide_eq_false hc)
  exact ⟨_, hminus.start hs, hread.negated hv ha⟩

theorem Typesets.join {i j : Nat} {m m' : String} (hl : Typesets left i a)
    (hr : Typesets right j b) (hm : Rewrites Anything m m') (hmem : m ∈ followers)
    {t : Expr α} (hread : ∀ {l r}, ReadsAs false l i a → ReadsAs false r j b →
      ReadsAs false (l ++ m' ++ r) n t) : Typesets (left ++ m ++ right) n t := by
  obtain ⟨l', hlr, hla⟩ := hl
  obtain ⟨r', hrr, hrb⟩ := hr
  exact ⟨_, (hlr.follow hm hmem).start hrr, hread hla hrb⟩

theorem spaced_eq (m m' : String) (h : m' = " " ++ m ++ " ") (l r : String) :
    l ++ m' ++ r = l ++ " " ++ m ++ " " ++ r := by
  simp only [h, String.append_assoc]

theorem typesets_operation {o : Arithmetic} (hl : Typesets left l.rank a)
    (hr : Typesets right r.rank b) (hsum : o = .add → 2 ≤ r.rank) :
    Typesets (latexOperation o l r left right) o.rank (op o a b) := by
  have hbelow {m : Nat} : Typesets (latexParensIf (l.rank < m) left) m a :=
    hl.parensIf fun hc => not_lt.mp (of_decide_eq_false hc)
  have habove {e : Expr α} {s : String} {c : Expr α} (h : Typesets s e.rank c) (m : Nat) :
      Typesets (latexParensIf (e.rank ≤ m) s) (m + 1) c :=
    h.parensIf fun hc => not_le.mp (of_decide_eq_false hc)
  cases o with
  | add =>
    have hplus : Rewrites Anything " + " " + " := rewrites_plain (by simp [starters])
    -- a sum to the right would stand without parentheses, and be read as grouped to the left
    have hright : Typesets (latexParensIf (r.rank < 1) right) 2 b := hr.parensIf fun _ => hsum rfl
    refine hbelow.join hright hplus (by decide) fun hla hrb => ?_
    rw [spaced_eq "+" " + " (by simp)]
    exact ReadsAs.sum (o := .add) (.inl rfl) hla hrb
  | sub =>
    have hminus : Rewrites Anything " - " " - " := rewrites_plain (by simp [starters])
    refine hbelow.join (habove hr 1) hminus (by decide) fun hla hrb => ?_
    rw [spaced_eq "-" " - " (by simp)]
    exact ReadsAs.sum (o := .sub) (.inr rfl) hla hrb
  | mul =>
    have hblank : Rewrites Anything " " " " := rewrites_plain (by simp [starters])
    have hsign : Rewrites Anything "\\cdot" "*" := rewrites_sign (by decide)
    have hdot : Rewrites Anything " \\cdot " " * " := by
      simpa using (hblank.start hsign).start hblank
    refine hbelow.join (habove hr 2) hdot (by decide) fun hla hrb => ?_
    rw [spaced_eq "*" " * " (by simp)]
    exact hla.spacedProduct hrb
  | div =>
    obtain ⟨l', hlr, hla⟩ := hl
    obtain ⟨r', hrr, hrb⟩ := hr
    exact ⟨_, hlr.fraction hrr, ReadsAs.product (o := .div) (.inr rfl) hla.parens hrb.parens⟩
  | pow =>
    obtain ⟨l', hlr, hla⟩ := habove hl 3
    obtain ⟨r', hrr, hrb⟩ := hr
    have hcaret : Rewrites Anything "^" "^" := rewrites_plain (by simp [starters])
    exact ⟨_, (hlr.follow hcaret (by decide)).start hrr.braces, ReadsAs.power hla hrb.parens⟩

theorem latexCall_cases (s : String) (ss : List String) (hf : f ≠ "integral") :
    latexCall f (s :: ss) = latexName f ++ latexParens (", ".intercalate (s :: ss)) ∨
      f = "sqrt" ∧ ss = [] ∧ latexCall f (s :: ss) = "\\sqrt" ++ braces s := by
  unfold latexCall
  split
  · rename_i hargs
    obtain ⟨rfl, rfl⟩ := List.cons.inj hargs
    exact .inr ⟨rfl, rfl, rfl⟩
  · exact absurd rfl hf
  · exact .inl rfl

theorem typesets_arguments {ss : List String} {as : List (Expr α)}
    (h : List.Forall₂ (fun s a => ∃ n, Typesets s n a) ss as) :
    ∃ ss', List.Forall₂ (Rewrites Closes) ss ss' ∧
      List.Forall₂ (fun s a => ∃ n, ReadsAs false s n a) ss' as := by
  induction h with
  | nil => exact ⟨[], .nil, .nil⟩
  | cons h _ ih =>
    obtain ⟨n, s', hs, hread⟩ := h
    obtain ⟨ss', hss, hreads⟩ := ih
    exact ⟨s' :: ss', .cons hs hss, .cons ⟨n, hread⟩ hreads⟩

theorem typesets_call {ss : List String} {as : List (Expr α)} {m : Nat}
    (hf : isIdentifier f = true) (hne : f ≠ "integral") (h : Typesets s m a)
    (hs : List.Forall₂ (fun s a => ∃ n, Typesets s n a) ss as) :
    Typesets (latexCall f (s :: ss)) n (fn ("f_" ++ f) (a :: as)) := by
  obtain ⟨s', hs', hread⟩ := h
  obtain ⟨ss', hss', hreads⟩ := typesets_arguments hs
  refine ⟨_, ?_, readsAs_call (isFunctionName_prefixed hf) hread hreads⟩
  rcases latexCall_cases s ss hne with hcall | ⟨rfl, rfl, hcall⟩
  · rw [hcall]
    exact (rewrites_arguments hs' hss').call hf
  · cases hss'
    have hroot := hs'.root
    rw [hcall]
    simpa using hroot

theorem two_le_rank (h : LatexTerm r) (hsum : r.isSum = false) : 2 ≤ r.rank := by
  cases r with
  | num v =>
    rw [rank]
    split_ifs <;> decide
  | op o a b =>
    cases o with
    | add | sub => simp [isSum, Arithmetic.isAdditive] at hsum
    | _ => simp [rank, Arithmetic.rank]
  | eq a b => exact (latexTerm_eq h).elim
  | _ => simp [rank]

mutual

theorem typesets_latex [FaithfulScalar α] : ∀ t : Expr α, LatexTerm t → Grouped t →
    Typesets t.latex t.rank t.prefixed
  | num v, h, _ => typesets_num (latexTerm_num.mp h)
  | var x, h, _ => typesets_name (latexTerm_var.mp h)
  | .wild _ _ _, h, _ => (latexTerm_wild h).elim
  | eq _ _, h, _ => (latexTerm_eq h).elim
  | op o l r, h, hg => by
    obtain ⟨hl, hr⟩ := latexTerm_op.mp h
    obtain ⟨gl, gr, hsum⟩ := grouped_op.mp hg
    have hleft := typesets_latex l hl gl
    have hright := typesets_latex r hr gr
    rw [latex]
    split
    · rename_i u hneg
      obtain ⟨rfl, hnum, v, rfl, hv⟩ := negated?_eq_some hneg
      exact typesets_negation hv (by simpa using hnum) hright
    · exact typesets_operation hleft hright fun ho => two_le_rank hr (hsum ho)
  | fn f [], h, _ => absurd rfl (latexTerm_fn.mp h).1.2.2
  | fn f (a :: as), h, hg => by
    obtain ⟨⟨hf, hne, -⟩, has⟩ := latexTerm_fn.mp h
    have hgs := grouped_fn.mp hg
    exact typesets_call hf hne (typesets_latex a (has a (by simp)) (hgs a (by simp)))
      (typesets_latexArgs as (fun b hb => has b (by simp [hb])) fun b hb => hgs b (by simp [hb]))

theorem typesets_latexArgs [FaithfulScalar α] : ∀ as : List (Expr α),
    (∀ a ∈ as, LatexTerm a) → (∀ a ∈ as, Grouped a) →
    List.Forall₂ (fun s a => ∃ n, Typesets s n a) (latexArgs as) (prefixedAll as)
  | [], _, _ => .nil
  | a :: as, h, hg =>
    .cons ⟨_, typesets_latex a (h a (by simp)) (hg a (by simp))⟩
      (typesets_latexArgs as (fun b hb => h b (by simp [hb])) fun b hb => hg b (by simp [hb]))

end

end Reading

section Unambiguity

variable {s t : Expr α}

mutual

theorem Same.of_prefixed : ∀ {u v : Expr α}, Same u.prefixed v.prefixed → Same u v
  | num _, num _, .num h => .num h
  | var x, var _, .var _ => .var x
  | op o l r, op _ l' r', .op _ hl hr => .op o hl.of_prefixed hr.of_prefixed
  | fn f as, fn g bs, h => by
    obtain ⟨hname, has⟩ := same_fn.mp h
    obtain rfl : f = g := by simpa [← String.toList_inj] using hname
    exact .fn f has.of_prefixed
  | eq l r, eq l' r', .eq hl hr => .eq hl.of_prefixed hr.of_prefixed
  | wild x k a, wild _ _ _, .wild _ _ _ => .wild x k a

theorem SameAll.of_prefixed : ∀ {us vs : List (Expr α)}, SameAll (prefixedAll us) (prefixedAll vs) →
    SameAll us vs
  | [], [], .nil => .nil
  | u :: us, v :: vs, .cons h hs => .cons h.of_prefixed hs.of_prefixed

end

mutual

theorem FiniteNumbers.prefixed : ∀ {t : Expr α}, FiniteNumbers t → FiniteNumbers t.prefixed
  | num _, h | var _, h | wild _ _ _, h => h
  | op o l r, h => by
    obtain ⟨hl, hr⟩ := finiteNumbers_op.mp h
    exact finiteNumbers_op.mpr ⟨hl.prefixed, hr.prefixed⟩
  | eq l r, h => by
    obtain ⟨hl, hr⟩ := finiteNumbers_eq.mp h
    exact finiteNumbers_eq.mpr ⟨hl.prefixed, hr.prefixed⟩
  | fn f as, h => finiteNumbers_fn.mpr (finiteNumbers_prefixedAll (finiteNumbers_fn.mp h))

theorem finiteNumbers_prefixedAll : ∀ {as : List (Expr α)}, (∀ a ∈ as, FiniteNumbers a) →
    ∀ a ∈ prefixedAll as, FiniteNumbers a
  | [], _ => by simp [prefixedAll]
  | a :: as, h => by
    obtain ⟨ha, has⟩ := List.forall_mem_cons.mp h
    exact List.forall_mem_cons.mpr ⟨ha.prefixed, finiteNumbers_prefixedAll has⟩

end

theorem LatexTerm.printable (h : LatexTerm t) : LatexPrintable t := by
  cases t with
  | eq l r => exact (latexTerm_eq h).elim
  | _ => exact h

theorem LatexPrintable.regrouped (h : LatexPrintable t) : LatexPrintable t.regrouped := by
  have hterm {t : Expr α} (h : LatexTerm t) : LatexTerm t.regrouped :=
    (regrouped_spec t).1.latexTerm h
  cases t with
  | eq l r => exact ⟨hterm h.1, hterm h.2⟩
  | _ => exact (hterm h).printable

theorem LatexPrintable.finite (h : LatexPrintable t) : FiniteNumbers t := by
  have hterm {t : Expr α} (h : LatexTerm t) : FiniteNumbers t := fun v hv => (h _ hv).finite
  cases t with
  | eq l r => exact finiteNumbers_eq.mpr ⟨hterm h.1, hterm h.2⟩
  | _ => exact hterm h

/-- What a text becomes when its commands are replaced. -/
def plainLatex (t : Expr α) : String := String.ofList (replaced 0 t.latex.toList)

theorem plainLatex_eq {text : String} (h : Rewrites Closes t.latex text) : t.plainLatex = text := by
  have hcs := h [] (by simp [Closes, openings])
  rw [List.append_nil] at hcs
  rw [plainLatex, hcs, ← String.toList_inj]
  simp [replaced]

theorem read_plainLatex [FaithfulScalar α] (h : LatexPrintable t) (hg : Grouped t) :
    ∃ p, Expr.read false t.plainLatex = .ok p ∧ (p == t.prefixed) = true := by
  have hterm (t : Expr α) (h : LatexTerm t) (hg : Grouped t) :
      ∃ p, Expr.read false t.plainLatex = .ok p ∧ (p == t.prefixed) = true := by
    obtain ⟨text, htext, hread⟩ := typesets_latex t h hg
    rw [plainLatex_eq htext]
    exact hread.read
  cases t with
  | eq l r =>
    obtain ⟨gl, gr⟩ := grouped_eq.mp hg
    obtain ⟨left, hleft, hl⟩ := typesets_latex l h.1 gl
    obtain ⟨right, hright, hr⟩ := typesets_latex r h.2 gr
    have hequals : Rewrites Anything " = " " = " := rewrites_plain (by simp [starters])
    have htext : Rewrites Closes (eq l r).latex (left ++ " = " ++ right) :=
      (hleft.follow hequals (by decide)).start hright
    rw [plainLatex_eq htext]
    exact hl.read_eq hr
  | _ => exact hterm _ h hg

/-- LaTeX is unambiguous up to the grouping of sums: two expressions with the same LaTeX become
equal when every `a + (b + c)` is rewritten as `(a + b) + c`, and every `a + (b - c)` as
`(a + b) - c`. -/
theorem latex_unambiguous [FaithfulScalar α] (hs : LatexPrintable s) (ht : LatexPrintable t)
    (h : s.latex = t.latex) : (RegroupsTo s s.regrouped ∧ Grouped s.regrouped) ∧
      (RegroupsTo t t.regrouped ∧ Grouped t.regrouped) ∧
        (s.regrouped == t.regrouped) = true := by
  obtain ⟨hsteps, gs⟩ := regrouped_spec s
  obtain ⟨htsteps, gt⟩ := regrouped_spec t
  obtain ⟨p, hp, hps⟩ := read_plainLatex hs.regrouped gs
  obtain ⟨q, hq, hqt⟩ := read_plainLatex ht.regrouped gt
  have hplain : s.regrouped.plainLatex = t.regrouped.plainLatex := by
    rw [plainLatex, plainLatex, ← hsteps.latex, ← htsteps.latex, h]
  -- both texts are read as the same expression, which may represent its numbers otherwise
  obtain rfl : p = q := Except.ok.inj (hp.symm.trans (hplain ▸ hq))
  have hsame : Same s.regrouped.prefixed t.regrouped.prefixed :=
    (beq_iff_same.mp hps).of_common (beq_iff_same.mp hqt) hs.regrouped.finite.prefixed
      ht.regrouped.finite.prefixed
  exact ⟨⟨hsteps, gs⟩, ⟨htsteps, gt⟩, beq_iff_same.mpr hsame.of_prefixed⟩

/-- The sum `x + (-y^2 - sqrt(2/pi))`, and the same with its sums grouped to the left. -/
def rightGrouped : Expr Rat :=
  op .add (var "x") (op .sub (op .mul (num (-1)) (op .pow (var "y") (num 2)))
    (fn "sqrt" [op .div (num 2) (var "pi")]))

def leftGrouped : Expr Rat :=
  op .sub (op .add (var "x") (op .mul (num (-1)) (op .pow (var "y") (num 2))))
    (fn "sqrt" [op .div (num 2) (var "pi")])

theorem latex_unambiguous_of_sums : LatexPrintable rightGrouped ∧ LatexPrintable leftGrouped ∧
    rightGrouped.latex = leftGrouped.latex ∧ rightGrouped.regrouped = leftGrouped.regrouped := by
  have hone : Decimal.Readable (-1 : Rat) := by
    simpa using Decimal.readable_intCast (-1) (by decide)
  have htwo : Decimal.Readable (2 : Rat) := by simpa using Decimal.readable_intCast 2 (by decide)
  have hx : isIdentifier "x" = true := by decide
  have hy : isIdentifier "y" = true := by decide
  have hpi : isIdentifier "pi" = true := by decide
  have hsqrt : isIdentifier "sqrt" = true := by decide
  have hright : LatexPrintable rightGrouped := by
    simp [LatexPrintable, rightGrouped, hone, htwo, hx, hy, hpi, hsqrt]
  have hleft : LatexPrintable leftGrouped := by
    simp [LatexPrintable, leftGrouped, hone, htwo, hx, hy, hpi, hsqrt]
  have hlatex : rightGrouped.latex = leftGrouped.latex := Regroups.latex (.difference _ _ _)
  exact ⟨hright, hleft, hlatex, eq_of_beq (latex_unambiguous hright hleft hlatex).2.2⟩

end Unambiguity

end RuleAlgebra.Expr
