import RuleAlgebra.Equation.LinearSystem
import RuleAlgebra.Proofs.LinearEquations
import RuleAlgebra.Proofs.LinearForms

/-!
Gaussian elimination without rounding. A triangular form has the solutions of the system, and back
substitution finds the only one; a singular system has a pivot that is zero, which elimination with
a positive tolerance refuses.
-/

namespace RuleAlgebra

variable {α : Type} [Scalar α] {K : Type*} [Field K] {value : α → K}

section Products

variable {cs ps xs ys : List K}

def dot (cs xs : List K) : K := (List.zipWith (· * ·) cs xs).sum

@[simp] theorem dot_nil : dot [] xs = 0 := rfl

@[simp] theorem dot_cons (c x : K) : dot (c :: cs) (x :: xs) = c * x + dot cs xs := rfl

theorem dot_eliminate (q : K) (h : cs.length = ps.length) :
    dot (List.zipWith (fun c p => c - q * p) cs ps) xs = dot cs xs - q * dot ps xs := by
  induction cs generalizing ps xs with
  | nil =>
    obtain rfl : ps = [] := List.length_eq_zero_iff.mp h.symm
    simp
  | cons c cs ih =>
    cases ps with
    | nil => simp at h
    | cons p ps =>
      cases xs with
      | nil => simp [dot]
      | cons x xs =>
        rw [List.zipWith_cons_cons, dot_cons, dot_cons, dot_cons, ih (by simpa using h)]
        ring

theorem dot_add (h : xs.length = ys.length) :
    dot cs (List.zipWith (· + ·) xs ys) = dot cs xs + dot cs ys := by
  induction cs generalizing xs ys with
  | nil => simp
  | cons c cs ih =>
    cases xs with
    | nil =>
      obtain rfl : ys = [] := List.length_eq_zero_iff.mp h.symm
      simp [dot]
    | cons x xs =>
      cases ys with
      | nil => simp at h
      | cons y ys =>
        rw [List.zipWith_cons_cons, dot_cons, dot_cons, dot_cons, ih (by simpa using h)]
        ring

theorem dot_ofFn {n : Nat} (c x : Fin n → K) :
    dot (List.ofFn c) (List.ofFn x) = ∑ i, c i * x i := by
  induction n with
  | zero => simp
  | succ n ih => rw [List.ofFn_succ, List.ofFn_succ, dot_cons, ih, Fin.sum_univ_succ]

end Products

namespace Row

/-- The row is an equation that the numbers satisfy. -/
def Holds (value : α → K) (r : Row α) (xs : List K) : Prop :=
  dot (r.coefficients.map value) xs = value r.rhs

variable [LinearOrder K] {pivot r : Row α} {x : K} {xs : List K}

theorem holds_ofForm (h : Scalar.Exact value) {unknowns : List String} {σ : String → K}
    {f : LinearForm α} :
    (ofForm unknowns f).Holds value (unknowns.map σ) ↔ f.total value unknowns σ = 0 := by
  have hdot : dot ((ofForm unknowns f).coefficients.map value) (unknowns.map σ) =
      (unknowns.map fun x => LinearForm.coefficient value f.slopes x * σ x).sum := by
    simp only [dot, ofForm, List.map_map, List.zipWith_map, List.zipWith_self]
    rfl
  rw [Holds, hdot, ofForm, h.neg, eq_neg_iff_add_eq_zero, add_comm]
  rfl

theorem eliminate_holds (h : Scalar.Exact value) (hpivot : value pivot.head ≠ 0)
    (hlength : r.coefficients.length = pivot.coefficients.length)
    (hx : pivot.Holds value (x :: xs)) :
    (eliminate pivot r).tail.Holds value xs ↔ r.Holds value (x :: xs) := by
  obtain ⟨coefficients, p⟩ := pivot
  obtain ⟨coefficients', c⟩ := r
  cases coefficients with
  | nil => exact absurd h.zero hpivot
  | cons a as =>
    cases coefficients' with
    | nil => simp at hlength
    | cons b bs =>
      have ha : value a ≠ 0 := hpivot
      have hlengths : (bs.map value).length = (as.map value).length := by simpa using hlength
      have hsteps (c p : α) : value (c - b / a * p) = value c - value b / value a * value p := by
        rw [h.sub, h.mul, h.div ha]
      have hmap : (List.zipWith (fun c p => c - b / a * p) bs as).map value =
          List.zipWith (fun c p => c - value b / value a * p) (bs.map value) (as.map value) := by
        simp only [List.map_zipWith, List.zipWith_map, hsteps]
      have hp : value a * x + dot (as.map value) xs = value p := hx
      have hscaled : value b / value a * (value a * x) = value b * x := by
        rw [← mul_assoc, div_mul_cancel₀ _ ha]
      change dot ((List.zipWith (fun c p => c - b / a * p) bs as).map value) xs =
        value (c - b / a * p) ↔ value b * x + dot (bs.map value) xs = value c
      rw [hmap, dot_eliminate _ hlengths, hsteps, ← hp, mul_add, hscaled]
      constructor
      · intro heq
        linear_combination heq
      · intro heq
        linear_combination heq

end Row

namespace LinearSystem

theorem bringToFront_perm {β : Type} (i : Nat) (bs : List β) : (bringToFront i bs).Perm bs := by
  cases bs with
  | nil => exact List.Perm.refl []
  | cons a as =>
    cases i with
    | zero => exact List.Perm.refl _
    | succ i =>
      rw [bringToFront]
      split
      · rename_i b hb
        simpa [hb] using List.getD_set_perm_cons as i a
      · exact List.Perm.refl _

/-- One round of elimination: a row that is not small is the pivot, and the other rounds work on the
rows that are left without their first column. -/
theorem triangle_succ {tolerance : α} {column fuel : Nat} {rows triangular : List (Row α)}
    (hlength : rows.length = fuel + 1)
    (ht : triangle tolerance column rows (fuel + 1) = .ok triangular) :
    ∃ pivot others rest, (pivot :: others).Perm rows ∧ others.length = fuel ∧
      ¬Scalar.lt (Scalar.abs pivot.head) tolerance = true ∧
      triangle tolerance (column + 1) (others.map fun r => (Row.eliminate pivot r).tail) fuel =
        .ok rest ∧
      triangular = pivot :: rest := by
  have hperm := bringToFront_perm (pivotIndex rows) rows
  rw [triangle] at ht
  generalize bringToFront (pivotIndex rows) rows = ordered at hperm ht
  cases ordered with
  | nil => simp [← hperm.length_eq] at hlength
  | cons pivot others =>
    simp only at ht
    split_ifs at ht with hsmall
    obtain ⟨rest, hrest, ht⟩ := bind_eq_ok.mp ht
    have hothers : others.length = fuel := by simpa [hlength] using hperm.length_eq
    exact ⟨pivot, others, rest, hperm, hothers, hsmall, hrest, (Except.ok.inj ht).symm⟩

theorem length_triangle {tolerance : α} {column fuel : Nat} {rows triangular : List (Row α)}
    (hlength : rows.length = fuel) (ht : triangle tolerance column rows fuel = .ok triangular) :
    triangular.length = fuel := by
  induction fuel generalizing column rows triangular with
  | zero =>
    obtain rfl : [] = triangular := Except.ok.inj ht
    rfl
  | succ fuel ih =>
    obtain ⟨pivot, others, rest, -, hothers, -, hrest, rfl⟩ := triangle_succ hlength ht
    simp [ih (by simpa using hothers) hrest]

theorem length_backSubstitute (rows : List (Row α)) :
    (backSubstitute rows).length = rows.length := by
  induction rows with
  | nil => rfl
  | cons r rows ih => exact congrArg (· + 1) ih

theorem length_eliminate {tolerance : α} {rows : List (Row α)} {values : List α}
    (hvalues : eliminate tolerance rows = .ok values) : values.length = rows.length := by
  obtain ⟨triangular, ht, hback⟩ := bind_eq_ok.mp hvalues
  obtain rfl := Except.ok.inj hback
  rw [length_backSubstitute, length_triangle rfl ht]

section Matrices

def matrix (value : α → K) (fs : List (LinearForm α)) (unknowns : List String) :
    Matrix (Fin unknowns.length) (Fin unknowns.length) K :=
  fun i j => (fs.map fun f => LinearForm.coefficient value f.slopes unknowns[j]).getD i 0

variable {fs : List (LinearForm α)} {unknowns : List String}

theorem matrix_mulVec (hlength : fs.length = unknowns.length) {z : Fin unknowns.length → K}
    (hz : (matrix value fs unknowns).mulVec z = 0) :
    ∀ r ∈ fs.map (Row.ofForm unknowns), dot (r.coefficients.map value) (List.ofFn z) = 0 := by
  intro r hr
  obtain ⟨f, hf, rfl⟩ := List.mem_map.mp hr
  obtain ⟨i, hi, rfl⟩ := List.getElem_of_mem hf
  have hcoefficients : (Row.ofForm unknowns fs[i]).coefficients.map value =
      List.ofFn (matrix value fs unknowns ⟨i, hlength ▸ hi⟩) := by
    apply List.ext_getElem
    · simp [Row.ofForm]
    · intro j hj _
      simp [Row.ofForm, matrix, hi, LinearForm.coefficient, LinearForm.slope?]
  rw [hcoefficients, dot_ofFn]
  exact congrFun hz ⟨i, hlength ▸ hi⟩

theorem det_of_repeated (hrepeated : ¬unknowns.Nodup) : (matrix value fs unknowns).det = 0 := by
  rw [List.nodup_iff_injective_get, Function.not_injective_iff] at hrepeated
  obtain ⟨i, j, hij, hne⟩ := hrepeated
  apply Matrix.det_zero_of_column_eq hne
  intro k
  have hsame : unknowns[i] = unknowns[j] := hij
  simp only [matrix, hsame]

end Matrices

variable [LinearOrder K]

theorem solveRow_value (h : Scalar.Exact value) {r : Row α} (hr : value r.head ≠ 0)
    (values : List α) : value (solveRow r values) =
      (value r.rhs - dot (r.coefficients.tail.map value) (values.map value)) / value r.head := by
  have hfold (ws : List α) (u : α) :
      value (ws.foldl (· + ·) u) = value u + (ws.map value).sum := by
    induction ws generalizing u with
    | nil => simp
    | cons w ws ih => rw [List.foldl_cons, ih, h.add, List.map_cons, List.sum_cons, add_assoc]
  rw [solveRow, h.div hr, h.sub, hfold, h.zero, zero_add, dot, List.map_zipWith, List.zipWith_map]
  congr 4
  funext c p
  exact h.mul c p

theorem solveRow_holds (h : Scalar.Exact value) {r : Row α} (hr : value r.head ≠ 0)
    {values : List α} {x : K} :
    r.Holds value (x :: values.map value) ↔ x = value (solveRow r values) := by
  rw [solveRow_value h hr]
  obtain ⟨coefficients, c⟩ := r
  cases coefficients with
  | nil => exact absurd h.zero hr
  | cons a as =>
    have ha : value a ≠ 0 := hr
    change value a * x + dot (as.map value) (values.map value) = value c ↔
      x = (value c - dot (as.map value) (values.map value)) / value a
    rw [eq_div_iff ha, eq_sub_iff_add_eq, mul_comm]

variable [IsStrictOrderedRing K]

/-- Triangular form and back substitution find the only solution of a square system. -/
theorem triangle_holds (h : Scalar.Exact value) {tolerance : α} (htolerance : 0 < value tolerance)
    {column fuel : Nat} {rows triangular : List (Row α)} (hlength : rows.length = fuel)
    (hrows : ∀ r ∈ rows, r.coefficients.length = fuel)
    (ht : triangle tolerance column rows fuel = .ok triangular) {xs : List K}
    (hxs : xs.length = fuel) :
    (∀ r ∈ rows, r.Holds value xs) ↔ xs = (backSubstitute triangular).map value := by
  induction fuel generalizing column rows triangular xs with
  | zero =>
    obtain rfl := List.length_eq_zero_iff.mp hlength
    obtain rfl := List.length_eq_zero_iff.mp hxs
    obtain rfl : [] = triangular := Except.ok.inj ht
    simp [backSubstitute]
  | succ fuel ih =>
    obtain ⟨pivot, others, rest, hperm, hothers, hsmall, hrest, rfl⟩ := triangle_succ hlength ht
    obtain ⟨x, ys, rfl⟩ := List.exists_cons_of_length_eq_add_one hxs
    have hpivot : value pivot.head ≠ 0 := by
      intro hzero
      apply hsmall
      rw [h.lt, h.abs, hzero, abs_zero]
      exact htolerance
    have hcoefficients : ∀ r ∈ pivot :: others, r.coefficients.length = fuel + 1 :=
      fun r hr => hrows r (hperm.mem_iff.mp hr)
    have hmatch : ∀ r ∈ others, r.coefficients.length = pivot.coefficients.length := by
      intro r hr
      rw [hcoefficients r (by simp [hr]), hcoefficients pivot (by simp)]
    have hsquare : ∀ r ∈ others.map fun r => (Row.eliminate pivot r).tail,
        r.coefficients.length = fuel := by
      intro r hr
      obtain ⟨q, hq, rfl⟩ := List.mem_map.mp hr
      simp [Row.tail, Row.eliminate, hmatch q hq, hcoefficients pivot (by simp)]
    have hys : ys.length = fuel := by simpa using hxs
    have hrest := ih (by simpa using hothers) hsquare hrest hys
    -- the smaller system fixes the other unknowns, and then the pivot row fixes the first
    calc (∀ r ∈ rows, r.Holds value (x :: ys))
        ↔ pivot.Holds value (x :: ys) ∧ ∀ r ∈ others, r.Holds value (x :: ys) := by
          simp only [← hperm.mem_iff, List.forall_mem_cons]
      _ ↔ pivot.Holds value (x :: ys) ∧ ys = (backSubstitute rest).map value := by
          refine and_congr_right fun hx => ?_
          rw [← hrest, List.forall_mem_map]
          exact forall₂_congr fun r hr =>
            (Row.eliminate_holds h hpivot (hmatch r hr) hx).symm
      _ ↔ x :: ys = (backSubstitute (pivot :: rest)).map value := by
          constructor
          · rintro ⟨hx, rfl⟩
            rw [(solveRow_holds h hpivot).mp hx]
            rfl
          · intro heq
            obtain ⟨hx, rfl⟩ := List.cons.inj heq
            exact ⟨(solveRow_holds h hpivot).mpr hx, rfl⟩

variable {fs : List (LinearForm α)} {unknowns : List String}

theorem eliminate_forms (h : Scalar.Exact value) {tolerance : α} (htolerance : 0 < value tolerance)
    (hlength : fs.length = unknowns.length) {values : List α}
    (hvalues : eliminate tolerance (fs.map (Row.ofForm unknowns)) = .ok values) {xs : List K}
    (hxs : xs.length = unknowns.length) :
    (∀ r ∈ fs.map (Row.ofForm unknowns), r.Holds value xs) ↔ xs = values.map value := by
  obtain ⟨triangular, ht, hback⟩ := bind_eq_ok.mp hvalues
  obtain rfl := Except.ok.inj hback
  have hrows : (fs.map (Row.ofForm unknowns)).length = unknowns.length := by simpa using hlength
  have hsquare : ∀ r ∈ fs.map (Row.ofForm unknowns), r.coefficients.length = unknowns.length := by
    intro r hr
    obtain ⟨f, -, rfl⟩ := List.mem_map.mp hr
    simp [Row.ofForm]
  rw [hrows] at ht
  exact triangle_holds h htolerance hrows hsquare ht hxs

/-- Elimination fails on a singular system: its solution would not be the only one. -/
theorem eliminate_singular (h : Scalar.Exact value) {tolerance : α}
    (htolerance : 0 < value tolerance) (hlength : fs.length = unknowns.length)
    (hsingular : (matrix value fs unknowns).det = 0) :
    ∃ fault, eliminate tolerance (fs.map (Row.ofForm unknowns)) = .error fault := by
  obtain ⟨z, hz, hkernel⟩ := Matrix.exists_mulVec_eq_zero_iff.mpr hsingular
  have hproduct := matrix_mulVec hlength hkernel
  cases hvalues : eliminate tolerance (fs.map (Row.ofForm unknowns)) with
  | error fault => exact ⟨fault, rfl⟩
  | ok values =>
    exfalso
    have hcount : values.length = unknowns.length := by
      rw [length_eliminate hvalues, List.length_map, hlength]
    have hlengths : (values.map value).length = (List.ofFn z).length := by simp [hcount]
    have hvalue := eliminate_forms h htolerance hlength hvalues
      (show (values.map value).length = unknowns.length by simpa using hcount)
    have hshifted : ∀ r ∈ fs.map (Row.ofForm unknowns),
        r.Holds value (List.zipWith (· + ·) (values.map value) (List.ofFn z)) := by
      intro r hr
      rw [Row.Holds, dot_add hlengths, hproduct r hr, add_zero]
      exact hvalue.mpr rfl r hr
    have hsame := (eliminate_forms h htolerance hlength hvalues (by simp [hcount])).mp hshifted
    apply hz
    funext i
    have hi := congrArg (fun xs => xs[i]?) hsame
    simpa [hcount] using hi

end LinearSystem

namespace Solver

open Traced

section Results

variable {s : Solver α} {unknowns : List String} {equations es : List (Expr α)}
  {fs : List (LinearForm α)}

theorem systemRows_ensures {row : Nat}
    (hnormal : List.Forall₂ (fun q e => (normalize s.simplifier q).result = .ok e) equations es)
    (hforms : List.Forall₂ (fun e f => e.linearForm? unknowns = some f) es fs) :
    Ensures (s.systemRows unknowns row equations) (· = fs.map (Row.ofForm unknowns))
      fun _ => False := by
  induction hnormal generalizing fs row with
  | nil =>
    obtain rfl := List.forall₂_nil_left_iff.mp hforms
    exact ensures_pure rfl
  | @cons q e _ _ hq _ ih =>
    obtain ⟨f, fs', hf, hfs, rfl⟩ := List.forall₂_cons_left_iff.mp hforms
    have hnormalized : Ensures (normalize s.simplifier q) (· = e) fun _ => False := by
      intro log
      rw [normalize_logFree s.simplifier q log, hq]
      exact rfl
    apply hnormalized.bind
    rintro d rfl
    rw [hf]
    apply (ih hfs).bind
    rintro rows rfl
    exact ensures_pure rfl

theorem solveSystem_ensures
    (hnormal : List.Forall₂ (fun q e => (normalize s.simplifier q).result = .ok e) equations es)
    (hforms : List.Forall₂ (fun e f => e.linearForm? unknowns = some f) es fs)
    (hlength : es.length = unknowns.length) (hne : unknowns ≠ []) :
    match LinearSystem.eliminate s.tolerance (fs.map (Row.ofForm unknowns)) with
    | .error fault => Ensures (s.solveSystem equations unknowns) (fun _ => False)
        (· = .engine (.noUniqueSolution fault))
    | .ok values => Ensures (s.solveSystem equations unknowns)
        (fun sol => numbers values = .ok sol.solutions) fun _ => True := by
  have hshape : ¬(equations.length ≠ unknowns.length ∨ unknowns.isEmpty = true) := by
    simp [hnormal.length_eq, hlength, hne]
  have hrows : Ensures (s.systemRows unknowns 1 equations) (· = fs.map (Row.ofForm unknowns))
      fun _ => False := systemRows_ensures hnormal hforms
  unfold solveSystem
  rw [if_neg hshape]
  split
  · rename_i fault hfault
    apply (hrows.weaken fun _ h => nomatch h).bind
    rintro rows rfl
    rw [hfault]
    exact ensures_throw rfl
  · rename_i values hvalues
    apply (hrows.weaken fun _ _ => trivial).bind
    rintro rows rfl
    rw [hvalues]
    apply ensures_after
    intro _
    apply lift_bind_ensures
    intro solutions hsolutions
    exact ensures_pure hsolutions

end Results

section Exact

variable [LinearOrder K] [IsStrictOrderedRing K] {s : Solver α} {unknowns : List String}
  {equations es : List (Expr α)} {fs : List (LinearForm α)}

theorem nodup_unknowns (h : Scalar.Exact value) (htolerance : 0 < value s.tolerance)
    (hlength : fs.length = unknowns.length) {values : List α}
    (hvalues : LinearSystem.eliminate s.tolerance (fs.map (Row.ofForm unknowns)) = .ok values) :
    unknowns.Nodup := by
  by_contra hrepeated
  obtain ⟨fault, hfault⟩ := LinearSystem.eliminate_singular h htolerance hlength
    (LinearSystem.det_of_repeated hrepeated)
  rw [hfault] at hvalues
  cases hvalues

/-- The expressions are all zero exactly where the unknowns have the values that elimination found. -/
theorem vanish_iff (h : Scalar.Exact value) (htolerance : 0 < value s.tolerance)
    (hforms : List.Forall₂ (fun e f => e.linearForm? unknowns = some f) es fs)
    (hlength : fs.length = unknowns.length) {values : List α}
    (hvalues : LinearSystem.eliminate s.tolerance (fs.map (Row.ofForm unknowns)) = .ok values)
    {env : Environment α} (hconstants : ∀ x ∈ constants, x ∉ unknowns → env x = none)
    {ws : List α} (hws : List.Forall₂ (fun x w => env x = some w) unknowns ws) :
    (∀ e ∈ es, ∃ u, e.evaluate env = .ok u ∧ value u = 0) ↔ ws.map value = values.map value := by
  have hnodup := nodup_unknowns h htolerance hlength hvalues
  let σ (x : String) : K := ((env x).map value).getD 0
  have hσ : unknowns.map σ = ws.map value :=
    (map_eq_of_forall₂ hws fun x w hw => by simp [σ, hw]).symm
  have hread : env.Reads value unknowns σ := by
    refine ⟨forall_mem_of_forall₂ hws.flip fun w x hw => ⟨w, hw, ?_⟩, hconstants⟩
    simp [σ, show env x = some w from hw]
  calc (∀ e ∈ es, ∃ u, e.evaluate env = .ok u ∧ value u = 0)
      ↔ ∀ f ∈ fs, f.total value unknowns σ = 0 := by
        apply forall_mem_iff_of_forall₂ hforms
        intro e f hf
        obtain ⟨-, w, hw, hvalue⟩ := Expr.linearForm?_total h hnodup hread hf
        simp [hw, hvalue]
    _ ↔ ∀ r ∈ fs.map (Row.ofForm unknowns), r.Holds value (ws.map value) := by
        rw [List.forall_mem_map, ← hσ]
        exact forall₂_congr fun f _ => (Row.holds_ofForm h).symm
    _ ↔ ws.map value = values.map value :=
        LinearSystem.eliminate_forms h htolerance hlength hvalues (by simp [hws.length_eq])

/-- Linear systems are solved exactly. Where elimination ends with values, these make all expressions
zero and no others do, and the solution reports them; a singular system has no solution. -/
theorem solveSystem_exact (h : Scalar.Exact value) (htolerance : 0 < value s.tolerance)
    (hnormal : List.Forall₂ (fun q e => (normalize s.simplifier q).result = .ok e) equations es)
    (hforms : List.Forall₂ (fun e f => e.linearForm? unknowns = some f) es fs)
    (hlength : es.length = unknowns.length) (hne : unknowns ≠ []) :
    (∀ values, LinearSystem.eliminate s.tolerance (fs.map (Row.ofForm unknowns)) = .ok values →
      unknowns.Nodup ∧ values.length = unknowns.length ∧
      ∀ env : Environment α, (∀ x ∈ constants, x ∉ unknowns → env x = none) →
        ∀ ws, List.Forall₂ (fun x w => env x = some w) unknowns ws →
          ((∀ e ∈ es, ∃ u, e.evaluate env = .ok u ∧ value u = 0) ↔
            ws.map value = values.map value)) ∧
      (∀ sol, (s.solveSystem equations unknowns).result = .ok sol →
        ∃ values, LinearSystem.eliminate s.tolerance (fs.map (Row.ofForm unknowns)) = .ok values ∧
          numbers values = .ok sol.solutions) ∧
      ((LinearSystem.matrix value fs unknowns).det = 0 ∨ ¬unknowns.Nodup →
        ∃ fault, (s.solveSystem equations unknowns).result =
          .error (.engine (.noUniqueSolution fault))) := by
  have hforms_length : fs.length = unknowns.length := hforms.length_eq ▸ hlength
  have hsolve := solveSystem_ensures hnormal hforms hlength hne
  refine ⟨fun values hvalues => ⟨nodup_unknowns h htolerance hforms_length hvalues, ?_, ?_⟩,
    fun sol hsol => ?_, fun hs => ?_⟩
  · rw [LinearSystem.length_eliminate hvalues, List.length_map, hforms_length]
  · exact fun env hconstants ws hws =>
      vanish_iff h htolerance hforms hforms_length hvalues hconstants hws
  · split at hsolve
    · have hresult := hsolve.result
      rw [hsol] at hresult
      exact hresult.elim
    · rename_i values hvalues
      have hresult := hsolve.result
      rw [hsol] at hresult
      exact ⟨values, hvalues, hresult⟩
  · have hdet : (LinearSystem.matrix value fs unknowns).det = 0 :=
      hs.elim id LinearSystem.det_of_repeated
    obtain ⟨fault, hfault⟩ := LinearSystem.eliminate_singular h htolerance hforms_length hdet
    rw [hfault] at hsolve
    have hresult := hsolve.result
    generalize (s.solveSystem equations unknowns).result = r at hresult ⊢
    cases r with
    | ok sol => exact hresult.elim
    | error f => exact ⟨fault, congrArg Except.error hresult⟩

-- exact arithmetic is computed, so the operations on fractions have to unfold
attribute [local semireducible] Rat.add Rat.sub Rat.mul Rat.inv

theorem solveSystem_exact_of_two_equations :
    let s : Solver Rat := ⟨⟨.standard, 50⟩, ⟨id, fun u _ => u, fun _ => [], fun _ u _ => .ok u⟩,
      false, -10, 10, 1 / 1000000000000⟩
    let x : Expr Rat := .var "x"
    let y : Expr Rat := .var "y"
    let unknowns := ["x", "y"]
    let equations : List (Expr Rat) :=
      [.eq (.op .add x y) (.ofNat 3), .eq (.op .sub x (.op .mul (.ofNat 2) y)) (.ofNat 1)]
    let es : List (Expr Rat) := [.op .sub (.op .add x y) (.ofNat 3),
      .op .sub (.op .sub x (.op .mul (.ofNat 2) y)) (.ofNat 1)]
    let fs : List (LinearForm Rat) :=
      [⟨some (-3), [("x", 1), ("y", 1)]⟩, ⟨some (-1), [("x", 1), ("y", -2)]⟩]
    List.Forall₂ (fun q e => (normalize s.simplifier q).result = .ok e) equations es ∧
      List.Forall₂ (fun e f => e.linearForm? unknowns = some f) es fs ∧
      LinearSystem.eliminate s.tolerance (fs.map (Row.ofForm unknowns)) = .ok [7 / 3, 2 / 3] ∧
      (∀ env : Environment Rat, (∀ x ∈ constants, x ∉ unknowns → env x = none) →
        ∀ ws, List.Forall₂ (fun x w => env x = some w) unknowns ws →
          ((∀ e ∈ es, ∃ u, e.evaluate env = .ok u ∧ u = 0) ↔ ws = [7 / 3, 2 / 3])) := by
  intro s x y unknowns equations es fs
  have hnormal (q e : Expr Rat)
      (h : ((normalize s.simplifier q).result.toOption == some e) = true) :
      (normalize s.simplifier q).result = .ok e := toOption_eq_some.mp (eq_of_beq h)
  have hform (e : Expr Rat) (f : LinearForm Rat)
      (h : ((e.linearForm? unknowns).map fun f => (f.constant, f.slopes)) =
        some (f.constant, f.slopes)) : e.linearForm? unknowns = some f := by
    obtain ⟨g, hg, hsame⟩ := Option.map_eq_some_iff.mp h
    rw [hg]
    cases g
    cases f
    simpa using hsame
  have hequations : List.Forall₂ (fun q e => (normalize s.simplifier q).result = .ok e)
      equations es :=
    .cons (hnormal _ _ (by decide)) (.cons (hnormal _ _ (by decide)) .nil)
  have hforms : List.Forall₂ (fun e f => e.linearForm? unknowns = some f) es fs :=
    .cons (hform _ _ (by decide)) (.cons (hform _ _ (by decide)) .nil)
  have hvalues : LinearSystem.eliminate s.tolerance (fs.map (Row.ofForm unknowns)) =
      .ok [7 / 3, 2 / 3] := toOption_eq_some.mp (by decide)
  have htolerance : 0 < id s.tolerance := by norm_num [s]
  obtain ⟨hsolution, -, -⟩ :=
    solveSystem_exact Scalar.exact_rat htolerance hequations hforms rfl (by simp [unknowns])
  refine ⟨hequations, hforms, hvalues, fun env hconstants ws hws => ?_⟩
  simpa using (hsolution _ hvalues).2.2 env hconstants ws hws

end Exact

end Solver

end RuleAlgebra
