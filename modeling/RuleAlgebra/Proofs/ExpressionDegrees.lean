import RuleAlgebra.Proofs.SparsePolynomials
import RuleAlgebra.Proofs.TermValues

/-!
The degree of an expression in all of its variables, read off its operations. It bounds the degree
of an expression as a polynomial in any one variable, and no part has a higher one.
-/

namespace RuleAlgebra

namespace Expr

section Degrees

variable {α : Type} [Scalar α]

/-- The degree of an operation on expressions of given degrees; a power that is read as a polynomial
multiplies it. -/
def opDegree (o : Arithmetic) (r : Expr α) (m n : Nat) : Nat :=
  match o with
  | .add | .sub => max m n
  | .mul | .div => m + n
  | .pow =>
    match degree? r with
    | some k => max 1 k * m
    | none => m + n

mutual

def degree : Expr α → Nat
  | var _ => 1
  | op o l r => opDegree o r (degree l) (degree r)
  | fn _ as => degreeArgs as
  | eq l r => max (degree l) (degree r)
  | _ => 0

def degreeArgs : List (Expr α) → Nat
  | [] => 0
  | a :: as => degree a + degreeArgs as

end

variable {e l r : Expr α}

@[simp] theorem degree_num (v : α) : (num v).degree = 0 := rfl

@[simp] theorem degree_ofNat (n : Nat) : (ofNat n : Expr α).degree = 0 := rfl

@[simp] theorem degree_var (x : String) : (var x : Expr α).degree = 1 := rfl

@[simp] theorem degree_op (o : Arithmetic) :
    (op o l r).degree = opDegree o r l.degree r.degree := rfl

theorem degree_le_degreeArgs {as : List (Expr α)} : ∀ a ∈ as, a.degree ≤ degreeArgs as := by
  induction as with
  | nil => simp
  | cons a as ih =>
    intro b hb
    rw [degreeArgs]
    rcases List.mem_cons.mp hb with rfl | hb
    · omega
    · have := ih b hb
      omega

theorem le_opDegree (o : Arithmetic) (l r : Expr α) :
    l.degree ≤ opDegree o r l.degree r.degree ∧ r.degree ≤ opDegree o r l.degree r.degree := by
  cases o with
  | pow =>
    rw [opDegree]
    split
    · rename_i k hk
      obtain ⟨v, rfl, -⟩ := toInt?_of_degree? hk
      exact ⟨Nat.le_mul_of_pos_left _ (by omega), by simp⟩
    · omega
  | _ =>
    simp only [opDegree]
    omega

theorem degree_children (e : Expr α) : ∀ c ∈ e.children, c.degree ≤ e.degree := by
  cases e with
  | op o l r => simpa [children] using le_opDegree o l r
  | eq l r => simp [children, degree]
  | fn f as =>
    rw [children, degree]
    exact degree_le_degreeArgs
  | _ => simp [children]

end Degrees

end Expr

namespace Sparse

section Bounds

variable {α : Type} {p q : Sparse α} {k m n : Nat}

theorem mem_degrees_alter {d : Nat} {f : Option (Expr α) → Expr α}
    (h : k ∈ (p.alter d f).degrees) : k = d ∨ k ∈ p.degrees := by
  unfold alter at h
  split at h
  · right
    obtain ⟨s, hs, rfl⟩ := List.mem_map.mp h
    obtain ⟨t, ht, rfl⟩ := List.mem_map.mp hs
    refine List.mem_map.mpr ⟨t, ht, ?_⟩
    dsimp only
    split_ifs <;> rfl
  · simp only [degrees, List.map_append, List.mem_append] at h
    exact h.symm.imp (by simp) id

def DegreesLe (p : Sparse α) (n : Nat) : Prop := ∀ k ∈ p.degrees, k ≤ n

theorem DegreesLe.mono (h : p.DegreesLe m) (hmn : m ≤ n) : p.DegreesLe n :=
  fun k hk => (h k hk).trans hmn

theorem DegreesLe.foldl_alter {β : Type} {bs : List β} {d : β → Nat}
    {f : β → Option (Expr α) → Expr α} (hp : p.DegreesLe n) (hd : ∀ b ∈ bs, d b ≤ n) :
    DegreesLe (bs.foldl (fun out b => out.alter (d b) (f b)) p) n := by
  induction bs generalizing p with
  | nil => exact hp
  | cons b bs ih =>
    obtain ⟨hb, hbs⟩ := List.forall_mem_cons.mp hd
    refine ih (fun k hk => ?_) hbs
    rcases mem_degrees_alter hk with rfl | hk
    · exact hb
    · exact hp k hk

theorem DegreesLe.le (h : p.DegreesLe n) : ∀ s ∈ p, s.1 ≤ n :=
  fun s hs => h s.1 (List.mem_map.mpr ⟨s, hs, rfl⟩)

theorem DegreesLe.add (hp : p.DegreesLe m) (hq : q.DegreesLe n) :
    (p.add q).DegreesLe (max m n) :=
  (hp.mono (le_max_left m n)).foldl_alter (hq.mono (le_max_right m n)).le

theorem DegreesLe.mul (hp : p.DegreesLe m) (hq : q.DegreesLe n) :
    (p.mul q).DegreesLe (m + n) := by
  have rows : ∀ out : Sparse α, out.DegreesLe (m + n) →
      DegreesLe (p.foldl (fun out s => addRow s.1 s.2 out q) out) (m + n) := by
    induction p with
    | nil => exact fun out h => h
    | cons s p ih =>
      obtain ⟨hs, hp⟩ := List.forall_mem_cons.mp hp
      exact fun out h => ih hp _ (h.foldl_alter fun t ht => Nat.add_le_add hs (hq.le t ht))
  exact rows [] (by simp [DegreesLe, degrees])

theorem DegreesLe.divide (hp : p.DegreesLe n) (e : Expr α) : (p.divide e).DegreesLe n := by
  rwa [DegreesLe, degrees_divide]

theorem DegreesLe.top_le (h : p.DegreesLe n) : p.top ≤ n := by
  have step : ∀ k ≤ n, p.foldl (fun m s => Nat.max m s.1) k ≤ n := by
    induction p with
    | nil => exact fun k hk => hk
    | cons s p ih =>
      obtain ⟨hs, hp⟩ := List.forall_mem_cons.mp h
      exact fun k hk => ih hp _ (Nat.max_le.mpr ⟨hk, hs⟩)
  exact step 0 (Nat.zero_le n)

variable [Scalar α]

theorem DegreesLe.sub (hp : p.DegreesLe m) (hq : q.DegreesLe n) :
    (p.sub q).DegreesLe (max m n) :=
  (hp.mono (le_max_left m n)).foldl_alter (hq.mono (le_max_right m n)).le

theorem DegreesLe.power (hp : p.DegreesLe m) (k : Nat) : (p.power k).DegreesLe (k * m) := by
  induction k with
  | zero => simp [DegreesLe, Sparse.power, degrees]
  | succ k ih =>
    rw [Nat.succ_mul]
    exact ih.mul hp

end Bounds

end Sparse

namespace Expr

section Coefficients

variable {α : Type} [Scalar α] {x : String} {e : Expr α} {p : Sparse α}

theorem Expands.degreesLe (h : Expands x e p) : p.DegreesLe e.degree := by
  induction h with
  | free _ => simp [Sparse.DegreesLe, Sparse.degrees]
  | unknown => simp [Sparse.DegreesLe, Sparse.degrees]
  | add _ _ ihl ihr => simpa [opDegree] using ihl.add ihr
  | sub _ _ ihl ihr => simpa [opDegree] using ihl.sub ihr
  | mul _ _ ihl ihr => simpa [opDegree] using ihl.mul ihr
  | div _ _ ih => exact (ih.divide _).mono (by simp [opDegree])
  | @pow l r p n _ hn ih =>
    refine (ih.power n).mono ?_
    rw [degree_op, opDegree, hn]
    exact Nat.mul_le_mul_right _ (le_max_right 1 n)

theorem numericCoefficients_length {cs : List α} (h : e.numericCoefficients x = some cs) :
    cs.length ≤ e.degree + 1 := by
  obtain ⟨p, vs, hexp, rfl, hvalues⟩ := numericCoefficients_dense h
  have htrim : (trimEnd (· == Scalar.zero) vs).length ≤ vs.length := by
    have hle := (List.dropWhile_sublist (· == Scalar.zero) (l := vs.reverse)).length_le
    rwa [List.length_reverse, ← List.length_reverse] at hle
  have htop := hexp.degreesLe.top_le
  have hlength := hvalues.length_eq
  rw [Sparse.dense, List.length_map, List.length_range] at hlength
  omega

end Coefficients

end Expr

namespace Term

open RuleAlgebra.Expr

section Sums

def restDegree : Option (Expr Rat) → Nat
  | none => 0
  | some e => e.degree

theorem times_degree (v : Rat) (rest : Option (Expr Rat)) :
    (times v rest).degree = restDegree rest := by
  cases rest with
  | none => simp [times, restDegree]
  | some e =>
    by_cases h : v = 1
    · simp [times, restDegree, h]
    · simp [times, restDegree, h, opDegree]

theorem written_degree (t : Term Rat) : (written t).degree = restDegree t.rest := by
  obtain ⟨c, rest⟩ := t
  cases c with
  | inexact v => exact times_degree v rest
  | exact q =>
    simp only [written]
    split_ifs
    · exact times_degree q.num rest
    · simp [opDegree, times_degree]

theorem joined_degree (s : Expr Rat) (t : Term Rat) :
    (joined s t).degree = max s.degree (restDegree t.rest) := by
  unfold joined
  split_ifs
  · rw [degree_op, opDegree, written_degree]
  · rw [degree_op, opDegree, written_degree]

variable {n : Nat} {ts : List (Term Rat)}

theorem foldl_joined_degree (hts : ∀ t ∈ ts, restDegree t.rest ≤ n) {s : Expr Rat}
    (hs : s.degree ≤ n) : (ts.foldl joined s).degree ≤ n := by
  induction ts generalizing s with
  | nil => exact hs
  | cons t ts ih =>
    obtain ⟨ht, hts⟩ := List.forall_mem_cons.mp hts
    exact ih hts (by rw [joined_degree]; exact max_le hs ht)

theorem writtenSum_degree (hts : ∀ t ∈ ts, restDegree t.rest ≤ n) :
    (writtenSum ts).degree ≤ n := by
  have hmem : ∀ t ∈ ts.filter (!·.coefficient.isZero), restDegree t.rest ≤ n :=
    fun t ht => hts t (List.mem_of_mem_filter ht)
  unfold writtenSum
  cases hus : ts.filter (!·.coefficient.isZero) with
  | nil => simp
  | cons u us =>
    rw [hus] at hmem
    obtain ⟨hu, hus⟩ := List.forall_mem_cons.mp hmem
    exact foldl_joined_degree hus ((written_degree u).trans_le hu)

end Sums

end Term

end RuleAlgebra
