import RuleAlgebra.Polynomial.Coefficients
import RuleAlgebra.Proofs.Interpretation
import RuleAlgebra.Proofs.Occurrences
import RuleAlgebra.Proofs.Outcomes

/-!
The coefficients of an expression as a polynomial in one variable. The operations on coefficients by
degree are those of polynomials, the coefficients of an expression are built from its parts without
the variable, and the polynomial has the value of the expression.
-/

namespace RuleAlgebra

section Horner

variable {K : Type*} [Field K] {u : K}

def ascendingValue (u : K) (vs : List K) : K := vs.foldr (fun v w => v + u * w) 0

theorem ascendingValue_cons (v : K) (vs : List K) :
    ascendingValue u (v :: vs) = v + u * ascendingValue u vs := rfl

theorem ascendingValue_range (f : Nat → K) (n : Nat) :
    ascendingValue u ((List.range n).map f) = ∑ d ∈ Finset.range n, f d * u ^ d := by
  induction n generalizing f with
  | zero => simp [ascendingValue]
  | succ n ih =>
    rw [List.range_succ_eq_map, List.map_cons, List.map_map, ascendingValue_cons, ih,
      Finset.sum_range_succ', Finset.mul_sum, pow_zero, mul_one, add_comm]
    congr 1
    apply Finset.sum_congr rfl
    intro d _
    simp only [Function.comp_apply, Nat.succ_eq_add_one]
    ring

theorem ascendingValue_append {vs ws : List K} (hws : ∀ w ∈ ws, w = 0) :
    ascendingValue u (vs ++ ws) = ascendingValue u vs := by
  induction vs with
  | nil =>
    induction ws with
    | nil => rfl
    | cons w ws ih =>
      rw [List.nil_append] at ih ⊢
      rw [ascendingValue_cons, hws w (by simp), ih fun v hv => hws v (by simp [hv])]
      simp [ascendingValue]
  | cons v vs ih => rw [List.cons_append, ascendingValue_cons, ascendingValue_cons, ih]

end Horner

namespace Sparse

section Alter

variable {α : Type} {p : Sparse α} {d k : Nat} {c : Expr α} {f : Option (Expr α) → Expr α}

def degrees (p : Sparse α) : List Nat := p.map (·.1)

theorem get?_cons_self : get? ((d, c) :: p) d = some c := by simp [get?]

theorem get?_cons_ne (h : k ≠ d) : get? ((k, c) :: p) d = get? p d := by simp [get?, h]

theorem get?_eq_none (h : d ∉ p.degrees) : p.get? d = none := by
  simp only [get?, Option.map_eq_none_iff, List.find?_eq_none, beq_iff_eq]
  intro q hq hd
  exact h (List.mem_map.mpr ⟨q, hq, hd⟩)

theorem mem_of_get? (h : p.get? d = some c) : (d, c) ∈ p := by
  simp only [get?, Option.map_eq_some_iff] at h
  obtain ⟨q, hq, rfl⟩ := h
  have hd : q.1 = d := by simpa using List.find?_some hq
  rw [← hd]
  exact List.mem_of_find?_eq_some hq

theorem alter_nil : alter [] d f = [(d, f none)] := rfl

theorem alter_cons_self (h : d ∉ p.degrees) :
    alter ((d, c) :: p) d f = (d, f (some c)) :: p := by
  simp only [alter, get?_cons_self, List.map_cons, beq_self_eq_true, if_true, List.cons.injEq,
    true_and]
  refine (List.map_congr_left fun q hq => ?_).trans (List.map_id p)
  have hne : q.1 ≠ d := fun hd => h (List.mem_map.mpr ⟨q, hq, hd⟩)
  simp [hne]

theorem alter_cons_ne (h : k ≠ d) : alter ((k, c) :: p) d f = (k, c) :: alter p d f := by
  simp only [alter, get?_cons_ne h]
  cases p.get? d with
  | none => rfl
  | some e => simp [h]

theorem degrees_alter (hp : p.degrees.Nodup) :
    (p.alter d f).degrees.Nodup ∧ ∀ k, k ∈ (p.alter d f).degrees ↔ k = d ∨ k ∈ p.degrees := by
  induction p with
  | nil => simp [alter_nil, degrees]
  | cons q p ih =>
    obtain ⟨k, c⟩ := q
    obtain ⟨hk, hp'⟩ := List.nodup_cons.mp hp
    by_cases h : k = d
    · subst h
      rw [alter_cons_self hk]
      exact ⟨hp, by simp [degrees]⟩
    · rw [alter_cons_ne h]
      obtain ⟨hn, hm⟩ := ih hp'
      refine ⟨List.nodup_cons.mpr ⟨?_, hn⟩, fun j => ?_⟩
      · exact fun hkm => ((hm k).mp hkm).elim h hk
      · simp only [degrees, List.map_cons, List.mem_cons] at hm ⊢
        rw [hm]
        exact or_left_comm

theorem alter_forall {P : Expr α → Prop} (hp : ∀ q ∈ p, P q.2)
    (hf : ∀ o : Option (Expr α), (∀ c ∈ o, P c) → P (f o)) : ∀ q ∈ p.alter d f, P q.2 := by
  unfold alter
  split
  · rename_i c hc
    have hfc : P (f (some c)) := hf (some c) (by simpa using hp _ (mem_of_get? hc))
    simp only [List.forall_mem_map]
    intro q hq
    split_ifs
    · exact hfc
    · exact hp q hq
  · simp only [List.forall_mem_append, List.forall_mem_singleton]
    exact ⟨hp, hf none (by simp)⟩

section Fold

variable {β : Type} {bs : List β} {d : β → Nat} {f : β → Option (Expr α) → Expr α}

theorem foldl_alter_forall {P : Expr α → Prop} (hp : ∀ q ∈ p, P q.2)
    (hf : ∀ b ∈ bs, ∀ o : Option (Expr α), (∀ c ∈ o, P c) → P (f b o)) :
    ∀ q ∈ bs.foldl (fun out b => out.alter (d b) (f b)) p, P q.2 := by
  induction bs generalizing p with
  | nil => exact hp
  | cons b bs ih =>
    obtain ⟨hb, hbs⟩ := List.forall_mem_cons.mp hf
    exact ih (alter_forall hp hb) hbs

theorem degrees_foldl_alter (hp : p.degrees.Nodup) :
    (bs.foldl (fun out b => out.alter (d b) (f b)) p).degrees.Nodup := by
  induction bs generalizing p with
  | nil => exact hp
  | cons b bs ih => exact ih (degrees_alter hp).1

end Fold

end Alter

section Products

variable {α : Type} {p q : Sparse α}

def addRow (i : Nat) (a : Expr α) (p q : Sparse α) : Sparse α :=
  q.foldl
    (fun out (j, b) => out.alter (i + j) fun
      | some c => .op .add c (.op .mul a b)
      | none => .op .mul a b)
    p

theorem mul_eq : p.mul q = p.foldl (fun out m => addRow m.1 m.2 out q) [] := rfl

theorem degrees_add (hp : p.degrees.Nodup) : (p.add q).degrees.Nodup := degrees_foldl_alter hp

theorem degrees_addRow {i : Nat} {a : Expr α} (hp : p.degrees.Nodup) :
    (addRow i a p q).degrees.Nodup := degrees_foldl_alter hp

theorem degrees_mul : (p.mul q).degrees.Nodup := by
  have step : ∀ out : Sparse α, out.degrees.Nodup →
      (p.foldl (fun out m => addRow m.1 m.2 out q) out).degrees.Nodup := by
    induction p with
    | nil => exact fun out h => h
    | cons m p ih => exact fun out h => ih _ (degrees_addRow h)
  exact step [] List.nodup_nil

theorem degrees_divide (e : Expr α) : (p.divide e).degrees = p.degrees := by
  simp [divide, degrees]

variable [Scalar α]

theorem degrees_sub (hp : p.degrees.Nodup) : (p.sub q).degrees.Nodup := degrees_foldl_alter hp

theorem degrees_power (n : Nat) : (p.power n).degrees.Nodup := by
  cases n with
  | zero => exact List.nodup_singleton 0
  | succ n => exact degrees_mul

end Products

/-- A property of expressions that numbers have, and that sums, differences and products inherit. -/
structure RingClosed {α : Type} [Scalar α] (P : Expr α → Prop) : Prop where
  num (v : α) : P (.num v)
  add {l r : Expr α} : P l → P r → P (.op .add l r)
  sub {l r : Expr α} : P l → P r → P (.op .sub l r)
  mul {l r : Expr α} : P l → P r → P (.op .mul l r)

namespace RingClosed

variable {α : Type} [Scalar α] {P : Expr α → Prop} {p q : Sparse α}

theorem sparse_add (hP : RingClosed P) (hp : ∀ m ∈ p, P m.2) (hq : ∀ m ∈ q, P m.2) :
    ∀ m ∈ p.add q, P m.2 := by
  apply foldl_alter_forall hp
  intro m hm o ho
  cases o with
  | none => exact hq m hm
  | some b => exact hP.add (ho b rfl) (hq m hm)

theorem sparse_sub (hP : RingClosed P) (hp : ∀ m ∈ p, P m.2) (hq : ∀ m ∈ q, P m.2) :
    ∀ m ∈ p.sub q, P m.2 := by
  apply foldl_alter_forall hp
  intro m hm o ho
  cases o with
  | none => exact hP.mul (hP.num _) (hq m hm)
  | some b => exact hP.sub (ho b rfl) (hq m hm)

theorem sparse_addRow (hP : RingClosed P) {i : Nat} {a : Expr α} (ha : P a) (hp : ∀ m ∈ p, P m.2)
    (hq : ∀ m ∈ q, P m.2) : ∀ m ∈ addRow i a p q, P m.2 := by
  apply foldl_alter_forall hp
  intro m hm o ho
  cases o with
  | none => exact hP.mul ha (hq m hm)
  | some b => exact hP.add (ho b rfl) (hP.mul ha (hq m hm))

theorem sparse_mul (hP : RingClosed P) (hp : ∀ m ∈ p, P m.2) (hq : ∀ m ∈ q, P m.2) :
    ∀ m ∈ p.mul q, P m.2 := by
  have rows : ∀ out : Sparse α, (∀ m ∈ out, P m.2) →
      ∀ m ∈ p.foldl (fun out m => addRow m.1 m.2 out q) out, P m.2 := by
    induction p with
    | nil => exact fun out h => h
    | cons m p ih =>
      obtain ⟨hm, hp'⟩ := List.forall_mem_cons.mp hp
      exact fun out h => ih hp' _ (hP.sparse_addRow hm h hq)
  exact rows [] (by simp)

theorem sparse_power (hP : RingClosed P) (hp : ∀ m ∈ p, P m.2) (n : Nat) :
    ∀ m ∈ p.power n, P m.2 := by
  induction n with
  | zero => simpa [power, Expr.ofNat] using hP.num _
  | succ n ih => exact hP.sparse_mul ih hp

end RingClosed

/-- Values of the expressions that satisfy `P`, under which sums, differences and products mean what
they are. -/
structure RingValues {α : Type} [Scalar α] {K : Type*} [Field K] (P : Expr α → Prop)
    (φ : Expr α → K) : Prop where
  num (v : α) : P (.num v)
  zero : φ (Expr.ofNat 0) = 0
  one : φ (Expr.ofNat 1) = 1
  minusOne : φ (Expr.ofInt (-1)) = -1
  add {l r : Expr α} : P l → P r → P (.op .add l r) ∧ φ (.op .add l r) = φ l + φ r
  sub {l r : Expr α} : P l → P r → P (.op .sub l r) ∧ φ (.op .sub l r) = φ l - φ r
  mul {l r : Expr α} : P l → P r → P (.op .mul l r) ∧ φ (.op .mul l r) = φ l * φ r

theorem RingValues.ringClosed {α : Type} [Scalar α] {K : Type*} [Field K] {P : Expr α → Prop}
    {φ : Expr α → K} (h : RingValues P φ) : RingClosed P where
  num := h.num
  add hl hr := (h.add hl hr).1
  sub hl hr := (h.sub hl hr).1
  mul hl hr := (h.mul hl hr).1

section Values

variable {α : Type} {K : Type*} [Field K] {P : Expr α → Prop} {φ : Expr α → K} {u : K}
  {p q : Sparse α}

def coefficient (φ : Expr α → K) (o : Option (Expr α)) : K := (o.map φ).getD 0

def total (φ : Expr α → K) (u : K) (p : Sparse α) : K := (p.map fun m => φ m.2 * u ^ m.1).sum

@[simp] theorem total_nil : total φ u [] = 0 := rfl

@[simp] theorem total_cons (m : Nat × Expr α) :
    total φ u (m :: p) = φ m.2 * u ^ m.1 + total φ u p := by simp [total]

theorem total_alter {d : Nat} {v : K} {f : Option (Expr α) → Expr α} (hp : p.degrees.Nodup)
    (hP : ∀ m ∈ p, P m.2)
    (hf : ∀ o : Option (Expr α), (∀ c ∈ o, P c) → φ (f o) = coefficient φ o + v) :
    total φ u (p.alter d f) = total φ u p + v * u ^ d := by
  induction p with
  | nil => simp [alter_nil, hf none (by simp), coefficient]
  | cons m p ih =>
    obtain ⟨k, c⟩ := m
    obtain ⟨hk, hp'⟩ := List.nodup_cons.mp hp
    obtain ⟨hc, hP'⟩ := List.forall_mem_cons.mp hP
    by_cases h : k = d
    · subst h
      have hfc : φ (f (some c)) = φ c + v := hf (some c) (by simpa using hc)
      simp only [alter_cons_self hk, total_cons, hfc]
      ring
    · simp only [alter_cons_ne h, total_cons, ih hp' hP']
      ring

theorem total_foldl_alter {β : Type} {bs : List β} {d : β → Nat} {v : β → K}
    {f : β → Option (Expr α) → Expr α} (hp : p.degrees.Nodup) (hP : ∀ m ∈ p, P m.2)
    (hf : ∀ b ∈ bs, ∀ o : Option (Expr α), (∀ c ∈ o, P c) →
      P (f b o) ∧ φ (f b o) = coefficient φ o + v b) :
    total φ u (bs.foldl (fun out b => out.alter (d b) (f b)) p) =
      total φ u p + (bs.map fun b => v b * u ^ d b).sum := by
  induction bs generalizing p with
  | nil => simp
  | cons b bs ih =>
    obtain ⟨hb, hbs⟩ := List.forall_mem_cons.mp hf
    rw [List.foldl_cons, ih (degrees_alter hp).1 (alter_forall hP fun o ho => (hb o ho).1) hbs,
      total_alter hp hP fun o ho => (hb o ho).2, List.map_cons, List.sum_cons, add_assoc]

theorem total_divide {e : Expr α} {w : K} (h : ∀ m ∈ p, φ (.op .div m.2 e) = φ m.2 / w) :
    total φ u (p.divide e) = total φ u p / w := by
  induction p with
  | nil => simp [divide]
  | cons m p ih =>
    obtain ⟨hm, hp⟩ := List.forall_mem_cons.mp h
    change total φ u ((m.1, .op .div m.2 e) :: divide p e) = _
    rw [total_cons, ih hp, total_cons, hm]
    ring

theorem total_eq_sum {n : Nat} (hp : p.degrees.Nodup) (hn : ∀ m ∈ p, m.1 < n) :
    total φ u p = ∑ d ∈ Finset.range n, coefficient φ (p.get? d) * u ^ d := by
  induction p with
  | nil => simp [get?, coefficient]
  | cons m p ih =>
    obtain ⟨k, c⟩ := m
    obtain ⟨hk, hp'⟩ := List.nodup_cons.mp hp
    obtain ⟨hkn, hn'⟩ := List.forall_mem_cons.mp hn
    have hget (d : Nat) : coefficient φ (get? ((k, c) :: p) d) * u ^ d =
        (if k = d then φ c * u ^ d else 0) + coefficient φ (get? p d) * u ^ d := by
      by_cases h : k = d
      · subst h
        simp [get?_cons_self, get?_eq_none hk, coefficient]
      · simp [get?_cons_ne h, h]
    rw [total_cons, ih hp' hn']
    simp only [hget, Finset.sum_add_distrib, Finset.sum_ite_eq, Finset.mem_range, hkn, if_true]

theorem le_top {m : Nat × Expr α} (hm : m ∈ p) : m.1 ≤ p.top := by
  have bound (k : Nat) : k ≤ p.foldl (fun m q => Nat.max m q.1) k ∧
      ∀ q ∈ p, q.1 ≤ p.foldl (fun m q => Nat.max m q.1) k := by
    clear hm
    induction p generalizing k with
    | nil => simp
    | cons q p ih =>
      obtain ⟨h1, h2⟩ := ih (Nat.max k q.1)
      refine ⟨(Nat.le_max_left _ _).trans h1, List.forall_mem_cons.mpr ⟨?_, h2⟩⟩
      exact (Nat.le_max_right _ _).trans h1
  exact (bound 0).2 m hm

theorem ascendingValue_total (hp : p.degrees.Nodup) :
    ascendingValue u ((List.range (p.top + 1)).map fun d => coefficient φ (p.get? d)) =
      total φ u p := by
  rw [ascendingValue_range]
  exact (total_eq_sum hp fun m hm => Nat.lt_succ_of_le (le_top hm)).symm

section Dense

variable [Scalar α]

def dense (p : Sparse α) : List (Expr α) :=
  (List.range (p.top + 1)).map fun d => (p.get? d).getD (Expr.ofNat 0)

theorem mem_dense {c : Expr α} (hc : c ∈ p.dense) : (∃ k, (k, c) ∈ p) ∨ c = Expr.ofNat 0 := by
  obtain ⟨d, -, rfl⟩ := List.mem_map.mp hc
  cases h : p.get? d with
  | none => exact .inr rfl
  | some c => exact .inl ⟨d, mem_of_get? h⟩

theorem map_dense (hzero : φ (Expr.ofNat 0) = 0) :
    p.dense.map φ = (List.range (p.top + 1)).map fun d => coefficient φ (p.get? d) := by
  rw [dense, List.map_map]
  refine List.map_congr_left fun d _ => ?_
  cases h : p.get? d <;> simp [h, hzero, coefficient]

end Dense

variable [Scalar α] (h : RingValues P φ)
include h

theorem total_add (hp : p.degrees.Nodup) (hpP : ∀ m ∈ p, P m.2) (hqP : ∀ m ∈ q, P m.2) :
    total φ u (p.add q) = total φ u p + total φ u q := by
  apply total_foldl_alter hp hpP
  intro m hm o ho
  cases o with
  | none => simp [coefficient, hqP m hm]
  | some b => exact h.add (ho b rfl) (hqP m hm)

theorem total_sub (hp : p.degrees.Nodup) (hpP : ∀ m ∈ p, P m.2) (hqP : ∀ m ∈ q, P m.2) :
    total φ u (p.sub q) = total φ u p - total φ u q := by
  refine (total_foldl_alter (v := fun m => -φ m.2) hp hpP fun m hm o ho => ?_).trans ?_
  · cases o with
    | none =>
      obtain ⟨hneg, vneg⟩ := h.mul (h.num (Scalar.ofInt (-1))) (hqP m hm)
      have hone : φ (.num (Scalar.ofInt (-1))) = -1 := h.minusOne
      refine ⟨hneg, vneg.trans ?_⟩
      simp [hone, coefficient]
    | some b =>
      obtain ⟨hsub, vsub⟩ := h.sub (ho b rfl) (hqP m hm)
      exact ⟨hsub, vsub.trans (sub_eq_add_neg _ _)⟩
  · rw [sub_eq_add_neg]
    congr 1
    clear hqP
    induction q with
    | nil => simp
    | cons m q ih =>
      rw [List.map_cons, List.sum_cons, ih, total_cons]
      ring

theorem total_addRow (i : Nat) {a : Expr α} (ha : P a) (hp : p.degrees.Nodup)
    (hpP : ∀ m ∈ p, P m.2) (hqP : ∀ m ∈ q, P m.2) :
    total φ u (addRow i a p q) = total φ u p + φ a * u ^ i * total φ u q := by
  refine (total_foldl_alter (v := fun m => φ a * φ m.2) hp hpP fun m hm o ho => ?_).trans ?_
  · obtain ⟨hmul, vmul⟩ := h.mul ha (hqP m hm)
    cases o with
    | none => exact ⟨hmul, vmul.trans (by simp [coefficient])⟩
    | some b =>
      obtain ⟨hadd, vadd⟩ := h.add (ho b rfl) hmul
      exact ⟨hadd, vadd.trans (by rw [vmul]; rfl)⟩
  · congr 1
    clear hqP
    induction q with
    | nil => simp
    | cons m q ih =>
      rw [List.map_cons, List.sum_cons, ih, total_cons]
      ring

theorem total_mul (hpP : ∀ m ∈ p, P m.2) (hqP : ∀ m ∈ q, P m.2) :
    total φ u (p.mul q) = total φ u p * total φ u q := by
  -- the rows are added one by one to what those before have made
  have rows : ∀ out : Sparse α, out.degrees.Nodup → (∀ m ∈ out, P m.2) →
      total φ u (p.foldl (fun out m => addRow m.1 m.2 out q) out) =
        total φ u out + total φ u p * total φ u q := by
    induction p with
    | nil => simp
    | cons m p ih =>
      intro out hdegrees hout
      obtain ⟨hm, hp⟩ := List.forall_mem_cons.mp hpP
      rw [List.foldl_cons, ih hp _ (degrees_addRow hdegrees) (h.ringClosed.sparse_addRow hm hout hqP),
        total_addRow h _ hm hdegrees hout hqP, total_cons]
      ring
  rw [mul_eq, rows [] List.nodup_nil (by simp), total_nil, zero_add]

theorem total_power (hpP : ∀ m ∈ p, P m.2) (n : Nat) : total φ u (p.power n) = total φ u p ^ n := by
  induction n with
  | zero => simp [power, h.one]
  | succ n ih => rw [power, total_mul h (h.ringClosed.sparse_power hpP n) hpP, ih, pow_succ]

end Values

end Sparse

namespace Expr

section Trimming

theorem ascendingValue_trimEnd {β : Type} {K : Type*} [Field K] {u : K} {zero : β → Bool} {f : β → K}
    (hzero : ∀ b, zero b = true → f b = 0) (bs : List β) :
    ascendingValue u ((trimEnd zero bs).map f) = ascendingValue u (bs.map f) := by
  have hsplit : bs = trimEnd zero bs ++ (bs.reverse.takeWhile zero).reverse := by
    rw [trimEnd, ← List.reverse_append, List.takeWhile_append_dropWhile, List.reverse_reverse]
  conv_rhs => rw [hsplit, List.map_append]
  rw [ascendingValue_append]
  intro w hw
  obtain ⟨b, hb, rfl⟩ := List.mem_map.mp hw
  exact hzero b (List.mem_takeWhile_imp (List.mem_reverse.mp hb))

theorem mem_trimEnd {β : Type} {zero : β → Bool} {bs : List β} {b : β}
    (hb : b ∈ trimEnd zero bs) : b ∈ bs := by
  rw [trimEnd, List.mem_reverse] at hb
  exact List.mem_reverse.mp ((List.dropWhile_sublist zero).subset hb)

theorem getLast?_trimEnd {β : Type} {zero : β → Bool} {bs : List β} {b : β}
    (h : (trimEnd zero bs).getLast? = some b) : zero b = false := by
  rw [trimEnd, List.getLast?_reverse] at h
  have hnot := List.head?_dropWhile_not zero bs.reverse
  rwa [h] at hnot

end Trimming

section Coefficients

variable {α : Type} [Scalar α] {x : String} {e : Expr α} {p : Sparse α}

/-- How the coefficients of an expression in `x` come from those of its parts. -/
inductive Expands (x : String) : Expr α → Sparse α → Prop where
  | free {e : Expr α} : e.contains x = false → Expands x e [(0, e)]
  | unknown : Expands x (var x) [(1, ofNat 1)]
  | add {l r : Expr α} {p q : Sparse α} : Expands x l p → Expands x r q →
      Expands x (op .add l r) (p.add q)
  | sub {l r : Expr α} {p q : Sparse α} : Expands x l p → Expands x r q →
      Expands x (op .sub l r) (p.sub q)
  | mul {l r : Expr α} {p q : Sparse α} : Expands x l p → Expands x r q →
      Expands x (op .mul l r) (p.mul q)
  | div {l r : Expr α} {p : Sparse α} : Expands x l p → r.contains x = false →
      Expands x (op .div l r) (p.divide r)
  | pow {l r : Expr α} {p : Sparse α} {n : Nat} : Expands x l p → degree? r = some n →
      Expands x (op .pow l r) (p.power n)

theorem sparse?_expands (hp : e.sparse? x = some p) : Expands x e p := by
  fun_induction sparse? x e generalizing p with
  | case1 o l r hx =>
    obtain rfl := Option.some.inj hp
    exact .free (by simpa using hx)
  | case2 l r hx ihl ihr =>
    simp only [Option.bind_eq_bind, Option.bind_eq_some_iff] at hp
    obtain ⟨pl, hl, pr, hr, ⟨⟩⟩ := hp
    exact .add (ihl hl) (ihr hr)
  | case3 l r hx ihl ihr =>
    simp only [Option.bind_eq_bind, Option.bind_eq_some_iff] at hp
    obtain ⟨pl, hl, pr, hr, ⟨⟩⟩ := hp
    exact .sub (ihl hl) (ihr hr)
  | case4 l r hx ihl ihr =>
    simp only [Option.bind_eq_bind, Option.bind_eq_some_iff] at hp
    obtain ⟨pl, hl, pr, hr, ⟨⟩⟩ := hp
    exact .mul (ihl hl) (ihr hr)
  | case5 l r hr hx => simp at hp
  | case6 l r hr hx ihl =>
    obtain ⟨pl, hl, rfl⟩ := Option.map_eq_some_iff.mp hp
    exact .div (ihl hl) (by simpa using hr)
  | case7 l r hx ihl =>
    simp only [Option.bind_eq_bind, Option.bind_eq_some_iff] at hp
    obtain ⟨n, hn, pl, hl, ⟨⟩⟩ := hp
    exact .pow (ihl hl) hn
  | case8 y hy =>
    obtain rfl := Option.some.inj hp
    obtain rfl := eq_of_beq hy
    exact .unknown
  | case9 y hy =>
    obtain rfl := Option.some.inj hp
    exact .free (by simpa [contains] using hy)
  | case10 e _ _ hx => simp at hp
  | case11 e _ _ hx =>
    obtain rfl := Option.some.inj hp
    exact .free (by simpa using hx)

namespace Expands

theorem degrees (h : Expands x e p) : p.degrees.Nodup := by
  induction h with
  | free _ => exact List.nodup_singleton 0
  | unknown => exact List.nodup_singleton 1
  | add _ _ ihl _ => exact Sparse.degrees_add ihl
  | sub _ _ ihl _ => exact Sparse.degrees_sub ihl
  | mul _ _ _ _ => exact Sparse.degrees_mul
  | div _ _ ih => exact (Sparse.degrees_divide _).symm ▸ ih
  | pow _ _ _ => exact Sparse.degrees_power _

theorem coefficients_free (h : Expands x e p) : ∀ m ∈ p, m.2.contains x = false := by
  have hP : Sparse.RingClosed fun c : Expr α => c.contains x = false :=
    ⟨by simp [contains], by simp +contextual [contains], by simp +contextual [contains],
      by simp +contextual [contains]⟩
  induction h with
  | free he => simpa using he
  | unknown => simp [ofNat, contains]
  | add _ _ ihl ihr => exact hP.sparse_add ihl ihr
  | sub _ _ ihl ihr => exact hP.sparse_sub ihl ihr
  | mul _ _ ihl ihr => exact hP.sparse_mul ihl ihr
  | div _ hr ih =>
    intro m hm
    obtain ⟨k, hk, rfl⟩ := List.mem_map.mp hm
    simp [contains, ih k hk, hr]
  | pow _ _ ih => exact hP.sparse_power ih _

theorem coefficients_forall {P : Expr α → Prop} (hnum : ∀ v, P (num v))
    (hop : ∀ {o : Arithmetic} {l r : Expr α}, P (op o l r) ↔ P l ∧ P r) (h : Expands x e p)
    (he : P e) : ∀ m ∈ p, P m.2 := by
  have hP : Sparse.RingClosed P :=
    ⟨hnum, fun hl hr => hop.mpr ⟨hl, hr⟩, fun hl hr => hop.mpr ⟨hl, hr⟩,
      fun hl hr => hop.mpr ⟨hl, hr⟩⟩
  induction h with
  | free _ => simpa using he
  | unknown => exact List.forall_mem_singleton.mpr (hnum _)
  | add _ _ ihl ihr => exact hP.sparse_add (ihl (hop.mp he).1) (ihr (hop.mp he).2)
  | sub _ _ ihl ihr => exact hP.sparse_sub (ihl (hop.mp he).1) (ihr (hop.mp he).2)
  | mul _ _ ihl ihr => exact hP.sparse_mul (ihl (hop.mp he).1) (ihr (hop.mp he).2)
  | div _ _ ih =>
    intro m hm
    obtain ⟨k, hk, rfl⟩ := List.mem_map.mp hm
    exact hop.mpr ⟨ih (hop.mp he).1 k hk, (hop.mp he).2⟩
  | pow _ _ ih => exact hP.sparse_power (ih (hop.mp he).1) _

theorem coefficients_variables {s : Set String} (h : Expands x e p)
    (hs : ∀ y, e.contains y = true → y ∈ s) :
    ∀ m ∈ p, ∀ y, m.2.contains y = true → y ∈ s := by
  apply h.coefficients_forall (P := fun c => ∀ y, c.contains y = true → y ∈ s) _ _ hs
  · simp [contains]
  · simp [contains, or_imp, forall_and]

end Expands

end Coefficients

/-- Values that follow an expression from its parts to itself wherever polynomials do. -/
structure PolynomialValues {α : Type} [Scalar α] {K : Type*} [Field K] (P : Expr α → Prop)
    (φ : Expr α → K) : Prop extends Sparse.RingValues P φ where
  sides {o : Arithmetic} {l r : Expr α} : P (op o l r) → P l ∧ P r
  div {l r d : Expr α} : P (op .div l r) → P d →
    P (op .div d r) ∧ φ (op .div d r) = φ d / φ r
  pow {l r : Expr α} {n : Nat} : P (op .pow l r) → degree? r = some n →
    φ (op .pow l r) = φ l ^ n

/-- Where the expression has a value its coefficients have, and the polynomial has its value. -/
theorem Expands.total {α : Type} [Scalar α] {K : Type*} [Field K] {P : Expr α → Prop}
    {φ : Expr α → K} (hφ : PolynomialValues P φ) {x : String} {e : Expr α} {p : Sparse α}
    (h : Expands x e p) (he : P e) : (∀ m ∈ p, P m.2) ∧ p.total φ (φ (var x)) = φ e := by
  have hP := hφ.ringClosed
  induction h with
  | free _ => simpa using he
  | unknown => exact ⟨List.forall_mem_singleton.mpr (hφ.num _), by simp [hφ.one]⟩
  | add hl hr ihl ihr =>
    obtain ⟨dl, vl⟩ := ihl (hφ.sides he).1
    obtain ⟨dr, vr⟩ := ihr (hφ.sides he).2
    refine ⟨hP.sparse_add dl dr, ?_⟩
    rw [Sparse.total_add hφ.toRingValues hl.degrees dl dr, vl, vr,
      (hφ.add (hφ.sides he).1 (hφ.sides he).2).2]
  | sub hl hr ihl ihr =>
    obtain ⟨dl, vl⟩ := ihl (hφ.sides he).1
    obtain ⟨dr, vr⟩ := ihr (hφ.sides he).2
    refine ⟨hP.sparse_sub dl dr, ?_⟩
    rw [Sparse.total_sub hφ.toRingValues hl.degrees dl dr, vl, vr,
      (hφ.sub (hφ.sides he).1 (hφ.sides he).2).2]
  | mul hl hr ihl ihr =>
    obtain ⟨dl, vl⟩ := ihl (hφ.sides he).1
    obtain ⟨dr, vr⟩ := ihr (hφ.sides he).2
    refine ⟨hP.sparse_mul dl dr, ?_⟩
    rw [Sparse.total_mul hφ.toRingValues dl dr, vl, vr,
      (hφ.mul (hφ.sides he).1 (hφ.sides he).2).2]
  | div hl hr ih =>
    obtain ⟨dl, vl⟩ := ih (hφ.sides he).1
    refine ⟨?_, ?_⟩
    · intro m hm
      obtain ⟨k, hk, rfl⟩ := List.mem_map.mp hm
      exact (hφ.div he (dl k hk)).1
    · rw [Sparse.total_divide fun m hm => (hφ.div he (dl m hm)).2, vl,
        (hφ.div he (hφ.sides he).1).2]
  | pow hl hn ih =>
    obtain ⟨dl, vl⟩ := ih (hφ.sides he).1
    exact ⟨hP.sparse_power dl _, by rw [Sparse.total_power hφ.toRingValues dl, vl, hφ.pow he hn]⟩

section Dense

variable {α : Type} [Scalar α] {x : String} {e : Expr α} {p : Sparse α}

theorem Expands.dense_free (h : Expands x e p) : ∀ d ∈ p.dense, d.contains x = false := by
  intro d hd
  rcases Sparse.mem_dense hd with ⟨k, hk⟩ | rfl
  · exact h.coefficients_free _ hk
  · simp [ofNat, contains]

theorem Expands.dense_total {K : Type*} [Field K] {P : Expr α → Prop} {φ : Expr α → K}
    (hφ : PolynomialValues P φ) (h : Expands x e p) (he : P e) :
    (∀ d ∈ p.dense, P d) ∧ ascendingValue (φ (var x)) (p.dense.map φ) = φ e := by
  obtain ⟨hP, hvalue⟩ := h.total hφ he
  constructor
  · intro d hd
    rcases Sparse.mem_dense hd with ⟨k, hk⟩ | rfl
    · exact hP _ hk
    · exact hφ.num _
  · rw [Sparse.map_dense hφ.zero, Sparse.ascendingValue_total h.degrees, hvalue]

theorem symbolicCoefficients_dense {simplify : Expr α → Except Failure (Expr α)}
    {cs : List (Expr α)} (h : e.symbolicCoefficients x simplify = .ok (some cs)) :
    ∃ (p : Sparse α) (bs : List (Expr α)), Expands x e p ∧ cs = trimEnd (·.isNumber 0) bs ∧
      List.Forall₂ (fun d b => simplify d = .ok b ∨ d = ofNat 0 ∧ b = ofNat 0) p.dense bs := by
  unfold symbolicCoefficients at h
  split at h
  · simp [pure, Except.pure] at h
  rename_i p hp
  obtain ⟨bs, hbs, hcs⟩ := bind_eq_ok.mp h
  refine ⟨p, bs, sparse?_expands hp, (Option.some.inj (Except.ok.inj hcs)).symm, ?_⟩
  rw [Sparse.dense, List.forall₂_map_left_iff]
  apply (mapM_eq_ok.mp hbs).imp
  intro n b hb
  cases hc : p.get? n with
  | none =>
    rw [hc] at hb
    exact .inr ⟨rfl, (Except.ok.inj hb).symm⟩
  | some c =>
    rw [hc] at hb
    exact .inl hb

theorem numericCoefficients_dense {cs : List α} (h : e.numericCoefficients x = some cs) :
    ∃ (p : Sparse α) (vs : List α), Expands x e p ∧ cs = trimEnd (· == Scalar.zero) vs ∧
      List.Forall₂ (fun d v => d.closedValue? = some v) p.dense vs := by
  simp only [numericCoefficients, Option.bind_eq_bind, Option.bind_eq_some_iff] at h
  obtain ⟨p, hp, vs, hvs, ⟨⟩⟩ := h
  refine ⟨p, vs, sparse?_expands hp, rfl, ?_⟩
  rw [Sparse.dense, List.forall₂_map_left_iff]
  apply (mapM_eq_some.mp hvs).imp
  intro n v hv
  cases hc : p.get? n with
  | none =>
    rw [hc] at hv
    exact hv
  | some c =>
    rw [hc] at hv
    exact hv

end Dense

theorem toInt?_of_degree? {α : Type} [Scalar α] {e : Expr α} {n : Nat} (h : degree? e = some n) :
    ∃ v, e = num v ∧ Scalar.toInt? v = some (n : Int) := by
  cases e with
  | num v =>
    simp only [degree?] at h
    split at h
    · rename_i k hk
      simp only [Option.ite_none_right_eq_some, Option.some.injEq] at h
      obtain ⟨⟨h0, -⟩, rfl⟩ := h
      exact ⟨v, rfl, by rw [hk, Int.toNat_of_nonneg h0]⟩
    · simp at h
  | _ => simp [degree?] at h

section Interpretations

variable {K : Type*} [Field K] [CharZero K] {I : Interpretation K} {e : Expr Rat}

theorem degree?_eq_some {n : Nat} (h : degree? e = some n) : e = num (n : Rat) := by
  obtain ⟨v, rfl, hv⟩ := toInt?_of_degree? h
  rw [Scalar.toInt?_eq_some.mp hv, Int.cast_natCast]

theorem polynomialValues_interpretation
    (hpow : ∀ (u : K) (n : Nat), I.PowerDefined u n → I.power u n = u ^ n) :
    PolynomialValues (Defined I) (eval I) where
  num := defined_num I
  zero := by simp
  one := by simp
  minusOne := by simp
  add hl hr := ⟨(defined_add I _ _).mpr ⟨hl, hr⟩, eval_add I _ _⟩
  sub hl hr := ⟨(defined_sub I _ _).mpr ⟨hl, hr⟩, eval_sub I _ _⟩
  mul hl hr := ⟨(defined_mul I _ _).mpr ⟨hl, hr⟩, eval_mul I _ _⟩
  sides h := h.1
  div {l r d} h hd := by
    obtain ⟨⟨-, hr⟩, h0⟩ := (defined_div I l r).mp h
    exact ⟨(defined_div I d r).mpr ⟨⟨hd, hr⟩, h0⟩, eval_div I d r⟩
  pow {l r n} h hn := by
    obtain ⟨-, hd⟩ := (defined_pow I l r).mp h
    obtain rfl := degree?_eq_some hn
    rw [eval_num, Rat.cast_natCast] at hd
    rw [eval_pow, eval_num, Rat.cast_natCast, hpow _ _ hd]

end Interpretations

end Expr

end RuleAlgebra
