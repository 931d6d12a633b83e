import RuleAlgebra.Expr.Substitution
import RuleAlgebra.Proofs.ExactScalars

/-!
The exact value of an expression in a field, and where it is defined: a quotient needs a divisor
other than zero, and powers and functions are defined where the interpretation says so. One
expression refines another when it is defined wherever the other is, with the same value; a rewrite
that refines every expression refines every tree that it is applied to bottom-up.
-/

namespace RuleAlgebra

/-- What variables, powers and functions stand for, and where powers and functions are defined. -/
structure Interpretation (K : Type*) where
  assign : String → K
  power : K → K → K
  PowerDefined : K → K → Prop
  call : String → List K → K
  CallDefined : String → List K → Prop

namespace Interpretation

variable {K : Type*} [Field K]

def operation (I : Interpretation K) : Arithmetic → K → K → K
  | .add, a, b => a + b
  | .sub, a, b => a - b
  | .mul, a, b => a * b
  | .div, a, b => a / b
  | .pow, a, b => I.power a b

def OperationDefined (I : Interpretation K) : Arithmetic → K → K → Prop
  | .div, _, b => b ≠ 0
  | .pow, a, b => I.PowerDefined a b
  | _, _, _ => True

end Interpretation

namespace Expr

variable {K : Type*} [Field K]

mutual

/-- The value of an expression; it means nothing where the expression is not defined. -/
def eval (I : Interpretation K) : Expr Rat → K
  | num q => q
  | var x => I.assign x
  | op o l r => I.operation o (eval I l) (eval I r)
  | fn f as => I.call f (evalArgs I as)
  | eq _ _ => 0
  | wild _ _ _ => 0

def evalArgs (I : Interpretation K) : List (Expr Rat) → List K
  | [] => []
  | a :: as => eval I a :: evalArgs I as

end

mutual

/-- Whether an expression has a value. Equations and wildcards have none. -/
def Defined (I : Interpretation K) : Expr Rat → Prop
  | num _ => True
  | var _ => True
  | op o l r => (Defined I l ∧ Defined I r) ∧ I.OperationDefined o (eval I l) (eval I r)
  | fn f as => DefinedArgs I as ∧ I.CallDefined f (evalArgs I as)
  | eq _ _ => False
  | wild _ _ _ => False

def DefinedArgs (I : Interpretation K) : List (Expr Rat) → Prop
  | [] => True
  | a :: as => Defined I a ∧ DefinedArgs I as

end

section Operations

variable (I : Interpretation K) (l r : Expr Rat)

@[simp] theorem eval_num (q : Rat) : (num q).eval I = q := by rfl

@[simp] theorem eval_var (x : String) : (var x).eval I = I.assign x := by rfl

@[simp] theorem eval_add : (op .add l r).eval I = l.eval I + r.eval I := by rfl

@[simp] theorem eval_sub : (op .sub l r).eval I = l.eval I - r.eval I := by rfl

@[simp] theorem eval_mul : (op .mul l r).eval I = l.eval I * r.eval I := by rfl

@[simp] theorem eval_div : (op .div l r).eval I = l.eval I / r.eval I := by rfl

@[simp] theorem eval_pow : (op .pow l r).eval I = I.power (l.eval I) (r.eval I) := by rfl

@[simp] theorem eval_fn (f : String) (as : List (Expr Rat)) :
    (fn f as).eval I = I.call f (evalArgs I as) := by rfl

@[simp] theorem eval_ofNat (n : Nat) [CharZero K] : (ofNat n : Expr Rat).eval I = n := by
  simp [ofNat]

@[simp] theorem eval_ofInt (n : Int) [CharZero K] : (ofInt n : Expr Rat).eval I = n := by
  simp [ofInt]

@[simp] theorem defined_num (q : Rat) : (num q).Defined I := trivial

@[simp] theorem defined_var (x : String) : (var x).Defined I := trivial

@[simp] theorem defined_ofNat (n : Nat) : (ofNat n : Expr Rat).Defined I := by simp [ofNat]

@[simp] theorem defined_ofInt (n : Int) : (ofInt n : Expr Rat).Defined I := by simp [ofInt]

@[simp] theorem defined_add : (op .add l r).Defined I ↔ l.Defined I ∧ r.Defined I :=
  iff_of_eq (and_true _)

@[simp] theorem defined_sub : (op .sub l r).Defined I ↔ l.Defined I ∧ r.Defined I :=
  iff_of_eq (and_true _)

@[simp] theorem defined_mul : (op .mul l r).Defined I ↔ l.Defined I ∧ r.Defined I :=
  iff_of_eq (and_true _)

@[simp] theorem defined_div :
    (op .div l r).Defined I ↔ (l.Defined I ∧ r.Defined I) ∧ r.eval I ≠ 0 := by rfl

@[simp] theorem defined_pow :
    (op .pow l r).Defined I ↔
      (l.Defined I ∧ r.Defined I) ∧ I.PowerDefined (l.eval I) (r.eval I) := by rfl

@[simp] theorem defined_fn (f : String) (as : List (Expr Rat)) :
    (fn f as).Defined I ↔ DefinedArgs I as ∧ I.CallDefined f (evalArgs I as) := by rfl

@[simp] theorem not_defined_eq : ¬(eq l r).Defined I := not_false

@[simp] theorem not_defined_wild (n : String) (k : WildcardKind) (a : Option String) :
    ¬(wild n k a).Defined I := not_false

end Operations

/-- `d` has a value wherever `e` has one, and it is the same. -/
def Refines (I : Interpretation K) (e d : Expr Rat) : Prop :=
  e.Defined I → d.Defined I ∧ d.eval I = e.eval I

namespace Refines

variable {I : Interpretation K} {l l' r r' e d : Expr Rat}

theorem refl (e : Expr Rat) : Refines I e e := fun h => ⟨h, rfl⟩

theorem trans {c : Expr Rat} (h : Refines I e d) (h' : Refines I d c) : Refines I e c := by
  intro he
  obtain ⟨hd, hv⟩ := h he
  obtain ⟨hc, hw⟩ := h' hd
  exact ⟨hc, hw.trans hv⟩

theorem op (o : Arithmetic) (hl : Refines I l l') (hr : Refines I r r') :
    Refines I (op o l r) (op o l' r') := by
  intro h
  simp only [Defined] at h
  obtain ⟨⟨dl, dr⟩, ho⟩ := h
  obtain ⟨dl', el⟩ := hl dl
  obtain ⟨dr', er⟩ := hr dr
  simp only [Defined, eval, el, er]
  exact ⟨⟨⟨dl', dr'⟩, ho⟩, trivial⟩

theorem args {as bs : List (Expr Rat)} (h : List.Forall₂ (Refines I) as bs)
    (ha : DefinedArgs I as) : DefinedArgs I bs ∧ evalArgs I bs = evalArgs I as := by
  induction h with
  | nil => exact ⟨ha, rfl⟩
  | cons hab _ ih =>
    simp only [DefinedArgs] at ha
    obtain ⟨db, eb⟩ := hab ha.1
    obtain ⟨dbs, ebs⟩ := ih ha.2
    simp only [DefinedArgs, evalArgs, eb, ebs]
    exact ⟨⟨db, dbs⟩, trivial⟩

theorem fn (f : String) {as bs : List (Expr Rat)} (h : List.Forall₂ (Refines I) as bs) :
    Refines I (fn f as) (fn f bs) := by
  intro hd
  obtain ⟨ha, hcall⟩ := (defined_fn I f as).mp hd
  obtain ⟨db, eb⟩ := args h ha
  rw [defined_fn, eval_fn, eval_fn, eb]
  exact ⟨⟨db, hcall⟩, rfl⟩

theorem ofEq (l r e : Expr Rat) : Refines I (eq l r) e := fun h => absurd h (not_defined_eq I l r)

end Refines

end Expr

/-- A rewrite that always gives a result, which refines what it is given. -/
def KeepsValue {K : Type*} [Field K] (I : Interpretation K)
    (f : Expr Rat → Except Failure (Expr Rat)) : Prop :=
  ∀ e, ∃ d, f e = .ok d ∧ Expr.Refines I e d

namespace KeepsValue

open RuleAlgebra.Expr

variable {K : Type*} [Field K] {I : Interpretation K} {f : Expr Rat → Except Failure (Expr Rat)}

theorem ofPure {g : Expr Rat → Expr Rat} (h : ∀ e, Refines I e (g e)) :
    KeepsValue I (fun e => .ok (g e)) := fun e => ⟨g e, rfl, h e⟩

mutual

theorem transform (hf : KeepsValue I f) :
    ∀ e : Expr Rat, ∃ d, e.transform f = .ok d ∧ Refines I e d
  | num q => hf (num q)
  | var x => hf (var x)
  | wild n k a => hf (wild n k a)
  | op o l r => by
    obtain ⟨l', hl, rl⟩ := hf.transform l
    obtain ⟨r', hr, rr⟩ := hf.transform r
    obtain ⟨d, hd, rd⟩ := hf (op o l' r')
    refine ⟨d, ?_, (Refines.op o rl rr).trans rd⟩
    simp only [Expr.transform, hl, hr]
    exact hd
  | eq l r => by
    obtain ⟨l', hl, -⟩ := hf.transform l
    obtain ⟨r', hr, -⟩ := hf.transform r
    obtain ⟨d, hd, -⟩ := hf (eq l' r')
    refine ⟨d, ?_, Refines.ofEq l r d⟩
    simp only [Expr.transform, hl, hr]
    exact hd
  | fn g as => by
    obtain ⟨as', has, ras⟩ := hf.transformArgs as
    obtain ⟨d, hd, rd⟩ := hf (fn g as')
    refine ⟨d, ?_, (Refines.fn g ras).trans rd⟩
    simp only [Expr.transform, has]
    exact hd

theorem transformArgs (hf : KeepsValue I f) :
    ∀ as : List (Expr Rat), ∃ bs, Expr.transformArgs f as = .ok bs ∧ List.Forall₂ (Refines I) as bs
  | [] => ⟨[], rfl, List.Forall₂.nil⟩
  | a :: as => by
    obtain ⟨b, hb, rb⟩ := hf.transform a
    obtain ⟨bs, hbs, rbs⟩ := hf.transformArgs as
    refine ⟨b :: bs, ?_, rbs.cons rb⟩
    simp only [Expr.transformArgs, hb, hbs]
    rfl

end

end KeepsValue

namespace Interpretation

/-- The laws of powers that rewriting relies on. -/
structure PowerLaws {K : Type*} [Field K] (I : Interpretation K) : Prop where
  nat (u : K) (n : Nat) : I.PowerDefined u n ∧ I.power u n = u ^ n
  one_base {v : K} : I.PowerDefined 1 v → I.power 1 v = 1
  number {a b c : Rat} : Rational.power? a b = some c → I.power (a : K) (b : K) = c
  add {u a b : K} : I.PowerDefined u a → I.PowerDefined u b →
    I.PowerDefined u (a + b) ∧ I.power u (a + b) = I.power u a * I.power u b
  sub {u a b : K} : I.PowerDefined u a → I.PowerDefined u b → I.power u b ≠ 0 →
    I.PowerDefined u (a - b) ∧ I.power u (a - b) = I.power u a / I.power u b
  mul {u a : K} {n : Int} : I.PowerDefined u a → I.PowerDefined (I.power u a) n →
    I.PowerDefined u (a * n) ∧ I.power u (a * n) = I.power (I.power u a) n
  /-- A power can be split off one that is not lower, at zero when it is positive. -/
  split {u : K} {a b : Rat} : b ≤ a → (0 < b ∨ I.power u a ≠ 0) →
    I.PowerDefined u a → I.PowerDefined u b →
    I.PowerDefined u (a - b : Rat) ∧ I.power u a = I.power u b * I.power u (a - b : Rat)

/-- Expressions without functions over the fractions: a power is defined when its exponent is an
integer, which is not negative when the base is zero. -/
def rational (ρ : String → Rat) : Interpretation Rat where
  assign := ρ
  power u v := u ^ v.num
  PowerDefined u v := v.den = 1 ∧ (u ≠ 0 ∨ 0 ≤ v)
  call _ _ := 0
  CallDefined _ _ := False

section Rational

variable {ρ : String → Rat}

theorem rational_power_int (u : Rat) (n : Int) : (rational ρ).power u n = u ^ n := by
  simp [rational]

theorem rational_powerDefined_int (u : Rat) (n : Int) :
    (rational ρ).PowerDefined u n ↔ u ≠ 0 ∨ 0 ≤ n := by
  simp [rational]

theorem rational_powerDefined_integral {u v : Rat} (h : (rational ρ).PowerDefined u v) :
    ∃ n : Int, v = n ∧ (u ≠ 0 ∨ 0 ≤ n) := by
  obtain ⟨hd, hu⟩ := h
  obtain ⟨n, rfl⟩ : ∃ n : Int, v = n := ⟨v.num, ((Rat.den_eq_one_iff v).mp hd).symm⟩
  exact ⟨n, rfl, by exact_mod_cast hu⟩

variable {u a b : Rat}

theorem rational_power_add (ha : (rational ρ).PowerDefined u a)
    (hb : (rational ρ).PowerDefined u b) : (rational ρ).PowerDefined u (a + b) ∧
      (rational ρ).power u (a + b) = (rational ρ).power u a * (rational ρ).power u b := by
  obtain ⟨m, rfl, hm⟩ := rational_powerDefined_integral ha
  obtain ⟨n, rfl, hn⟩ := rational_powerDefined_integral hb
  rw [← Int.cast_add, rational_powerDefined_int, rational_power_int, rational_power_int,
    rational_power_int]
  by_cases hu : u = 0
  · simp only [hu, ne_eq, not_true_eq_false, false_or] at hm hn
    refine ⟨Or.inr (by omega), ?_⟩
    exact zpow_add' (by omega)
  · exact ⟨Or.inl hu, zpow_add₀ hu m n⟩

theorem rational_power_sub (ha : (rational ρ).PowerDefined u a)
    (hb : (rational ρ).PowerDefined u b) (h0 : (rational ρ).power u b ≠ 0) :
    (rational ρ).PowerDefined u (a - b) ∧
      (rational ρ).power u (a - b) = (rational ρ).power u a / (rational ρ).power u b := by
  obtain ⟨m, rfl, hm⟩ := rational_powerDefined_integral ha
  obtain ⟨n, rfl, hn⟩ := rational_powerDefined_integral hb
  rw [← Int.cast_sub, rational_powerDefined_int, rational_power_int, rational_power_int,
    rational_power_int]
  rw [rational_power_int] at h0
  by_cases hu : u = 0
  · have hn0 : n = 0 := by
      by_contra hn'
      exact h0 (by rw [hu, zero_zpow n hn'])
    subst hn0
    simpa using hm
  · exact ⟨Or.inl hu, zpow_sub₀ hu m n⟩

theorem rational_power_mul {n : Int} (ha : (rational ρ).PowerDefined u a)
    (hb : (rational ρ).PowerDefined ((rational ρ).power u a) n) :
    (rational ρ).PowerDefined u (a * n) ∧
      (rational ρ).power u (a * n) = (rational ρ).power ((rational ρ).power u a) n := by
  obtain ⟨m, rfl, hm⟩ := rational_powerDefined_integral ha
  rw [rational_powerDefined_int, rational_power_int] at hb
  rw [← Int.cast_mul, rational_powerDefined_int, rational_power_int, rational_power_int,
    rational_power_int]
  refine ⟨?_, zpow_mul u m n⟩
  by_cases hu : u = 0
  · simp only [hu, ne_eq, not_true_eq_false, false_or] at hm
    by_cases hm0 : m = 0
    · simp [hm0]
    · have hn : 0 ≤ n := by simpa [hu, zero_zpow m hm0] using hb
      exact Or.inr (Int.mul_nonneg hm hn)
  · exact Or.inl hu

theorem rational_power_split (hba : b ≤ a) (h0 : 0 < b ∨ (rational ρ).power u a ≠ 0)
    (ha : (rational ρ).PowerDefined u a) (hb : (rational ρ).PowerDefined u b) :
    (rational ρ).PowerDefined u (a - b) ∧
      (rational ρ).power u a = (rational ρ).power u b * (rational ρ).power u (a - b) := by
  obtain ⟨m, rfl, -⟩ := rational_powerDefined_integral ha
  obtain ⟨n, rfl, hn⟩ := rational_powerDefined_integral hb
  rw [← Int.cast_sub, rational_powerDefined_int, rational_power_int, rational_power_int,
    rational_power_int]
  have hnm : n ≤ m := by exact_mod_cast hba
  refine ⟨Or.inr (by omega), ?_⟩
  by_cases hu : u = 0
  · rcases h0 with h0 | h0
    · have hn0 : 0 < n := by exact_mod_cast h0
      rw [hu, zero_zpow m (by omega), zero_zpow n (by omega), zero_mul]
    · have hm0 : m = 0 := by
        by_contra hm0
        exact h0 (by rw [rational_power_int, hu, zero_zpow m hm0])
      have hn0 : n = 0 := by
        simp only [hu, ne_eq, not_true_eq_false, false_or] at hn
        omega
      simp [hm0, hn0]
  · rw [← zpow_add₀ hu]
    congr 1
    omega

theorem rational_powerLaws (ρ : String → Rat) : (rational ρ).PowerLaws where
  nat u n := by
    have hd := (rational_powerDefined_int (ρ := ρ) u n).mpr (Or.inr (Int.natCast_nonneg n))
    have hp := rational_power_int (ρ := ρ) u n
    simp only [Int.cast_natCast, zpow_natCast] at hd hp
    exact ⟨hd, hp⟩
  one_base {v} _ := one_zpow v.num
  number {a b c} h := by
    obtain ⟨-, rfl⟩ := Rational.power?_eq_some.mp h
    rfl
  add := rational_power_add
  sub := rational_power_sub
  mul := rational_power_mul
  split hba h0 ha hb := by
    simp only [Rat.cast_id] at h0 ha hb ⊢
    exact rational_power_split hba h0 ha hb

end Rational

end Interpretation

end RuleAlgebra
