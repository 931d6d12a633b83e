import RuleAlgebra.Proofs.InheritedProperties

/-!
Expressions whose variables lie in a set of names, functions that do not leave such a set, and
substitution.
-/

namespace RuleAlgebra

open Traced

namespace Expr

variable {α : Type} {s s' : Set String}

/-- All variables are among the names in `s`. -/
def Within (s : Set String) (t : Expr α) : Prop := ∀ y, t.contains y = true → y ∈ s

/-- No variable is added, whatever the expression. -/
def KeepsVariables (f : Expr α → Except Failure (Expr α)) : Prop :=
  ∀ (s : Set String) (e : Expr α), e.Within s → Yields (Within s) (f e)

section Constructors

theorem Within.mono {t : Expr α} (h : t.Within s) (hs : s ⊆ s') : t.Within s' :=
  fun y hy => hs (h y hy)

theorem anyContains_iff {x : String} {as : List (Expr α)} :
    anyContains x as = true ↔ ∃ a ∈ as, a.contains x = true := by
  induction as with
  | nil => simp [anyContains]
  | cons a as ih => simp [anyContains, ih]

@[simp] theorem within_num (v : α) : (num v).Within s := by simp [Within, contains]

@[simp] theorem within_var (x : String) : (var x : Expr α).Within s ↔ x ∈ s := by
  simp [Within, contains]

@[simp] theorem within_wild (n : String) (k : WildcardKind) (a : Option String) :
    (wild n k a : Expr α).Within s := by
  simp [Within, contains]

@[simp] theorem within_op (o : Arithmetic) (l r : Expr α) :
    (op o l r).Within s ↔ l.Within s ∧ r.Within s := by
  simp [Within, contains, or_imp, forall_and]

@[simp] theorem within_eq (l r : Expr α) : (eq l r).Within s ↔ l.Within s ∧ r.Within s := by
  simp [Within, contains, or_imp, forall_and]

@[simp] theorem within_fn (f : String) (as : List (Expr α)) :
    (fn f as).Within s ↔ ∀ a ∈ as, a.Within s := by
  simp only [Within, contains, anyContains_iff]
  constructor
  · intro h a ha y hy
    exact h y ⟨a, ha, hy⟩
  · rintro h y ⟨a, ha, hy⟩
    exact h a ha y hy

theorem within_iff {t : Expr α} : t.Within s ↔ ∀ y ∈ t.variableNames, y ∈ s := by
  simp [Within, mem_variableNames]

variable [Scalar α]

@[simp] theorem within_ofNat (n : Nat) : (ofNat n : Expr α).Within s := within_num _

@[simp] theorem within_ofInt (n : Int) : (ofInt n : Expr α).Within s := within_num _

@[simp] theorem within_negative (t : Expr α) : (negative t).Within s ↔ t.Within s := by
  simp [negative]

@[simp] theorem within_squared (t : Expr α) : (squared t).Within s ↔ t.Within s := by
  simp [squared]

end Constructors

section Traversal

theorem within_inherited (s : Set String) : Inherited (Within s : Expr α → Prop) where
  num := within_num
  op := within_op _ _ _
  eq := within_eq _ _
  args h := (within_fn _ _).mp h
  call _ h := (within_fn _ _).mpr h
  occurrence he hx := (within_var _).mpr (he _ hx)

variable {f : Expr α → Except Failure (Expr α)}

theorem Inherits.keepsVariables (hf : Inherits f) : KeepsVariables f :=
  fun s e he => hf (Within s) (within_inherited s) e he

theorem KeepsVariables.transform (hf : KeepsVariables f) (e : Expr α) (he : e.Within s) :
    Yields (Within s) (transform f e) :=
  transform_inherits (within_inherited s) (hf s) (fun _ _ _ _ _ h => (within_fn _ _).mpr h) e he

mutual

theorem substitute_within {u : Expr α} {x : String} (hu : u.Within s) :
    ∀ t : Expr α, t.Within (insert x s) → (t.substitute x u).Within s
  | num v, _ => within_num v
  | wild n k a, _ => within_wild n k a
  | var y, h => by
    rw [substitute]
    split_ifs with hy
    · exact hu
    · exact (within_var y).mpr (((within_var y).mp h).resolve_left hy)
  | op o l r, h => by
    obtain ⟨hl, hr⟩ := (within_op o l r).mp h
    exact (within_op _ _ _).mpr ⟨substitute_within hu l hl, substitute_within hu r hr⟩
  | eq l r, h => by
    obtain ⟨hl, hr⟩ := (within_eq l r).mp h
    exact (within_eq _ _).mpr ⟨substitute_within hu l hl, substitute_within hu r hr⟩
  | fn f as, h => (within_fn f _).mpr (substituteArgs_within hu as ((within_fn f as).mp h))

theorem substituteArgs_within {u : Expr α} {x : String} (hu : u.Within s) :
    ∀ as : List (Expr α), (∀ a ∈ as, a.Within (insert x s)) →
      ∀ a ∈ substituteArgs as x u, a.Within s
  | [], _ => List.forall_mem_nil _
  | a :: as, h => by
    obtain ⟨ha, has⟩ := List.forall_mem_cons.mp h
    exact List.forall_mem_cons.mpr ⟨substitute_within hu a ha, substituteArgs_within hu as has⟩

end

end Traversal

end Expr

end RuleAlgebra
