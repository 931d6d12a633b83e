import Mathlib
import RuleAlgebra.Expr.Pattern

/-!
The names that occur in an expression. The lists of names that an expression hands out have the
names of the variables and wildcards among its parts, and containment is occurrence of a variable.
-/

namespace RuleAlgebra.Expr

variable {α : Type} {n x : String}

theorem mem_foldl_firsts (names seen : List String) :
    n ∈ names.foldl (fun seen n => if seen.contains n then seen else seen ++ [n]) seen ↔
      n ∈ seen ∨ n ∈ names := by
  induction names generalizing seen with
  | nil => simp
  | cons m names ih =>
    rw [List.foldl_cons, ih]
    by_cases hm : m ∈ seen
    · simp only [List.contains_iff_mem, hm, if_true, List.mem_cons]
      constructor
      · rintro (h | h) <;> simp [h]
      · rintro (h | rfl | h) <;> simp [*]
    · simp [hm, or_assoc]

theorem mem_firsts {names : List String} : n ∈ firsts names ↔ n ∈ names := by
  rw [firsts, mem_foldl_firsts]
  simp

theorem mem_walkArgs {e : Expr α} {as : List (Expr α)} :
    e ∈ walkArgs as ↔ ∃ a ∈ as, e ∈ a.walk := by
  induction as with
  | nil => simp [walkArgs]
  | cons a as ih => simp [walkArgs, ih]

theorem self_mem_walk (t : Expr α) : t ∈ t.walk := by
  cases t <;> simp [walk]

mutual

theorem walk_subset {p : Expr α} : ∀ {t : Expr α}, p ∈ t.walk → p.walk ⊆ t.walk
  | num _, h | var _, h | wild _ _ _, h => by
    obtain rfl := List.mem_singleton.mp h
    exact List.Subset.refl _
  | op _ l r, h | eq l r, h => by
    rcases List.mem_cons.mp h with rfl | h
    · exact List.Subset.refl _
    · apply List.subset_cons_of_subset
      rcases List.mem_append.mp h with h | h
      · exact List.subset_append_of_subset_left _ (walk_subset h)
      · exact List.subset_append_of_subset_right _ (walk_subset h)
  | fn _ as, h => by
    rcases List.mem_cons.mp h with rfl | h
    · exact List.Subset.refl _
    · exact List.subset_cons_of_subset _ (walk_subset_walkArgs h)

theorem walk_subset_walkArgs {p : Expr α} :
    ∀ {as : List (Expr α)}, p ∈ walkArgs as → p.walk ⊆ walkArgs as
  | a :: as, h => by
    rcases List.mem_append.mp h with h | h
    · exact List.subset_append_of_subset_left _ (walk_subset h)
    · exact List.subset_append_of_subset_right _ (walk_subset_walkArgs h)

end

section Wildcards

theorem mem_wildcards {t : Expr α} : n ∈ t.wildcards ↔ ∃ k a, wild n k a ∈ t.walk := by
  simp only [wildcards, mem_firsts, List.mem_filterMap]
  constructor
  · rintro ⟨e, he, hn⟩
    cases e with
    | wild m k a =>
      obtain rfl := Option.some.inj hn
      exact ⟨k, a, he⟩
    | _ => simp at hn
  · rintro ⟨k, a, h⟩
    exact ⟨_, h, rfl⟩

@[simp] theorem wildcards_num (v : α) : (num v).wildcards = [] := rfl

@[simp] theorem wildcards_var (x : String) : (var x : Expr α).wildcards = [] := rfl

@[simp] theorem wildcards_wild (m : String) (k : WildcardKind) (a : Option String) :
    (wild m k a : Expr α).wildcards = [m] := rfl

@[simp] theorem mem_wildcards_op (o : Arithmetic) (l r : Expr α) :
    n ∈ (op o l r).wildcards ↔ n ∈ l.wildcards ∨ n ∈ r.wildcards := by
  simp [mem_wildcards, walk, exists_or]

@[simp] theorem mem_wildcards_eq (l r : Expr α) :
    n ∈ (eq l r).wildcards ↔ n ∈ l.wildcards ∨ n ∈ r.wildcards := by
  simp [mem_wildcards, walk, exists_or]

@[simp] theorem mem_wildcards_fn (f : String) (as : List (Expr α)) :
    n ∈ (fn f as).wildcards ↔ ∃ a ∈ as, n ∈ a.wildcards := by
  simp only [mem_wildcards, walk, List.mem_cons, reduceCtorEq, false_or, mem_walkArgs]
  constructor
  · rintro ⟨k, a, e, he, h⟩
    exact ⟨e, he, k, a, h⟩
  · rintro ⟨e, he, k, a, h⟩
    exact ⟨k, a, e, he, h⟩

theorem wildcards_op_eq_nil {o : Arithmetic} {l r : Expr α} :
    (op o l r).wildcards = [] ↔ l.wildcards = [] ∧ r.wildcards = [] := by
  simp [List.eq_nil_iff_forall_not_mem, forall_and]

theorem wildcards_eq_eq_nil {l r : Expr α} :
    (eq l r).wildcards = [] ↔ l.wildcards = [] ∧ r.wildcards = [] := by
  simp [List.eq_nil_iff_forall_not_mem, forall_and]

theorem wildcards_call_eq_nil {f : String} {u : Expr α} :
    (fn f [u]).wildcards = [] ↔ u.wildcards = [] := by
  simp [List.eq_nil_iff_forall_not_mem]

end Wildcards

section Variables

theorem isFreeOf_iff {t : Expr α} : t.isFreeOf x = true ↔ t.contains x = false := by
  simp [isFreeOf]

mutual

theorem contains_iff_mem_walk : ∀ t : Expr α, t.contains x = true ↔ var x ∈ t.walk
  | num v => by simp [contains, walk]
  | var y => by
    simp only [contains, walk, beq_iff_eq, List.mem_singleton, var.injEq]
    exact eq_comm
  | wild n k a => by simp [contains, walk]
  | op o l r => by
    simp [contains, walk, contains_iff_mem_walk l, contains_iff_mem_walk r]
  | eq l r => by
    simp [contains, walk, contains_iff_mem_walk l, contains_iff_mem_walk r]
  | fn f as => by simp [contains, walk, anyContains_iff_mem_walk as]

theorem anyContains_iff_mem_walk :
    ∀ as : List (Expr α), anyContains x as = true ↔ var x ∈ walkArgs as
  | [] => by simp [anyContains, walkArgs]
  | a :: as => by
    simp [anyContains, walkArgs, contains_iff_mem_walk a, anyContains_iff_mem_walk as]

end

theorem mem_variableNames {t : Expr α} : x ∈ t.variableNames ↔ t.contains x = true := by
  rw [contains_iff_mem_walk, variableNames, mem_firsts, List.mem_filterMap]
  constructor
  · rintro ⟨e, he, hx⟩
    cases e with
    | var y =>
      obtain rfl := Option.some.inj hx
      exact he
    | _ => simp at hx
  · exact fun h => ⟨_, h, rfl⟩

end Variables

end RuleAlgebra.Expr
