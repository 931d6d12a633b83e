import RuleAlgebra.Proofs.StandardRules

/-!
The index of a library follows its rules. A library that is built by adding rules and by switching
groups has the index that adding its rules one after another gives, so that a name stands in it
exactly when a rule carries the name, and leads to the last rule that does.
-/

namespace RuleAlgebra

namespace Library

variable {α : Type}

/-- The last of the rules that carry a name. An empty name is none. -/
def lastNamed? (rs : List (Rule α)) (name : String) : Option (Rule α) :=
  (rs.filter fun r => r.info.name? == some name).getLast?

/-- The index is the one that the rules give when they are added in order. -/
def Follows (l : Library α) : Prop := l.index = (ofRules l.rules).index

section Lookup

variable {r : Rule α} {rs : List (Rule α)} {name : String}

theorem find?_indexWith_same (index : List (String × Rule α)) :
    (indexWith index name r).find? (·.1 == name) = some (name, r) := by
  have hnone : (index.filter (·.1 != name)).find? (·.1 == name) = none := by
    rw [List.find?_eq_none]
    intro p hp
    simpa using (List.mem_filter.mp hp).2
  rw [indexWith, List.find?_append, hnone]
  simp

theorem find?_indexWith_other (index : List (String × Rule α)) {other : String}
    (h : other ≠ name) :
    (indexWith index other r).find? (·.1 == name) = index.find? (·.1 == name) := by
  have hkept : (index.filter (·.1 != other)).find? (·.1 == name) = index.find? (·.1 == name) := by
    rw [List.find?_filter]
    congr 1
    funext p
    by_cases hp : p.1 = name <;> simp [hp, h.symm]
  rw [indexWith, List.find?_append, hkept]
  simp [h]

theorem lastNamed?_concat : lastNamed? (rs ++ [r]) name =
    if r.info.name? = some name then some r else lastNamed? rs name := by
  by_cases h : r.info.name? = some name <;> simp [lastNamed?, List.filter_append, h]

theorem ofRules_concat : ofRules (rs ++ [r]) = (ofRules rs).add r := by
  simp [ofRules, addAll, List.foldl_append]

theorem find?_ofRules :
    (ofRules rs).index.find? (·.1 == name) = (lastNamed? rs name).map (name, ·) := by
  induction rs using List.reverseRecOn with
  | nil => rfl
  | append_singleton rs r ih =>
    rw [ofRules_concat, lastNamed?_concat, add]
    cases hcarried : r.info.name? with
    | none => simpa using ih
    | some other =>
      by_cases h : other = name
      · subst h
        simp [find?_indexWith_same]
      · simpa [h, find?_indexWith_other _ h] using ih

theorem lastNamed?_isSome :
    (lastNamed? rs name).isSome = true ↔ ∃ r ∈ rs, r.info.name? = some name := by
  simp [lastNamed?]

end Lookup

section Invariant

variable {l : Library α}

theorem follows_empty : (empty : Library α).Follows := rfl

theorem Follows.add (h : l.Follows) (r : Rule α) : (l.add r).Follows := by
  change _ = (ofRules (l.rules ++ [r])).index
  rw [ofRules_concat]
  simp only [Library.add]
  rw [show l.index = (ofRules l.rules).index from h]

theorem Follows.addAll (h : l.Follows) (rs : List (Rule α)) : (l.addAll rs).Follows := by
  induction rs generalizing l with
  | nil => exact h
  | cons r rs ih => exact ih (h.add r)

theorem Follows.disable (h : l.Follows) (group : String) : (l.disable group).Follows := h

theorem Follows.enable (h : l.Follows) (group : String) : (l.enable group).Follows := h

theorem Follows.find? (h : l.Follows) (name : String) :
    l.index.find? (·.1 == name) = (lastNamed? l.rules name).map (name, ·) := by
  rw [show l.index = (ofRules l.rules).index from h]
  exact find?_ofRules

theorem Follows.contains_iff (h : l.Follows) (name : String) :
    l.contains name = true ↔ ∃ r ∈ l.rules, r.info.name? = some name := by
  rw [← lastNamed?_isSome, ← Option.isSome_map (f := (name, ·)), ← h.find?]
  simp [contains]

theorem Follows.get (h : l.Follows) (name : String) : l.get name =
    match lastNamed? l.rules name with
    | some r => .ok r
    | none => .error (.lookup (.rule name)) := by
  rw [Library.get, h.find?]
  cases lastNamed? l.rules name <;> rfl

theorem rules_ofRules (rs : List (Rule α)) : (ofRules rs).rules = rs := by
  rw [ofRules, addAll_rules]
  rfl

theorem Follows.rebuilt (h : l.Follows) : { ofRules l.rules with disabled := l.disabled } = l := by
  cases l
  simp only [rules_ofRules, Library.mk.injEq, true_and, and_true]
  exact h.symm

end Invariant

end Library

end RuleAlgebra
