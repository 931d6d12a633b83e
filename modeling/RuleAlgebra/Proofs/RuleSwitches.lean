import RuleAlgebra.Proofs.StandardRules
import RuleAlgebra.Simplifier

/-!
Groups that are switched off. A rule is off as soon as one of its tags is, whatever its category, so
that a library with groups switched off does what the library without the rules of these groups
does.
-/

namespace RuleAlgebra

namespace Library

variable {α : Type} (l : Library α)

def switchOff (groups : List String) : Library α := groups.foldl disable l

/-- The rules that carry none of the tags, with all groups on. -/
def withoutTags (tags : List String) : Library α :=
  ofRules (l.rules.filter fun r => !r.info.tags.any tags.contains)

section Switches

variable {l} {group : String} {groups : List String} {r : Rule α}

theorem isActive_iff : l.isActive r = true ↔ ∀ tag ∈ r.info.tags, tag ∉ l.disabled := by
  simp [isActive]

theorem mem_disabled_disable {tag : String} :
    tag ∈ (l.disable group).disabled ↔ tag ∈ l.disabled ∨ tag = group := by
  by_cases h : group ∈ l.disabled
  · simp only [disable, List.contains_iff_mem.mpr h, if_true, iff_self_or]
    rintro rfl
    exact h
  · simp [disable, h]

theorem mem_disabled_switchOff {tag : String} :
    tag ∈ (l.switchOff groups).disabled ↔ tag ∈ l.disabled ++ groups := by
  unfold switchOff
  induction groups generalizing l with
  | nil => simp
  | cons group groups ih =>
    rw [List.foldl_cons, ih]
    simp [mem_disabled_disable, or_assoc]

theorem rules_switchOff : (l.switchOff groups).rules = l.rules := by
  unfold switchOff
  induction groups generalizing l with
  | nil => rfl
  | cons group groups ih => exact ih

theorem isActive_switchOff :
    (l.switchOff groups).isActive r = !r.info.tags.any (l.disabled ++ groups).contains := by
  rw [Bool.eq_iff_iff, isActive_iff]
  simp [mem_disabled_switchOff]

end Switches

section Deletion

variable {l} {tags groups : List String}

theorem rules_withoutTags :
    (l.withoutTags tags).rules = l.rules.filter fun r => !r.info.tags.any tags.contains := by
  rw [withoutTags, ofRules, addAll_rules]
  rfl

theorem disabled_addAll (rs : List (Rule α)) : (l.addAll rs).disabled = l.disabled := by
  induction rs generalizing l with
  | nil => rfl
  | cons r rs ih => exact ih

theorem isActive_withoutTags (r : Rule α) : (l.withoutTags tags).isActive r = true := by
  rw [isActive_iff]
  intro tag _
  rw [withoutTags, ofRules, disabled_addAll]
  exact List.not_mem_nil

theorem rulesIn_withoutTags (category : String) : (l.withoutTags tags).rulesIn category =
    l.rules.filter fun r => r.info.category == some category && !r.info.tags.any tags.contains := by
  simp only [rulesIn, rules_withoutTags, List.filter_filter, isActive_withoutTags, Bool.and_true]

theorem rulesIn_switchOff (category : String) :
    (l.switchOff groups).rulesIn category =
      (l.withoutTags (l.disabled ++ groups)).rulesIn category := by
  rw [rulesIn_withoutTags, rulesIn, rules_switchOff]
  simp only [isActive_switchOff]

theorem active_switchOff (asked : Option (List String)) :
    (l.switchOff groups).active asked = (l.withoutTags (l.disabled ++ groups)).active asked := by
  simp only [active, rules_switchOff, rules_withoutTags, List.filter_filter, isActive_switchOff,
    isActive_withoutTags, Bool.true_and, Bool.and_comm]

end Deletion

end Library

/-- The tags of the rules that do not hold over a domain. -/
def NumberDomain.excluded : NumberDomain → List String
  | .real => []
  | .complex => ["real"]

namespace Simplifier

open Library

variable {α : Type} {s t : Simplifier α} {domain domain' : NumberDomain}

theorem any_contains_cons (xs tags : List String) (tag : String) :
    xs.any (tag :: tags).contains = (xs.contains tag || xs.any tags.contains) := by
  rw [Bool.eq_iff_iff]
  simp only [List.any_eq_true, List.contains_iff_mem, List.mem_cons, Bool.or_eq_true, and_or_left,
    exists_or, exists_eq_right]

theorem rulesFor_switchOff (l : Library α) (groups : List String) (n : Nat)
    (category : String) : rulesFor ⟨l.switchOff groups, n⟩ domain category =
      rulesFor ⟨l.withoutTags (domain.excluded ++ (l.disabled ++ groups)), n⟩ .real category := by
  simp only [rulesFor, rulesIn_switchOff, rulesIn_withoutTags, List.filter_filter]
  refine List.filter_congr fun r _ => ?_
  cases domain with
  | real => rfl
  | complex =>
    rw [NumberDomain.excluded, List.singleton_append, any_contains_cons, Bool.not_or, Rule.hasTag]
    change ((false || !r.info.tags.contains "real") && _) = ((true || _) && _)
    rw [Bool.false_or, Bool.true_or, Bool.true_and]
    ac_rfl

variable [BEq α]

section Dependence

variable (h : ∀ category, s.rulesFor domain category = t.rulesFor domain' category)
include h

theorem pass_congr (groups : List String) (e : Expr α) :
    s.pass domain groups e = t.pass domain' groups e := by
  simp only [pass, h]

theorem fixpoint_congr (groups : List String) (limit : Nat) (e : Expr α) :
    s.fixpoint domain groups limit e = t.fixpoint domain' groups limit e := by
  induction limit generalizing e with
  | zero => rfl
  | succ limit ih => simp only [fixpoint, pass_congr h, ih]

theorem run_congr (form : TargetForm) (limit : Nat) (e : Expr α) :
    s.run form domain limit e = t.run form domain' limit e := by
  simp only [run, fixpoint_congr h, factorPass, h]

end Dependence

/-- Switching groups off is the same as deleting the rules that carry one of them as a tag: a run
goes the same way, step by step, and a single expression is rewritten by the same rules. Over the
complex numbers the rules tagged `real` are deleted as well. -/
theorem switched_off_as_deleted (l : Library α) (groups : List String) :
    (∀ (form : TargetForm) (domain : NumberDomain) (n limit : Nat) (e : Expr α),
      run ⟨l.switchOff groups, n⟩ form domain limit e =
        run ⟨l.withoutTags (domain.excluded ++ (l.disabled ++ groups)), n⟩ form .real limit e) ∧
      ∀ (e : Expr α) (asked : Option (List String)),
        (l.switchOff groups).applyOnce e asked =
          (l.withoutTags (l.disabled ++ groups)).applyOnce e asked ∧
        (l.switchOff groups).matching e asked =
          (l.withoutTags (l.disabled ++ groups)).matching e asked := by
  refine ⟨fun form domain n limit e => ?_, fun e asked => ⟨?_, ?_⟩⟩
  · exact run_congr (rulesFor_switchOff l groups n) form limit e
  · rw [applyOnce, applyOnce, active_switchOff]
  · rw [matching, matching, active_switchOff]

end Simplifier

end RuleAlgebra
