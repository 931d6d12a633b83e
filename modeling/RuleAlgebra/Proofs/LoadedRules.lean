import Mathlib
import RuleAlgebra.Proofs.FailedLines
import RuleAlgebra.Proofs.Instantiation
import RuleAlgebra.Rule.Line

/-!
Rules that are read from a text are total. A text with a skeleton that has a wildcard of its own is
refused, and a match binds every wildcard of the pattern to a part of the matched expression. So
applying a rule never fails, and the skeleton is all that it adds to the expression.
-/

namespace RuleAlgebra

namespace Expr

variable {α : Type}

section Leaves

/-- Whether an expression has no parts but itself. A call without arguments has none. -/
def isLeaf : Expr α → Bool
  | op _ _ _ | eq _ _ => false
  | fn _ as => as.isEmpty
  | num _ | var _ | wild _ _ _ => true

def leaves (t : Expr α) : List (Expr α) := t.walk.filter isLeaf

def isWildcard : Expr α → Bool
  | wild _ _ _ => true
  | _ => false

variable {p t : Expr α}

theorem mem_leaves : p ∈ t.leaves ↔ p ∈ t.walk ∧ p.isLeaf = true := List.mem_filter

theorem leaves_subset (h : p ∈ t.walk) : p.leaves ⊆ t.leaves :=
  List.filter_subset isLeaf (walk_subset h)

theorem mem_leaves_op {o : Arithmetic} {l r : Expr α} :
    p ∈ (op o l r).leaves ↔ p ∈ l.leaves ∨ p ∈ r.leaves := by
  simp [leaves, walk, isLeaf]

theorem mem_leaves_eq {l r : Expr α} : p ∈ (eq l r).leaves ↔ p ∈ l.leaves ∨ p ∈ r.leaves := by
  simp [leaves, walk, isLeaf]

theorem mem_leaves_fn {f : String} {as : List (Expr α)} :
    p ∈ (fn f as).leaves ↔ (as = [] ∧ p = fn f []) ∨ ∃ a ∈ as, p ∈ a.leaves := by
  cases as with
  | nil =>
    have hleaves : (fn f []).leaves = [(fn f [] : Expr α)] := rfl
    simp [hleaves]
  | cons a as =>
    have hleaves : (fn f (a :: as)).leaves = (walkArgs (a :: as)).filter isLeaf := rfl
    simp only [hleaves, List.mem_filter, mem_walkArgs, mem_leaves, ← exists_and_right, and_assoc,
      reduceCtorEq, false_and, false_or]

theorem wildcards_eq_nil_iff : t.wildcards = [] ↔ ∀ l ∈ t.leaves, l.isWildcard = false := by
  rw [List.eq_nil_iff_forall_not_mem]
  constructor
  · intro h l hl
    cases l with
    | wild n k a => exact absurd (mem_wildcards.mpr ⟨k, a, (mem_leaves.mp hl).1⟩) (h n)
    | _ => rfl
  · intro h n hn
    obtain ⟨k, a, hmem⟩ := mem_wildcards.mp hn
    exact Bool.noConfusion (h _ (mem_leaves.mpr ⟨hmem, rfl⟩))

end Leaves

section BoundParts

def BoundWithin (t : Expr α) (b : Bindings α) : Prop := ∀ x e, b.get? x = some e → e ∈ t.walk

variable {b c : Bindings α} {t e : Expr α} {x : String}

theorem boundWithin_nil : BoundWithin t [] := by
  intro x e h
  cases h

theorem BoundWithin.extend? [BEq α] (hb : BoundWithin t b) (he : e ∈ t.walk)
    (h : b.extend? x e = some c) : BoundWithin t c := by
  obtain ⟨hx, rfl⟩ | ⟨d, -, -, rfl⟩ := Bindings.extend?_eq_some.mp h
  · intro y d hy
    -- the new name is bound to the expression, and the others are bound as before
    rw [Bindings.get?_append_singleton] at hy
    rcases Option.or_eq_some_iff.mp hy with hy | ⟨-, hy⟩
    · exact hb y d hy
    · obtain ⟨-, rfl⟩ : x = y ∧ e = d := by simpa using hy
      exact he
  · exact hb

mutual

theorem Matches.parts [BEq α] {p e : Expr α} {b c : Bindings α} (he : e.walk ⊆ t.walk)
    (hb : BoundWithin t b) : Matches p e b c → BoundWithin t c
  | .wild _ hextend => hb.extend? (he (self_mem_walk _)) hextend
  | .num _ => hb
  | .var _ => hb
  | .op _ hl hr => by
    obtain ⟨hle, hre⟩ := List.append_subset.mp (List.cons_subset.mp he).2
    exact hr.parts hre (hl.parts hle hb)
  | .eq hl hr => by
    obtain ⟨hle, hre⟩ := List.append_subset.mp (List.cons_subset.mp he).2
    exact hr.parts hre (hl.parts hle hb)
  | .fn _ hargs => hargs.parts (List.cons_subset.mp he).2 hb

theorem MatchesAll.parts [BEq α] {ps es : List (Expr α)} {b c : Bindings α}
    (hes : walkArgs es ⊆ t.walk) (hb : BoundWithin t b) : MatchesAll ps es b c → BoundWithin t c
  | .nil => hb
  | .cons hp hps => by
    obtain ⟨he, hes⟩ := List.append_subset.mp hes
    exact hps.parts hes (hp.parts he hb)

end

theorem match?_parts [BEq α] {p : Expr α} (h : match? p t = some b) : BoundWithin t b :=
  (matchFrom?_eq_some.mp h).parts (List.Subset.refl _) boundWithin_nil

end BoundParts

section FilledSkeletons

variable {b : Bindings α} {t l : Expr α}

/-- A leaf of the skeleton other than a wildcard, or a leaf of the matched expression. -/
def SuppliedBy (s t l : Expr α) : Prop := (l ∈ s.leaves ∧ l.isWildcard = false) ∨ l ∈ t.leaves

theorem SuppliedBy.mono {s s' : Expr α} (h : s.leaves ⊆ s'.leaves) (hl : SuppliedBy s t l) :
    SuppliedBy s' t l := hl.imp_left fun hs => ⟨h hs.1, hs.2⟩

mutual

theorem fill_supplied (hb : BoundWithin t b) :
    ∀ {s : Expr α}, Bound b s → ∀ l ∈ (s.fill (filling b)).leaves, SuppliedBy s t l
  | num v, _, l, hl => by
    obtain rfl := List.mem_singleton.mp hl
    exact Or.inl ⟨hl, rfl⟩
  | var x, _, l, hl => by
    obtain rfl := List.mem_singleton.mp hl
    exact Or.inl ⟨hl, rfl⟩
  | wild n k a, hs, l, hl => by
    obtain ⟨e, he⟩ := Option.isSome_iff_exists.mp (hs n (by simp))
    rw [fill, filling, he] at hl
    exact Or.inr (leaves_subset (hb n e he) hl)
  | op o u v, hs, l, hl => by
    obtain ⟨hu, hv⟩ := bound_op.mp hs
    rcases mem_leaves_op.mp hl with hl | hl
    · exact (fill_supplied hb hu l hl).mono fun _ h => mem_leaves_op.mpr (Or.inl h)
    · exact (fill_supplied hb hv l hl).mono fun _ h => mem_leaves_op.mpr (Or.inr h)
  | eq u v, hs, l, hl => by
    obtain ⟨hu, hv⟩ := bound_eq.mp hs
    rcases mem_leaves_eq.mp hl with hl | hl
    · exact (fill_supplied hb hu l hl).mono fun _ h => mem_leaves_eq.mpr (Or.inl h)
    · exact (fill_supplied hb hv l hl).mono fun _ h => mem_leaves_eq.mpr (Or.inr h)
  | fn f [], _, l, hl => by
    obtain rfl := List.mem_singleton.mp hl
    exact Or.inl ⟨hl, rfl⟩
  | fn f (a :: as), hs, l, hl => by
    obtain ⟨⟨⟩, -⟩ | ⟨d, hd, hl⟩ := mem_leaves_fn.mp hl
    obtain ⟨a', ha', hl'⟩ := fillArgs_supplied hb (bound_fn.mp hs) l hd hl
    exact hl'.mono fun _ h => mem_leaves_fn.mpr (Or.inr ⟨a', ha', h⟩)

theorem fillArgs_supplied (hb : BoundWithin t b) : ∀ {as : List (Expr α)},
    (∀ a ∈ as, Bound b a) → ∀ {d} l, d ∈ fillArgs (filling b) as → l ∈ d.leaves →
      ∃ a ∈ as, SuppliedBy a t l
  | a :: as, has, d, l, hd, hl => by
    obtain ⟨ha, has⟩ := List.forall_mem_cons.mp has
    rcases List.mem_cons.mp hd with rfl | hd
    · exact ⟨a, List.mem_cons_self, fill_supplied hb ha l hl⟩
    · obtain ⟨a', ha', hl'⟩ := fillArgs_supplied hb has l hd hl
      exact ⟨a', List.mem_cons_of_mem a ha', hl'⟩

end

end FilledSkeletons

end Expr

open RuleAlgebra.Expr

theorem patternRule_supplied {α : Type} [BEq α] {p s t d : Expr α} (h : patternRule p s t = .ok d)
    (hmatch : match? p t ≠ none) : ∀ l ∈ d.leaves, SuppliedBy s t l := by
  obtain ⟨b, hb⟩ := Option.ne_none_iff_exists'.mp hmatch
  simp only [patternRule, hb, instantiate_eq_ok] at h
  obtain ⟨hbound, rfl⟩ := h
  exact fill_supplied (match?_parts hb) hbound

namespace RuleText

variable {α : Type} [Scalar α]

theorem rulesFrom_bound {rules : List (Rule α)} {lines : List String} {n : Nat}
    {tags : List String} (h : rulesFrom n tags lines = .ok rules) :
    ∀ r ∈ rules, ∃ info p s, r = Rule.ofPattern info p s ∧ ∀ x ∈ s.wildcards, x ∈ p.wildcards := by
  induction lines generalizing n tags rules with
  | nil =>
    obtain rfl := Except.ok.inj h
    simp
  | cons raw rest ih =>
    rw [rulesFrom] at h
    dsimp only at h
    split at h
    · exact ih h
    · split at h
      · split at h
        · cases h
        · exact ih h
      · rename_i rl _
        split at h
        · rename_i hmissing
          obtain ⟨rules', hrules, hcons⟩ := bind_eq_ok.mp h
          obtain rfl := Except.ok.inj hcons
          refine List.forall_mem_cons.mpr ⟨⟨_, _, _, rfl, fun x hx => ?_⟩, ih hrules⟩
          by_contra hp
          simpa [List.isEmpty_iff.mp hmissing] using mem_unbound.mpr ⟨hx, hp⟩
        · cases h

end RuleText

/-- A rule of a text that is read has a pattern and a skeleton, and applying it never fails. An
expression that the pattern does not match is handed back; otherwise every leaf of the result is a
leaf of the expression, or one of the skeleton that is no wildcard. An expression without wildcards
gets none. -/
theorem Rule.apply_total {α : Type} [Scalar α] {text : String} {rules : List (Rule α)} {r : Rule α}
    (h : rulesOfText text = .ok rules) (hr : r ∈ rules) :
    ∃ pattern skeleton, r.form = some (pattern, skeleton) ∧ ∀ t, ∃ d, r.apply t = .ok d ∧
      (match? pattern t = none → d = t) ∧
      (match? pattern t ≠ none → ∀ l ∈ d.leaves,
        (l ∈ skeleton.leaves ∧ l.isWildcard = false) ∨ l ∈ t.leaves) ∧
      (t.wildcards = [] → d.wildcards = []) := by
  obtain ⟨info, p, s, rfl, hs⟩ := RuleText.rulesFrom_bound h r hr
  refine ⟨p, s, rfl, fun t => ?_⟩
  obtain ⟨d, hd⟩ := patternRule_result hs t
  have handed : match? p t = none → d = t := by
    intro hnone
    simp only [patternRule, hnone] at hd
    exact (Except.ok.inj hd).symm
  refine ⟨d, hd, handed, patternRule_supplied hd, fun ht => ?_⟩
  by_cases hmatch : match? p t = none
  · rw [handed hmatch, ht]
  · rw [wildcards_eq_nil_iff] at ht ⊢
    intro l hl
    rcases patternRule_supplied hd hmatch l hl with hs | hl
    · exact hs.2
    · exact ht l hl

/-- A rule with a variable, a factor that is free of it, and a number that is only in the
skeleton. -/
def pulling : String :=
  "[sum]\n@pull: sin(?x:var) + ?c:free(x)*sin(?u) => :c*(sin(:x) + sin(:u)) + 1"

def pullingPattern : Expr Rat :=
  .op .add (.fn "sin" [.wild "x" .symbol none])
    (.op .mul (.wild "c" .free (some "x")) (.fn "sin" [.wild "u" .anything none]))

def pullingSkeleton : Expr Rat :=
  .op .add (.op .mul (.wild "c" .anything none)
    (.op .add (.fn "sin" [.wild "x" .anything none]) (.fn "sin" [.wild "u" .anything none])))
    (.num 1)

theorem Rule.apply_total_of_pulling : ∃ (rules : List (Rule Rat)) (r : Rule Rat),
    rulesOfText pulling = .ok rules ∧ r ∈ rules ∧
      r.form = some (pullingPattern, pullingSkeleton) ∧ ∀ t, ∃ d, r.apply t = .ok d ∧
        (match? pullingPattern t = none → d = t) ∧
        (match? pullingPattern t ≠ none → ∀ l ∈ d.leaves,
          (l ∈ pullingSkeleton.leaves ∧ l.isWildcard = false) ∨ l ∈ t.leaves) ∧
        (t.wildcards = [] → d.wildcards = []) := by
  have hforms : ((rulesOfText pulling).toOption.map fun rs : List (Rule Rat) => rs.map (·.form)) =
      some [some (pullingPattern, pullingSkeleton)] := eq_of_beq (by decide +kernel)
  obtain ⟨rules, hrules, hforms⟩ := Option.map_eq_some_iff.mp hforms
  obtain ⟨r, rfl, hform⟩ := List.map_eq_singleton_iff.mp hforms
  have hread := toOption_eq_some.mp hrules
  have hr := List.mem_singleton_self r
  obtain ⟨p, s, hps, happly⟩ := Rule.apply_total hread hr
  obtain ⟨rfl, rfl⟩ := Prod.mk.inj (Option.some.inj (hform.symm.trans hps))
  exact ⟨_, r, hread, hr, hform, happly⟩

example : (patternRule pullingPattern pullingSkeleton (.op .add (.fn "sin" [.var "y"])
    (.op .mul (.num 2) (.fn "sin" [.var "y"])))).toOption =
      some (.op .add (.op .mul (.num 2) (.op .add (.fn "sin" [.var "y"]) (.fn "sin" [.var "y"])))
        (.num 1)) := eq_of_beq (by decide +kernel)

end RuleAlgebra
