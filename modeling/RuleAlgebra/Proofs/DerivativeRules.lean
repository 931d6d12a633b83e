import RuleAlgebra.Calculus.Derivative
import RuleAlgebra.Proofs.Occurrences
import RuleAlgebra.Proofs.TracedComputations

/-!
The rules of calculus as a relation between an expression and its derivative, and what keeps an
expression from having one. Differentiation follows the rules, or fails at a part that it names.
-/

namespace RuleAlgebra.Expr

open RuleAlgebra.Traced

variable {α : Type} [Scalar α] {x : String}

/-- The derivative by the rules of calculus. Parts without the variable are constant, whatever they
call, but an equation is differentiated side by side. -/
inductive Derives (x : String) : Expr α → Expr α → Prop
  | constant {t : Expr α} (hx : t.contains x = false) (ht : ∀ l r, t ≠ eq l r) :
    Derives x t (ofNat 0)
  | self : Derives x (var x) (ofNat 1)
  | equation {l r l' r' : Expr α} (hl : Derives x l l') (hr : Derives x r r') :
    Derives x (eq l r) (eq l' r')
  | sum {o : Arithmetic} {a b a' b' : Expr α} (ho : o = .add ∨ o = .sub) (ha : Derives x a a')
    (hb : Derives x b b') : Derives x (op o a b) (op o a' b')
  | product {a b a' b' : Expr α} (ha : Derives x a a') (hb : Derives x b b') :
    Derives x (op .mul a b) (op .add (op .mul a' b) (op .mul a b'))
  | quotient {a b a' b' : Expr α} (ha : Derives x a a') (hb : Derives x b b') :
    Derives x (op .div a b) (op .div (op .sub (op .mul a' b) (op .mul a b')) (squared b))
  | power {a b a' : Expr α} (hb : b.contains x = false) (ha : Derives x a a') :
    Derives x (op .pow a b) (op .mul (op .mul b (op .pow a (op .sub b (ofNat 1)))) a')
  | exponential {a b b' : Expr α} (ha : a.contains x = false) (hb : Derives x b b') :
    Derives x (op .pow a b) (op .mul (op .mul (op .pow a b) (fn "ln" [a])) b')
  | logarithmic {a b a' b' : Expr α} (ha : Derives x a a') (hb : Derives x b b') :
    Derives x (op .pow a b)
      (op .mul (op .pow a b) (op .add (op .mul b' (fn "ln" [a])) (op .div (op .mul b a') a)))
  | chain {f : String} {u u' outer : Expr α} (hf : outerDerivative? f u = some outer)
    (hu : Derives x u u') : Derives x (fn f [u]) (op .mul outer u')

/-- What an expression cannot be differentiated for: a wildcard, or a call with the variable that has
several arguments or none, or no known derivative. -/
inductive Obstructs (x : String) : Expr α → Failure → Prop
  | wildcard (n : String) (k : WildcardKind) (a : Option String) :
    Obstructs x (wild n k a) (.engine (.unsupported (wild n k a : Expr α).kindName .differentiation))
  | call {f : String} {as : List (Expr α)} (hx : anyContains x as = true)
    (hf : ∀ u, as = [u] → outerDerivative? f u = none) :
    Obstructs x (fn f as) (.engine (.unsupported f .differentiation))

def Obstructed (x : String) (t : Expr α) (e : Failure) : Prop := ∃ p ∈ t.walk, Obstructs x p e

theorem Obstructs.obstructed {t : Expr α} {e : Failure} (h : Obstructs x t e) : Obstructed x t e :=
  ⟨t, self_mem_walk t, h⟩

theorem Obstructed.of_mem {t u : Expr α} {e : Failure} (h : Obstructed x u e) (hu : u ∈ t.walk) :
    Obstructed x t e := by
  obtain ⟨p, hp, hobstructs⟩ := h
  exact ⟨p, walk_subset hu hp, hobstructs⟩

theorem derivative_derives : ∀ t : Expr α,
    Ensures (derivative x t) (Derives x t) (Obstructed x t)
  | num v => ensures_pure (.constant rfl nofun)
  | var y => by
    rw [derivative]
    apply ensures_pure
    by_cases hy : y = x
    · rw [if_pos hy, hy]
      exact .self
    · rw [if_neg hy]
      exact .constant (by simp [contains, hy]) nofun
  | wild n k a => ensures_throw (Obstructs.wildcard n k a).obstructed
  | eq l r => by
    have hl : l ∈ (eq l r).walk := by simp [walk, self_mem_walk]
    have hr : r ∈ (eq l r).walk := by simp [walk, self_mem_walk]
    rw [derivative]
    apply ((derivative_derives l).weaken fun e h => h.of_mem hl).bind
    intro l' hl'
    apply ((derivative_derives r).weaken fun e h => h.of_mem hr).bind
    intro r' hr'
    exact ensures_pure (.equation hl' hr')
  | op o a b => by
    have ha : a ∈ (op o a b).walk := by simp [walk, self_mem_walk]
    have hb : b ∈ (op o a b).walk := by simp [walk, self_mem_walk]
    have da := (derivative_derives a).weaken fun e h => h.of_mem ha
    have db := (derivative_derives b).weaken fun e h => h.of_mem hb
    unfold derivative
    dsimp only
    -- a part without the variable is not visited, whatever it calls
    split
    · rename_i hfree
      exact ensures_step (.constant (by simpa using hfree) nofun)
    cases o with
    | add => exact da.thenStep₂ db fun a' b' => .sum (.inl rfl)
    | sub => exact da.thenStep₂ db fun a' b' => .sum (.inr rfl)
    | mul => exact da.thenStep₂ db fun a' b' => .product
    | div => exact da.thenStep₂ db fun a' b' => .quotient
    | pow =>
      dsimp only
      split_ifs with hfb hfa
      · exact da.thenStep fun a' => .power (by simpa using hfb)
      · exact db.thenStep fun b' => .exponential (by simpa using hfa)
      · exact db.thenStep₂ da fun b' a' hb' ha' => .logarithmic ha' hb'
  | fn f as => by
    unfold derivative
    split
    · rename_i hfree
      exact ensures_step (.constant (by simpa [contains] using hfree) nofun)
    rename_i hmentions
    have hmentions : anyContains x as = true := by simpa using hmentions
    match as with
    | [] => exact ensures_throw (Obstructs.call hmentions nofun).obstructed
    | u :: v :: as => exact ensures_throw (Obstructs.call hmentions nofun).obstructed
    | [u] =>
      have hu : u ∈ (fn f [u]).walk := by simp [walk, walkArgs, self_mem_walk]
      dsimp only
      split
      · rename_i hnone
        have hf : ∀ w, [u] = [w] → outerDerivative? f w = none := by rintro w ⟨⟩; exact hnone
        exact ensures_throw (Obstructs.call hmentions hf).obstructed
      · rename_i outer hsome
        apply ((derivative_derives u).weaken fun e h => h.of_mem hu).thenStep
        exact fun u' => .chain hsome

end RuleAlgebra.Expr
