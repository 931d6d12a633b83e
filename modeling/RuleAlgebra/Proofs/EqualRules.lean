import RuleAlgebra.Proofs.EqualExpressions
import RuleAlgebra.Proofs.Outcomes
import RuleAlgebra.Proofs.SkeletonTexts

/-!
Rules with equal patterns, and with skeletons that are equal but for the kinds of their wildcards,
rewrite every expression in the same way. A match hands on parts of the matched expression, so that
two results differ at most in how the numbers of the skeletons represent equal values.
-/

namespace RuleAlgebra

namespace Expr

section Alike

variable {α : Type} [BEq α]

mutual

/-- The same expression, but for numbers that compare as equal. -/
def Alike : Expr α → Expr α → Prop
  | num u, num v => u = v ∨ (u == v) = true
  | var x, var y => x = y
  | op o l r, op o' l' r' => o = o' ∧ Alike l l' ∧ Alike r r'
  | fn f as, fn g bs => f = g ∧ AlikeAll as bs
  | eq l r, eq l' r' => Alike l l' ∧ Alike r r'
  | wild x k a, wild y k' a' => x = y ∧ k = k' ∧ a = a'
  | _, _ => False

def AlikeAll : List (Expr α) → List (Expr α) → Prop
  | [], [] => True
  | a :: as, b :: bs => Alike a b ∧ AlikeAll as bs
  | _, _ => False

end

mutual

theorem Alike.refl : ∀ t : Expr α, Alike t t
  | num _ => .inl rfl
  | var _ => rfl
  | op _ l r => ⟨rfl, .refl l, .refl r⟩
  | fn _ as => ⟨rfl, .refl as⟩
  | eq l r => ⟨.refl l, .refl r⟩
  | wild _ _ _ => ⟨rfl, rfl, rfl⟩

theorem AlikeAll.refl : ∀ as : List (Expr α), AlikeAll as as
  | [] => trivial
  | a :: as => ⟨.refl a, .refl as⟩

end

end Alike

section Matching

variable {α : Type} [BEq α]

mutual

theorem matchFrom?_congr [PartialEquivBEq α] : ∀ {p q : Expr α} (e : Expr α) (b : Bindings α),
    Same p q → matchFrom? p e b = matchFrom? q e b
  | _, _, e, b, .num h => by cases e <;> simp [matchFrom?, BEq.congr_left h]
  | _, _, e, b, .var x => rfl
  | _, _, e, b, .wild x k a => rfl
  | _, _, e, b, .op o hl hr => by
    cases e with
    | op => simp only [matchFrom?, matchFrom?_congr _ _ hl, matchFrom?_congr _ _ hr]
    | _ => simp [matchFrom?]
  | _, _, e, b, .eq hl hr => by
    cases e with
    | eq => simp only [matchFrom?, matchFrom?_congr _ _ hl, matchFrom?_congr _ _ hr]
    | _ => simp [matchFrom?]
  | _, _, e, b, .fn f h => by
    cases e with
    | fn => simp only [matchFrom?, h.length_eq, matchArgs?_congr _ _ h]
    | _ => simp [matchFrom?]

theorem matchArgs?_congr [PartialEquivBEq α] : ∀ {ps qs : List (Expr α)} (es : List (Expr α))
    (b : Bindings α), SameAll ps qs → matchArgs? ps es b = matchArgs? qs es b
  | _, _, es, b, .nil => rfl
  | _, _, es, b, .cons h hs => by
    cases es with
    | nil => simp [matchArgs?]
    | cons => simp only [matchArgs?, matchFrom?_congr _ _ h, matchArgs?_congr _ _ hs]

end

end Matching

end Expr

section Outcomes

/-- Both computations fail in the same way, or both have results, and the results are related. -/
def Outcomes {ε β γ : Type} (R : β → γ → Prop) : Except ε β → Except ε γ → Prop
  | .ok b, .ok c => R b c
  | .error e, .error e' => e = e'
  | _, _ => False

theorem Outcomes.bind {ε β γ δ ζ : Type} {R : β → γ → Prop} {S : δ → ζ → Prop} {x : Except ε β}
    {y : Except ε γ} {f : β → Except ε δ} {g : γ → Except ε ζ} (h : Outcomes R x y)
    (hfg : ∀ b c, R b c → Outcomes S (f b) (g c)) : Outcomes S (x >>= f) (y >>= g) := by
  cases x with
  | error e =>
    cases y with
    | error e' => exact h
    | ok c => exact h.elim
  | ok b =>
    cases y with
    | error e' => exact h.elim
    | ok c => exact hfg b c h

theorem Outcomes.ok {ε β γ : Type} {R : β → γ → Prop} {x : Except ε β} {y : Except ε γ}
    (h : Outcomes R x y) {c : γ} (hy : y = .ok c) : ∃ b, x = .ok b ∧ R b c := by
  subst hy
  cases x with
  | error e => exact h.elim
  | ok b => exact ⟨b, rfl, h⟩

theorem Outcomes.foldlM {ε β γ ι : Type} {R : β → γ → Prop} {f : β → ι → Except ε β}
    {g : γ → ι → Except ε γ} (is : List ι)
    (hstep : ∀ i ∈ is, ∀ b c, R b c → Outcomes R (f b i) (g c i)) {b : β} {c : γ} (hR : R b c) :
    Outcomes R (is.foldlM f b) (is.foldlM g c) := by
  induction is generalizing b c with
  | nil => exact hR
  | cons i is ih =>
    rw [List.foldlM_cons, List.foldlM_cons]
    obtain ⟨hi, his⟩ := List.forall_mem_cons.mp hstep
    exact (hi b c hR).bind fun _ _ hR' => ih his hR'

end Outcomes

namespace Expr

variable {α : Type} [BEq α]

mutual

theorem instantiate_alike (b : Bindings α) : ∀ {q s : Expr α}, Same q s.plain →
    Outcomes Alike (q.instantiate b) (s.instantiate b)
  | _, num v, .num h => .inr h
  | _, var x, .var _ => rfl
  | _, wild x k a, .wild _ _ _ => by
    simp only [instantiate]
    cases b.get? x with
    | none => rfl
    | some e => exact Alike.refl e
  | _, op o l r, .op _ hl hr =>
    (instantiate_alike b hl).bind fun _ _ hl =>
      (instantiate_alike b hr).bind fun _ _ hr => ⟨rfl, hl, hr⟩
  | _, eq l r, .eq hl hr =>
    (instantiate_alike b hl).bind fun _ _ hl =>
      (instantiate_alike b hr).bind fun _ _ hr => ⟨hl, hr⟩
  | _, fn f as, .fn _ h => (instantiateArgs_alike b h).bind fun _ _ has => ⟨rfl, has⟩

theorem instantiateArgs_alike (b : Bindings α) : ∀ {qs ss : List (Expr α)}, SameAll qs (plains ss) →
    Outcomes AlikeAll (instantiateArgs b qs) (instantiateArgs b ss)
  | _, [], .nil => trivial
  | _, s :: ss, .cons h hs =>
    (instantiate_alike b h).bind fun _ _ ha =>
      (instantiateArgs_alike b hs).bind fun _ _ has => ⟨ha, has⟩

end

end Expr

/-- Rules with equal patterns, and with skeletons that are equal but for the kinds of their
wildcards, fail in the same way or have results that are alike. -/
theorem patternRule_alike {α : Type} [BEq α] [PartialEquivBEq α] {p p' s s' : Expr α}
    (hp : (p == p') = true) (hs : (s == s'.plain) = true) (e : Expr α) :
    Outcomes Expr.Alike (patternRule p s e) (patternRule p' s' e) := by
  have hmatch : Expr.match? p e = Expr.match? p' e :=
    Expr.matchFrom?_congr e [] (Expr.beq_iff_same.mp hp)
  unfold patternRule
  rw [hmatch]
  cases Expr.match? p' e with
  | none => exact Expr.Alike.refl e
  | some b => exact Expr.instantiate_alike b (Expr.beq_iff_same.mp hs)

end RuleAlgebra
