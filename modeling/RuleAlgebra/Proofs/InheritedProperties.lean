import RuleAlgebra.Calculus.Antiderivative
import RuleAlgebra.Expr.Substitution
import RuleAlgebra.Proofs.Instantiation
import RuleAlgebra.Proofs.Occurrences
import RuleAlgebra.Proofs.TracedComputations
import RuleAlgebra.Rule.Basic

/-!
Properties that an expression shares with its parts, such as having variables only from a set, and
functions whose results have every such property that their arguments have: terms of sums, matching,
filling of skeletons, and application of a function to all parts. What such a property says of an
unevaluated integral beyond its arguments is left open.
-/

namespace RuleAlgebra

open Traced

abbrev Traced.Yields {β : Type} (P : β → Prop) : Except Failure β → Prop := Outcome P fun _ => True

namespace Expr

variable {α : Type}

/-- A property that numbers have, that passes from an expression to its parts, and that an
expression has when its parts do, unless it is an integral. -/
structure Inherited (P : Expr α → Prop) : Prop where
  num (v : α) : P (num v)
  op {o : Arithmetic} {l r : Expr α} : P (op o l r) ↔ P l ∧ P r
  eq {l r : Expr α} : P (eq l r) ↔ P l ∧ P r
  args {f : String} {as : List (Expr α)} : P (fn f as) → ∀ a ∈ as, P a
  call {f : String} {as : List (Expr α)} : f ≠ integralName → (∀ a ∈ as, P a) → P (fn f as)
  occurrence {e : Expr α} {x : String} : P e → e.contains x = true → P (var x)

/-- The result has every inherited property that the expression has. -/
def Inherits (f : Expr α → Except Failure (Expr α)) : Prop :=
  ∀ (P : Expr α → Prop), Inherited P → ∀ e, P e → Yields P (f e)

variable {P : Expr α → Prop} (hP : Inherited P)

section Constructors

theorem Inherits.ofPure {g : Expr α → Expr α}
    (h : ∀ {P : Expr α → Prop}, Inherited P → ∀ {e}, P e → P (g e)) :
    Inherits fun e => pure (g e) := fun _ hP _ he => h hP he

include hP

theorem Inherited.call_iff {f : String} (hf : f ≠ integralName) {u : Expr α} :
    P (fn f [u]) ↔ P u :=
  ⟨fun h => hP.args h u (by simp), fun h => hP.call hf (by simpa using h)⟩

variable [Scalar α]

theorem Inherited.ofNat (n : Nat) : P (ofNat n) := hP.num _

theorem Inherited.ofInt (n : Int) : P (ofInt n) := hP.num _

theorem Inherited.squared {e : Expr α} : P (squared e) ↔ P e := by
  simp [Expr.squared, hP.op, hP.ofNat]

theorem ofRat?_inherits (q : Rat) : Yields P (ofRat? q) := by
  unfold ofRat?
  split
  · exact hP.num _
  · trivial

end Constructors

section Matching

variable {b c : Bindings α}

def IsSkeleton (t : Expr α) : Prop :=
  ∀ u ∈ t.walk, (∀ x, u ≠ var x) ∧ ∀ as, u ≠ fn integralName as

@[simp] theorem isSkeleton_num (v : α) : IsSkeleton (num v) := by simp [IsSkeleton, walk]

@[simp] theorem isSkeleton_wild (n : String) (k : WildcardKind) (a : Option String) :
    IsSkeleton (wild n k a : Expr α) := by
  simp [IsSkeleton, walk]

@[simp] theorem isSkeleton_var (x : String) : ¬IsSkeleton (var x : Expr α) := by
  simp [IsSkeleton, walk]

@[simp] theorem isSkeleton_op (o : Arithmetic) (l r : Expr α) :
    IsSkeleton (op o l r) ↔ IsSkeleton l ∧ IsSkeleton r := by
  simp only [IsSkeleton, walk, List.forall_mem_cons, List.forall_mem_append]
  simp

@[simp] theorem isSkeleton_eq (l r : Expr α) :
    IsSkeleton (eq l r) ↔ IsSkeleton l ∧ IsSkeleton r := by
  simp only [IsSkeleton, walk, List.forall_mem_cons, List.forall_mem_append]
  simp

@[simp] theorem isSkeleton_fn (f : String) (as : List (Expr α)) :
    IsSkeleton (fn f as) ↔ f ≠ integralName ∧ ∀ a ∈ as, IsSkeleton a := by
  simp only [IsSkeleton, walk, List.forall_mem_cons, mem_walkArgs]
  constructor
  · rintro ⟨⟨-, hf⟩, has⟩
    exact ⟨fun h => hf as (by rw [h]), fun a ha u hu => has u ⟨a, ha, hu⟩⟩
  · rintro ⟨hf, has⟩
    refine ⟨⟨by simp, ?_⟩, ?_⟩
    · rintro bs ⟨⟩
      exact hf rfl
    · rintro u ⟨a, ha, hu⟩
      exact has a ha u hu

@[simp] theorem isSkeleton_ofNat [Scalar α] (n : Nat) : IsSkeleton (ofNat n : Expr α) :=
  isSkeleton_num _

@[simp] theorem isSkeleton_ofInt [Scalar α] (n : Int) : IsSkeleton (ofInt n : Expr α) :=
  isSkeleton_num _

@[simp] theorem isSkeleton_negative [Scalar α] (t : Expr α) :
    IsSkeleton (negative t) ↔ IsSkeleton t := by
  simp [negative]

@[simp] theorem isSkeleton_squared [Scalar α] (t : Expr α) :
    IsSkeleton (squared t) ↔ IsSkeleton t := by
  simp [Expr.squared]

theorem get?_inherits (hb : ∀ q ∈ b, P q.2) {n : String} {e : Expr α} (h : b.get? n = some e) :
    P e := by
  obtain ⟨q, hq, rfl⟩ := Option.map_eq_some_iff.mp h
  exact hb q (List.mem_of_find?_eq_some hq)

mutual

theorem instantiate_inherits (hP : Inherited P) (hb : ∀ q ∈ b, P q.2) :
    ∀ t : Expr α, IsSkeleton t → Yields P (instantiate b t)
  | num v, _ => hP.num v
  | var x, h => absurd h (isSkeleton_var x)
  | wild n k a, _ => by
    rw [instantiate]
    split
    · rename_i e he
      exact get?_inherits hb he
    · trivial
  | op o l r, h => by
    obtain ⟨hl, hr⟩ := (isSkeleton_op o l r).mp h
    rw [instantiate]
    apply (instantiate_inherits hP hb l hl).bind
    intro l' hl'
    apply (instantiate_inherits hP hb r hr).bind
    intro r' hr'
    exact hP.op.mpr ⟨hl', hr'⟩
  | eq l r, h => by
    obtain ⟨hl, hr⟩ := (isSkeleton_eq l r).mp h
    rw [instantiate]
    apply (instantiate_inherits hP hb l hl).bind
    intro l' hl'
    apply (instantiate_inherits hP hb r hr).bind
    intro r' hr'
    exact hP.eq.mpr ⟨hl', hr'⟩
  | fn f as, h => by
    obtain ⟨hf, has⟩ := (isSkeleton_fn f as).mp h
    rw [instantiate]
    apply (instantiateArgs_inherits hP hb as has).bind
    intro as' has'
    exact hP.call hf has'

theorem instantiateArgs_inherits (hP : Inherited P) (hb : ∀ q ∈ b, P q.2) :
    ∀ as : List (Expr α), (∀ a ∈ as, IsSkeleton a) →
      Yields (∀ a ∈ ·, P a) (instantiateArgs b as)
  | [], _ => List.forall_mem_nil _
  | a :: as, h => by
    obtain ⟨ha, has⟩ := List.forall_mem_cons.mp h
    rw [instantiateArgs]
    apply (instantiate_inherits hP hb a ha).bind
    intro a' ha'
    apply (instantiateArgs_inherits hP hb as has).bind
    intro as' has'
    exact List.forall_mem_cons.mpr ⟨ha', has'⟩

end

variable [BEq α]

theorem extend?_inherits (hb : ∀ q ∈ b, P q.2) {n : String} {e : Expr α} (he : P e)
    (h : b.extend? n e = some c) : ∀ q ∈ c, P q.2 := by
  obtain ⟨-, rfl⟩ | ⟨d, -, -, rfl⟩ := Bindings.extend?_eq_some.mp h
  · exact List.forall_mem_append.mpr ⟨hb, List.forall_mem_singleton.mpr he⟩
  · exact hb

mutual

theorem Matches.inherits (hP : Inherited P) {p e : Expr α} {b c : Bindings α} (he : P e)
    (hb : ∀ q ∈ b, P q.2) : Matches p e b c → ∀ q ∈ c, P q.2
  | .wild _ hextend => extend?_inherits hb he hextend
  | .num _ => hb
  | .var _ => hb
  | .op _ hl hr => by
    obtain ⟨he, he'⟩ := hP.op.mp he
    exact hr.inherits hP he' (hl.inherits hP he hb)
  | .eq hl hr => by
    obtain ⟨he, he'⟩ := hP.eq.mp he
    exact hr.inherits hP he' (hl.inherits hP he hb)
  | .fn _ hargs => hargs.inherits hP (hP.args he) hb

theorem MatchesAll.inherits (hP : Inherited P) {ps es : List (Expr α)} {b c : Bindings α}
    (hes : ∀ e ∈ es, P e) (hb : ∀ q ∈ b, P q.2) : MatchesAll ps es b c → ∀ q ∈ c, P q.2
  | .nil => hb
  | .cons hp hps => by
    obtain ⟨he, hes⟩ := List.forall_mem_cons.mp hes
    exact hps.inherits hP hes (hp.inherits hP he hb)

end

theorem patternRule_inherits (p : Expr α) {k : Expr α} (hk : IsSkeleton k) :
    Inherits (patternRule p k) := by
  intro P hP e he
  unfold patternRule
  split
  · exact he
  · rename_i b hb
    have hbindings := (matchFrom?_eq_some.mp hb).inherits hP he (List.forall_mem_nil _)
    exact instantiate_inherits hP hbindings k hk

end Matching

section Traversal

variable {f : Expr α → Except Failure (Expr α)}

def CallsKeep (P : Expr α → Prop) (f : Expr α → Except Failure (Expr α)) : Prop :=
  ∀ g as as', P (fn g as) → transformArgs f as = .ok as' → (∀ a ∈ as', P a) → P (fn g as')

mutual

theorem transform_inherits (hP : Inherited P) (hf : ∀ e, P e → Yields P (f e))
    (hcall : CallsKeep P f) :
    ∀ e : Expr α, P e → Yields P (transform f e)
  | num v, h => hf (num v) h
  | var x, h => hf (var x) h
  | wild n k a, h => hf (wild n k a) h
  | op o l r, h => by
    obtain ⟨hl, hr⟩ := hP.op.mp h
    rw [Expr.transform]
    apply (transform_inherits hP hf hcall l hl).bind
    intro l' hl'
    apply (transform_inherits hP hf hcall r hr).bind
    intro r' hr'
    exact hf (op o l' r') (hP.op.mpr ⟨hl', hr'⟩)
  | eq l r, h => by
    obtain ⟨hl, hr⟩ := hP.eq.mp h
    rw [Expr.transform]
    apply (transform_inherits hP hf hcall l hl).bind
    intro l' hl'
    apply (transform_inherits hP hf hcall r hr).bind
    intro r' hr'
    exact hf (eq l' r') (hP.eq.mpr ⟨hl', hr'⟩)
  | fn g as, h => by
    have hargs := transformArgs_inherits hP hf hcall as (hP.args h)
    rw [Expr.transform]
    cases has : transformArgs f as with
    | error failure => trivial
    | ok as' =>
      rw [has] at hargs
      exact hf (fn g as') (hcall g as as' h has hargs)

theorem transformArgs_inherits (hP : Inherited P) (hf : ∀ e, P e → Yields P (f e))
    (hcall : CallsKeep P f) :
    ∀ as : List (Expr α), (∀ a ∈ as, P a) → Yields (∀ a ∈ ·, P a) (transformArgs f as)
  | [], _ => List.forall_mem_nil _
  | a :: as, h => by
    obtain ⟨ha, has⟩ := List.forall_mem_cons.mp h
    rw [Expr.transformArgs]
    apply (transform_inherits hP hf hcall a ha).bind
    intro a' ha'
    apply (transformArgs_inherits hP hf hcall as has).bind
    intro as' has'
    exact List.forall_mem_cons.mpr ⟨ha', has'⟩

end

end Traversal

end Expr

namespace Term

open RuleAlgebra.Expr

variable {α : Type} {P : Expr α → Prop} (hP : Inherited P)
include hP

theorem factors_inherit {e : Expr α} (h : P e) : ∀ f ∈ factors e, P f := by
  induction e using factors.induct with
  | case1 l r ihl ihr =>
    obtain ⟨hl, hr⟩ := hP.op.mp h
    rw [factors]
    exact List.forall_mem_append.mpr ⟨ihl hl, ihr hr⟩
  | case2 e hne =>
    rw [factors]
    · exact List.forall_mem_singleton.mpr h
    · exact hne

theorem foldl_op_inherits (o : Arithmetic) {e : Expr α} (he : P e) {fs : List (Expr α)}
    (h : ∀ f ∈ fs, P f) : P (fs.foldl (op o) e) := by
  induction fs generalizing e with
  | nil => exact he
  | cons f fs ih =>
    obtain ⟨hf, hfs⟩ := List.forall_mem_cons.mp h
    exact ih (hP.op.mpr ⟨he, hf⟩) hfs

variable [Scalar α]

theorem product_inherits {fs : List (Expr α)} (h : ∀ f ∈ fs, P f) : P (product fs) := by
  cases fs with
  | nil => exact hP.ofNat 1
  | cons f fs =>
    obtain ⟨hf, hfs⟩ := List.forall_mem_cons.mp h
    exact foldl_op_inherits hP .mul hf hfs

theorem splitNumbers_inherits {e : Expr α} (h : P e) : ∀ d ∈ (splitNumbers e).2, P d := by
  unfold splitNumbers
  split
  · simp
  · dsimp only
    split_ifs with hnumbers hothers
    · simpa using h
    · simp
    · have hfilter : ∀ f ∈ (factors e).filter (!·.isNum), P f :=
        fun f hf => factors_inherit hP h f (List.mem_of_mem_filter hf)
      simpa using product_inherits hP hfilter

def RestHas (P : Expr α → Prop) (t : Term α) : Prop := ∀ e ∈ t.rest, P e

theorem ofExpr_inherits {e : Expr α} (h : P e) : Yields (RestHas P) (ofExpr e) := by
  induction e using ofExpr.induct with
  | case1 l r n hn ih =>
    obtain ⟨hl, -⟩ := hP.op.mp h
    rw [ofExpr, hn]
    apply (ih hl).bind
    intro t ht
    exact outcome_after _ fun c => ht
  | case2 l r hn =>
    rw [ofExpr, hn]
    exact splitNumbers_inherits hP h
  | case3 e hne =>
    rw [ofExpr]
    · exact splitNumbers_inherits hP h
    · exact hne

theorem ofSum_inherits {sign : Int} {e : Expr α} (h : P e) :
    Yields (∀ t ∈ ·, RestHas P t) (ofSum sign e) := by
  induction sign, e using ofSum.induct with
  | case1 sign l r ihl ihr | case2 sign l r ihl ihr =>
    obtain ⟨hl, hr⟩ := hP.op.mp h
    rw [ofSum]
    apply (ihl hl).bind
    intro ls hls
    apply (ihr hr).bind
    intro rs hrs
    exact List.forall_mem_append.mpr ⟨hls, hrs⟩
  | case3 sign e hadd hsub =>
    rw [ofSum]
    · apply (ofExpr_inherits hP h).bind
      intro t ht
      exact List.forall_mem_singleton.mpr ht
    · exact hadd
    · exact hsub

theorem times_inherits (v : α) {rest : Option (Expr α)} (h : ∀ e ∈ rest, P e) :
    P (times v rest) := by
  cases rest with
  | none => exact hP.num v
  | some e =>
    have he : P e := h e rfl
    unfold times
    split_ifs
    · exact he
    · exact hP.op.mpr ⟨hP.num v, he⟩

theorem toExpr_inherits {t : Term α} (h : RestHas P t) : Yields P t.toExpr := by
  unfold toExpr
  split
  · exact times_inherits hP _ h
  · apply outcome_after
    intro p
    split_ifs
    · exact times_inherits hP p h
    · apply outcome_after
      intro d
      exact hP.op.mpr ⟨times_inherits hP p h, hP.num d⟩

theorem addTo_inherits {e : Expr α} {t : Term α} (he : P e) (ht : RestHas P t) :
    Yields P (addTo e t) := by
  unfold addTo
  split_ifs
  · have hneg : RestHas P { t with coefficient := t.coefficient.neg } := ht
    apply (toExpr_inherits hP hneg).bind
    intro d hd
    exact hP.op.mpr ⟨he, hd⟩
  · apply (toExpr_inherits hP ht).bind
    intro d hd
    exact hP.op.mpr ⟨he, hd⟩

theorem sum_inherits {ts : List (Term α)} (h : ∀ t ∈ ts, RestHas P t) : Yields P (sum ts) := by
  have hfilter : ∀ t ∈ ts.filter (!·.coefficient.isZero), RestHas P t :=
    fun t ht => h t (List.mem_of_mem_filter ht)
  unfold sum
  split
  · exact hP.ofNat 0
  · rename_i t ts' heq
    rw [heq] at hfilter
    obtain ⟨ht, hts⟩ := List.forall_mem_cons.mp hfilter
    apply (toExpr_inherits hP ht).bind
    intro e he
    exact outcome_foldlM he fun t ht e he => addTo_inherits hP he (hts t ht)

end Term

end RuleAlgebra
