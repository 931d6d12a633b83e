import RuleAlgebra.Proofs.Outcomes
import RuleAlgebra.Rules.Standard

/-!
Maps of scalars and what commutes with them. A map that keeps comparisons, conversions and
arithmetic takes an expression to one of the same shape; matching, filling skeletons, and reading
and writing sums and products do the same to both.
-/

namespace RuleAlgebra

variable {α β : Type}

section Computations

variable {ε γ δ : Type}

theorem bind_eq_map {x : Except ε α} {y : Except ε β} {g : α → β} {f : α → Except ε γ}
    {f' : β → Except ε δ} {h : γ → δ} (hx : y = g <$> x) (hf : ∀ a, f' (g a) = h <$> f a) :
    y >>= f' = h <$> (x >>= f) := by
  subst hx
  cases x with
  | error e => rfl
  | ok a => exact hf a

theorem foldlM_map {f : γ → α → Except ε γ} {f' : δ → β → Except ε δ} {g : α → β} {h : γ → δ}
    (hf : ∀ c a, f' (h c) (g a) = h <$> f c a) (as : List α) (c : γ) :
    (as.map g).foldlM f' (h c) = h <$> as.foldlM f c := by
  induction as generalizing c with
  | nil => rfl
  | cons a as ih =>
    rw [List.map_cons, List.foldlM_cons, List.foldlM_cons]
    exact bind_eq_map (hf c a) ih

theorem foldl_map_hom {f : γ → α → γ} {f' : δ → β → δ} {g : α → β} {h : γ → δ}
    (hf : ∀ c a, f' (h c) (g a) = h (f c a)) (as : List α) (c : γ) :
    (as.map g).foldl f' (h c) = h (as.foldl f c) := by
  rw [List.foldl_map]
  exact List.foldl_hom h hf

theorem filterMap_map_hom {f : α → Option γ} {f' : β → Option δ} {g : α → β} {h : γ → δ}
    (hf : ∀ a, f' (g a) = (f a).map h) (as : List α) :
    (as.map g).filterMap f' = (as.filterMap f).map h := by
  simp only [List.filterMap_map, List.map_filterMap, Function.comp_def, hf]

end Computations

namespace Expr

mutual

def map (φ : α → β) : Expr α → Expr β
  | num v => num (φ v)
  | var x => var x
  | op o l r => op o (map φ l) (map φ r)
  | fn f as => fn f (mapArgs φ as)
  | eq l r => eq (map φ l) (map φ r)
  | wild x k a => wild x k a

def mapArgs (φ : α → β) : List (Expr α) → List (Expr β)
  | [] => []
  | a :: as => map φ a :: mapArgs φ as

end

variable {φ : α → β}

@[simp] theorem mapArgs_eq (as : List (Expr α)) : mapArgs φ as = as.map (map φ) := by
  induction as with
  | nil => rfl
  | cons a as ih => rw [mapArgs, ih, List.map_cons]

@[simp] theorem map_num (v : α) : map φ (num v) = num (φ v) := rfl

@[simp] theorem map_var (x : String) : map φ (var x) = var x := rfl

@[simp] theorem map_op (o : Arithmetic) (l r : Expr α) :
    map φ (op o l r) = op o (map φ l) (map φ r) := rfl

@[simp] theorem map_fn (f : String) (as : List (Expr α)) :
    map φ (fn f as) = fn f (as.map (map φ)) := by rw [map, mapArgs_eq]

@[simp] theorem map_eq (l r : Expr α) : map φ (eq l r) = eq (map φ l) (map φ r) := rfl

@[simp] theorem map_wild (x : String) (k : WildcardKind) (a : Option String) :
    map φ (wild x k a) = wild x k a := rfl

theorem map_eq_num {e : Expr α} {u : β} (h : e.map φ = num u) : ∃ v, e = num v := by
  cases e with
  | num v => exact ⟨v, rfl⟩
  | _ => simp at h

theorem map_eq_op {e : Expr α} {o : Arithmetic} {l r : Expr β} (h : e.map φ = op o l r) :
    ∃ l' r', e = op o l' r' ∧ l'.map φ = l ∧ r'.map φ = r := by
  cases e with
  | op p l' r' =>
    obtain ⟨rfl, hl, hr⟩ := op.inj h
    exact ⟨l', r', rfl, hl, hr⟩
  | _ => simp at h

@[simp] theorem isNum_map (e : Expr α) : (e.map φ).isNum = e.isNum := by
  cases e <;> simp [isNum]

@[simp] theorem number?_map (e : Expr α) : (e.map φ).number? = e.number?.map φ := by
  cases e <;> simp [number?]

theorem numbersOf_map (es : List (Expr α)) :
    (es.map (map φ)).filterMap number? = (es.filterMap number?).map φ :=
  filterMap_map_hom number?_map es

theorem othersOf_map (es : List (Expr α)) :
    (es.map (map φ)).filter (!·.isNum) = (es.filter (!·.isNum)).map (map φ) := by
  simp only [List.filter_map, Function.comp_def, isNum_map]

mutual

@[simp] theorem contains_map (x : String) : ∀ e : Expr α, (e.map φ).contains x = e.contains x
  | num _ => rfl
  | var _ => rfl
  | op _ l r => by simp [contains, contains_map x l, contains_map x r]
  | fn _ as => by simpa [contains] using anyContains_map x as
  | eq l r => by simp [contains, contains_map x l, contains_map x r]
  | wild _ _ _ => rfl

theorem anyContains_map (x : String) : ∀ as : List (Expr α),
    anyContains x (as.map (map φ)) = anyContains x as
  | [] => rfl
  | a :: as => by simp [anyContains, contains_map x a, anyContains_map x as]

end

section Comparison

variable [BEq α] [BEq β]

mutual

theorem same_map (hφ : ∀ a b : α, (φ a == φ b) = (a == b)) :
    ∀ p q : Expr α, same (p.map φ) (q.map φ) = same p q
  | num a, q => by cases q <;> simp [same, hφ]
  | var x, q => by cases q <;> simp [same]
  | op o l r, q => by cases q <;> simp [same, same_map hφ l, same_map hφ r]
  | fn f as, q => by
    cases q with
    | fn g bs => simp [same, sameArgs_map hφ as bs]
    | _ => simp [same]
  | eq l r, q => by cases q <;> simp [same, same_map hφ l, same_map hφ r]
  | wild x k a, q => by cases q <;> simp [same]

theorem sameArgs_map (hφ : ∀ a b : α, (φ a == φ b) = (a == b)) : ∀ ps qs : List (Expr α),
    sameArgs (ps.map (map φ)) (qs.map (map φ)) = sameArgs ps qs
  | [], [] => rfl
  | [], _ :: _ => rfl
  | _ :: _, [] => rfl
  | p :: ps, q :: qs => by simp [sameArgs, same_map hφ p q, sameArgs_map hφ ps qs]

end

variable (hφ : ∀ a b : α, (φ a == φ b) = (a == b))

include hφ

theorem beq_map (p q : Expr α) : (p.map φ == q.map φ) = (p == q) := same_map hφ p q

theorem option_beq_map (p q : Option (Expr α)) :
    (p.map (map φ) == q.map (map φ)) = (p == q) := by
  cases p <;> cases q <;> simp [beq_map hφ]

end Comparison

end Expr

namespace Bindings

variable {φ : α → β}

def map (φ : α → β) (b : Bindings α) : Bindings β := List.map (fun p => (p.1, p.2.map φ)) b

theorem get?_map (b : Bindings α) (x : String) :
    (b.map φ).get? x = (b.get? x).map (Expr.map φ) := by
  simp only [get?, map, List.find?_map, Option.map_map]
  rfl

theorem extend?_map [BEq α] [BEq β] (hφ : ∀ a b : α, (φ a == φ b) = (a == b)) (b : Bindings α)
    (x : String) (e : Expr α) :
    (b.map φ).extend? x (e.map φ) = (b.extend? x e).map (Bindings.map φ) := by
  unfold extend?
  rw [get?_map]
  cases b.get? x with
  | none => simp [map]
  | some bound => simp [Expr.beq_map hφ]

end Bindings

namespace Expr

section Matching

variable {φ : α → β}

theorem admits_map (k : WildcardKind) (a : Option String) (e : Expr α) (b : Bindings α) :
    admits k a (e.map φ) (b.map φ) = admits k a e b := by
  cases k with
  | anything => rfl
  | constant => cases e <;> simp [admits]
  | symbol => cases e <;> simp [admits]
  | free =>
    cases a with
    | none => rfl
    | some x =>
      simp only [admits, Option.bind_some, Bindings.get?_map]
      cases b.get? x with
      | none => rfl
      | some d => cases d <;> simp

variable [BEq α] [BEq β]

mutual

theorem matchFrom?_map (hφ : ∀ a b : α, (φ a == φ b) = (a == b)) :
    ∀ (p e : Expr α) (b : Bindings α),
    matchFrom? (p.map φ) (e.map φ) (b.map φ) = (matchFrom? p e b).map (Bindings.map φ)
  | wild x k a, e, b => by
    simp only [map_wild, matchFrom?, admits_map, Bindings.extend?_map hφ]
    split_ifs <;> rfl
  | num u, e, b => by cases e <;> simp [matchFrom?, hφ]
  | var x, e, b => by cases e <;> simp [matchFrom?]
  | op o l r, e, b => by
    cases e with
    | op o' l' r' =>
      simp only [map_op, matchFrom?, matchFrom?_map hφ l l' b]
      split_ifs
      · cases matchFrom? l l' b with
        | none => rfl
        | some c => exact matchFrom?_map hφ r r' c
      · rfl
    | _ => simp [matchFrom?]
  | fn f as, e, b => by
    cases e with
    | fn g bs =>
      simp only [map_fn, matchFrom?, List.length_map, matchArgs?_map hφ as bs b]
      split_ifs <;> rfl
    | _ => simp [matchFrom?]
  | eq l r, e, b => by
    cases e with
    | eq l' r' =>
      simp only [map_eq, matchFrom?, matchFrom?_map hφ l l' b]
      cases matchFrom? l l' b with
      | none => rfl
      | some c => exact matchFrom?_map hφ r r' c
    | _ => simp [matchFrom?]

theorem matchArgs?_map (hφ : ∀ a b : α, (φ a == φ b) = (a == b)) :
    ∀ (ps es : List (Expr α)) (b : Bindings α),
    matchArgs? (ps.map (map φ)) (es.map (map φ)) (b.map φ) =
      (matchArgs? ps es b).map (Bindings.map φ)
  | [], [], b => rfl
  | [], _ :: _, b => rfl
  | _ :: _, [], b => rfl
  | p :: ps, e :: es, b => by
    simp only [List.map_cons, matchArgs?, matchFrom?_map hφ p e b]
    cases matchFrom? p e b with
    | none => rfl
    | some c => exact matchArgs?_map hφ ps es c

end

end Matching

section Filling

variable {φ : α → β} (b : Bindings α)

mutual

theorem instantiate_map : ∀ s : Expr α,
    (s.map φ).instantiate (b.map φ) = map φ <$> s.instantiate b
  | num _ => rfl
  | var _ => rfl
  | wild x k a => by
    simp only [map_wild, instantiate, Bindings.get?_map]
    cases b.get? x <;> rfl
  | op o l r => by
    simp only [map_op, instantiate]
    exact bind_eq_map (instantiate_map l) fun _ => bind_eq_map (instantiate_map r) fun _ => rfl
  | fn f as => by
    simp only [map_fn, instantiate]
    exact bind_eq_map (instantiateArgs_map as) fun as' => by simp
  | eq l r => by
    simp only [map_eq, instantiate]
    exact bind_eq_map (instantiate_map l) fun _ => bind_eq_map (instantiate_map r) fun _ => rfl

theorem instantiateArgs_map : ∀ ss : List (Expr α),
    instantiateArgs (b.map φ) (ss.map (map φ)) = List.map (map φ) <$> instantiateArgs b ss
  | [] => rfl
  | s :: ss => by
    simp only [List.map_cons, instantiateArgs]
    exact bind_eq_map (instantiate_map s) fun _ => bind_eq_map (instantiateArgs_map ss) fun _ => rfl

end

end Filling

end Expr

/-- A map that keeps comparisons, conversions and arithmetic. Quotients are kept where the divisor
is not zero. -/
structure Scalar.Preserves [Scalar α] [Scalar β] (φ : α → β) : Prop where
  beq (a b : α) : (φ a == φ b) = (a == b)
  lt (a b : α) : Scalar.lt (φ a) (φ b) = Scalar.lt a b
  isFinite (a : α) : Scalar.isFinite (φ a) = Scalar.isFinite a
  toRat? (a : α) : Scalar.toRat? (φ a) = Scalar.toRat? a
  ofRat? (q : Rat) : (Scalar.ofRat? q : Option β) = (Scalar.ofRat? q : Option α).map φ
  ofDecimal (n : Nat) (x : Int) : (Scalar.ofDecimal n x : β) = φ (Scalar.ofDecimal n x)
  neg (a : α) : -φ a = φ (-a)
  add (a b : α) : φ a + φ b = φ (a + b)
  sub (a b : α) : φ a - φ b = φ (a - b)
  mul (a b : α) : φ a * φ b = φ (a * b)
  div (a : α) {b : α} : (b == Scalar.zero) = false → φ a / φ b = φ (a / b)
  abs (a : α) : Scalar.abs (φ a) = φ (Scalar.abs a)
  pow (a b : α) : Arithmetic.pow.value? (φ a) (φ b) = (Arithmetic.pow.value? a b).map φ
  elementary (f : Elementary) (a : α) : f.value? (φ a) = (f.value? a).map φ

/-- Zero is told by its value, and no other integer becomes it. -/
structure Scalar.TellsZero (α : Type) [Scalar α] : Prop where
  value {a : α} : (a == Scalar.zero) = true ↔ Scalar.toRat? a = some 0
  ofInt {n : Int} : n ≠ 0 → ((Scalar.ofInt n : α) == Scalar.zero) = false
  round {n : Int} {a : α} : n ≠ 0 → Scalar.ofRat? n = some a → (a == Scalar.zero) = false

theorem Scalar.TellsZero.toInt? [Scalar α] (hα : Scalar.TellsZero α) {a : α} {n : Int}
    (h : Scalar.toInt? a = some n) : (a == Scalar.zero) = true ↔ n = 0 := by
  obtain ⟨q, hq, hn⟩ := Option.bind_eq_some_iff.mp h
  obtain ⟨-, hnum⟩ := Option.ite_none_right_eq_some.mp hn
  rw [hα.value, hq, Option.some.injEq, ← Rat.num_eq_zero, Option.some.inj hnum]

theorem patternRule_map [BEq α] [BEq β] {φ : α → β} (hφ : ∀ a b : α, (φ a == φ b) = (a == b))
    (p s e : Expr α) :
    patternRule (p.map φ) (s.map φ) (e.map φ) = Expr.map φ <$> patternRule p s e := by
  have hmatch : Expr.match? (p.map φ) (e.map φ) = (Expr.match? p e).map (Bindings.map φ) :=
    Expr.matchFrom?_map hφ p e []
  unfold patternRule
  rw [hmatch]
  cases Expr.match? p e with
  | none => rfl
  | some b => exact Expr.instantiate_map b s

namespace Scalar.Preserves

variable [Scalar α] [Scalar β] {φ : α → β} (hφ : Scalar.Preserves φ)

include hφ

theorem ofNat (n : Nat) : (Scalar.ofNat n : β) = φ (Scalar.ofNat n) := hφ.ofDecimal n 0

theorem zero : (Scalar.zero : β) = φ Scalar.zero := hφ.ofNat 0

theorem one : (Scalar.one : β) = φ Scalar.one := hφ.ofNat 1

theorem ofInt (n : Int) : (Scalar.ofInt n : β) = φ (Scalar.ofInt n) := by
  cases n with
  | ofNat n => exact hφ.ofNat n
  | negSucc n => simp only [Scalar.ofInt, hφ.ofNat, hφ.neg]

theorem div_ofInt (hα : Scalar.TellsZero α) (a : α) {n : Int} (hn : n ≠ 0) :
    φ a / (Scalar.ofInt n : β) = φ (a / Scalar.ofInt n) := by
  rw [hφ.ofInt, hφ.div a (hα.ofInt hn)]

theorem beq_zero (a : α) : (φ a == Scalar.zero) = (a == Scalar.zero) := by rw [hφ.zero, hφ.beq]

theorem beq_one (a : α) : (φ a == Scalar.one) = (a == Scalar.one) := by rw [hφ.one, hφ.beq]

theorem toInt? (a : α) : Scalar.toInt? (φ a) = Scalar.toInt? a := by
  rw [Scalar.toInt?, hφ.toRat?, Scalar.toInt?]

theorem isInteger (a : α) : Scalar.isInteger (φ a) = Scalar.isInteger a := by
  rw [Scalar.isInteger, hφ.toInt?, Scalar.isInteger]

theorem min (a b : α) : Scalar.min (φ a) (φ b) = φ (Scalar.min a b) := by
  simp only [Scalar.min, hφ.lt, apply_ite φ]

theorem finite? (a : α) : Scalar.finite? (φ a) = (Scalar.finite? a).map φ := by
  simp only [Scalar.finite?, hφ.isFinite]
  split_ifs <;> rfl

theorem value? (o : Arithmetic) (a b : α) : o.value? (φ a) (φ b) = (o.value? a b).map φ := by
  cases o with
  | add => simp only [Arithmetic.value?, hφ.add, hφ.finite?]
  | sub => simp only [Arithmetic.value?, hφ.sub, hφ.finite?]
  | mul => simp only [Arithmetic.value?, hφ.mul, hφ.finite?]
  | div =>
    simp only [Arithmetic.value?, hφ.beq_zero]
    split_ifs with hb
    · rfl
    · rw [hφ.div a (Bool.eq_false_iff.mpr hb), hφ.finite?]
  | pow => exact hφ.pow a b

theorem foldl_mul (vs : List α) :
    (vs.map φ).foldl (· * ·) Scalar.one = φ (vs.foldl (· * ·) Scalar.one) := by
  rw [hφ.one]
  exact foldl_map_hom hφ.mul vs Scalar.one

theorem exprOfNat (n : Nat) : (Expr.ofNat n : Expr β) = (Expr.ofNat n : Expr α).map φ := by
  simp only [Expr.ofNat, Expr.map_num, hφ.ofNat]

theorem exprOfInt (n : Int) : (Expr.ofInt n : Expr β) = (Expr.ofInt n : Expr α).map φ := by
  simp only [Expr.ofInt, Expr.map_num, hφ.ofInt]

theorem exprOfRat? (q : Rat) :
    (Expr.ofRat? q : Except Failure (Expr β)) = Expr.map φ <$> (Expr.ofRat? q) := by
  simp only [Expr.ofRat?, hφ.ofRat?]
  cases (Scalar.ofRat? q : Option α) <;> rfl

theorem isNumber (e : Expr α) (n : Int) : (e.map φ).isNumber n = e.isNumber n := by
  cases e <;> simp [Expr.isNumber, hφ.ofInt, hφ.beq]

end Scalar.Preserves

namespace Coefficient

def map (φ : α → β) : Coefficient α → Coefficient β
  | exact q => exact q
  | inexact v => inexact (φ v)

variable [Scalar α] [Scalar β] {φ : α → β} (hφ : Scalar.Preserves φ)

include hφ

theorem ofScalar_map (v : α) : ofScalar (φ v) = (ofScalar v).map φ := by
  simp only [ofScalar, hφ.toInt?]
  cases Scalar.toInt? v <;> rfl

theorem normal_map (c : Coefficient α) : (c.map φ).normal = c.normal.map φ := by
  cases c with
  | exact q => rfl
  | inexact v => exact ofScalar_map hφ v

theorem round_map (q : Rat) : (round q : Except Failure β) = φ <$> round q := by
  simp only [round, hφ.ofRat?]
  cases (Scalar.ofRat? q : Option α) <;> rfl

theorem toScalar_map (c : Coefficient α) : (c.map φ).toScalar = φ <$> c.toScalar := by
  cases c with
  | exact q => exact round_map hφ q
  | inexact v => rfl

theorem neg_map (c : Coefficient α) : (c.map φ).neg = c.neg.map φ := by
  cases c <;> simp [neg, map, hφ.neg]

theorem scale_map (n : Int) (c : Coefficient α) : (c.map φ).scale n = (c.scale n).map φ := by
  cases c <;> simp [scale, map, hφ.ofInt, hφ.mul]

theorem add_map (c d : Coefficient α) :
    (c.map φ).add (d.map φ) = Coefficient.map φ <$> c.add d := by
  have inexactly : (do
      let u ← (c.map φ).toScalar
      let v ← (d.map φ).toScalar
      pure (inexact (u + v)) : Except Failure (Coefficient β)) =
        Coefficient.map φ <$> (do
          let u ← c.toScalar
          let v ← d.toScalar
          pure (inexact (u + v))) :=
    bind_eq_map (toScalar_map hφ c) fun u => bind_eq_map (toScalar_map hφ d) fun v => by
      rw [hφ.add]
      rfl
  cases c with
  | inexact u => exact inexactly
  | exact p =>
    cases d with
    | inexact v => exact inexactly
    | exact q => rfl

theorem divide_map (hα : Scalar.TellsZero α) (c : Coefficient α) {n : Int} (hn : n ≠ 0) :
    (c.map φ).divide n = Coefficient.map φ <$> c.divide n := by
  cases c with
  | exact q => rfl
  | inexact v =>
    simp only [map, divide, round, hφ.ofRat?]
    cases h : (Scalar.ofRat? (n : Rat) : Option α) with
    | none => rfl
    | some d =>
      simp only [Option.map_some, pure_bind, hφ.div v (hα.round hn h)]
      rfl

theorem same_map (c d : Coefficient α) : (c.map φ == d.map φ) = (c == d) := by
  change same (c.map φ) (d.map φ) = same c d
  cases c <;> cases d <;> simp [same, map, hφ.beq, hφ.toRat?]

theorem isZero_map (c : Coefficient α) : (c.map φ).isZero = c.isZero := by
  cases c <;> simp [isZero, map, hφ.beq_zero]

theorem isNegative_map (c : Coefficient α) : (c.map φ).isNegative = c.isNegative := by
  cases c <;> simp [isNegative, map, hφ.zero, hφ.lt]

end Coefficient

namespace Term

def map (φ : α → β) (t : Term α) : Term β := ⟨t.coefficient.map φ, t.rest.map (Expr.map φ)⟩

variable [Scalar α] [Scalar β] {φ : α → β} (hφ : Scalar.Preserves φ)

omit [Scalar α] [Scalar β] in
theorem factors_map (e : Expr α) : factors (e.map φ) = (factors e).map (Expr.map φ) := by
  induction e using factors.induct with
  | case1 l r ihl ihr => simp [factors, ihl, ihr]
  | case2 e h =>
    rw [factors.eq_2 e h, factors.eq_2, List.map_singleton]
    intro l r hop
    obtain ⟨l', r', rfl, -⟩ := Expr.map_eq_op hop
    exact h l' r' rfl

include hφ

theorem product_map (fs : List (Expr α)) :
    product (fs.map (Expr.map φ)) = (product fs).map φ := by
  cases fs with
  | nil => exact hφ.exprOfNat 1
  | cons f fs => exact foldl_map_hom (fun _ _ => rfl) fs f

theorem splitNumbers_map (e : Expr α) :
    splitNumbers (e.map φ) = (φ (splitNumbers e).1, (splitNumbers e).2.map (Expr.map φ)) := by
  by_cases he : ∃ v, e = .num v
  · obtain ⟨v, rfl⟩ := he
    rfl
  · rw [splitNumbers.eq_2 e fun v hv => he ⟨v, hv⟩, splitNumbers.eq_2]
    · simp only [factors_map, Expr.numbersOf_map, Expr.othersOf_map, hφ.foldl_mul, product_map hφ,
        List.isEmpty_map]
      split_ifs <;> simp [hφ.one]
    · intro v hv
      exact he (Expr.map_eq_num hv)

theorem integerDivisor?_map (e : Expr α) : integerDivisor? (e.map φ) = integerDivisor? e := by
  cases e <;> simp [integerDivisor?, hφ.toInt?]

theorem ofExpr_map (hα : Scalar.TellsZero α) (e : Expr α) :
    ofExpr (e.map φ) = Term.map φ <$> ofExpr e := by
  have hsplit (d : Expr α) :
      (⟨.ofScalar (splitNumbers (d.map φ)).1, (splitNumbers (d.map φ)).2⟩ : Term β) =
        Term.map φ ⟨.ofScalar (splitNumbers d).1, (splitNumbers d).2⟩ := by
    rw [splitNumbers_map hφ, Coefficient.ofScalar_map hφ]
    rfl
  induction e using ofExpr.induct with
  | case1 l r n hr ih =>
    have hn : n ≠ 0 := by
      cases r with
      | num v => simpa using (Option.filter_eq_some_iff.mp hr).2
      | _ => simp [integerDivisor?] at hr
    simp only [Expr.map_op, ofExpr, integerDivisor?_map hφ, hr]
    apply bind_eq_map ih
    intro t
    refine bind_eq_map ?_ fun c => rfl
    change (Coefficient.map φ t.coefficient).normal.divide n = _
    rw [Coefficient.normal_map hφ, Coefficient.divide_map hφ hα _ hn]
  | case2 l r hr =>
    simp only [Expr.map_op, ofExpr, integerDivisor?_map hφ, hr]
    exact congrArg pure (hsplit (.op .div l r))
  | case3 e he =>
    rw [ofExpr.eq_2 e he, ofExpr.eq_2]
    · exact congrArg pure (hsplit e)
    · intro l r hdiv
      obtain ⟨l', r', rfl, -⟩ := Expr.map_eq_op hdiv
      exact he l' r' rfl

theorem ofSum_map (hα : Scalar.TellsZero α) (sign : Int) (e : Expr α) :
    ofSum sign (e.map φ) = List.map (Term.map φ) <$> ofSum sign e := by
  induction sign, e using ofSum.induct with
  | case1 sign l r ihl ihr =>
    exact bind_eq_map ihl fun _ => bind_eq_map ihr fun _ => by simp
  | case2 sign l r ihl ihr =>
    exact bind_eq_map ihl fun _ => bind_eq_map ihr fun _ => by simp
  | case3 sign e hadd hsub =>
    rw [ofSum.eq_3 sign e hadd hsub, ofSum.eq_3]
    · apply bind_eq_map (ofExpr_map hφ hα e)
      intro t
      simp [map, Coefficient.scale_map hφ]
    · intro l r hop
      obtain ⟨l', r', rfl, -⟩ := Expr.map_eq_op hop
      exact hadd l' r' rfl
    · intro l r hop
      obtain ⟨l', r', rfl, -⟩ := Expr.map_eq_op hop
      exact hsub l' r' rfl

theorem powerParts_map (e : Expr α) :
    powerParts (e.map φ) = ((powerParts e).1.map φ, (powerParts e).2.map φ) := by
  cases e with
  | op o l r => cases o <;> simp [powerParts, hφ.exprOfNat]
  | _ => simp [powerParts, hφ.exprOfNat]

theorem powerPartsOf_map (es : List (Expr α)) :
    (es.map (Expr.map φ)).map powerParts =
      (es.map powerParts).map (Prod.map (Expr.map φ) (Expr.map φ)) := by
  simp only [List.map_map]
  exact List.map_congr_left fun e _ => powerParts_map hφ e

theorem times_map (v : α) (rest : Option (Expr α)) :
    times (φ v) (rest.map (Expr.map φ)) = (times v rest).map φ := by
  cases rest with
  | none => rfl
  | some e =>
    simp only [Option.map_some, times, hφ.beq_one]
    split_ifs <;> rfl

theorem toExpr_map (t : Term α) : (t.map φ).toExpr = Expr.map φ <$> t.toExpr := by
  obtain ⟨c, rest⟩ := t
  cases c with
  | inexact v => simp [toExpr, map, Coefficient.map, times_map hφ]
  | exact q =>
    simp only [toExpr, map, Coefficient.map]
    apply bind_eq_map (Coefficient.round_map hφ _)
    intro p
    rw [times_map hφ]
    split_ifs
    · rfl
    · exact bind_eq_map (Coefficient.round_map hφ _) fun _ => rfl

theorem addTo_map (sum : Expr α) (t : Term α) :
    addTo (sum.map φ) (t.map φ) = Expr.map φ <$> addTo sum t := by
  have hneg : (Term.map φ { t with coefficient := t.coefficient.neg }) =
      { t.map φ with coefficient := (t.map φ).coefficient.neg } := by
    simp [map, Coefficient.neg_map hφ]
  unfold addTo
  rw [← hneg]
  simp only [map, Coefficient.isNegative_map hφ]
  split_ifs
  · exact bind_eq_map (toExpr_map hφ ⟨t.coefficient.neg, t.rest⟩) fun _ => rfl
  · exact bind_eq_map (toExpr_map hφ t) fun _ => rfl

theorem sum_map (ts : List (Term α)) : sum (ts.map (Term.map φ)) = Expr.map φ <$> sum ts := by
  have hfilter : (ts.map (Term.map φ)).filter (!·.coefficient.isZero) =
      (ts.filter (!·.coefficient.isZero)).map (Term.map φ) := by
    simp only [List.filter_map, Function.comp_def, map, Coefficient.isZero_map hφ]
  unfold sum
  rw [hfilter]
  cases ts.filter (!·.coefficient.isZero) with
  | nil =>
    simp only [List.map_nil, hφ.exprOfNat]
    rfl
  | cons t ts =>
    apply bind_eq_map (toExpr_map hφ t)
    exact foldlM_map (addTo_map hφ) ts

end Term

end RuleAlgebra
