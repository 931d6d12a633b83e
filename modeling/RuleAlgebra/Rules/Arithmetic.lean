import RuleAlgebra.Polynomial.Term

/-!
Rules of arithmetic: folding operations on numbers, adding fractions, and bringing numbers and signs
to their places. Quotients of integers are reduced, not divided out, so that fractions stay exact.
-/

namespace RuleAlgebra.Rules

variable {α : Type} [Scalar α]

def exactTolerance : α := Scalar.ofDecimal 1 (-12)

def nearInteger? (v : α) : Option Int :=
  (Scalar.nearest? v).filter fun n =>
    match (Scalar.ofRat? (n : Rat) : Option α) with
    | some r => Scalar.lt (Scalar.abs (v - r)) exactTolerance
    | none => false

def nearIntegerNumber? (v : α) : Except Failure (Option (Expr α)) :=
  match nearInteger? v with
  | some n => do
    let e ← Expr.ofRat? (n : Rat)
    pure (some e)
  | none => pure none

/-- A quotient of the integers `m` and `n`, which are the values of `a` and `b`: divided out when it
is an integer, else with coprime parts and a positive divisor. -/
def foldQuotient? (a b : α) (m n : Int) : Option (Expr α) :=
  if n = 0 then none
  else if m % n = 0 then some (.num (a / b))
  else
    let g : Int := if n < 0 then -(Int.gcd m n : Int) else Int.gcd m n
    if g = 1 then none
    else some (.op .div (.num (a / Scalar.ofInt g)) (.num (b / Scalar.ofInt g)))

def foldReciprocal (a b : α) : Except Failure (Option (Expr α)) :=
  if a == Scalar.zero then pure none
  else
    match (Scalar.power? a (-b)).bind Scalar.finite? with
    | some p => pure (some (.op .div (Expr.ofNat 1) (.num p)))
    | none => throw .overflow

def foldOperation (o : Arithmetic) (a b : α) : Except Failure (Option (Expr α)) :=
  match o, Scalar.toInt? a, Scalar.toInt? b with
  | .div, some m, some n => pure (foldQuotient? a b m n)
  | .pow, some _, some n =>
    if n < 0 then foldReciprocal a b else pure ((Arithmetic.pow.value? a b).map .num)
  | .pow, _, none =>
    match Arithmetic.pow.value? a b with
    | some v => nearIntegerNumber? v
    | none => pure none
  | o, _, _ => pure ((o.value? a b).map .num)

/-- Functions of numbers fold only to integers: `cos(0)` becomes 1, `sin(1)` stays. -/
def foldFunction (f : String) (args : List (Expr α)) : Except Failure (Option (Expr α)) :=
  match Elementary.ofName? f, args.mapM Expr.number? with
  | some g, some vs =>
    match g.onList? vs with
    | some v => nearIntegerNumber? v
    | none => pure none
  | _, _ => pure none

def foldConstants (e : Expr α) : Except Failure (Expr α) :=
  match e with
  | .op o (.num a) (.num b) => do
    let folded ← foldOperation o a b
    pure (folded.getD e)
  | .fn f args => do
    let folded ← foldFunction f args
    pure (folded.getD e)
  | e => pure e

def fraction? : Expr α → Option Rat
  | .num v => (Scalar.toInt? v).map fun n => (n : Rat)
  | .op .div (.num a) (.num b) =>
    match Scalar.toInt? a, Scalar.toInt? b with
    | some m, some n => if n = 0 then none else some ((m : Rat) / (n : Rat))
    | _, _ => none
  | _ => none

/-- The sum or difference of two fractions of which one at least is no number. -/
def addFractions (e : Expr α) : Except Failure (Expr α) :=
  match e with
  | .op o l r =>
    if !o.isAdditive || (l.isNum && r.isNum) then pure e
    else
      match fraction? l, fraction? r with
      | some p, some q => Term.toExpr ⟨.exact (if o = .add then p + q else p - q), none⟩
      | _, _ => pure e
  | e => pure e

def constantFirst : Expr α → Expr α
  | .op .mul l (.num v) => if l.isNum then .op .mul l (.num v) else .op .mul (.num v) l
  | e => e

def mergeCoefficients : Expr α → Expr α
  | .op .mul (.num a) (.op .mul (.num b) r) => .op .mul (.num (a * b)) r
  | e => e

def zeroNumerator (e : Expr α) : Expr α :=
  match e with
  | .op .div l r => if l.isNumber 0 && !r.isNumber 0 then Expr.ofNat 0 else e
  | e => e

def negated? : Expr α → Option (Expr α)
  | .num v => if Scalar.lt v Scalar.zero then some (.num (-v)) else none
  | .op .mul (.num v) r =>
    if Scalar.lt v Scalar.zero then
      some (if -v == Scalar.one then r else .op .mul (.num (-v)) r)
    else none
  | _ => none

def flipped : Arithmetic → Arithmetic
  | .add => .sub
  | _ => .add

/-- Adding a negative becomes subtracting, and the other way round, also in a numerator. -/
def normalizeSigns (e : Expr α) : Expr α :=
  match e with
  | .op o l r =>
    if !o.isAdditive then e
    else
      match r with
      | .op .div n d =>
        match negated? n with
        | some n => .op (flipped o) l (.op .div n d)
        | none => e
      | r =>
        match negated? r with
        | some r => .op (flipped o) l r
        | none => e
  | e => e

end RuleAlgebra.Rules
