import RuleAlgebra.Expr.Evaluation
import RuleAlgebra.Polynomial.Term

/-!
An expression as a polynomial in one variable. The coefficients are expressions without the
variable, listed by degree in the order in which the degrees arise; coefficient lists start at
degree zero.
-/

namespace RuleAlgebra

/-- A polynomial as its coefficients by degree, each degree once. -/
abbrev Sparse (α : Type) := List (Nat × Expr α)

namespace Sparse

variable {α : Type}

def get? (p : Sparse α) (d : Nat) : Option (Expr α) := (p.find? (·.1 == d)).map (·.2)

/-- Changes the coefficient of a degree, which is added at the end when it is new. -/
def alter (p : Sparse α) (d : Nat) (f : Option (Expr α) → Expr α) : Sparse α :=
  match p.get? d with
  | some c => p.map fun (k, e) => if k == d then (k, f (some c)) else (k, e)
  | none => p ++ [(d, f none)]

def add (p q : Sparse α) : Sparse α :=
  q.foldl
    (fun out (d, c) => out.alter d fun
      | some b => .op .add b c
      | none => c)
    p

def sub [Scalar α] (p q : Sparse α) : Sparse α :=
  q.foldl
    (fun out (d, c) => out.alter d fun
      | some b => .op .sub b c
      | none => Expr.negative c)
    p

def mul (p q : Sparse α) : Sparse α :=
  p.foldl
    (fun out (i, a) =>
      q.foldl
        (fun out (j, b) => out.alter (i + j) fun
          | some c => .op .add c (.op .mul a b)
          | none => .op .mul a b)
        out)
    []

def divide (p : Sparse α) (e : Expr α) : Sparse α := p.map fun (d, c) => (d, .op .div c e)

def power [Scalar α] (p : Sparse α) : Nat → Sparse α
  | 0 => [(0, Expr.ofNat 1)]
  | n + 1 => (power p n).mul p

def top (p : Sparse α) : Nat := p.foldl (fun m (d, _) => Nat.max m d) 0

end Sparse

namespace Expr

variable {α : Type} [Scalar α]

/-- The largest exponent that is read as a degree. -/
def maxDegree : Nat := 32

def degree? : Expr α → Option Nat
  | num v =>
    match Scalar.toInt? v with
    | some n => if 0 ≤ n ∧ n ≤ maxDegree then some n.toNat else none
    | none => none
  | _ => none

/-- The coefficients of an expression as a polynomial in `x`, if it is one. -/
def sparse? (x : String) : Expr α → Option (Sparse α)
  | op o l r =>
    if !contains x (op o l r) then some [(0, op o l r)]
    else
      match o with
      | .add => do
        let p ← sparse? x l
        let q ← sparse? x r
        pure (p.add q)
      | .sub => do
        let p ← sparse? x l
        let q ← sparse? x r
        pure (p.sub q)
      | .mul => do
        let p ← sparse? x l
        let q ← sparse? x r
        pure (p.mul q)
      | .div =>
        if contains x r then none
        else (sparse? x l).map (·.divide r)
      | .pow => do
        let n ← degree? r
        let p ← sparse? x l
        pure (p.power n)
  | var y => if y == x then some [(1, ofNat 1)] else some [(0, var y)]
  | e => if contains x e then none else some [(0, e)]

def trimEnd {β : Type} (zero : β → Bool) (cs : List β) : List β :=
  (cs.reverse.dropWhile zero).reverse

/-- The simplified coefficients from degree zero on, those at the end that are the number zero left
out; none when the expression is no polynomial in `x`. -/
def symbolicCoefficients (e : Expr α) (x : String)
    (simplify : Expr α → Except Failure (Expr α)) : Except Failure (Option (List (Expr α))) :=
  match e.sparse? x with
  | none => pure none
  | some p => do
    let cs ← (List.range (p.top + 1)).mapM fun d =>
      match p.get? d with
      | some c => simplify c
      | none => pure (ofNat 0)
    pure (some (trimEnd (·.isNumber 0) cs))

/-- The values of the coefficients from degree zero on, zeros at the end left out; none when the
expression is no polynomial in `x` or a coefficient has no value. -/
def numericCoefficients (e : Expr α) (x : String) : Option (List α) := do
  let p ← e.sparse? x
  let cs ← (List.range (p.top + 1)).mapM fun d =>
    match p.get? d with
    | some c => c.closedValue?
    | none => some Scalar.zero
  pure (trimEnd (· == Scalar.zero) cs)

def linearParts (e : Expr α) (x : String) (simplify : Expr α → Except Failure (Expr α)) :
    Except Failure (Option (Expr α × Expr α)) :=
  match e with
  | var y =>
    if y == x then pure (some (ofNat 1, ofNat 0))
    else symbolicCoefficients (var y) x simplify >>= slope
  | e => symbolicCoefficients e x simplify >>= slope
where
  slope : Option (List (Expr α)) → Except Failure (Option (Expr α × Expr α))
    | some [b, k] => pure (some (k, b))
    | _ => pure none

end Expr

/-- A linear expression in several variables: its constant, if it has one, and a number for each
variable. -/
structure LinearForm (α : Type) where
  constant : Option α
  slopes : List (String × α)

namespace LinearForm

variable {α : Type}

def ofConstant (v : α) : LinearForm α := ⟨some v, []⟩

def slope? (f : LinearForm α) (x : String) : Option α := (f.slopes.find? (·.1 == x)).map (·.2)

def map (g : α → α) (f : LinearForm α) : LinearForm α :=
  ⟨f.constant.map g, f.slopes.map fun (x, v) => (x, g v)⟩

def onlyConstant? (f : LinearForm α) : Option α := if f.slopes.isEmpty then f.constant else none

variable [Scalar α]

def addSlope (sign : α) (slopes : List (String × α)) (x : String) (v : α) : List (String × α) :=
  if slopes.any (·.1 == x) then
    slopes.map fun (y, u) => if y == x then (y, u + sign * v) else (y, u)
  else slopes ++ [(x, Scalar.zero + sign * v)]

def combine (sign : α) (f g : LinearForm α) : LinearForm α where
  constant := match g.constant with
    | none => f.constant
    | some v => some (f.constant.getD Scalar.zero + sign * v)
  slopes := g.slopes.foldl (fun out (x, v) => addSlope sign out x v) f.slopes

end LinearForm

namespace Expr

variable {α : Type} [Scalar α]

def linearForm? (unknowns : List String) : Expr α → Option (LinearForm α)
  | num v => some (.ofConstant v)
  | var y =>
    if unknowns.contains y then some ⟨none, [(y, Scalar.one)]⟩
    else (closedValue? (var y)).map .ofConstant
  | op o l r =>
    if !unknowns.any fun x => contains x (op o l r) then
      (closedValue? (op o l r)).map .ofConstant
    else do
      let f ← linearForm? unknowns l
      let g ← linearForm? unknowns r
      match o with
      | .add => pure (LinearForm.combine Scalar.one f g)
      | .sub => pure (LinearForm.combine (Scalar.ofInt (-1)) f g)
      | .mul =>
        match f.onlyConstant?, g.onlyConstant? with
        | some v, _ => pure (g.map (v * ·))
        | none, some v => pure (f.map (· * v))
        | none, none => none
      | .div =>
        match g.onlyConstant? with
        | some v => if v == Scalar.zero then none else pure (f.map (· / v))
        | none => none
      | .pow => none
  | e =>
    if !unknowns.any fun x => contains x e then (closedValue? e).map .ofConstant else none

end Expr

end RuleAlgebra
