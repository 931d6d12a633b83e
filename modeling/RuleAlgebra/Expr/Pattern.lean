import RuleAlgebra.Expr.Printer

/-!
Matching a pattern against an expression, and filling the wildcards of a skeleton. Matching extends
a list of bindings from left to right; a wildcard that is bound already matches only an equal
expression.
-/

namespace RuleAlgebra

/-- What the wildcards of a pattern stand for, in the order in which they were bound. -/
abbrev Bindings (α : Type) := List (String × Expr α)

namespace Bindings

variable {α : Type}

def get? (b : Bindings α) (x : String) : Option (Expr α) := (b.find? (·.1 == x)).map (·.2)

/-- Binds a name; a bound name has to be bound to an equal expression. -/
def extend? [BEq α] (b : Bindings α) (x : String) (e : Expr α) : Option (Bindings α) :=
  match b.get? x with
  | none => some (b ++ [(x, e)])
  | some bound => if bound == e then some b else none

/-- One entry for each name: its first place and its last value. -/
def entries (b : Bindings α) : List (String × Expr α) :=
  b.foldl
    (fun out (x, e) =>
      if out.any (·.1 == x) then out.map fun (y, d) => if y == x then (y, e) else (y, d)
      else out ++ [(x, e)])
    []

def display [Scalar α] (b : Bindings α) : String :=
  "Bindings(" ++ ", ".intercalate (b.entries.map fun (x, e) => x ++ "=" ++ e.text) ++ ")"

end Bindings

namespace Expr

variable {α : Type}

def admits (kind : WildcardKind) (avoids : Option String) (e : Expr α) (b : Bindings α) : Bool :=
  match kind with
  | .anything => true
  | .constant => match e with | num _ => true | _ => false
  | .symbol => match e with | var _ => true | _ => false
  | .free =>
    match avoids.bind b.get? with
    | some (var x) => !e.contains x
    | _ => false

mutual

/-- Extends the bindings so that the pattern stands for the expression. -/
def matchFrom? [BEq α] : (pattern e : Expr α) → Bindings α → Option (Bindings α)
  | wild n k a, e, b => if admits k a e b then b.extend? n e else none
  | num u, num v, b => if u == v then some b else none
  | var x, var y, b => if x == y then some b else none
  | op o l r, op o' l' r', b =>
    if o == o' then (matchFrom? l l' b).bind fun b => matchFrom? r r' b else none
  | fn f as, fn g bs, b =>
    if f == g && as.length == bs.length then matchArgs? as bs b else none
  | eq l r, eq l' r', b => (matchFrom? l l' b).bind fun b => matchFrom? r r' b
  | _, _, _ => none

def matchArgs? [BEq α] : (patterns es : List (Expr α)) → Bindings α → Option (Bindings α)
  | [], [], b => some b
  | p :: ps, e :: es, b => (matchFrom? p e b).bind fun b => matchArgs? ps es b
  | _, _, _ => none

end

def match? [BEq α] (pattern e : Expr α) : Option (Bindings α) := matchFrom? pattern e []

mutual

def instantiate (b : Bindings α) : Expr α → Except Failure (Expr α)
  | wild n _ _ =>
    match b.get? n with
    | some e => pure e
    | none => throw (.lookup (.unboundWildcard n))
  | op o l r => do
    let l' ← instantiate b l
    let r' ← instantiate b r
    pure (op o l' r')
  | fn f as => do
    let as' ← instantiateArgs b as
    pure (fn f as')
  | eq l r => do
    let l' ← instantiate b l
    let r' ← instantiate b r
    pure (eq l' r')
  | leaf => pure leaf

def instantiateArgs (b : Bindings α) : List (Expr α) → Except Failure (List (Expr α))
  | [] => pure []
  | a :: as => do
    let a' ← instantiate b a
    let as' ← instantiateArgs b as
    pure (a' :: as')

end

def wildcards (t : Expr α) : List String :=
  firsts (t.walk.filterMap fun | wild n _ _ => some n | _ => none)

end Expr

def Bindings.lookup {α : Type} (b : Option (Bindings α)) (x : String) : Except Failure (Expr α) :=
  match b with
  | none => throw (.lookup (.noMatch x))
  | some b =>
    match (Bindings.entries b).find? (·.1 == x) with
    | some (_, e) => pure e
    | none => throw (.lookup (.binding x))

end RuleAlgebra
