import RuleAlgebra.Scalar
import RuleAlgebra.Failure

/-!
Expressions: numbers, variables, binary operations, functions applied to arguments, equations, and
the wildcards of patterns. Equality is structural, with the equality of the scalars at the leaves.
-/

namespace RuleAlgebra

/-- Names of numbers that are kept as symbols. -/
def constants : List String := ["pi", "e"]

inductive WildcardKind where
  | anything | constant | symbol | free
  deriving DecidableEq, Repr

namespace WildcardKind

def name : WildcardKind → String
  | anything => "expr" | constant => "const" | symbol => "var" | free => "free"

def ofName? : String → Option WildcardKind
  | "expr" => some anything | "const" => some constant | "var" => some symbol
  | "free" => some free
  | _ => none

end WildcardKind

/-- An expression over a type of scalars. A wildcard may name another one whose variable it has to
avoid. -/
inductive Expr (α : Type) where
  | num (value : α)
  | var (name : String)
  | op (o : Arithmetic) (left right : Expr α)
  | fn (name : String) (args : List (Expr α))
  | eq (lhs rhs : Expr α)
  | wild (name : String) (kind : WildcardKind) (avoids : Option String)
  deriving Inhabited

namespace Expr

variable {α : Type}

mutual

def same [BEq α] : Expr α → Expr α → Bool
  | num a, num b => a == b
  | var a, var b => a == b
  | op o l r, op o' l' r' => o == o' && same l l' && same r r'
  | fn f as, fn g bs => f == g && sameArgs as bs
  | eq l r, eq l' r' => same l l' && same r r'
  | wild n k a, wild n' k' a' => n == n' && k == k' && a == a'
  | _, _ => false

def sameArgs [BEq α] : List (Expr α) → List (Expr α) → Bool
  | [], [] => true
  | a :: as, b :: bs => same a b && sameArgs as bs
  | _, _ => false

end

instance [BEq α] : BEq (Expr α) := ⟨same⟩

def children : Expr α → List (Expr α)
  | op _ l r => [l, r]
  | fn _ as => as
  | eq l r => [l, r]
  | _ => []

mutual

/-- The expression and all its parts, each before its own parts. -/
def walk : Expr α → List (Expr α)
  | op o l r => op o l r :: (walk l ++ walk r)
  | fn f as => fn f as :: walkArgs as
  | eq l r => eq l r :: (walk l ++ walk r)
  | e => [e]

def walkArgs : List (Expr α) → List (Expr α)
  | [] => []
  | a :: as => walk a ++ walkArgs as

end

def complexity (t : Expr α) : Nat := (walk t).length

mutual

def contains (x : String) : Expr α → Bool
  | num _ => false
  | var y => y == x
  | op _ l r => contains x l || contains x r
  | fn _ as => anyContains x as
  | eq l r => contains x l || contains x r
  | wild _ _ _ => false

def anyContains (x : String) : List (Expr α) → Bool
  | [] => false
  | a :: as => contains x a || anyContains x as

end

def isFreeOf (t : Expr α) (x : String) : Bool := !t.contains x

def firsts (names : List String) : List String :=
  names.foldl (fun seen n => if seen.contains n then seen else seen ++ [n]) []

def variableNames (t : Expr α) : List String :=
  firsts (t.walk.filterMap fun | var x => some x | _ => none)

def functionNames (t : Expr α) : List String :=
  firsts (t.walk.filterMap fun | fn f _ => some f | _ => none)

def operators (t : Expr α) : List String :=
  ["*", "+", "-", "/", "^"].filter fun s =>
    t.walk.any fun | op o _ _ => o.symbol == s | _ => false

def kindName : Expr α → String
  | num _ => "Number"
  | var _ => "Variable"
  | op .. => "Operator"
  | fn .. => "Function"
  | eq .. => "Equation"
  | wild .. => "Wildcard"

section Numbers

variable [Scalar α]

def ofNat (n : Nat) : Expr α := num (Scalar.ofNat n)

def ofInt (n : Int) : Expr α := num (Scalar.ofInt n)

/-- A number nearest to a fraction, unless the fraction is beyond the range of numbers. -/
def ofRat? (q : Rat) : Except Failure (Expr α) :=
  match Scalar.ofRat? q with
  | some v => pure (num v)
  | none => throw .overflow

def isNum : Expr α → Bool
  | num _ => true
  | _ => false

def number? : Expr α → Option α
  | num v => some v
  | _ => none

def isNumber (t : Expr α) (n : Int) : Bool :=
  match t with
  | num v => v == Scalar.ofInt n
  | _ => false

def negative (t : Expr α) : Expr α := op .mul (ofInt (-1)) t

def squared (t : Expr α) : Expr α := op .pow t (ofNat 2)

end Numbers

end Expr

end RuleAlgebra
