import RuleAlgebra.Rule.Line

/-!
Libraries of rules: rules in the order of registration, an index of their names, and the groups
that are switched off. A rule is off when one of its tags is.
-/

namespace RuleAlgebra

/-- The categories in the order in which simplification visits them. -/
def categories : List String :=
  ["arithmetic", "algebraic", "trigonometric", "exponential", "logarithmic"]

/-- The groups that are applied for a target form only. -/
def targetGroups : List String := ["expand", "factor"]

structure Library (α : Type) where
  rules : List (Rule α)
  /-- The rule that a name was last given to; a name stands once. -/
  index : List (String × Rule α)
  disabled : List String

namespace Library

variable {α : Type}

def empty : Library α := ⟨[], [], []⟩

def indexWith (index : List (String × Rule α)) (name : String) (r : Rule α) :
    List (String × Rule α) :=
  (index.filter (·.1 != name)) ++ [(name, r)]

def add (l : Library α) (r : Rule α) : Library α :=
  { l with
    rules := l.rules ++ [r]
    index := match r.info.name? with
      | some name => indexWith l.index name r
      | none => l.index }

def addAll (l : Library α) (rs : List (Rule α)) : Library α := rs.foldl add l

def ofRules (rs : List (Rule α)) : Library α := addAll empty rs

def size (l : Library α) : Nat := l.rules.length

/-- Adds the rules of a text, or none of them when a line fails. -/
def load [Scalar α] (l : Library α) (text : String) : Except Failure (Library α) := do
  let rs ← rulesOfText text
  pure (l.addAll rs)

def disable (l : Library α) (group : String) : Library α :=
  { l with disabled := if l.disabled.contains group then l.disabled else l.disabled ++ [group] }

def enable (l : Library α) (group : String) : Library α :=
  { l with disabled := l.disabled.filter (· != group) }

def groups (l : Library α) : List String :=
  (Expr.firsts (l.rules.flatMap (·.info.tags))).mergeSort

def isActive (l : Library α) (r : Rule α) : Bool := r.info.tags.all fun t => !l.disabled.contains t

def rulesIn (l : Library α) (category : String) : List (Rule α) :=
  l.rules.filter fun r => r.info.category == some category && l.isActive r

/-- The active rules with a tag among the groups, or all active rules. -/
def active (l : Library α) (groups : Option (List String)) : List (Rule α) :=
  l.rules.filter fun r => l.isActive r &&
    match groups with
    | none => true
    | some gs => r.info.tags.any gs.contains

/-- The rules followed by those of another library, with the switches of the first. -/
def union (l other : Library α) : Library α := l.addAll other.rules

def contains (l : Library α) (name : String) : Bool := l.index.any (·.1 == name)

def get (l : Library α) (name : String) : Except Failure (Rule α) :=
  match l.index.find? (·.1 == name) with
  | some (_, r) => pure r
  | none => throw (.lookup (.rule name))

section Application

variable [BEq α]

def firstChange (e : Expr α) : List (Rule α) → Except Failure (Expr α × Option RuleInfo)
  | [] => pure (e, none)
  | r :: rs => do
    let d ← r.apply e
    if d == e then firstChange e rs else pure (d, some r.info)

/-- Applies the first active rule that changes the expression, not walking into its parts. -/
def applyOnce (l : Library α) (e : Expr α) (groups : Option (List String)) :
    Except Failure (Expr α × Option RuleInfo) :=
  firstChange e (l.active groups)

def matching (l : Library α) (e : Expr α) (groups : Option (List String)) :
    Except Failure (List (Rule α)) :=
  (l.active groups).filterM fun r => do
    let d ← r.apply e
    pure (!(d == e))

end Application

variable [Scalar α]

def matchText (pattern : String) (e : Expr α) : Except Failure (Option (Bindings α)) :=
  match Expr.ofPattern pattern with
  | .ok p => pure (Expr.match? p e)
  | .error _ => throw (.request (.pattern pattern))

def listing (l : Library α) : List String := l.rules.map Rule.listing

def display (l : Library α) : String :=
  s!"<RuleLibrary: {l.size} rules, {l.groups.length} groups>"

end Library

end RuleAlgebra
