import RuleAlgebra.Proofs.SimplifierResults

/-!
The cost of an expression over the integers, by which rewriting comes to rest. A quotient weighs its
divisor twice and a negative number more than a positive one; between equal weights the smaller
numbers decide, products counting multiplicatively. Rules that lower the cost of whatever they
change leave everything as it is once a pass ends where it began.
-/

namespace RuleAlgebra

namespace Expr

/-- Operations on integers. -/
def Closed : Expr Rat → Prop
  | num v => v.den = 1
  | op _ l r => Closed l ∧ Closed r
  | _ => False

def numWeight (v : Rat) : Nat := if v < 0 then 5 else 2

def opWeight : Arithmetic → Nat → Nat → Nat
  | .add, a, b => a + b + 6
  | .sub, a, b => a + b + 6
  | .mul, a, b => a + b
  | .div, a, b => a + 2 * b + 4
  | .pow, a, b => a + b + 7

def weight : Expr Rat → Nat
  | num v => numWeight v
  | op o l r => opWeight o (weight l) (weight r)
  | _ => 2

def opSize : Arithmetic → Nat → Nat → Nat
  | .mul, a, b => a * b
  | _, a, b => a + b

def size : Expr Rat → Nat
  | num v => v.num.natAbs + 2
  | op o l r => opSize o (size l) (size r)
  | _ => 2

def cost (e : Expr Rat) : Nat ×ₗ Nat := toLex (weight e, size e)

section Measures

variable {l l' r r' e d : Expr Rat}

@[simp] theorem closed_num (v : Rat) : (num v).Closed ↔ v.den = 1 := Iff.rfl

@[simp] theorem closed_op (o : Arithmetic) : (op o l r).Closed ↔ l.Closed ∧ r.Closed :=
  Iff.rfl

@[simp] theorem closed_ofNat (n : Nat) : (ofNat n : Expr Rat).Closed := by simp [ofNat]

@[simp] theorem closed_ofInt (n : Int) : (ofInt n : Expr Rat).Closed := by simp [ofInt]

@[simp] theorem not_closed_var (x : String) : ¬(var x).Closed := not_false

@[simp] theorem not_closed_fn (f : String) (as : List (Expr Rat)) : ¬(fn f as).Closed :=
  not_false

@[simp] theorem not_closed_eq : ¬(eq l r).Closed := not_false

@[simp] theorem not_closed_wild (n : String) (k : WildcardKind) (a : Option String) :
    ¬(wild n k a).Closed := not_false

@[simp] theorem weight_num (v : Rat) : (num v).weight = numWeight v := rfl

@[simp] theorem weight_op (o : Arithmetic) : (op o l r).weight = opWeight o l.weight r.weight :=
  rfl

@[simp] theorem weight_ofNat (n : Nat) : (ofNat n : Expr Rat).weight = 2 := by
  simp [ofNat, numWeight]

@[simp] theorem weight_negative : (negative e).weight = e.weight + 5 := by
  simp [negative, ofInt, numWeight, opWeight, add_comm]

@[simp] theorem closed_negative : (negative e).Closed ↔ e.Closed := by simp [negative]

@[simp] theorem size_num (v : Rat) : (num v).size = v.num.natAbs + 2 := rfl

@[simp] theorem size_op (o : Arithmetic) : (op o l r).size = opSize o l.size r.size := rfl

theorem two_le_numWeight (v : Rat) : 2 ≤ numWeight v := by
  unfold numWeight
  split_ifs <;> omega

theorem numWeight_le (v : Rat) : numWeight v ≤ 5 := by
  unfold numWeight
  split_ifs <;> omega

theorem two_le_weight : ∀ e : Expr Rat, 2 ≤ e.weight
  | num v => by simpa using two_le_numWeight v
  | op o l r => by
    have hl := two_le_weight l
    have hr := two_le_weight r
    cases o <;> simp only [weight_op, opWeight] <;> omega
  | var _ | fn _ _ | eq _ _ | wild _ _ _ => le_rfl

theorem two_le_size : ∀ e : Expr Rat, 2 ≤ e.size
  | num v => by simp
  | op o l r => by
    have hl := two_le_size l
    have hr := two_le_size r
    cases o with
    | mul =>
      rw [size_op, opSize]
      exact hl.trans (Nat.le_mul_of_pos_right _ (by omega))
    | _ => simp only [size_op, opSize]; omega
  | var _ | fn _ _ | eq _ _ | wild _ _ _ => le_rfl

theorem cost_lt : d.cost < e.cost ↔
    d.weight < e.weight ∨ d.weight = e.weight ∧ d.size < e.size := by
  rw [cost, cost, Prod.Lex.toLex_lt_toLex]

theorem cost_eq : d.cost = e.cost ↔ d.weight = e.weight ∧ d.size = e.size := by
  rw [cost, cost, toLex_inj, Prod.mk.injEq]

theorem cost_lt_of_weight (h : d.weight < e.weight) : d.cost < e.cost := cost_lt.mpr (Or.inl h)

theorem opWeight_left {a a' : Nat} (h : a' < a) (o : Arithmetic) (b : Nat) :
    opWeight o a' b < opWeight o a b := by
  cases o <;> simp only [opWeight] <;> omega

theorem opWeight_right {b b' : Nat} (h : b' < b) (o : Arithmetic) (a : Nat) :
    opWeight o a b' < opWeight o a b := by
  cases o <;> simp only [opWeight] <;> omega

theorem cost_op_left (o : Arithmetic) (r : Expr Rat) (h : l'.cost < l.cost) :
    (op o l' r).cost < (op o l r).cost := by
  have hr := two_le_size r
  rw [cost_lt] at h ⊢
  rcases h with h | ⟨hw, hs⟩
  · exact Or.inl (by simpa using opWeight_left h o r.weight)
  · refine Or.inr ⟨by simp [hw], ?_⟩
    cases o with
    | mul => simpa [opSize] using Nat.mul_lt_mul_of_pos_right hs (by omega)
    | _ => simpa [opSize] using hs

theorem cost_op_right (o : Arithmetic) (l : Expr Rat) (h : r'.cost < r.cost) :
    (op o l r').cost < (op o l r).cost := by
  have hl := two_le_size l
  rw [cost_lt] at h ⊢
  rcases h with h | ⟨hw, hs⟩
  · exact Or.inl (by simpa using opWeight_right h o l.weight)
  · refine Or.inr ⟨by simp [hw], ?_⟩
    cases o with
    | mul => simpa [opSize] using Nat.mul_lt_mul_of_pos_left hs (by omega)
    | _ => simpa [opSize] using hs

theorem cost_op_congr (o : Arithmetic) (hl : l'.cost = l.cost) (hr : r'.cost = r.cost) :
    (op o l' r').cost = (op o l r).cost := by
  rw [cost_eq] at hl hr ⊢
  simp [hl, hr]

theorem cost_op_le (o : Arithmetic) (hl : l'.cost ≤ l.cost) (hr : r'.cost ≤ r.cost) :
    (op o l' r').cost ≤ (op o l r).cost := by
  have hleft : (op o l' r').cost ≤ (op o l r').cost := by
    rcases hl.lt_or_eq with h | h
    · exact (cost_op_left o r' h).le
    · exact (cost_op_congr o h rfl).le
  have hright : (op o l r').cost ≤ (op o l r).cost := by
    rcases hr.lt_or_eq with h | h
    · exact (cost_op_right o l h).le
    · exact (cost_op_congr o rfl h).le
  exact hleft.trans hright

theorem cost_op_cancel (o : Arithmetic) (hl : l'.cost ≤ l.cost) (hr : r'.cost ≤ r.cost)
    (h : (op o l' r').cost = (op o l r).cost) : l'.cost = l.cost ∧ r'.cost = r.cost := by
  constructor
  · refine hl.eq_of_not_lt fun hlt => ?_
    exact absurd h ((cost_op_left o r' hlt).trans_le (cost_op_le o le_rfl hr)).ne
  · refine hr.eq_of_not_lt fun hlt => ?_
    exact absurd h ((cost_op_right o l' hlt).trans_le (cost_op_le o hl le_rfl)).ne

end Measures

end Expr

open RuleAlgebra.Expr

section Rewriting

variable {f : Expr Rat → Except Failure (Expr Rat)} {e d : Expr Rat}

/-- On operations on integers, the function always gives such an expression, and whatever it changes
costs less afterwards. -/
def Lowers (f : Expr Rat → Except Failure (Expr Rat)) : Prop :=
  ∀ e : Expr Rat, e.Closed → ∃ d, f e = .ok d ∧ d.Closed ∧ (d = e ∨ d.cost < e.cost)

def KeepsCost (f : Expr Rat → Except Failure (Expr Rat)) : Prop :=
  ∀ e : Expr Rat, e.Closed → ∃ d, f e = .ok d ∧ d.Closed ∧ d.cost = e.cost

def Fixes (f : Expr Rat → Except Failure (Expr Rat)) : Expr Rat → Prop
  | .op o l r => (Fixes f l ∧ Fixes f r) ∧ f (.op o l r) = .ok (.op o l r)
  | e => f e = .ok e

theorem Lowers.transform (hf : Lowers f) : ∀ {e : Expr Rat}, e.Closed →
    ∃ d, e.transform f = .ok d ∧ d.Closed ∧ d.cost ≤ e.cost ∧
      (d.cost = e.cost → d = e ∧ Fixes f e)
  | num v, he => by
    obtain ⟨d, hd, hclosed, hcost⟩ := hf (num v) he
    refine ⟨d, hd, hclosed, ?_, fun hsame => ?_⟩
    · rcases hcost with rfl | hcost
      · exact le_rfl
      · exact hcost.le
    · rcases hcost with rfl | hcost
      · exact ⟨rfl, hd⟩
      · exact absurd hsame hcost.ne
  | op o l r, he => by
    rw [closed_op] at he
    obtain ⟨l', hl, cl, costl, samel⟩ := hf.transform he.1
    obtain ⟨r', hr, cr, costr, samer⟩ := hf.transform he.2
    obtain ⟨d, hd, hclosed, hcost⟩ := hf (op o l' r') (by simp [cl, cr])
    have hparts := cost_op_le o costl costr
    have hle : d.cost ≤ (op o l' r').cost := by
      rcases hcost with rfl | hcost
      · exact le_rfl
      · exact hcost.le
    refine ⟨d, ?_, hclosed, hle.trans hparts, fun hsame => ?_⟩
    · simp only [Expr.transform, hl, hr]
      exact hd
    · -- a step that lowered the cost of a part would not be made up for
      have hparts' : (op o l' r').cost = (op o l r).cost := le_antisymm hparts (hsame ▸ hle)
      obtain ⟨hl', hr'⟩ := cost_op_cancel o costl costr hparts'
      obtain ⟨rfl, fl⟩ := samel hl'
      obtain ⟨rfl, fr⟩ := samer hr'
      rcases hcost with rfl | hcost
      · exact ⟨rfl, ⟨fl, fr⟩, hd⟩
      · exact absurd hsame hcost.ne
  | var _, he => by simp at he
  | fn _ _, he => by simp at he
  | eq _ _, he => by simp at he
  | wild _ _ _, he => by simp at he

theorem KeepsCost.transform (hf : KeepsCost f) : ∀ {e : Expr Rat}, e.Closed →
    ∃ d, e.transform f = .ok d ∧ d.Closed ∧ d.cost = e.cost
  | num v, he => hf (num v) he
  | op o l r, he => by
    rw [closed_op] at he
    obtain ⟨l', hl, cl, costl⟩ := hf.transform he.1
    obtain ⟨r', hr, cr, costr⟩ := hf.transform he.2
    obtain ⟨d, hd, hclosed, hcost⟩ := hf (op o l' r') (by simp [cl, cr])
    refine ⟨d, ?_, hclosed, hcost.trans (cost_op_congr o costl costr)⟩
    simp only [Expr.transform, hl, hr]
    exact hd
  | var _, he => by simp at he
  | fn _ _, he => by simp at he
  | eq _ _, he => by simp at he
  | wild _ _ _, he => by simp at he

namespace Simplifier

theorem rewrite_cons (r : Rule Rat) (rs : List (Rule Rat)) (e : Expr Rat) :
    rewrite (r :: rs) e = e.transform r.apply >>= rewrite rs := rfl

theorem rewrite_lowers {rs : List (Rule Rat)} (hrs : ∀ r ∈ rs, Lowers r.apply) (he : e.Closed) :
    ∃ d, rewrite rs e = .ok d ∧ d.Closed ∧ d.cost ≤ e.cost ∧
      (d.cost = e.cost → d = e ∧ ∀ r ∈ rs, Fixes r.apply e) := by
  induction rs generalizing e with
  | nil => exact ⟨e, rfl, he, le_rfl, fun _ => ⟨rfl, by simp⟩⟩
  | cons r rs ih =>
    obtain ⟨c, hc, cclosed, ccost, csame⟩ := (hrs r (by simp)).transform he
    obtain ⟨d, hd, dclosed, dcost, dsame⟩ := ih (fun q hq => hrs q (by simp [hq])) cclosed
    refine ⟨d, ?_, dclosed, dcost.trans ccost, fun hsame => ?_⟩
    · rw [rewrite_cons, hc, ok_bind, hd]
    · obtain ⟨rfl, hfixed⟩ := csame (le_antisymm ccost (hsame ▸ dcost))
      obtain ⟨rfl, hrest⟩ := dsame hsame
      exact ⟨rfl, by simpa using ⟨hfixed, hrest⟩⟩

/-- A pass that ends where it began changes nothing by the rules before the first and after the last
of those that keep the cost. -/
theorem rewrite_pass {before between after : List (Rule Rat)} {q q' : Rule Rat}
    (hbefore : ∀ r ∈ before, Lowers r.apply) (hq : KeepsCost q.apply)
    (hbetween : ∀ r ∈ between, Lowers r.apply) (hq' : KeepsCost q'.apply)
    (hafter : ∀ r ∈ after, Lowers r.apply) (he : e.Closed) :
    ∃ d, rewrite (before ++ q :: (between ++ q' :: after)) e = .ok d ∧ d.Closed ∧
      (d = e → (∀ r ∈ before, Fixes r.apply e) ∧ ∀ r ∈ after, Fixes r.apply e) := by
  obtain ⟨a, ha, aclosed, acost, asame⟩ := rewrite_lowers hbefore he
  obtain ⟨b, hb, bclosed, bcost⟩ := hq.transform aclosed
  obtain ⟨c, hc, cclosed, ccost, -⟩ := rewrite_lowers hbetween bclosed
  obtain ⟨d, hd, dclosed, dcost⟩ := hq'.transform cclosed
  obtain ⟨e', he', eclosed, ecost, esame⟩ := rewrite_lowers hafter dclosed
  refine ⟨e', ?_, eclosed, ?_⟩
  · rw [rewrite_append, ha, ok_bind, rewrite_cons, hb, ok_bind, rewrite_append, hc, ok_bind,
      rewrite_cons, hd, ok_bind, he']
  · rintro rfl
    -- the cost only falls, and ends where it began
    have hdown : d.cost ≤ a.cost := dcost.le.trans (ccost.trans bcost.le)
    have hea : a.cost = e'.cost := le_antisymm acost (ecost.trans hdown)
    have hed : e'.cost = d.cost := le_antisymm ecost (hdown.trans hea.le)
    obtain ⟨rfl, hlast⟩ := esame hed
    exact ⟨(asame hea).2, hlast⟩

end Simplifier

end Rewriting

end RuleAlgebra
