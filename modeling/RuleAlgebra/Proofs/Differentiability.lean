import RuleAlgebra.Proofs.DerivativeRules
import RuleAlgebra.Proofs.Variables
import RuleAlgebra.Scalar.Exact

/-!
Which expressions can be differentiated. The first derivative decides: it exists when every call
that mentions the variable is one of a function of one argument with a known derivative, it names a
call that is not otherwise, and where it exists all higher derivatives do.
-/

namespace RuleAlgebra.Expr

open RuleAlgebra.Traced

variable {α : Type} [Scalar α] {x : String}

/-- A call of a function of one argument whose derivative is known. -/
def KnownCall (f : String) (as : List (Expr α)) : Prop :=
  ∃ u, as = [u] ∧ (outerDerivative? f u).isSome = true

/-- The function is called somewhere with the variable, and the derivative of the call is not
known. -/
def HasUnknownCall (x : String) (t : Expr α) (f : String) : Prop :=
  ∃ as, fn f as ∈ t.walk ∧ anyContains x as = true ∧ ¬KnownCall f as

def DerivableNode (x : String) : Expr α → Prop
  | wild _ _ _ => False
  | fn f as => anyContains x as = true → KnownCall f as
  | _ => True

def Derivable (x : String) (t : Expr α) : Prop := ∀ p ∈ t.walk, DerivableNode x p

section Parts

variable {o : Arithmetic} {f : String} {l r t u : Expr α} {as : List (Expr α)}

@[simp] theorem derivable_num (v : α) : Derivable x (num v) :=
  List.forall_mem_singleton.mpr trivial

@[simp] theorem derivable_var (y : String) : Derivable x (var y : Expr α) :=
  List.forall_mem_singleton.mpr trivial

@[simp] theorem derivable_ofNat (n : Nat) : Derivable x (ofNat n : Expr α) := derivable_num _

@[simp] theorem derivable_ofInt (n : Int) : Derivable x (ofInt n : Expr α) := derivable_num _

theorem derivable_node (hwalk : t.walk = t :: (l.walk ++ r.walk)) (ht : DerivableNode x t) :
    Derivable x t ↔ Derivable x l ∧ Derivable x r := by
  rw [Derivable, hwalk, List.forall_mem_cons, List.forall_mem_append]
  exact and_iff_right ht

@[simp] theorem derivable_op : Derivable x (op o l r) ↔ Derivable x l ∧ Derivable x r :=
  derivable_node rfl trivial

@[simp] theorem derivable_eq : Derivable x (eq l r) ↔ Derivable x l ∧ Derivable x r :=
  derivable_node rfl trivial

@[simp] theorem not_derivable_wild {n : String} {k : WildcardKind} {a : Option String} :
    ¬Derivable x (wild n k a : Expr α) :=
  fun h => h _ (List.mem_singleton.mpr rfl)

theorem derivable_fn : Derivable x (fn f as) ↔
    (anyContains x as = true → KnownCall f as) ∧ ∀ a ∈ as, Derivable x a := by
  simp only [Derivable, walk, List.forall_mem_cons, mem_walkArgs, DerivableNode]
  apply and_congr_right
  intro _
  constructor
  · exact fun h a ha p hp => h p ⟨a, ha, hp⟩
  · rintro h p ⟨a, ha, hp⟩
    exact h a ha p hp

@[simp] theorem derivable_call : Derivable x (fn f [u]) ↔
    (u.contains x = true → (outerDerivative? f u).isSome = true) ∧ Derivable x u := by
  simp [derivable_fn, anyContains, KnownCall]

@[simp] theorem derivable_negative : Derivable x (negative u) ↔ Derivable x u := by simp [negative]

@[simp] theorem derivable_squared : Derivable x (squared u) ↔ Derivable x u := by simp [squared]

theorem derivable_iff : Derivable x t ↔ t.wildcards = [] ∧ ∀ f, ¬HasUnknownCall x t f := by
  simp only [List.eq_nil_iff_forall_not_mem, mem_wildcards, HasUnknownCall, not_exists, not_and,
    not_not]
  constructor
  · exact fun h => ⟨fun n k a hmem => h _ hmem, fun f as hmem => h _ hmem⟩
  · rintro ⟨hwild, hcall⟩ p hp
    cases p with
    | wild n k a => exact hwild n k a hp
    | fn f as => exact hcall f as hp
    | _ => trivial

theorem derivable_of_free (hw : t.wildcards = []) (hx : t.contains x = false) : Derivable x t := by
  refine derivable_iff.mpr ⟨hw, fun f ⟨as, hmem, hmentions, _⟩ => ?_⟩
  have hvar : var x ∈ (fn f as).walk :=
    List.mem_cons_of_mem _ ((anyContains_iff_mem_walk as).mp hmentions)
  rw [(contains_iff_mem_walk t).mpr (walk_subset hmem hvar)] at hx
  cases hx

theorem HasUnknownCall.of_mem (h : HasUnknownCall x u f) (hu : u ∈ t.walk) :
    HasUnknownCall x t f := by
  obtain ⟨as, hmem, hunknown⟩ := h
  exact ⟨as, walk_subset hu hmem, hunknown⟩

end Parts

section Closure

theorem outerDerivative?_derivable {f : String} {u d : Expr α} (hu : Derivable x u)
    (h : outerDerivative? f u = some d) : Derivable x d := by
  unfold outerDerivative? at h
  split at h <;> cases h <;> simp [sqrtOneMinusSquare, hu, outerDerivative?]

theorem Derives.derivable {t d : Expr α} (h : Derives x t d) (ht : Derivable x t) :
    Derivable x d := by
  induction h with
  | constant => exact derivable_ofNat 0
  | self => exact derivable_ofNat 1
  | equation _ _ ihl ihr =>
    obtain ⟨hl, hr⟩ := derivable_eq.mp ht
    exact derivable_eq.mpr ⟨ihl hl, ihr hr⟩
  | chain hf _ ih =>
    obtain ⟨-, hu⟩ := derivable_call.mp ht
    exact derivable_op.mpr ⟨outerDerivative?_derivable hu hf, ih hu⟩
  | sum _ _ _ iha ihb | product _ _ iha ihb | quotient _ _ iha ihb =>
    obtain ⟨ha, hb⟩ := derivable_op.mp ht
    simp [ha, hb, iha ha, ihb hb]
  | power _ _ iha =>
    obtain ⟨ha, hb⟩ := derivable_op.mp ht
    simp [ha, hb, iha ha]
  -- the logarithm that these two rules bring in has a known derivative itself
  | exponential _ _ ihb =>
    obtain ⟨ha, hb⟩ := derivable_op.mp ht
    simp [ha, hb, ihb hb, outerDerivative?]
  | logarithmic _ _ iha ihb =>
    obtain ⟨ha, hb⟩ := derivable_op.mp ht
    simp [ha, hb, iha ha, ihb hb, outerDerivative?]

theorem Obstructed.not_derivable {t : Expr α} {e : Failure} (h : Obstructed x t e) :
    ¬Derivable x t := by
  obtain ⟨p, hp, hobstructs⟩ := h
  intro ht
  cases hobstructs with
  | wildcard n k a => exact ht _ hp
  | call hx hf =>
    obtain ⟨u, rfl, hknown⟩ := ht _ hp hx
    simp [hf u rfl] at hknown

theorem derivative_derivable (t : Expr α) (h : Derivable x t) :
    Ensures (derivative x t) (Derivable x) fun _ => False :=
  ((derivative_derives t).mono fun _ hd => hd.derivable h).weaken fun _ he => he.not_derivable h

theorem derivativeTimes_derivable (order : Nat) {t : Expr α} (h : Derivable x t) :
    Ensures (derivativeTimes x order t) (Derivable x) fun _ => False := by
  induction order generalizing t with
  | zero => exact ensures_pure h
  | succ order ih =>
    apply (derivative_derivable t h).bind
    intro d hd
    exact ih hd

end Closure

section Failures

/-- The failure says that the derivative of a function is not known, and the expression calls that
function so. -/
def NamesUnknownCall (x : String) (t : Expr α) (e : Failure) : Prop :=
  ∃ f, e = .engine (.unsupported f .differentiation) ∧ HasUnknownCall x t f

theorem Obstructed.namesUnknownCall {t : Expr α} {e : Failure} (hw : t.wildcards = [])
    (h : Obstructed x t e) : NamesUnknownCall x t e := by
  obtain ⟨p, hp, hobstructs⟩ := h
  cases hobstructs with
  | wildcard n k a => simpa [hw] using mem_wildcards.mpr ⟨k, a, hp⟩
  | call hx hf =>
    refine ⟨_, rfl, _, hp, hx, ?_⟩
    rintro ⟨u, rfl, hknown⟩
    simp [hf u rfl] at hknown

theorem Derives.source_derivable {t d : Expr α} (h : Derives x t d) (hw : t.wildcards = []) :
    Derivable x t := by
  induction h with
  | constant hx _ => exact derivable_of_free hw hx
  | self => exact derivable_var x
  | equation _ _ ihl ihr =>
    obtain ⟨hl, hr⟩ := wildcards_eq_eq_nil.mp hw
    exact derivable_eq.mpr ⟨ihl hl, ihr hr⟩
  | sum _ _ _ iha ihb | product _ _ iha ihb | quotient _ _ iha ihb | logarithmic _ _ iha ihb =>
    obtain ⟨ha, hb⟩ := wildcards_op_eq_nil.mp hw
    exact derivable_op.mpr ⟨iha ha, ihb hb⟩
  | power hfree _ iha =>
    obtain ⟨ha, hb⟩ := wildcards_op_eq_nil.mp hw
    exact derivable_op.mpr ⟨iha ha, derivable_of_free hb hfree⟩
  | exponential hfree _ ihb =>
    obtain ⟨ha, hb⟩ := wildcards_op_eq_nil.mp hw
    exact derivable_op.mpr ⟨derivable_of_free ha hfree, ihb hb⟩
  | chain hf _ ih =>
    exact derivable_call.mpr ⟨fun _ => by simp [hf], ih (wildcards_call_eq_nil.mp hw)⟩

theorem derivative_locates (t : Expr α) (hw : t.wildcards = []) :
    Ensures (derivative x t) (fun _ => Derivable x t) (NamesUnknownCall x t) :=
  ((derivative_derives t).mono fun _ hd => hd.source_derivable hw).weaken fun _ he =>
    he.namesUnknownCall hw

end Failures

section Decision

variable {t : Expr α}

/-- Differentiability is decided by the first derivative: it fails exactly when some call that
mentions the variable has no known derivative, which is what the failure names, and if there is a
first derivative there are those of every order. -/
theorem derivative_decides (hw : t.wildcards = []) :
    ((∃ s, (derivative x t).result = .error (.engine (.unsupported s .differentiation))) ↔
        ∃ f, HasUnknownCall x t f) ∧
      (∀ e, (derivative x t).result = .error e →
        ∃ f, e = .engine (.unsupported f .differentiation) ∧ HasUnknownCall x t f) ∧
      ∀ d, (derivative x t).result = .ok d →
        ∀ k, 1 ≤ k → ∃ d', (derivativeTimes x k t).result = .ok d' := by
  have hlocates := (derivative_locates (x := x) t hw).result
  have fails (e : Failure) (he : (derivative x t).result = .error e) : NamesUnknownCall x t e := by
    rw [he] at hlocates
    exact hlocates
  have succeeds (d : Expr α) (hd : (derivative x t).result = .ok d) : Derivable x t := by
    rw [hd] at hlocates
    exact hlocates
  refine ⟨⟨?_, ?_⟩, fails, ?_⟩
  · rintro ⟨s, hs⟩
    obtain ⟨f, -, hf⟩ := fails _ hs
    exact ⟨f, hf⟩
  · rintro ⟨f, hf⟩
    cases hresult : (derivative x t).result with
    | error e =>
      obtain ⟨s, rfl, -⟩ := fails e hresult
      exact ⟨s, rfl⟩
    | ok d => exact absurd hf ((derivable_iff.mp (succeeds d hresult)).2 f)
  · intro d hd k _
    have htimes := (derivativeTimes_derivable k (succeeds d hd)).result
    cases hresult : (derivativeTimes x k t).result with
    | error e =>
      rw [hresult] at htimes
      exact htimes.elim
    | ok d' => exact ⟨d', rfl⟩

/-- A call without the variable of a function without a derivative, and a root of a power. -/
def constantAndRoot : Expr Rat := op .add (fn "f" [var "y"]) (fn "sqrt" [op .pow (var "x") (num 3)])

theorem derivative_decides_of_root : constantAndRoot.wildcards = [] ∧
    ((∃ s, (derivative "x" constantAndRoot).result =
        .error (.engine (.unsupported s .differentiation))) ↔
        ∃ f, HasUnknownCall "x" constantAndRoot f) ∧
      (∀ e, (derivative "x" constantAndRoot).result = .error e →
        ∃ f, e = .engine (.unsupported f .differentiation) ∧
          HasUnknownCall "x" constantAndRoot f) ∧
      ∀ d, (derivative "x" constantAndRoot).result = .ok d →
        ∀ k, 1 ≤ k → ∃ d', (derivativeTimes "x" k constantAndRoot).result = .ok d' :=
  ⟨rfl, derivative_decides rfl⟩

end Decision

end RuleAlgebra.Expr
