import RuleAlgebra.Proofs.ExactScalars
import RuleAlgebra.Proofs.Occurrences
import RuleAlgebra.Rule.Basic

/-!
What a match stands for. Matching only appends bindings, and the skeleton of a pattern filled with
the bindings of a match is the matched expression.
-/

namespace RuleAlgebra

namespace Bindings

variable {α : Type} {b c : Bindings α} {x y : String} {e : Expr α}

theorem get?_mono (h : b.get? x = some e) (hbc : b <+: c) : c.get? x = some e := by
  obtain ⟨d, rfl⟩ := hbc
  simp only [get?, Option.map_eq_some_iff] at h ⊢
  obtain ⟨p, hp, rfl⟩ := h
  exact ⟨p, by simp [List.find?_append, hp], rfl⟩

theorem get?_append_singleton : (b ++ [(x, e)]).get? y =
    (b.get? y).or (if x = y then some e else none) := by
  simp only [get?, List.find?_append]
  cases b.find? (·.1 == y) with
  | none => by_cases h : x = y <;> simp [h]
  | some p => simp

theorem get?_append_self (e : Expr α) (h : b.get? x = none) :
    (b ++ [(x, e)]).get? x = some e := by
  rw [get?_append_singleton, h, if_pos rfl]
  rfl

theorem extend?_eq_some [BEq α] : b.extend? x e = some c ↔
    (b.get? x = none ∧ c = b ++ [(x, e)]) ∨ ∃ d, b.get? x = some d ∧ (d == e) = true ∧ c = b := by
  unfold extend?
  cases b.get? x with
  | none => simp [@eq_comm _ c]
  | some d => simp [@eq_comm _ c]

theorem extend?_bound [BEq α] (h : b.extend? x e = some c) : b <+: c ∧ (c.get? x).isSome := by
  obtain ⟨hx, rfl⟩ | ⟨d, hx, -, rfl⟩ := extend?_eq_some.mp h
  · exact ⟨List.prefix_append _ _, by rw [get?_append_self e hx]; rfl⟩
  · exact ⟨List.prefix_rfl, by rw [hx]; rfl⟩

theorem extend?_spec [BEq α] [LawfulBEq α] (h : b.extend? x e = some c) :
    b <+: c ∧ c.get? x = some e := by
  obtain ⟨hx, rfl⟩ | ⟨d, hx, hd, rfl⟩ := extend?_eq_some.mp h
  · exact ⟨List.prefix_append _ _, get?_append_self e hx⟩
  · exact ⟨List.prefix_rfl, by rw [hx, eq_of_beq hd]⟩

end Bindings

namespace Expr

variable {α : Type}

mutual

def fill (σ : String → Expr α) : Expr α → Expr α
  | wild n _ _ => σ n
  | op o l r => op o (fill σ l) (fill σ r)
  | fn f as => fn f (fillArgs σ as)
  | eq l r => eq (fill σ l) (fill σ r)
  | leaf => leaf

def fillArgs (σ : String → Expr α) : List (Expr α) → List (Expr α)
  | [] => []
  | a :: as => fill σ a :: fillArgs σ as

end

/-- What a name is bound to; a name that is not bound stands for itself. -/
def filling (b : Bindings α) (n : String) : Expr α := (b.get? n).getD (var n)

def Bound (b : Bindings α) (t : Expr α) : Prop := ∀ n ∈ t.wildcards, (b.get? n).isSome

section Bound

variable {b : Bindings α} {l r : Expr α}

theorem bound_op {o : Arithmetic} : Bound b (op o l r) ↔ Bound b l ∧ Bound b r := by
  simp [Bound, or_imp, forall_and]

theorem bound_eq : Bound b (eq l r) ↔ Bound b l ∧ Bound b r := by
  simp [Bound, or_imp, forall_and]

theorem bound_fn {f : String} {as : List (Expr α)} :
    Bound b (fn f as) ↔ ∀ a ∈ as, Bound b a := by
  simp only [Bound, mem_wildcards_fn]
  constructor
  · exact fun h a ha n hn => h n ⟨a, ha, hn⟩
  · rintro h n ⟨a, ha, hn⟩
    exact h a ha n hn

theorem Bound.mono {c : Bindings α} {t : Expr α} (h : Bound b t) (hbc : b <+: c) : Bound c t := by
  intro n hn
  obtain ⟨e, he⟩ := Option.isSome_iff_exists.mp (h n hn)
  rw [Bindings.get?_mono he hbc]
  rfl

end Bound

mutual

theorem instantiate_eq_ok {b : Bindings α} :
    ∀ {t e : Expr α}, t.instantiate b = .ok e ↔ Bound b t ∧ t.fill (filling b) = e
  | num v, e => by simp [instantiate, Bound, fill, pure, Except.pure]
  | var x, e => by simp [instantiate, Bound, fill, pure, Except.pure]
  | wild n k a, e => by
    cases h : b.get? n with
    | none => simp [instantiate, Bound, h, throw, throwThe, MonadExceptOf.throw]
    | some d => simp [instantiate, Bound, fill, filling, h, pure, Except.pure]
  | op o l r, e => by
    simp only [instantiate, bind_eq_ok, instantiate_eq_ok (t := l), instantiate_eq_ok (t := r),
      fill, bound_op]
    simp [pure, Except.pure, and_assoc]
  | eq l r, e => by
    simp only [instantiate, bind_eq_ok, instantiate_eq_ok (t := l), instantiate_eq_ok (t := r),
      fill, bound_eq]
    simp [pure, Except.pure, and_assoc]
  | fn f as, e => by
    simp only [instantiate, bind_eq_ok, instantiateArgs_eq_ok as, fill, bound_fn]
    simp [pure, Except.pure]

theorem instantiateArgs_eq_ok {b : Bindings α} :
    ∀ (ts : List (Expr α)) {es : List (Expr α)}, instantiateArgs b ts = .ok es ↔
      (∀ t ∈ ts, Bound b t) ∧ fillArgs (filling b) ts = es
  | [], es => by simp [instantiateArgs, fillArgs, pure, Except.pure]
  | t :: ts, es => by
    simp only [instantiateArgs, bind_eq_ok, instantiate_eq_ok (t := t),
      instantiateArgs_eq_ok ts, fillArgs, List.forall_mem_cons]
    simp [pure, Except.pure, and_assoc]

end

section Matching

variable [BEq α] {p e : Expr α} {ps es : List (Expr α)} {b c : Bindings α}

mutual

/-- The rules of matching: the pattern takes the expression and turns the first bindings into the
second. -/
inductive Matches : (p e : Expr α) → (b c : Bindings α) → Prop
  | wild {n : String} {k : WildcardKind} {a : Option String} {e : Expr α} {b c : Bindings α}
    (hadmits : admits k a e b = true) (hextend : b.extend? n e = some c) :
    Matches (wild n k a) e b c
  | num {u v : α} {b : Bindings α} (huv : (u == v) = true) : Matches (num u) (num v) b b
  | var (x : String) {b : Bindings α} : Matches (var x) (var x) b b
  | op (o : Arithmetic) {l l' r r' : Expr α} {b m c : Bindings α} (hl : Matches l l' b m)
    (hr : Matches r r' m c) : Matches (op o l r) (op o l' r') b c
  | eq {l l' r r' : Expr α} {b m c : Bindings α} (hl : Matches l l' b m) (hr : Matches r r' m c) :
    Matches (eq l r) (eq l' r') b c
  | fn (f : String) {as as' : List (Expr α)} {b c : Bindings α} (hargs : MatchesAll as as' b c) :
    Matches (fn f as) (fn f as') b c

inductive MatchesAll : (ps es : List (Expr α)) → (b c : Bindings α) → Prop
  | nil {b : Bindings α} : MatchesAll [] [] b b
  | cons {p e : Expr α} {ps es : List (Expr α)} {b m c : Bindings α} (hp : Matches p e b m)
    (hps : MatchesAll ps es m c) : MatchesAll (p :: ps) (e :: es) b c

end

theorem MatchesAll.length_eq {ps es : List (Expr α)} {b c : Bindings α} :
    MatchesAll ps es b c → ps.length = es.length
  | .nil => rfl
  | .cons _ hps => congrArg (· + 1) hps.length_eq

mutual

theorem matches_of_matchFrom? : ∀ {p e : Expr α} {b c : Bindings α},
    matchFrom? p e b = some c → Matches p e b c
  | wild n k a, e, b, c, h => by
    simp only [matchFrom?, Option.ite_none_right_eq_some] at h
    exact .wild h.1 h.2
  | num u, num v, b, c, h => by
    simp only [matchFrom?, Option.ite_none_right_eq_some, Option.some.injEq] at h
    obtain ⟨huv, rfl⟩ := h
    exact .num huv
  | var x, var y, b, c, h => by
    simp only [matchFrom?, Option.ite_none_right_eq_some, Option.some.injEq, beq_iff_eq] at h
    obtain ⟨rfl, rfl⟩ := h
    exact .var x
  | op o l r, op o' l' r', b, c, h => by
    simp only [matchFrom?, Option.ite_none_right_eq_some, Option.bind_eq_some_iff, beq_iff_eq] at h
    obtain ⟨rfl, m, hl, hr⟩ := h
    exact .op o (matches_of_matchFrom? hl) (matches_of_matchFrom? hr)
  | eq l r, eq l' r', b, c, h => by
    simp only [matchFrom?, Option.bind_eq_some_iff] at h
    obtain ⟨m, hl, hr⟩ := h
    exact .eq (matches_of_matchFrom? hl) (matches_of_matchFrom? hr)
  | fn f as, fn g bs, b, c, h => by
    simp only [matchFrom?, Option.ite_none_right_eq_some, Bool.and_eq_true, beq_iff_eq] at h
    obtain ⟨⟨rfl, -⟩, h⟩ := h
    exact .fn f (matchesAll_of_matchArgs? h)

theorem matchesAll_of_matchArgs? : ∀ {ps es : List (Expr α)} {b c : Bindings α},
    matchArgs? ps es b = some c → MatchesAll ps es b c
  | [], [], b, c, h => by
    obtain rfl := Option.some.inj h
    exact .nil
  | p :: ps, e :: es, b, c, h => by
    simp only [matchArgs?, Option.bind_eq_some_iff] at h
    obtain ⟨m, hp, hps⟩ := h
    exact .cons (matches_of_matchFrom? hp) (matchesAll_of_matchArgs? hps)

end

mutual

theorem Matches.matchFrom?_eq {p e : Expr α} {b c : Bindings α} :
    Matches p e b c → matchFrom? p e b = some c
  | .wild hadmits hextend => by simp [matchFrom?, hadmits, hextend]
  | .num huv => by simp [matchFrom?, huv]
  | .var x => by simp [matchFrom?]
  | .op o hl hr => by simp [matchFrom?, hl.matchFrom?_eq, hr.matchFrom?_eq]
  | .eq hl hr => by simp [matchFrom?, hl.matchFrom?_eq, hr.matchFrom?_eq]
  | .fn f hargs => by simp [matchFrom?, hargs.length_eq, hargs.matchArgs?_eq]

theorem MatchesAll.matchArgs?_eq {ps es : List (Expr α)} {b c : Bindings α} :
    MatchesAll ps es b c → matchArgs? ps es b = some c
  | .nil => rfl
  | .cons hp hps => by simp [matchArgs?, hp.matchFrom?_eq, hps.matchArgs?_eq]

end

theorem matchFrom?_eq_some : matchFrom? p e b = some c ↔ Matches p e b c :=
  ⟨matches_of_matchFrom?, Matches.matchFrom?_eq⟩

mutual

theorem Matches.bound {p e : Expr α} {b c : Bindings α} : Matches p e b c → b <+: c ∧ Bound c p
  | .wild _ hextend => by
    obtain ⟨hbc, hn⟩ := Bindings.extend?_bound hextend
    exact ⟨hbc, by simpa [Bound] using hn⟩
  | .num _ => ⟨List.prefix_rfl, by simp [Bound]⟩
  | .var _ => ⟨List.prefix_rfl, by simp [Bound]⟩
  | .op _ hl hr => by
    obtain ⟨hbm, bl⟩ := hl.bound
    obtain ⟨hmc, br⟩ := hr.bound
    exact ⟨hbm.trans hmc, bound_op.mpr ⟨bl.mono hmc, br⟩⟩
  | .eq hl hr => by
    obtain ⟨hbm, bl⟩ := hl.bound
    obtain ⟨hmc, br⟩ := hr.bound
    exact ⟨hbm.trans hmc, bound_eq.mpr ⟨bl.mono hmc, br⟩⟩
  | .fn _ hargs => by
    obtain ⟨hbc, hbound⟩ := hargs.bound
    exact ⟨hbc, bound_fn.mpr hbound⟩

theorem MatchesAll.bound {ps es : List (Expr α)} {b c : Bindings α} :
    MatchesAll ps es b c → b <+: c ∧ ∀ p ∈ ps, Bound c p
  | .nil => ⟨List.prefix_rfl, List.forall_mem_nil _⟩
  | .cons hp hps => by
    obtain ⟨hbm, bp⟩ := hp.bound
    obtain ⟨hmc, bps⟩ := hps.bound
    exact ⟨hbm.trans hmc, List.forall_mem_cons.mpr ⟨bp.mono hmc, bps⟩⟩

end

theorem matchFrom?_bound (h : matchFrom? p e b = some c) : b <+: c ∧ Bound c p :=
  (matchFrom?_eq_some.mp h).bound

mutual

/-- However the bindings of a match are extended, the pattern filled with them is the matched
expression. -/
theorem Matches.instantiate [LawfulBEq α] {p e : Expr α} {b c d : Bindings α} (hcd : c <+: d) :
    Matches p e b c → p.instantiate d = .ok e
  | .wild _ hextend => by
    have hn := (Bindings.extend?_spec hextend).2
    simp [Expr.instantiate, Bindings.get?_mono hn hcd, pure, Except.pure]
  | .num huv => eq_of_beq huv ▸ rfl
  | .var _ => rfl
  | .op _ hl hr => by
    -- what the left part has bound stays bound while the right part is matched
    simp only [Expr.instantiate, hl.instantiate (hr.bound.1.trans hcd), hr.instantiate hcd, ok_bind]
    rfl
  | .eq hl hr => by
    simp only [Expr.instantiate, hl.instantiate (hr.bound.1.trans hcd), hr.instantiate hcd, ok_bind]
    rfl
  | .fn _ hargs => by
    simp only [Expr.instantiate, hargs.instantiate hcd, ok_bind]
    rfl

theorem MatchesAll.instantiate [LawfulBEq α] {ps es : List (Expr α)} {b c d : Bindings α}
    (hcd : c <+: d) : MatchesAll ps es b c → instantiateArgs d ps = .ok es
  | .nil => rfl
  | .cons hp hps => by
    simp only [instantiateArgs, hp.instantiate (hps.bound.1.trans hcd), hps.instantiate hcd,
      ok_bind]
    rfl

end

theorem match?_spec [LawfulBEq α] (h : match? p e = some b) : p.instantiate b = .ok e :=
  (matchFrom?_eq_some.mp h).instantiate List.prefix_rfl

end Matching

end Expr

theorem patternRule_result {α : Type} [BEq α] {p s : Expr α}
    (hs : ∀ n ∈ s.wildcards, n ∈ p.wildcards) (e : Expr α) : ∃ d, patternRule p s e = .ok d := by
  unfold patternRule
  cases h : Expr.match? p e with
  | none => exact ⟨e, rfl⟩
  | some b =>
    obtain ⟨-, hb⟩ := Expr.matchFrom?_bound h
    exact ⟨_, Expr.instantiate_eq_ok.mpr ⟨fun n hn => hb n (hs n hn), rfl⟩⟩

/-- A rule given by pattern and skeleton either hands back its input, or maps an instance of the
pattern to the same instance of the skeleton. -/
theorem patternRule_cases {α : Type} [BEq α] [LawfulBEq α] {p s : Expr α}
    (hs : ∀ n ∈ s.wildcards, n ∈ p.wildcards) (e : Expr α) :
    patternRule p s e = .ok e ∨ ∃ σ, e = p.fill σ ∧ patternRule p s e = .ok (s.fill σ) := by
  unfold patternRule
  cases h : Expr.match? p e with
  | none => exact Or.inl rfl
  | some b =>
    obtain ⟨hb, hp⟩ := Expr.instantiate_eq_ok.mp (Expr.match?_spec h)
    refine Or.inr ⟨_, hp.symm, Expr.instantiate_eq_ok.mpr ⟨fun n hn => hb n (hs n hn), rfl⟩⟩

end RuleAlgebra
