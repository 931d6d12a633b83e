import RuleAlgebra.Grammar.Parser
import RuleAlgebra.Proofs.Outcomes

/-!
The grammar as derivations of expressions from lists of tokens, and the parser finds what is
derived: with enough depth it reads the tokens of a derivation and stops where nothing after them
could belong to it.
-/

namespace RuleAlgebra.Grammar

variable {α : Type} [Scalar α]

/-- Whether a parenthesis after the tokens would make a call of the last one. -/
def EndsInCall (ts : List Token) : Prop :=
  ∃ t ∈ ts.getLast?, t.kind = .name ∧ isCallable t.text = true

mutual

inductive IsSum : List Token → Expr α → Prop
  | term {ts : List Token} {e : Expr α} : IsTerm ts e → IsSum ts e
  | more {ls rs : List Token} {t : Token} {l r : Expr α} : IsSum ls l →
      isOperator t ["+", "-"] = true → IsTerm rs r → IsSum (ls ++ t :: rs) (.op (operation t) l r)

inductive IsTerm : List Token → Expr α → Prop
  | unary {ts : List Token} {e : Expr α} : IsUnary ts e → IsTerm ts e
  | more {ls rs : List Token} {t : Token} {l r : Expr α} : IsTerm ls l →
      isOperator t ["*", "/"] = true → IsUnary rs r → IsTerm (ls ++ t :: rs) (.op (operation t) l r)
  | next {ls rs : List Token} {t : Token} {l r : Expr α} : IsTerm ls l →
      startsOperand t.kind = true → (EndsInCall ls → t.kind ≠ .leftParen) →
      IsUnary (t :: rs) r → IsTerm (ls ++ t :: rs) (.op .mul l r)

inductive IsUnary : List Token → Expr α → Prop
  | minus {ts : List Token} {t : Token} {e : Expr α} : isOperator t ["-"] = true →
      IsUnary ts e → IsUnary (t :: ts) (negate e)
  | plus {ts : List Token} {t : Token} {e : Expr α} : isOperator t ["+"] = true →
      IsUnary ts e → IsUnary (t :: ts) e
  | power {ts : List Token} {e : Expr α} : IsPower ts e → IsUnary ts e

inductive IsPower : List Token → Expr α → Prop
  | primary {ts : List Token} {e : Expr α} : IsPrimary ts e → IsPower ts e
  | pow {ls rs : List Token} {t : Token} {b x : Expr α} : IsPrimary ls b →
      isOperator t ["^"] = true → IsUnary rs x → IsPower (ls ++ t :: rs) (.op .pow b x)

inductive IsPrimary : List Token → Expr α → Prop
  | number {t : Token} : t.kind = .number → IsPrimary [t] (.num (Numeral.value t.text.toList))
  | wildcard {t : Token} : t.kind = .wildcard → IsPrimary [t] (wildcard t.text)
  | name {t : Token} : t.kind = .name → IsPrimary [t] (.var t.text)
  | parens {ts : List Token} {p q : Token} {e : Expr α} : p.kind = .leftParen → IsSum ts e →
      q.kind = .rightParen → IsPrimary (p :: (ts ++ [q])) e
  | call {ts us : List Token} {t p q : Token} {a : Expr α} {as : List (Expr α)} :
      t.kind = .name → isCallable t.text = true → p.kind = .leftParen → IsSum ts a →
      AreArguments us as → q.kind = .rightParen →
      IsPrimary (t :: p :: (ts ++ us ++ [q])) (.fn (functionName t.text) (a :: as))

inductive AreArguments : List Token → List (Expr α) → Prop
  | nil : AreArguments [] []
  | cons {ts us : List Token} {c : Token} {a : Expr α} {as : List (Expr α)} : c.kind = .comma →
      IsSum ts a → AreArguments us as → AreArguments (c :: (ts ++ us)) (a :: as)

end

section Start

theorem IsPrimary.starts {ts : List Token} {e : Expr α} (h : IsPrimary ts e) :
    ∃ t us, ts = t :: us ∧ startsOperand t.kind = true := by
  cases h with
  | number h => exact ⟨_, _, rfl, by rw [h]; rfl⟩
  | wildcard h => exact ⟨_, _, rfl, by rw [h]; rfl⟩
  | name h => exact ⟨_, _, rfl, by rw [h]; rfl⟩
  | parens h _ _ => exact ⟨_, _, rfl, by rw [h]; rfl⟩
  | call h _ _ _ _ _ => exact ⟨_, _, rfl, by rw [h]; rfl⟩

theorem IsPower.starts {ts : List Token} {e : Expr α} (h : IsPower ts e) :
    ∃ t us, ts = t :: us ∧ startsOperand t.kind = true := by
  cases h with
  | primary h => exact h.starts
  | pow h _ _ =>
    obtain ⟨t, us, rfl, ht⟩ := h.starts
    exact ⟨t, _, rfl, ht⟩

theorem IsPower.length_pos {ts : List Token} {e : Expr α} (h : IsPower ts e) : 0 < ts.length := by
  obtain ⟨t, us, rfl, -⟩ := h.starts
  simp

theorem IsUnary.length_pos {ts : List Token} {e : Expr α} (h : IsUnary ts e) : 0 < ts.length := by
  cases h with
  | minus _ _ => simp
  | plus _ _ => simp
  | power h => exact h.length_pos

theorem IsTerm.length_pos {ts : List Token} {e : Expr α} (h : IsTerm ts e) : 0 < ts.length := by
  cases h with
  | unary h => exact h.length_pos
  | more _ _ _ => simp
  | next _ _ _ _ => simp

theorem IsSum.length_pos {ts : List Token} {e : Expr α} (h : IsSum ts e) : 0 < ts.length := by
  cases h with
  | term h => exact h.length_pos
  | more _ _ _ => simp

end Start

section Follow

/-- What may follow a power: no power sign, and no parenthesis that makes a call of its end. -/
structure FollowsPower (ts rest : List Token) : Prop where
  noCall : EndsInCall ts → ∀ t ∈ rest.head?, t.kind ≠ .leftParen
  noPower : ∀ t ∈ rest.head?, isOperator t ["^"] = false

/-- What may follow a product: nothing that is read as one more factor. -/
structure FollowsTerm (rest : List Token) : Prop where
  noPower : ∀ t ∈ rest.head?, isOperator t ["^"] = false
  noFactor : ∀ t ∈ rest.head?, isOperator t ["*", "/"] = false
  noOperand : ∀ t ∈ rest.head?, startsOperand t.kind = false

/-- What may follow a sum: nothing that is read as one more factor or term. -/
structure FollowsSum (rest : List Token) : Prop extends FollowsTerm rest where
  noTerm : ∀ t ∈ rest.head?, isOperator t ["+", "-"] = false

variable {ts rest : List Token} {t : Token}

theorem isOperator_kind {symbols : List String} (h : isOperator t symbols = true) :
    t.kind = .operator := by
  simp only [isOperator, Bool.and_eq_true, beq_iff_eq] at h
  exact h.1

theorem isOperator_false {symbols : List String} (h : t.kind ≠ .operator) :
    isOperator t symbols = false := by
  simp [isOperator, h]

theorem isOperator_disjoint {symbols others : List String} (h : isOperator t symbols = true)
    (hd : ∀ s ∈ symbols, s ∉ others) : isOperator t others = false := by
  simp only [isOperator, Bool.and_eq_true, List.contains_iff_mem] at h
  simp [isOperator, hd _ h.2]

theorem startsOperand_kind (h : startsOperand t.kind = true) : t.kind ≠ .operator := by
  intro hk
  simp [hk, startsOperand] at h

theorem FollowsTerm.power (h : FollowsTerm rest) : FollowsPower ts rest where
  noCall _ u hu hk := by
    have := h.noOperand u hu
    simp [hk, startsOperand] at this
  noPower := h.noPower

theorem EndsInCall.append {us : List Token} (h : EndsInCall us) : EndsInCall (ts ++ us) := by
  obtain ⟨t, ht, hc⟩ := h
  exact ⟨t, by simp [List.getLast?_append, Option.mem_def.mp ht], hc⟩

theorem FollowsPower.suffix (ts us : List Token) (h : FollowsPower (ts ++ us) rest) :
    FollowsPower us rest := ⟨fun hc => h.noCall hc.append, h.noPower⟩

theorem FollowsPower.operator {symbols : List String} (h : isOperator t symbols = true)
    (hp : "^" ∉ symbols) : FollowsPower ts (t :: rest) where
  noCall _ u hu hk := by
    obtain rfl := Option.some.inj hu
    simp [isOperator_kind h] at hk
  noPower u hu := by
    obtain rfl := Option.some.inj hu
    exact isOperator_disjoint h (by rintro s hs hs'; simp_all)

theorem FollowsTerm.operator (h : isOperator t ["+", "-"] = true) : FollowsTerm (t :: rest) where
  noPower u hu := by
    obtain rfl := Option.some.inj hu
    exact isOperator_disjoint h (by decide)
  noFactor u hu := by
    obtain rfl := Option.some.inj hu
    exact isOperator_disjoint h (by decide)
  noOperand u hu := by
    obtain rfl := Option.some.inj hu
    simp [isOperator_kind h, startsOperand]

theorem FollowsSum.nil : FollowsSum [] := ⟨⟨by simp, by simp, by simp⟩, by simp⟩

theorem FollowsSum.cons (ho : t.kind ≠ .operator) (hs : startsOperand t.kind = false) :
    FollowsSum (t :: rest) := by
  have h (symbols : List String) : ∀ u ∈ (t :: rest).head?, isOperator u symbols = false := by
    intro u hu
    obtain rfl := Option.some.inj hu
    exact isOperator_false ho
  refine ⟨⟨h _, h _, fun u hu => ?_⟩, h _⟩
  obtain rfl := Option.some.inj hu
  exact hs

end Follow

section Stops

variable {rest : List Token}

theorem sumRest_stops (l : Expr α) (n : Nat) (h : FollowsSum rest) :
    sumRest (n + 1) l rest = .ok (l, rest) := by
  cases rest with
  | nil => rfl
  | cons t ts =>
    have := h.noTerm t rfl
    simp only [sumRest, this]
    rfl

theorem productRest_stops (l : Expr α) (n : Nat) (h : FollowsTerm rest) :
    productRest (n + 1) l rest = .ok (l, rest) := by
  cases rest with
  | nil => rfl
  | cons t ts =>
    have := h.noFactor t rfl
    have := h.noOperand t rfl
    simp only [productRest, *]
    rfl

theorem AreArguments.follows {us : List Token} {as : List (Expr α)} (h : AreArguments us as)
    {q : Token} (hq : q.kind = .rightParen) : FollowsSum (us ++ q :: rest) := by
  cases h with
  | nil => exact .cons (by simp [hq]) (by simp [hq, startsOperand])
  | cons hc _ _ => exact .cons (by simp [hc]) (by simp [hc, startsOperand])

/-- Reading the tokens of a sum leads to the loop over further terms with the sum so far. -/
def SumReads (ts : List Token) (e : Expr α) : Prop :=
  ∀ (rest : List Token) (n : Nat), FollowsTerm rest → 6 * ts.length ≤ n + 1 →
    ∃ m, n ≤ m + ts.length ∧ expression n (ts ++ rest) = sumRest m e rest

def TermReads (ts : List Token) (e : Expr α) : Prop :=
  ∀ (rest : List Token) (n : Nat), FollowsPower ts rest → 6 * ts.length ≤ n + 2 →
    ∃ m, n ≤ m + ts.length ∧ term n (ts ++ rest) = productRest m e rest

variable {ts : List Token} {e : Expr α} {n : Nat}

theorem SumReads.parses (h : SumReads ts e) (hpos : 0 < ts.length) (hrest : FollowsSum rest)
    (hn : 6 * ts.length ≤ n + 1) : expression n (ts ++ rest) = .ok (e, rest) := by
  obtain ⟨m, hm, he⟩ := h rest n hrest.toFollowsTerm hn
  obtain ⟨m, rfl⟩ : ∃ k, m = k + 1 := ⟨m - 1, by omega⟩
  rw [he, sumRest_stops e m hrest]

theorem TermReads.parses (h : TermReads ts e) (hpos : 0 < ts.length) (hrest : FollowsTerm rest)
    (hn : 6 * ts.length ≤ n + 2) : term n (ts ++ rest) = .ok (e, rest) := by
  obtain ⟨m, hm, he⟩ := h rest n hrest.power hn
  obtain ⟨m, rfl⟩ : ∃ k, m = k + 1 := ⟨m - 1, by omega⟩
  rw [he, productRest_stops e m hrest]

end Stops

mutual

theorem IsSum.reads : ∀ {ts : List Token} {e : Expr α}, IsSum ts e → SumReads ts e
  | ts, e, .term h, rest, n, hrest, hn => by
    have hpos := h.length_pos
    obtain ⟨n, rfl⟩ : ∃ k, n = k + 1 := ⟨n - 1, by omega⟩
    refine ⟨n, by omega, ?_⟩
    rw [expression, h.reads.parses hpos hrest (by omega)]
    rfl
  | _, _, @IsSum.more _ _ ls rs t _ _ hl ht hr, rest, n, hrest, hn => by
    have hposl := hl.length_pos
    simp only [List.length_append, List.length_cons] at hn ⊢
    obtain ⟨m, hm, he⟩ := hl.reads (t :: (rs ++ rest)) n (.operator ht) (by omega)
    obtain ⟨m, rfl⟩ : ∃ k, m = k + 1 := ⟨m - 1, by omega⟩
    refine ⟨m, by omega, ?_⟩
    rw [List.append_assoc, List.cons_append, he, sumRest, if_pos ht,
      hr.reads.parses hr.length_pos hrest (by omega)]
    rfl

theorem IsTerm.reads : ∀ {ts : List Token} {e : Expr α}, IsTerm ts e → TermReads ts e
  | ts, e, .unary h, rest, n, hrest, hn => by
    have hpos := h.length_pos
    obtain ⟨n, rfl⟩ : ∃ k, n = k + 1 := ⟨n - 1, by omega⟩
    refine ⟨n, by omega, ?_⟩
    rw [term, h.parses hrest (by omega)]
    rfl
  | _, _, @IsTerm.more _ _ ls rs t _ _ hl ht hr, rest, n, hrest, hn => by
    have hposl := hl.length_pos
    simp only [List.length_append, List.length_cons] at hn ⊢
    obtain ⟨m, hm, he⟩ := hl.reads (t :: (rs ++ rest)) n (.operator ht (by decide)) (by omega)
    obtain ⟨m, rfl⟩ : ∃ k, m = k + 1 := ⟨m - 1, by omega⟩
    refine ⟨m, by omega, ?_⟩
    have hfollows : FollowsPower rs rest := (hrest.suffix ls (t :: rs)).suffix [t] rs
    rw [List.append_assoc, List.cons_append, he, productRest, if_pos ht,
      hr.parses hfollows (by omega)]
    rfl
  | _, _, @IsTerm.next _ _ ls rs t _ _ hl ht hcall hr, rest, n, hrest, hn => by
    have hposl := hl.length_pos
    simp only [List.length_append, List.length_cons] at hn ⊢
    have hno {symbols : List String} : isOperator t symbols = false :=
      isOperator_false (startsOperand_kind ht)
    have hfollows : FollowsPower ls (t :: (rs ++ rest)) :=
      ⟨fun hc u hu => Option.some.inj hu ▸ hcall hc, fun u hu => Option.some.inj hu ▸ hno⟩
    obtain ⟨m, hm, he⟩ := hl.reads _ n hfollows (by omega)
    obtain ⟨m, rfl⟩ : ∃ k, m = k + 1 := ⟨m - 1, by omega⟩
    refine ⟨m, by omega, ?_⟩
    have hparse := hr.parses (hrest.suffix ls (t :: rs)) (n := m)
      (by simp only [List.length_cons]; omega)
    rw [List.append_assoc, List.cons_append, he, productRest, if_neg (by simp [hno]), if_pos ht,
      ← List.cons_append, hparse]
    rfl

theorem IsUnary.parses : ∀ {ts : List Token} {e : Expr α}, IsUnary ts e →
    ∀ {rest : List Token} {n : Nat}, FollowsPower ts rest → 6 * ts.length ≤ n + 3 →
    unary n (ts ++ rest) = .ok (e, rest)
  | _, _, @IsUnary.minus _ _ ts t _ ht h, rest, n, hrest, hn => by
    simp only [List.length_cons] at hn
    obtain ⟨n, rfl⟩ : ∃ k, n = k + 1 := ⟨n - 1, by omega⟩
    rw [List.cons_append, unary, if_pos ht, h.parses (hrest.suffix [t] ts) (by omega)]
    rfl
  | _, _, @IsUnary.plus _ _ ts t _ ht h, rest, n, hrest, hn => by
    simp only [List.length_cons] at hn
    obtain ⟨n, rfl⟩ : ∃ k, n = k + 1 := ⟨n - 1, by omega⟩
    have hminus : isOperator t ["-"] = false := isOperator_disjoint ht (by decide)
    rw [List.cons_append, unary, if_neg (by simp [hminus]), if_pos ht]
    exact h.parses (hrest.suffix [t] ts) (by omega)
  | ts, e, .power h, rest, n, hrest, hn => by
    have hpos := h.length_pos
    obtain ⟨n, rfl⟩ : ∃ k, n = k + 1 := ⟨n - 1, by omega⟩
    have hparse := h.parses hrest (n := n) (by omega)
    obtain ⟨t, us, rfl, ht⟩ := h.starts
    have hno {symbols : List String} : isOperator t symbols = false :=
      isOperator_false (startsOperand_kind ht)
    rw [List.cons_append, unary, if_neg (by simp [hno]), if_neg (by simp [hno]), ← List.cons_append]
    exact hparse

theorem IsPower.parses : ∀ {ts : List Token} {e : Expr α}, IsPower ts e →
    ∀ {rest : List Token} {n : Nat}, FollowsPower ts rest → 6 * ts.length ≤ n + 4 →
    power n (ts ++ rest) = .ok (e, rest)
  | ts, e, .primary h, rest, n, hrest, hn => by
    have hpos := (IsPower.primary h).length_pos
    obtain ⟨n, rfl⟩ : ∃ k, n = k + 1 := ⟨n - 1, by omega⟩
    rw [power, h.parses hrest.noCall (by omega)]
    cases rest with
    | nil => rfl
    | cons u rest =>
      have hno := hrest.noPower u rfl
      simp only [ok_bind, hno]
      rfl
  | _, _, @IsPower.pow _ _ ls rs t _ _ hb ht hx, rest, n, hrest, hn => by
    simp only [List.length_append, List.length_cons] at hn
    obtain ⟨n, rfl⟩ : ∃ k, n = k + 1 := ⟨n - 1, by omega⟩
    have hcall : EndsInCall ls → ∀ u ∈ (t :: (rs ++ rest)).head?, u.kind ≠ .leftParen := by
      intro _ u hu hk
      obtain rfl := Option.some.inj hu
      simp [isOperator_kind ht] at hk
    have hfollows : FollowsPower rs rest := (hrest.suffix ls (t :: rs)).suffix [t] rs
    rw [List.append_assoc, List.cons_append, power, hb.parses hcall (by omega)]
    simp only [ok_bind, ht, if_true, hx.parses hfollows (n := n) (by omega)]
    rfl

theorem IsPrimary.parses : ∀ {ts : List Token} {e : Expr α}, IsPrimary ts e →
    ∀ {rest : List Token} {n : Nat}, (EndsInCall ts → ∀ t ∈ rest.head?, t.kind ≠ .leftParen) →
    6 * ts.length ≤ n + 5 → primary n (ts ++ rest) = .ok (e, rest)
  | _, _, .number (t := t) ht, rest, n, hrest, hn => by
    obtain ⟨n, rfl⟩ : ∃ k, n = k + 1 := ⟨n - 1, by simp at hn; omega⟩
    simp only [List.singleton_append, primary, ht]
    rfl
  | _, _, .wildcard (t := t) ht, rest, n, hrest, hn => by
    obtain ⟨n, rfl⟩ : ∃ k, n = k + 1 := ⟨n - 1, by simp at hn; omega⟩
    simp only [List.singleton_append, primary, ht]
    rfl
  | _, _, .name (t := t) ht, rest, n, hrest, hn => by
    obtain ⟨n, rfl⟩ : ∃ k, n = k + 1 := ⟨n - 1, by simp at hn; omega⟩
    simp only [List.singleton_append, primary, ht]
    cases rest with
    | nil => rfl
    | cons p rest =>
      have hno : ¬(p.kind = .leftParen ∧ isCallable t.text = true) :=
        fun h => hrest ⟨t, rfl, ht, h.2⟩ p rfl h.1
      simp only [hno, if_false]
      rfl
  | _, _, @IsPrimary.parens _ _ ts p q _ hp h hq, rest, n, hrest, hn => by
    simp only [List.length_append, List.length_cons, List.length_nil] at hn
    obtain ⟨n, rfl⟩ : ∃ k, n = k + 1 := ⟨n - 1, by omega⟩
    have hfollows : FollowsSum (q :: rest) := .cons (by simp [hq]) (by simp [hq, startsOperand])
    simp only [List.cons_append, List.append_assoc, List.nil_append, primary, hp,
      h.reads.parses h.length_pos hfollows (n := n) (by omega), ok_bind, close, hq, if_true]
    rfl
  | _, _, @IsPrimary.call _ _ ts us t p q _ _ ht hcall hp h hs hq, rest, n,
      hrest, hn => by
    simp only [List.length_append, List.length_cons, List.length_nil] at hn
    obtain ⟨n, rfl⟩ : ∃ k, n = k + 1 := ⟨n - 1, by omega⟩
    have hfollows : FollowsSum (us ++ q :: rest) := hs.follows hq
    simp only [List.cons_append, List.append_assoc, List.nil_append, primary, ht, hp, hcall,
      and_self, if_true, h.reads.parses h.length_pos hfollows (n := n) (by omega), ok_bind,
      hs.parses hq (n := n) (by omega), close, hq]
    rfl

theorem AreArguments.parses : ∀ {us : List Token} {as : List (Expr α)}, AreArguments us as →
    ∀ {q : Token} {rest : List Token} {n : Nat}, q.kind = .rightParen → 6 * us.length + 1 ≤ n →
    arguments n (us ++ q :: rest) = .ok (as, q :: rest)
  | _, _, .nil, q, rest, n, hq, hn => by
    obtain ⟨n, rfl⟩ : ∃ k, n = k + 1 := ⟨n - 1, by omega⟩
    simp only [List.nil_append, arguments, hq, reduceCtorEq, if_false]
    rfl
  | _, _, @AreArguments.cons _ _ ts us c _ _ hc h hs, q, rest, n, hq, hn => by
    simp only [List.length_append, List.length_cons] at hn
    obtain ⟨n, rfl⟩ : ∃ k, n = k + 1 := ⟨n - 1, by omega⟩
    have hfollows : FollowsSum (us ++ q :: rest) := hs.follows hq
    simp only [List.cons_append, List.append_assoc, arguments, hc, if_true,
      h.reads.parses h.length_pos hfollows (n := n) (by omega), ok_bind,
      hs.parses hq (n := n) (by omega)]
    rfl

end

inductive IsEquation : List Token → Expr α → Prop
  | sum {ts : List Token} {e : Expr α} : IsSum ts e → IsEquation ts e
  | eq {ls rs : List Token} {t : Token} {l r : Expr α} : IsSum ls l → t.kind = .equals →
      IsSum rs r → IsEquation (ls ++ t :: rs) (.eq l r)

/-- The parser reads what the grammar derives. -/
theorem IsEquation.parses {ts : List Token} {e : Expr α} (h : IsEquation ts e) :
    parse ts = .ok e := by
  cases h with
  | sum h =>
    have hpos := h.length_pos
    have hparse := h.reads.parses hpos .nil (n := depthBound ts) (by unfold depthBound; omega)
    rw [List.append_nil] at hparse
    rw [parse, if_neg (by simpa using List.length_pos_iff.mp hpos), hparse]
    rfl
  | eq hl ht hr =>
    rename_i ls rs t l r
    have hfollows : FollowsSum (t :: rs) := .cons (by simp [ht]) (by simp [ht, startsOperand])
    have hleft := hl.reads.parses hl.length_pos hfollows (n := depthBound (ls ++ t :: rs))
      (by simp only [depthBound, List.length_append, List.length_cons]; omega)
    have hright := hr.reads.parses hr.length_pos .nil (n := depthBound rs)
      (by unfold depthBound; omega)
    rw [List.append_nil] at hright
    have hne : rs.isEmpty = false := by simpa using List.length_pos_iff.mp hr.length_pos
    simp only [parse, List.isEmpty_iff, List.append_eq_nil_iff, reduceCtorEq, and_false, if_false,
      hleft, ok_bind, ht, if_true, hright, finish]
    rw [if_neg (by simpa using hne)]
    rfl

end RuleAlgebra.Grammar
