import RuleAlgebra.Proofs.GrammarDerivations

/-!
The parser accepts what the grammar derives, and nothing else: whatever is read from the front of
the tokens is derived from the tokens that are gone, so that a reading of all tokens is a derivation
of all of them.
-/

namespace RuleAlgebra.Grammar

variable {α : Type} [Scalar α]

section Fronts

/-- After these tokens comes no parenthesis that would make a call of the last one. -/
def NoCall (us rest : List Token) : Prop := EndsInCall us → ∀ t ∈ rest.head?, t.kind ≠ .leftParen

theorem EndsInCall.of_append {us vs : List Token} (hne : vs ≠ []) (h : EndsInCall (us ++ vs)) :
    EndsInCall vs := by
  obtain ⟨t, ht, hname⟩ := h
  rw [List.getLast?_append_of_ne_nil us hne] at ht
  exact ⟨t, ht, hname⟩

theorem NoCall.prepend (us : List Token) {vs rest : List Token} (hne : vs ≠ [])
    (h : NoCall vs rest) : NoCall (us ++ vs) rest := fun hc => h (hc.of_append hne)

theorem NoCall.of_kind (us : List Token) {rest : List Token} {t : Token} (ht : t.kind ≠ .name) :
    NoCall (us ++ [t]) rest := by
  rintro ⟨u, hu, hname, -⟩
  rw [List.getLast?_append_of_ne_nil us (by simp)] at hu
  obtain rfl := Option.some.inj hu
  exact absurd hname ht

/-- What was read is derived from the tokens that are gone. -/
def DerivesFront (D : List Token → Expr α → Prop) (ts : List Token) (p : Parsed α) : Prop :=
  ∃ us, ts = us ++ p.2 ∧ D us p.1 ∧ NoCall us p.2

variable {D E : List Token → Expr α → Prop} {ts : List Token} {p : Parsed α}

omit [Scalar α] in
theorem DerivesFront.mono (h : DerivesFront D ts p) (hDE : ∀ us e, D us e → E us e) :
    DerivesFront E ts p := by
  obtain ⟨us, hts, hD, hcall⟩ := h
  exact ⟨us, hts, hDE us p.1 hD, hcall⟩

theorem close_eq_ok {rest : List Token} (h : close ts = .ok rest) :
    ∃ q, q.kind = .rightParen ∧ ts = q :: rest := by
  cases ts with
  | nil => cases h
  | cons q ts =>
    simp only [close] at h
    split_ifs at h with hq
    obtain rfl := Except.ok.inj h
    exact ⟨q, hq, rfl⟩

end Fronts

mutual

theorem expression_derives : ∀ (n : Nat) {ts : List Token} {p : Parsed α},
    expression n ts = .ok p → DerivesFront IsSum ts p
  | 0, _, _, h => by cases h
  | n + 1, ts, p, h => by
    rw [expression] at h
    obtain ⟨⟨l, rest⟩, hl, hrest⟩ := bind_eq_ok.mp h
    obtain ⟨us, rfl, hus, hcall⟩ := term_derives n hl
    exact sumRest_derives n (.term hus) hcall hrest

theorem sumRest_derives : ∀ (n : Nat) {us ts : List Token} {l : Expr α} {p : Parsed α},
    IsSum us l → NoCall us ts → sumRest n l ts = .ok p → DerivesFront IsSum (us ++ ts) p
  | 0, _, _, _, _, _, _, h => by cases h
  | _ + 1, us, [], l, p, hl, hcall, h => by
    obtain rfl := Except.ok.inj h
    exact ⟨us, rfl, hl, hcall⟩
  | n + 1, us, t :: ts, l, p, hl, hcall, h => by
    rw [sumRest] at h
    split_ifs at h with ht
    · obtain ⟨⟨r, rest⟩, hr, hrest⟩ := bind_eq_ok.mp h
      obtain ⟨vs, rfl, hvs, hcall'⟩ := term_derives n hr
      have hne : vs ≠ [] := List.length_pos_iff.mp hvs.length_pos
      have hsum := IsSum.more hl ht hvs
      have hcall'' : NoCall (us ++ t :: vs) rest := by
        simpa using hcall'.prepend (us ++ [t]) hne
      simpa using sumRest_derives n hsum hcall'' hrest
    · obtain rfl := Except.ok.inj h
      exact ⟨us, rfl, hl, hcall⟩

theorem term_derives : ∀ (n : Nat) {ts : List Token} {p : Parsed α},
    term n ts = .ok p → DerivesFront IsTerm ts p
  | 0, _, _, h => by cases h
  | n + 1, ts, p, h => by
    rw [term] at h
    obtain ⟨⟨l, rest⟩, hl, hrest⟩ := bind_eq_ok.mp h
    obtain ⟨us, rfl, hus, hcall⟩ := unary_derives n hl
    exact productRest_derives n (.unary hus) hcall hrest

theorem productRest_derives : ∀ (n : Nat) {us ts : List Token} {l : Expr α} {p : Parsed α},
    IsTerm us l → NoCall us ts → productRest n l ts = .ok p → DerivesFront IsTerm (us ++ ts) p
  | 0, _, _, _, _, _, _, h => by cases h
  | _ + 1, us, [], l, p, hl, hcall, h => by
    obtain rfl := Except.ok.inj h
    exact ⟨us, rfl, hl, hcall⟩
  | n + 1, us, t :: ts, l, p, hl, hcall, h => by
    rw [productRest] at h
    split_ifs at h with ht hs
    · obtain ⟨⟨r, rest⟩, hr, hrest⟩ := bind_eq_ok.mp h
      obtain ⟨vs, rfl, hvs, hcall'⟩ := unary_derives n hr
      have hne : vs ≠ [] := List.length_pos_iff.mp hvs.length_pos
      have hterm := IsTerm.more hl ht hvs
      have hcall'' : NoCall (us ++ t :: vs) rest := by
        simpa using hcall'.prepend (us ++ [t]) hne
      simpa using productRest_derives n hterm hcall'' hrest
    · obtain ⟨⟨r, rest⟩, hr, hrest⟩ := bind_eq_ok.mp h
      obtain ⟨vs, hvs, hD, hcall'⟩ := unary_derives n hr
      have hne : vs ≠ [] := List.length_pos_iff.mp hD.length_pos
      obtain ⟨v, vs, rfl⟩ := List.exists_cons_of_ne_nil hne
      obtain ⟨rfl, rfl⟩ := List.cons.inj hvs
      have hterm := IsTerm.next hl hs (fun hc => hcall hc t rfl) hD
      simpa using productRest_derives n hterm (hcall'.prepend _ hne) hrest
    · obtain rfl := Except.ok.inj h
      exact ⟨us, rfl, hl, hcall⟩

theorem unary_derives : ∀ (n : Nat) {ts : List Token} {p : Parsed α},
    unary n ts = .ok p → DerivesFront IsUnary ts p
  | 0, _, _, h => by cases h
  | n + 1, [], p, h => (power_derives n h).mono fun _ _ => .power
  | n + 1, t :: ts, p, h => by
    simp only [unary] at h
    split_ifs at h with hminus hplus
    · obtain ⟨⟨e, rest⟩, he, hp⟩ := bind_eq_ok.mp h
      obtain rfl := Except.ok.inj hp
      obtain ⟨us, rfl, hus, hcall⟩ := unary_derives n he
      have hne : us ≠ [] := List.length_pos_iff.mp hus.length_pos
      exact ⟨t :: us, rfl, .minus hminus hus, hcall.prepend [t] hne⟩
    · obtain ⟨us, rfl, hus, hcall⟩ := unary_derives n h
      have hne : us ≠ [] := List.length_pos_iff.mp hus.length_pos
      exact ⟨t :: us, rfl, .plus hplus hus, hcall.prepend [t] hne⟩
    · exact (power_derives n h).mono fun _ _ => .power

theorem power_derives : ∀ (n : Nat) {ts : List Token} {p : Parsed α},
    power n ts = .ok p → DerivesFront IsPower ts p
  | 0, _, _, h => by cases h
  | n + 1, ts, p, h => by
    rw [power] at h
    obtain ⟨⟨b, rest⟩, hb, hp⟩ := bind_eq_ok.mp h
    obtain ⟨us, rfl, hus, hcall⟩ := primary_derives n hb
    have hstop : DerivesFront IsPower (us ++ rest) (b, rest) := ⟨us, rfl, .primary hus, hcall⟩
    cases rest with
    | nil =>
      obtain rfl := Except.ok.inj hp
      exact hstop
    | cons t rest =>
      simp only at hp
      split_ifs at hp with ht
      · obtain ⟨⟨x, rest'⟩, hx, hp'⟩ := bind_eq_ok.mp hp
        obtain rfl := Except.ok.inj hp'
        obtain ⟨vs, rfl, hvs, hcall'⟩ := unary_derives n hx
        have hne : vs ≠ [] := List.length_pos_iff.mp hvs.length_pos
        refine ⟨us ++ t :: vs, by simp, .pow hus ht hvs, ?_⟩
        simpa using hcall'.prepend (us ++ [t]) hne
      · obtain rfl := Except.ok.inj hp
        exact hstop

theorem primary_derives : ∀ (n : Nat) {ts : List Token} {p : Parsed α},
    primary n ts = .ok p → DerivesFront IsPrimary ts p
  | 0, _, _, h => by cases h
  | _ + 1, [], _, h => by cases h
  | n + 1, t :: ts, p, h => by
    simp only [primary] at h
    split at h
    · rename_i ht
      obtain rfl := Except.ok.inj h
      exact ⟨[t], rfl, .number ht, NoCall.of_kind [] (by simp [ht])⟩
    · rename_i ht
      obtain rfl := Except.ok.inj h
      exact ⟨[t], rfl, .wildcard ht, NoCall.of_kind [] (by simp [ht])⟩
    · rename_i ht
      obtain ⟨⟨e, rest⟩, he, hp⟩ := bind_eq_ok.mp h
      obtain ⟨rest', hclose, hp'⟩ := bind_eq_ok.mp hp
      obtain rfl := Except.ok.inj hp'
      obtain ⟨us, rfl, hus, -⟩ := expression_derives n he
      obtain ⟨q, hq, rfl⟩ := close_eq_ok hclose
      exact ⟨t :: (us ++ [q]), by simp, .parens ht hus hq,
        NoCall.of_kind (t :: us) (by simp [hq])⟩
    · rename_i ht
      cases ts with
      | nil =>
        obtain rfl := Except.ok.inj h
        exact ⟨[t], rfl, .name ht, by simp [NoCall]⟩
      | cons q rest =>
        simp only at h
        split_ifs at h with hcall
        · obtain ⟨⟨a, rest₁⟩, ha, h₁⟩ := bind_eq_ok.mp h
          obtain ⟨⟨as, rest₂⟩, has, h₂⟩ := bind_eq_ok.mp h₁
          obtain ⟨rest₃, hclose, h₃⟩ := bind_eq_ok.mp h₂
          obtain rfl := Except.ok.inj h₃
          obtain ⟨us, rfl, hus, -⟩ := expression_derives n ha
          obtain ⟨vs, rfl, hvs⟩ := arguments_derives n has
          obtain ⟨r, hr, rfl⟩ := close_eq_ok hclose
          exact ⟨t :: q :: (us ++ vs ++ [r]), by simp, .call ht hcall.2 hcall.1 hus hvs hr,
            NoCall.of_kind (t :: q :: (us ++ vs)) (by simp [hr])⟩
        · obtain rfl := Except.ok.inj h
          refine ⟨[t], rfl, .name ht, ?_⟩
          -- a parenthesis after a name that is not called
          rintro ⟨u, hu, -, hcallable⟩ v hv hparen
          obtain rfl := Option.some.inj hu
          obtain rfl := Option.some.inj hv
          exact hcall ⟨hparen, hcallable⟩
    · cases h

theorem arguments_derives : ∀ (n : Nat) {ts rest : List Token} {as : List (Expr α)},
    arguments n ts = .ok (as, rest) → ∃ us, ts = us ++ rest ∧ AreArguments us as
  | 0, _, _, _, h => by cases h
  | _ + 1, [], _, _, h => by
    obtain ⟨rfl, rfl⟩ := Prod.mk.inj (Except.ok.inj h)
    exact ⟨[], rfl, .nil⟩
  | n + 1, t :: ts, rest, as, h => by
    simp only [arguments] at h
    split_ifs at h with ht
    · obtain ⟨⟨a, rest₁⟩, ha, h₁⟩ := bind_eq_ok.mp h
      obtain ⟨⟨bs, rest₂⟩, hbs, h₂⟩ := bind_eq_ok.mp h₁
      obtain ⟨rfl, rfl⟩ := Prod.mk.inj (Except.ok.inj h₂)
      obtain ⟨us, rfl, hus, -⟩ := expression_derives n ha
      obtain ⟨vs, rfl, hvs⟩ := arguments_derives n hbs
      exact ⟨t :: (us ++ vs), by simp, .cons ht hus hvs⟩
    · obtain ⟨rfl, rfl⟩ := Prod.mk.inj (Except.ok.inj h)
      exact ⟨[], rfl, .nil⟩

end

omit [Scalar α] in
theorem finish_eq_ok {e d : Expr α} {ts : List Token} (h : finish e ts = .ok d) :
    ts = [] ∧ e = d := by
  cases ts with
  | nil => exact ⟨rfl, Except.ok.inj h⟩
  | cons t ts => cases h

theorem isEquation_of_parse {ts : List Token} {e : Expr α} (h : parse ts = .ok e) :
    IsEquation ts e := by
  unfold parse at h
  split_ifs at h
  obtain ⟨⟨l, rest⟩, hl, hrest⟩ := bind_eq_ok.mp h
  obtain ⟨us, rfl, hus, -⟩ := expression_derives _ hl
  cases rest with
  | nil =>
    obtain rfl := Except.ok.inj hrest
    simpa using IsEquation.sum hus
  | cons t rest =>
    simp only at hrest
    split_ifs at hrest with ht hempty
    · obtain ⟨⟨r, rest'⟩, hr, hend⟩ := bind_eq_ok.mp hrest
      obtain ⟨vs, rfl, hvs, -⟩ := expression_derives _ hr
      cases rest' with
      | nil =>
        obtain ⟨-, rfl⟩ := finish_eq_ok hend
        simpa using IsEquation.eq hus ht hvs
      | cons t' rest' =>
        simp only at hend
        split_ifs at hend
        exact absurd (finish_eq_ok hend).1 (by simp)
    · exact absurd (finish_eq_ok hrest).1 (by simp)

/-- The parser decides the grammar: it gives an expression exactly when the grammar derives it from
all the tokens, which happens for one expression at most, and reports a fault otherwise. -/
theorem parse_decides_grammar (ts : List Token) :
    (∀ e : Expr α, parse ts = .ok e ↔ IsEquation ts e) ∧
      (∀ d e : Expr α, IsEquation ts d → IsEquation ts e → d = e) ∧
      ((∃ fault, (parse ts : Except SyntaxFault (Expr α)) = .error fault) ↔
        ∀ e : Expr α, ¬IsEquation ts e) := by
  have haccepts (e : Expr α) : parse ts = .ok e ↔ IsEquation ts e :=
    ⟨isEquation_of_parse, IsEquation.parses⟩
  refine ⟨haccepts, fun d e hd he => ?_, ?_⟩
  · have hde := hd.parses.symm.trans he.parses
    exact Except.ok.inj hde
  · constructor
    · rintro ⟨fault, hfault⟩ e he
      rw [he.parses] at hfault
      cases hfault
    · intro hnone
      cases h : (parse ts : Except SyntaxFault (Expr α)) with
      | error fault => exact ⟨fault, rfl⟩
      | ok e => exact absurd ((haccepts e).mp h) (hnone e)

end RuleAlgebra.Grammar
