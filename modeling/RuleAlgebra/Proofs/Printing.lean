import RuleAlgebra.Proofs.GrammarDerivations
import RuleAlgebra.Proofs.Occurrences
import RuleAlgebra.Proofs.SignedNumerals
import RuleAlgebra.Proofs.Words

/-!
The text of an expression is read back as the expression. A printed text is cut into words whatever
delimiter follows it, and the grammar derives from them an expression that binds as tightly as the
rank of the printed one says.
-/

namespace RuleAlgebra.Expr

open Scalar Text Lexeme Grammar

variable {α : Type} [Scalar α]

section Binding

structure Binds (n : Nat) (ts : List Token) (e : Expr α) : Prop where
  sum : IsSum ts e
  term : 2 ≤ n → IsTerm ts e
  power : 3 ≤ n → IsPower ts e
  primary : 4 ≤ n → IsPrimary ts e

variable {ts : List Token} {e : Expr α} {m n : Nat}

theorem Binds.mono (h : Binds n ts e) (hm : m ≤ n) : Binds m ts e :=
  ⟨h.sum, fun h2 => h.term (h2.trans hm), fun h3 => h.power (h3.trans hm),
    fun h4 => h.primary (h4.trans hm)⟩

theorem binds_primary (h : IsPrimary ts e) : Binds n ts e :=
  ⟨.term (.unary (.power (.primary h))), fun _ => .unary (.power (.primary h)),
    fun _ => .primary h, fun _ => h⟩

theorem binds_power (h : IsPower ts e) : Binds 3 ts e :=
  ⟨.term (.unary (.power h)), fun _ => .unary (.power h), fun _ => h, by simp⟩

theorem binds_term (h : IsTerm ts e) : Binds 2 ts e := ⟨.term h, fun _ => h, by simp, by simp⟩

theorem binds_sum (h : IsSum ts e) : Binds 1 ts e := ⟨h, by simp, by simp, by simp⟩

end Binding

section Words

/-- A text that is read as an expression equal to `t` and binding like a root of rank `n`. -/
def ReadsAs (wild : Bool) (s : String) (n : Nat) (t : Expr α) : Prop :=
  ∃ ps, CutsInto wild s ps ∧
    ∀ ts : List Token, ts.map Token.word = ps → ∃ p, Binds n ts p ∧ (p == t) = true

variable {wild : Bool} {s l r : String} {m n : Nat} {t a b : Expr α}

theorem words_cons {ts : List Token} {k : Token.Kind} {ps : List (Token.Kind × String)}
    (h : ts.map Token.word = (k, s) :: ps) :
    ∃ t us, ts = t :: us ∧ t.kind = k ∧ t.text = s ∧ us.map Token.word = ps := by
  obtain ⟨t, us, rfl, ht, hus⟩ := List.map_eq_cons_iff.mp h
  simp only [Token.word, Prod.mk.injEq] at ht
  exact ⟨t, us, rfl, ht.1, ht.2, hus⟩

theorem words_split {ts : List Token} {k : Token.Kind} {ps qs : List (Token.Kind × String)}
    (h : ts.map Token.word = ps ++ (k, s) :: qs) :
    ∃ ls t rs, ts = ls ++ t :: rs ∧ ls.map Token.word = ps ∧ t.kind = k ∧ t.text = s ∧
      rs.map Token.word = qs := by
  obtain ⟨ls, us, rfl, hls, hus⟩ := List.map_eq_append_iff.mp h
  obtain ⟨t, rs, rfl, hk, hs, hrs⟩ := words_cons hus
  exact ⟨ls, t, rs, rfl, hls, hk, hs, hrs⟩

theorem ReadsAs.mono (h : ReadsAs wild s n t) (hm : m ≤ n) : ReadsAs wild s m t := by
  obtain ⟨ps, hcut, hread⟩ := h
  refine ⟨ps, hcut, fun ts hts => ?_⟩
  obtain ⟨p, hp, heq⟩ := hread ts hts
  exact ⟨p, hp.mono hm, heq⟩

theorem ReadsAs.parens (h : ReadsAs wild s n t) : ReadsAs wild (parens s) m t := by
  obtain ⟨ps, hcut, hread⟩ := h
  refine ⟨_, hcut.parens, fun ts hts => ?_⟩
  obtain ⟨o, us, rfl, ho, -, hus⟩ := words_cons hts
  obtain ⟨ls, c, rs, rfl, hls, hc, -, hrs⟩ := words_split hus
  obtain rfl := List.map_eq_nil_iff.mp hrs
  obtain ⟨p, hp, heq⟩ := hread ls hls
  exact ⟨p, binds_primary (.parens ho hp.sum hc), heq⟩

theorem ReadsAs.parensIf {c : Bool} (h : ReadsAs wild s n t) (hc : c = false → m ≤ n) :
    ReadsAs wild (parensIf c s) m t := by
  cases c with
  | true => exact h.parens
  | false => exact h.mono (hc rfl)

theorem op_beq {o : Arithmetic} {p q : Expr α} (hp : (p == a) = true) (hq : (q == b) = true) :
    (op o p q == op o a b) = true := by
  change same (op o p q) (op o a b) = true
  rw [same, show same p a = true from hp, show same q b = true from hq]
  simp

theorem isOperator_symbol {k : Token} {o : Arithmetic} {symbols : List String}
    (hk : k.kind = .operator) (ho : k.text = o.symbol) (h : o.symbol ∈ symbols) :
    isOperator k symbols = true := by
  simp [isOperator, hk, ho, h]

theorem operation_symbol {k : Token} {o : Arithmetic} (ho : k.text = o.symbol) :
    Grammar.operation k = o := by
  cases o <;> simp [Grammar.operation, ho, Arithmetic.symbol, Arithmetic.ofSymbol?]

theorem ReadsAs.operation {o : Arithmetic} {i j : Nat} (hl : ReadsAs wild l i a)
    (hr : ReadsAs wild r j b)
    (hcut : ∀ {ps qs}, CutsInto wild l ps → CutsInto wild r qs →
      CutsInto wild s (ps ++ (.operator, o.symbol) :: qs))
    (hbinds : ∀ {ls k rs} {p q : Expr α}, (∀ symbols, o.symbol ∈ symbols →
      isOperator k symbols = true) → Grammar.operation k = o → Binds i ls p → Binds j rs q →
      Binds n (ls ++ k :: rs) (op o p q)) : ReadsAs wild s n (op o a b) := by
  obtain ⟨ps, hcutl, hreadl⟩ := hl
  obtain ⟨qs, hcutr, hreadr⟩ := hr
  refine ⟨_, hcut hcutl hcutr, fun ts hts => ?_⟩
  obtain ⟨ls, k, rs, rfl, hls, hk, ho, hrs⟩ := words_split hts
  obtain ⟨p, hp, hpeq⟩ := hreadl ls hls
  obtain ⟨q, hq, hqeq⟩ := hreadr rs hrs
  exact ⟨op o p q, hbinds (fun _ => isOperator_symbol hk ho) (operation_symbol ho) hp hq,
    op_beq hpeq hqeq⟩

theorem ReadsAs.power (hl : ReadsAs wild l 4 a) (hr : ReadsAs wild r 3 b) :
    ReadsAs wild (l ++ "^" ++ r) 3 (op .pow a b) := by
  refine hl.operation hr (fun hcutl hcutr => hcutl.tight '^' hcutr (by simp)) ?_
  intro ls k rs p q hk _ hp hq
  exact binds_power (.pow (hp.primary le_rfl) (hk ["^"] (by decide)) (.power (hq.power le_rfl)))

theorem ReadsAs.factors {o : Arithmetic} (ho : o = .mul ∨ o = .div) (hl : ReadsAs wild l 2 a)
    (hr : ReadsAs wild r 3 b) (hcut : ∀ {ps qs}, CutsInto wild l ps → CutsInto wild r qs →
      CutsInto wild s (ps ++ (.operator, o.symbol) :: qs)) : ReadsAs wild s 2 (op o a b) := by
  refine hl.operation hr hcut ?_
  rintro ls k rs p q hk rfl hp hq
  have hfactor := hk ["*", "/"] (by rcases ho with h | h <;> rw [h] <;> decide)
  exact binds_term (.more (hp.term le_rfl) hfactor (.power (hq.power le_rfl)))

theorem ReadsAs.product {o : Arithmetic} (ho : o = .mul ∨ o = .div) (hl : ReadsAs wild l 2 a)
    (hr : ReadsAs wild r 3 b) : ReadsAs wild (l ++ o.symbol ++ r) 2 (op o a b) := by
  refine hl.factors ho hr fun hcutl hcutr => ?_
  rcases ho with rfl | rfl
  · exact hcutl.tight '*' hcutr (by simp)
  · exact hcutl.tight '/' hcutr (by simp)

theorem ReadsAs.spacedProduct (hl : ReadsAs wild l 2 a) (hr : ReadsAs wild r 3 b) :
    ReadsAs wild (l ++ " " ++ "*" ++ " " ++ r) 2 (op .mul a b) := by
  refine hl.factors (.inl rfl) hr fun hcutl hcutr => ?_
  exact hcutl.spaced '*' .operator hcutr (by decide) (by simp [sign?]) (by decide)

theorem ReadsAs.sum {o : Arithmetic} (ho : o = .add ∨ o = .sub) (hl : ReadsAs wild l 1 a)
    (hr : ReadsAs wild r 2 b) :
    ReadsAs wild (l ++ " " ++ o.symbol ++ " " ++ r) 1 (op o a b) := by
  refine hl.operation hr (fun hcutl hcutr => ?_) ?_
  · rcases ho with rfl | rfl
    · exact hcutl.spaced '+' .operator hcutr (by decide) (by simp [sign?]) (by decide)
    · exact hcutl.spaced '-' .operator hcutr (by decide) (by simp [sign?]) (by decide)
  · rintro ls k rs p q hk rfl hp hq
    have hterm := hk ["+", "-"] (by rcases ho with h | h <;> rw [h] <;> decide)
    exact binds_sum (.more hp.sum hterm (hq.term le_rfl))

theorem ReadsAs.minus (h : ReadsAs wild s 3 a)
    (hneg : ∀ p : Expr α, (p == a) = true → (negate p == t) = true) :
    ReadsAs wild ("-" ++ s) 2 t := by
  obtain ⟨ps, hcut, hread⟩ := h
  refine ⟨_, hcut.minus, fun ts hts => ?_⟩
  obtain ⟨k, us, rfl, hk, ho, hus⟩ := words_cons hts
  obtain ⟨p, hp, heq⟩ := hread us hus
  have hop : isOperator k ["-"] = true := isOperator_symbol (o := .sub) hk ho (by decide)
  exact ⟨negate p, binds_term (.unary (.minus hop (.power (hp.power le_rfl)))), hneg p heq⟩

theorem readsAs_name {x : String} (hx : isIdentifier x = true) :
    ReadsAs wild x n (var x : Expr α) := by
  refine ⟨_, cutsInto_name hx, fun ts hts => ?_⟩
  obtain ⟨k, us, rfl, hk, ho, hus⟩ := words_cons hts
  obtain rfl := List.map_eq_nil_iff.mp hus
  refine ⟨var k.text, binds_primary (.name hk), ?_⟩
  change same _ _ = true
  simp [same, ho]

theorem readsAs_wildcard {x : String} {k : WildcardKind} {avoids : Option String}
    (hx : isIdentifier x = true) (ha : Avoids k avoids) :
    ReadsAs true (wildText x k avoids) n (Expr.wild x k avoids : Expr α) := by
  refine ⟨_, cutsInto_wildcard hx ha, fun ts hts => ?_⟩
  obtain ⟨u, us, rfl, hu, ho, hus⟩ := words_cons hts
  obtain rfl := List.map_eq_nil_iff.mp hus
  refine ⟨Grammar.wildcard u.text, binds_primary (.wildcard hu), ?_⟩
  rw [ho, wildcard_wildText hx ha]
  change same _ _ = true
  simp [same]

theorem readsAs_numeral {v : α} (hs : Numeral.isDecimal s.toList = true)
    (hv : ((Numeral.value s.toList : α) == v) = true) : ReadsAs wild s n (num v) := by
  refine ⟨_, cutsInto_number hs, fun ts hts => ?_⟩
  obtain ⟨k, us, rfl, hk, ho, hus⟩ := words_cons hts
  obtain rfl := List.map_eq_nil_iff.mp hus
  refine ⟨num (Numeral.value k.text.toList), binds_primary (.number hk), ?_⟩
  rw [ho]
  exact hv

theorem readsAs_arguments {ss : List String} {as : List (Expr α)}
    (hs : List.Forall₂ (fun s a => ∃ n, ReadsAs wild s n a) ss as) :
    ∃ pss, List.Forall₂ (CutsInto wild) ss pss ∧ ∀ us : List Token,
      us.map Token.word = argumentWords pss → ∃ bs, AreArguments us bs ∧ sameArgs bs as = true := by
  induction hs with
  | nil =>
    refine ⟨[], .nil, fun us hus => ?_⟩
    obtain rfl := List.map_eq_nil_iff.mp hus
    exact ⟨[], .nil, rfl⟩
  | cons h _ ih =>
    obtain ⟨n, ps, hcut, hread⟩ := h
    obtain ⟨pss, hcuts, hreads⟩ := ih
    refine ⟨ps :: pss, .cons hcut hcuts, fun us hus => ?_⟩
    obtain ⟨c, us, rfl, hc, -, hus⟩ := words_cons hus
    obtain ⟨ts, us, rfl, hts, hus⟩ := List.map_eq_append_iff.mp hus
    obtain ⟨b, hb, hbeq⟩ := hread ts hts
    obtain ⟨bs, hbs, hbseq⟩ := hreads us hus
    refine ⟨b :: bs, .cons hc hb.sum hbs, ?_⟩
    rw [sameArgs, show same b _ = true from hbeq, hbseq]
    rfl

theorem readsAs_operation {o : Arithmetic} {l r : Expr α} {left right : String}
    (hl : ReadsAs wild left l.rank l) (hr : ReadsAs wild right r.rank r) :
    ReadsAs wild (operationText o l r left right) o.rank (op o l r) := by
  have hleft {m : Nat} (hm : m ≤ o.rank) : ReadsAs wild (parensIf (l.rank < o.rank) left) m l :=
    hl.parensIf fun hc => hm.trans (by simpa using hc)
  have hright {m : Nat} (hm : m ≤ o.rank + 1) :
      ReadsAs wild (parensIf (r.rank ≤ o.rank || right.startsWith "-") right) m r := by
    apply hr.parensIf
    intro hc
    simp only [Bool.or_eq_false_iff, decide_eq_false_iff_not, not_le] at hc
    exact hm.trans hc.1
  cases o with
  | add => exact ReadsAs.sum (.inl rfl) (hleft le_rfl) (hright le_rfl)
  | sub => exact ReadsAs.sum (.inr rfl) (hleft le_rfl) (hright le_rfl)
  | mul => exact ReadsAs.product (.inl rfl) (hleft le_rfl) (hright le_rfl)
  | div => exact ReadsAs.product (.inr rfl) (hleft le_rfl) (hright le_rfl)
  | pow =>
    refine ReadsAs.power (hl.parensIf fun hc => ?_) (hr.parensIf fun hc => ?_)
    · exact not_le.mp (of_decide_eq_false hc)
    · exact not_lt.mp (of_decide_eq_false hc)

theorem ReadsAs.read {s : String} {n : Nat} {t : Expr α} (h : ReadsAs wild s n t) :
    ∃ p, Expr.read wild s = .ok p ∧ (p == t) = true := by
  obtain ⟨ps, hcut, hread⟩ := h
  obtain ⟨stream, hscan, hwords⟩ := hcut.lexes .nil .nil 0
  rw [List.append_nil] at hscan hwords
  obtain ⟨p, hp, heq⟩ := hread stream.tokens hwords
  refine ⟨p, ?_, heq⟩
  rw [Expr.read, TokenStream.ofText, hscan, ok_bind, (IsEquation.sum hp.sum).parses]

theorem ReadsAs.read_eq {l r : String} {m n : Nat} {a b : Expr α} (hl : ReadsAs wild l m a)
    (hr : ReadsAs wild r n b) :
    ∃ p, Expr.read wild (l ++ " = " ++ r) = .ok p ∧ (p == eq a b) = true := by
  obtain ⟨ps, hcutl, hreadl⟩ := hl
  obtain ⟨qs, hcutr, hreadr⟩ := hr
  have hcut := hcutl.spaced '=' .equals hcutr (by decide) (by simp [sign?])
    (by decide)
  have htext : l ++ " = " ++ r = l ++ " " ++ String.singleton '=' ++ " " ++ r := by
    simp [← String.toList_inj]
  obtain ⟨stream, hscan, hwords⟩ := hcut.lexes .nil .nil 0
  rw [List.append_nil] at hscan hwords
  obtain ⟨ls, k, rs, htokens, hls, hk, -, hrs⟩ := words_split hwords
  obtain ⟨p, hp, hpeq⟩ := hreadl ls hls
  obtain ⟨q, hq, hqeq⟩ := hreadr rs hrs
  refine ⟨eq p q, ?_, ?_⟩
  · rw [Expr.read, TokenStream.ofText, htext, hscan, ok_bind, htokens,
      (IsEquation.eq hp.sum hk hq.sum).parses]
  · change same _ _ = true
    rw [same, show same p a = true from hpeq, show same q b = true from hqeq]
    rfl

end Words

section Printable

/-- Names that are read as the function of that name when arguments follow. -/
structure IsFunctionName (f : String) : Prop where
  identifier : isIdentifier f = true
  long : 1 < f.length
  notPi : f ≠ "pi"
  notLog : f ≠ "log"

/-- Whether the root alone can be written and read back inside an expression. -/
def PrintableRoot : Expr α → Prop
  | num v => Decimal.Readable v
  | var x => isIdentifier x = true
  | op _ _ _ => True
  | fn f as => IsFunctionName f ∧ as ≠ []
  | eq _ _ => False
  | .wild n k a => isIdentifier n = true ∧ Avoids k a

/-- Whether an expression without equations can be written and read back. -/
def PrintableTerm (t : Expr α) : Prop := ∀ u ∈ t.walk, PrintableRoot u

/-- Whether an expression, or an equation of two, can be written and read back. -/
def Printable : Expr α → Prop
  | eq l r => PrintableTerm l ∧ PrintableTerm r
  | t => PrintableTerm t

theorem IsFunctionName.callable {f : String} (h : IsFunctionName f) :
    isCallable f = true ∧ functionName f = f := by
  have he : f ≠ "e" := by
    rintro rfl
    exact absurd h.long (by decide)
  refine ⟨?_, if_neg h.notLog⟩
  simp [isCallable, constants, h.long, h.notPi, he]

@[simp] theorem printableTerm_num {v : α} : PrintableTerm (num v) ↔ Decimal.Readable v := by
  simp [PrintableTerm, walk, PrintableRoot]

@[simp] theorem printableTerm_var {x : String} :
    PrintableTerm (var x : Expr α) ↔ isIdentifier x = true := by
  simp [PrintableTerm, walk, PrintableRoot]

@[simp] theorem printableTerm_wild {x : String} {k : WildcardKind} {avoids : Option String} :
    PrintableTerm (Expr.wild x k avoids : Expr α) ↔ isIdentifier x = true ∧ Avoids k avoids := by
  simp [PrintableTerm, walk, PrintableRoot]

@[simp] theorem printableTerm_eq {l r : Expr α} : ¬PrintableTerm (eq l r) :=
  fun h => h _ (self_mem_walk _)

@[simp] theorem printableTerm_op {o : Arithmetic} {l r : Expr α} :
    PrintableTerm (op o l r) ↔ PrintableTerm l ∧ PrintableTerm r := by
  simp only [PrintableTerm, walk, List.forall_mem_cons, List.forall_mem_append, PrintableRoot,
    true_and]

@[simp] theorem printableTerm_fn {f : String} {as : List (Expr α)} :
    PrintableTerm (fn f as) ↔ (IsFunctionName f ∧ as ≠ []) ∧ ∀ a ∈ as, PrintableTerm a := by
  simp only [PrintableTerm, walk, List.forall_mem_cons, PrintableRoot, mem_walkArgs]
  refine and_congr_right fun _ => ⟨fun h a ha u hu => h u ⟨a, ha, hu⟩, ?_⟩
  rintro h u ⟨a, ha, hu⟩
  exact h a ha u hu

theorem readsAs_call {wild : Bool} {f : String} {a : Expr α} {as : List (Expr α)} {s : String}
    {ss : List String} {m n : Nat} (hf : IsFunctionName f) (h : ReadsAs wild s m a)
    (hs : List.Forall₂ (fun s a => ∃ n, ReadsAs wild s n a) ss as) :
    ReadsAs wild (f ++ parens (", ".intercalate (s :: ss))) n (fn f (a :: as)) := by
  obtain ⟨ps, hcut, hread⟩ := h
  obtain ⟨pss, hcuts, hreads⟩ := readsAs_arguments hs
  refine ⟨_, (hcut.arguments hcuts).call hf.identifier, fun ts hts => ?_⟩
  obtain ⟨t, us, rfl, ht, hname, hus⟩ := words_cons hts
  obtain ⟨p, us, rfl, hp, -, hus⟩ := words_cons hus
  obtain ⟨inside, q, rs, rfl, hinside, hq, -, hrs⟩ := words_split hus
  obtain rfl := List.map_eq_nil_iff.mp hrs
  obtain ⟨ls, us, rfl, hls, hus⟩ := List.map_eq_append_iff.mp hinside
  obtain ⟨b, hb, hbeq⟩ := hread ls hls
  obtain ⟨bs, hbs, hbseq⟩ := hreads us hus
  obtain ⟨hcall, hfunction⟩ := hf.callable
  have hprimary := IsPrimary.call ht (by rw [hname, hcall]) hp hb.sum hbs hq
  rw [hname, hfunction] at hprimary
  refine ⟨fn f (b :: bs), binds_primary hprimary, ?_⟩
  change same _ _ = true
  rw [same, sameArgs, show same b a = true from hbeq, hbseq]
  simp

theorem negated?_eq_some {o : Arithmetic} {l r u : Expr α} (h : negated? (op o l r) = some u) :
    o = .mul ∧ r.isNum = false ∧ ∃ v, l = num v ∧ (v == Scalar.ofInt (-1)) = true := by
  unfold negated? at h
  split at h
  · rename_i v r' heq
    obtain ⟨rfl, rfl, rfl⟩ := op.inj heq
    split at h
    · rename_i hv
      cases r <;> simp_all [isNum]
    · exact absurd h (by simp)
  · exact absurd h (by simp)

end Printable

section Reading

variable {wild : Bool}

theorem readsAs_num [FaithfulScalar α] {v : α} (h : Decimal.Readable v) :
    ReadsAs wild (Decimal.text v) (num v).rank (num v) := by
  have hmagnitude {n : Nat} {w : α} (hw : ∀ u : α, (u == abs v) = true → (u == w) = true) :
      ReadsAs wild (Decimal.text (abs v)) n (num w) :=
    readsAs_numeral h.isDecimal (hw _ h.value)
  cases hlt : Scalar.lt v zero with
  | false =>
    rw [Decimal.text_of_nonneg h.finite hlt]
    exact hmagnitude fun u hu => beq_of_beq_abs h.finite hlt hu
  | true =>
    have hread : ReadsAs wild (Decimal.text (abs v)) 3 (num (abs v)) := hmagnitude fun _ hu => hu
    rw [Decimal.text_of_neg h.finite hlt, rank, if_pos hlt]
    apply hread.minus
    intro p hp
    cases p with
    | num u => exact neg_beq_of_beq_abs h.finite hlt hp
    | _ => exact absurd hp (by simp [BEq.beq, same])

theorem ReadsAs.negated [FaithfulScalar α] {r : Expr α} {v : α} {s : String}
    (hv : (v == Scalar.ofInt (-1)) = true) (hr : r.isNum = false) (h : ReadsAs wild s 3 r) :
    ReadsAs wild ("-" ++ s) 2 (op .mul (num v) r) := by
  apply h.minus
  intro p hp
  have hp' : negate p = op .mul (num (Scalar.ofInt (-1))) p := by
    cases p with
    | num u =>
      cases r with
      | num w => simp [isNum] at hr
      | _ => exact absurd hp (by simp [BEq.beq, same])
    | _ => rfl
  rw [hp']
  exact op_beq (beq_ofInt_neg_one hv) hp

theorem readsAs_negation [FaithfulScalar α] {r : Expr α} {v : α} {s : String}
    (hv : (v == Scalar.ofInt (-1)) = true) (hr : r.isNum = false) (h : ReadsAs wild s r.rank r) :
    ReadsAs wild (negationText r s) 2 (op .mul (num v) r) := by
  apply ReadsAs.negated hv hr
  apply h.parensIf
  intro hc
  simp only [Bool.or_eq_false_iff, decide_eq_false_iff_not, not_le] at hc
  exact hc.1

theorem readsAs_op [FaithfulScalar α] {o : Arithmetic} {l r : Expr α}
    (hl : ReadsAs wild l.text l.rank l) (hr : ReadsAs wild r.text r.rank r) :
    ReadsAs wild (op o l r).text o.rank (op o l r) := by
  rw [text]
  split
  · rename_i u h
    obtain ⟨rfl, hnum, v, rfl, hv⟩ := negated?_eq_some h
    exact readsAs_negation hv hnum hr
  · exact readsAs_operation hl hr

mutual

/-- What is printed is read back, and binds as tightly as its root. -/
theorem readsAs_text [FaithfulScalar α] : ∀ t : Expr α, PrintableTerm t →
    (∀ x ∈ t.wildcards, wild = true) → ReadsAs wild t.text t.rank t
  | num _, h, _ => readsAs_num (printableTerm_num.mp h)
  | var _, h, _ => readsAs_name (printableTerm_var.mp h)
  | op _ l r, h, hw => by
    obtain ⟨hl, hr⟩ := printableTerm_op.mp h
    exact readsAs_op (readsAs_text l hl fun x hx => hw x (by simp [hx]))
      (readsAs_text r hr fun x hx => hw x (by simp [hx]))
  | eq _ _, h, _ => (printableTerm_eq h).elim
  | .wild n _ _, h, hw => by
    obtain ⟨hn, ha⟩ := printableTerm_wild.mp h
    obtain rfl := hw n (by simp)
    exact readsAs_wildcard hn ha
  | fn _ [], h, _ => absurd rfl (printableTerm_fn.mp h).1.2
  | fn _ (a :: as), h, hw => by
    obtain ⟨⟨hf, -⟩, has⟩ := printableTerm_fn.mp h
    have hargs : ∀ b ∈ a :: as, ∀ x ∈ b.wildcards, wild = true :=
      fun b hb x hx => hw x ((mem_wildcards_fn ..).mpr ⟨b, hb, hx⟩)
    exact readsAs_call hf (readsAs_text a (has a (by simp)) (hargs a (by simp)))
      (readsAs_texts as (fun b hb => has b (by simp [hb])) fun b hb => hargs b (by simp [hb]))

theorem readsAs_texts [FaithfulScalar α] : ∀ as : List (Expr α), (∀ a ∈ as, PrintableTerm a) →
    (∀ a ∈ as, ∀ x ∈ a.wildcards, wild = true) →
    List.Forall₂ (fun s a => ∃ n, ReadsAs wild s n a) (texts as) as
  | [], _, _ => .nil
  | a :: as, h, hw =>
    .cons ⟨_, readsAs_text a (h a (by simp)) (hw a (by simp))⟩
      (readsAs_texts as (fun b hb => h b (by simp [hb])) fun b hb => hw b (by simp [hb]))

end

/-- The text of an expression or an equation is read back as a pattern, and without wildcards as an
expression. -/
theorem Printable.read_text [FaithfulScalar α] {t : Expr α} (h : Printable t) :
    (∃ p, ofPattern t.text = .ok p ∧ (p == t) = true) ∧
      (t.wildcards = [] → ∃ p, ofText t.text = .ok p ∧ (p == t) = true) := by
  have hread (wild : Bool) (hw : ∀ x ∈ t.wildcards, wild = true) :
      ∃ p, Expr.read wild t.text = .ok p ∧ (p == t) = true := by
    cases t with
    | eq l r =>
      exact (readsAs_text l h.1 fun x hx => hw x (by simp [hx])).read_eq
        (readsAs_text r h.2 fun x hx => hw x (by simp [hx]))
    | _ => exact (readsAs_text _ h hw).read
  exact ⟨hread true fun _ _ => rfl, fun hnone => hread false (by simp [hnone])⟩

/-- The equation `-2^x - (-3) = sin(y1/5)`. -/
def signedEquation : Expr Rat :=
  eq (op .sub (op .mul (num (-1)) (op .pow (num 2) (var "x"))) (num (-3)))
    (fn "sin" [op .div (var "y1") (num 5)])

theorem Printable.read_text_of_signs : Printable signedEquation ∧
    ofPattern signedEquation.text = .ok signedEquation ∧
    ofText signedEquation.text = .ok signedEquation := by
  have hnum (n : Int) (hn : n.natAbs < 10 ^ 16) : Decimal.Readable (n : Rat) :=
    Decimal.readable_of_toInt? rfl (Scalar.toInt?_intCast n) hn
  have hone : Decimal.Readable (-1 : Rat) := by simpa using hnum (-1) (by decide)
  have htwo : Decimal.Readable (2 : Rat) := by simpa using hnum 2 (by decide)
  have hthree : Decimal.Readable (-3 : Rat) := by simpa using hnum (-3) (by decide)
  have hfive : Decimal.Readable (5 : Rat) := by simpa using hnum 5 (by decide)
  have hsin : IsFunctionName "sin" := ⟨by decide, by decide, by decide, by decide⟩
  have hx : isIdentifier "x" = true := by decide
  have hy : isIdentifier "y1" = true := by decide
  have hprintable : Printable signedEquation := by
    simp [Printable, signedEquation, hone, htwo, hthree, hfive, hsin, hx, hy]
  obtain ⟨⟨p, hp, heq⟩, htext⟩ := hprintable.read_text
  obtain ⟨q, hq, hqeq⟩ := htext rfl
  exact ⟨hprintable, eq_of_beq heq ▸ hp, eq_of_beq hqeq ▸ hq⟩

end Reading

end RuleAlgebra.Expr
