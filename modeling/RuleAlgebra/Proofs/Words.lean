import RuleAlgebra.Proofs.Lexing

/-!
Texts that are put together from words: names, numbers and wildcards next to signs, and texts in
parentheses or joined by operators and commas.
-/

namespace RuleAlgebra

/-- What the parser looks at: the kind and the text of a token. -/
def Token.word (t : Token) : Token.Kind × String := (t.kind, t.text)

namespace Lexeme

open RuleAlgebra.Text

section Words

variable {wild : Bool} {cs : List Char} {ps qs : List (Token.Kind × String)} {s : String}

def Lexes (wild : Bool) (cs : List Char) (ps : List (Token.Kind × String)) : Prop :=
  ∀ position, ∃ stream, scan wild 0 position cs = .ok stream ∧ stream.tokens.map Token.word = ps

theorem Lexes.nil : Lexes wild [] [] := fun position => ⟨⟨[], position⟩, rfl, rfl⟩

theorem scan_skip (ws : List Char) (position : Nat) :
    scan wild ws.length position (ws ++ cs) = scan wild 0 (position + ws.length) cs := by
  induction ws generalizing position with
  | nil => rfl
  | cons w ws ih =>
    rw [List.length_cons, List.cons_append, scan, ih]
    congr 1
    omega

theorem Lexes.space (h : Lexes wild cs ps) (hcs : ∀ c ∈ cs.head?, isBlank c = false) :
    Lexes wild (' ' :: cs) ps := by
  intro position
  obtain ⟨stream, hscan, hwords⟩ := h (position + 1)
  exact ⟨stream, by simp only [scan, first?_space hcs, hscan], hwords⟩

theorem Lexes.word {kind : Token.Kind} (hpos : 0 < s.length) (hstars : s ≠ "**")
    (hfirst : first? wild (s.toList ++ cs) = some (some kind, s.length)) (h : Lexes wild cs ps) :
    Lexes wild (s.toList ++ cs) ((kind, s) :: ps) := by
  intro position
  obtain ⟨c, ws, hs⟩ := List.exists_cons_of_length_pos (by rwa [String.length_toList])
  have hlen : s.length = ws.length + 1 := by rw [← String.length_toList, hs, List.length_cons]
  obtain ⟨stream, hscan, hwords⟩ := h (position + 1 + ws.length)
  have htake : String.ofList ((c :: (ws ++ cs)).take s.length) = s := by
    rw [← List.cons_append, ← hs, ← String.length_toList, List.take_left, String.ofList_toList]
  rw [hs, List.cons_append] at hfirst ⊢
  refine ⟨⟨⟨kind, s, position⟩ :: stream.tokens, stream.ending⟩, ?_, by simp [Token.word, hwords]⟩
  simp only [scan, hfirst, htake, if_neg hstars]
  rw [hlen, Nat.add_sub_cancel, scan_skip, hscan]
  rfl

def StartsWord (s : String) : Prop := ∃ c cs, s.toList = c :: cs ∧ isBlank c = false ∧ c ≠ '*'

theorem StartsWord.append (h : StartsWord s) (r : String) : StartsWord (s ++ r) := by
  obtain ⟨c, cs, hs, hc⟩ := h
  exact ⟨c, cs ++ r.toList, by rw [String.toList_append, hs, List.cons_append], hc⟩

theorem startsWord_identifier (hs : isIdentifier s = true) : StartsWord s := by
  obtain ⟨c, cs, h, hc, -⟩ := isIdentifier_iff.mp hs
  refine ⟨c, cs, h, (isNameChar_class (isNameChar_of_isNameStart hc)).1, ?_⟩
  rintro rfl
  exact absurd hc (by decide)

/-- A text that is cut into words whatever delimiter follows it. -/
structure CutsInto (wild : Bool) (s : String) (ps : List (Token.Kind × String)) : Prop where
  starts : StartsWord s
  lexes : ∀ {cs qs}, Delimited cs → Lexes wild cs qs → Lexes wild (s.toList ++ cs) (ps ++ qs)

theorem CutsInto.head (h : CutsInto wild s ps) :
    ∀ c ∈ (s.toList ++ cs).head?, isBlank c = false ∧ c ≠ '*' := by
  obtain ⟨c, ds, hs, hc⟩ := h.starts
  simpa [hs] using hc

theorem cutsInto_number (hs : Numeral.isDecimal s.toList = true) :
    CutsInto wild s [(.number, s)] where
  starts := by
    simp only [Numeral.isDecimal, Bool.and_eq_true, beq_iff_eq, Bool.not_eq_true',
      List.isEmpty_eq_false_iff] at hs
    obtain ⟨c, cs, hc⟩ := List.exists_cons_of_ne_nil hs.2
    refine ⟨c, cs, hc, ?_⟩
    by_cases hd : isDigit c = true
    · refine ⟨isBlank_of_isDigit hd, ?_⟩
      rintro rfl
      exact absurd hd (by decide)
    · have hpoint : c = '.' := by
        by_contra hne
        rw [hc, numeralLength_eq_zero (by simpa using hd) hne] at hs
        simp at hs
      subst hpoint
      exact ⟨by decide, by decide⟩
  lexes hcs h := by
    have hstars : s ≠ "**" := by
      rintro rfl
      exact absurd hs (by decide)
    have hpos : 0 < s.length := by
      simp only [Numeral.isDecimal, Bool.and_eq_true, Bool.not_eq_true',
        List.isEmpty_eq_false_iff] at hs
      rw [← String.length_toList]
      exact List.length_pos_iff.mpr hs.2
    exact h.word hpos hstars (first?_number hs hcs)

theorem Lexes.name (hs : isIdentifier s = true) (hcs : ∀ c ∈ cs.head?, isNameChar c = false)
    (h : Lexes wild cs ps) : Lexes wild (s.toList ++ cs) ((.name, s) :: ps) := by
  have hstars : s ≠ "**" := by
    rintro rfl
    exact absurd hs (by decide)
  exact h.word (isIdentifier_length_pos hs) hstars (first?_name hs hcs)

theorem cutsInto_name (hs : isIdentifier s = true) : CutsInto wild s [(.name, s)] where
  starts := startsWord_identifier hs
  lexes hcs h := h.name hs hcs.noNameChar

theorem cutsInto_wildcard {n : String} {k : WildcardKind} {a : Option String}
    (hn : isIdentifier n = true) (ha : Avoids k a) :
    CutsInto true (Expr.wildText n k a) [(.wildcard, Expr.wildText n k a)] := by
  have hchars : (Expr.wildText n k a).toList = '?' :: (n.toList ++ (kindText k a).toList) := by
    simp [wildText_eq]
  refine ⟨⟨'?', _, hchars, by decide, by decide⟩, fun hcs h => ?_⟩
  have hpos : 0 < (Expr.wildText n k a).length := by rw [← String.length_toList, hchars]; simp
  have hstars : Expr.wildText n k a ≠ "**" := by
    intro heq
    rw [heq] at hchars
    simp at hchars
  exact h.word hpos hstars (first?_wildcard hn ha hcs)

theorem Lexes.sign (c : Char) (kind : Token.Kind) (hc : c ∈ signs)
    (hsign : sign? (c :: cs) = some (kind, 1)) (h : Lexes wild cs ps) :
    Lexes wild (c :: cs) ((kind, String.singleton c) :: ps) := by
  have hstars : String.singleton c ≠ "**" := by
    intro heq
    have := congrArg String.toList heq
    simp at this
  have hfirst : first? wild (c :: cs) = some (some kind, 1) := first?_sign hc hsign
  have hword : Lexes wild ((String.singleton c).toList ++ cs) ((kind, String.singleton c) :: ps) :=
    h.word (by simp) hstars (by simpa using hfirst)
  simpa using hword

theorem CutsInto.parens (h : CutsInto wild s ps) :
    CutsInto wild (Expr.parens s) ((.leftParen, "(") :: (ps ++ [(.rightParen, ")")])) where
  starts := ⟨'(', _, by simp [Expr.parens]; rfl, by decide, by decide⟩
  lexes hcs hq := by
    have hclose := hq.sign ')' .rightParen (by decide) (by simp [sign?])
    have hall := (h.lexes (.cons (by decide)) hclose).sign '(' .leftParen
      (by decide) (by simp [sign?])
    simpa [Expr.parens] using hall

theorem CutsInto.minus (h : CutsInto wild s ps) :
    CutsInto wild ("-" ++ s) ((.operator, "-") :: ps) where
  starts := ⟨'-', s.toList, by simp, by decide, by decide⟩
  lexes hcs hq := by
    have hall := (h.lexes hcs hq).sign '-' .operator (by decide) (by simp [sign?])
    simpa using hall

variable {l r : String} {qs : List (Token.Kind × String)}

/-- Operators without blanks around them; two stars would be one. -/
theorem CutsInto.tight (c : Char) (hl : CutsInto wild l ps) (hr : CutsInto wild r qs)
    (hc : c = '*' ∨ c = '/' ∨ c = '^') :
    CutsInto wild (l ++ String.singleton c ++ r)
      (ps ++ (.operator, String.singleton c) :: qs) where
  starts := (hl.starts.append _).append _
  lexes {cs rs} hcs hrs := by
    have hstar : ∀ d ∈ (r.toList ++ cs).head?, d ≠ '*' := fun d hd => (hr.head d hd).2
    have hsign : sign? (c :: (r.toList ++ cs)) = some (.operator, 1) := by
      generalize r.toList ++ cs = rest at hstar
      rcases hc with rfl | rfl | rfl
      · cases rest with
        | nil => simp [sign?]
        | cons d rest =>
          have := hstar d rfl
          simp [sign?, this]
      · simp [sign?]
      · simp [sign?]
    have hdelim : c ∈ delimiters := by rcases hc with rfl | rfl | rfl <;> decide
    have hright := (hr.lexes hcs hrs).sign c .operator
      (List.mem_cons_of_mem _ (by simp [hdelim])) hsign
    simpa using hl.lexes (.cons hdelim) hright

theorem CutsInto.spaced (c : Char) (kind : Token.Kind) (hl : CutsInto wild l ps)
    (hr : CutsInto wild r qs) (hc : c ∈ signs)
    (hsign : ∀ cs, sign? (c :: ' ' :: cs) = some (kind, 1)) (hblank : isBlank c = false) :
    CutsInto wild (l ++ " " ++ String.singleton c ++ " " ++ r)
      (ps ++ (kind, String.singleton c) :: qs) where
  starts := (((hl.starts.append _).append _).append _).append _
  lexes {cs rs} hcs hrs := by
    have hright := (hr.lexes hcs hrs).space fun d hd => (hr.head d hd).1
    have hmiddle := (hright.sign c kind hc (hsign _)).space fun d hd => Option.some.inj hd ▸ hblank
    simpa using hl.lexes (.cons (by decide)) hmiddle

def argumentWords : List (List (Token.Kind × String)) → List (Token.Kind × String)
  | [] => []
  | ps :: pss => (.comma, ",") :: (ps ++ argumentWords pss)

theorem CutsInto.arguments {ss : List String} {pss : List (List (Token.Kind × String))}
    (h : CutsInto wild s ps) (hs : List.Forall₂ (CutsInto wild) ss pss) :
    CutsInto wild (", ".intercalate (s :: ss)) (ps ++ argumentWords pss) := by
  induction hs generalizing s ps with
  | nil => simpa [argumentWords] using h
  | cons hr hs ih =>
    rename_i r qs ss pss
    refine ⟨?_, fun {cs rs} hcs hrs => ?_⟩
    · have hcons : ", ".intercalate (s :: r :: ss) = s ++ (", " ++ ", ".intercalate (r :: ss)) := by
        simp [← String.toList_inj, String.toList_intercalate]
      rw [hcons]
      exact h.starts.append _
    · have hrest := ((ih hr).lexes hcs hrs).space fun d hd => ((ih hr).head d hd).1
      have hcomma := hrest.sign ',' .comma (by decide) (by simp [sign?])
      have hall := h.lexes (.cons (by decide)) hcomma
      simpa [argumentWords, String.toList_intercalate, List.intercalate_cons_cons] using hall

theorem CutsInto.call {f : String} (hf : isIdentifier f = true) (h : CutsInto wild s ps) :
    CutsInto wild (f ++ Expr.parens s)
      ((.name, f) :: (.leftParen, "(") :: (ps ++ [(.rightParen, ")")])) where
  starts := (startsWord_identifier hf).append _
  lexes hcs hq := by
    have hparens := h.parens.lexes hcs hq
    have hname := hparens.name hf (by simp [Expr.parens]; decide)
    simpa using hname

end Words

end Lexeme

end RuleAlgebra
