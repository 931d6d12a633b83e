import RuleAlgebra.Proofs.Lexemes

/-!
The lexemes of a text, one language for each kind of token and one for white space. The first lexeme
of a text is the longest word of any of them that the text starts with.
-/

namespace RuleAlgebra.Lexeme

open RuleAlgebra.Text

def isOperatorSign (c : Char) : Bool := ['+', '-', '*', '/', '^'].contains c

/-- The lexemes of a kind; those of no kind are white space. Wildcards are lexemes of patterns
only. -/
def language (wild : Bool) : Option Token.Kind → Language Char
  | some .number => number
  | some .wildcard => if wild then wildcard else 0
  | some .name => name
  | some .operator => word "**" + single isOperatorSign
  | some .equals => letter '='
  | some .comma => letter ','
  | some .leftParen => letter '('
  | some .rightParen => letter ')'
  | none => single isBlank * run isBlank

/-- A text starts with the lexeme, and with no longer one of any kind. -/
structure IsLexeme (wild : Bool) (kind : Option Token.Kind) (w cs : List Char) : Prop where
  mem : w ∈ language wild kind
  start : w <+: cs
  longest : ∀ kind', ∀ v ∈ language wild kind', v <+: cs → v.length ≤ w.length

section Kinds

variable {wild : Bool} {kind : Option Token.Kind} {cs : List Char} {n : Nat}

def leads (c : Char) : Option Token.Kind :=
  if isDigit c || c == '.' then some .number
  else if c == '?' || c == ':' then some .wildcard
  else if isNameStart c then some .name
  else if isOperatorSign c then some .operator
  else if c == '=' then some .equals
  else if c == ',' then some .comma
  else if c == '(' then some .leftParen
  else if c == ')' then some .rightParen
  else none

theorem leads_of_isNameStart {c : Char} (h : isNameStart c = true) : leads c = some .name := by
  have hne (d : Char) (hd : isNameStart d = false) : (c == d) = false := by
    rw [beq_eq_false_iff_ne]
    rintro rfl
    simp [h] at hd
  simp [leads, isDigit_of_isNameStart h, h, hne '.' (by decide), hne '?' (by decide),
    hne ':' (by decide)]

theorem leads_of_isOperatorSign {c : Char} (h : isOperatorSign c = true) :
    leads c = some .operator := by
  simp only [isOperatorSign, List.contains_eq_mem, List.mem_cons, List.not_mem_nil, or_false,
    decide_eq_true_eq] at h
  rcases h with rfl | rfl | rfl | rfl | rfl <;> decide

theorem leads_of_isBlank {c : Char} (h : isBlank c = true) : leads c = none := by
  have hdigit : isDigit c = false := by
    by_contra hd
    simp [isBlank_of_isDigit (Bool.not_eq_false _ ▸ hd)] at h
  have hname : isNameStart c = false := by
    by_contra hn
    simp [(isNameChar_class (isNameChar_of_isNameStart (Bool.not_eq_false _ ▸ hn))).1] at h
  have hne (d : Char) (hd : isBlank d = false) : c ≠ d := by
    rintro rfl
    simp [h] at hd
  have hmarks : ['.', '?', ':', '+', '-', '*', '/', '^', '=', ',', '(', ')'].all
      (fun d => !isBlank d) = true := by decide
  simp only [List.all_cons, List.all_nil, Bool.and_eq_true, Bool.not_eq_true'] at hmarks
  simp [leads, hdigit, hname, isOperatorSign, hne, hmarks]

theorem starts_language {c : Char} (h : Starts (language wild kind) c) : leads c = kind := by
  cases kind with
  | none =>
    exact leads_of_isBlank (starts_single.mp (h.of_mul_left nil_notMem_single))
  | some kind =>
    cases kind with
    | number => rcases starts_number h with h | rfl <;> simp [leads, *]
    | name => exact leads_of_isNameStart (starts_name h)
    | wildcard =>
      cases wild with
      | false => exact absurd h (by simp [Starts, language])
      | true => rcases starts_wildcard h with rfl | rfl <;> decide
    | operator =>
      apply leads_of_isOperatorSign
      rcases starts_add.mp h with h | h
      · obtain rfl : '*' = c := by simpa using starts_word.mp h
        decide
      · exact starts_single.mp h
    | equals => obtain rfl := starts_letter.mp h; decide
    | comma => obtain rfl := starts_letter.mp h; decide
    | leftParen => obtain rfl := starts_letter.mp h; decide
    | rightParen => obtain rfl := starts_letter.mp h; decide

def letterLength (c : Char) (cs : List Char) : Nat := if cs.head? = some c then 1 else 0

/-- The length of the lexeme of a kind that a text starts with, zero if there is none. -/
def extent (wild : Bool) : Option Token.Kind → List Char → Nat
  | some .number, cs => Numeral.length cs
  | some .wildcard, cs => if wild then wildcardLength cs else 0
  | some .name, cs => nameLength cs
  | some .operator, cs =>
    max (if "**".toList.isPrefixOf cs then 2 else 0) (if cs.head?.any isOperatorSign then 1 else 0)
  | some .equals, cs => letterLength '=' cs
  | some .comma, cs => letterLength ',' cs
  | some .leftParen, cs => letterLength '(' cs
  | some .rightParen, cs => letterLength ')' cs
  | none, cs => (cs.takeWhile isBlank).length

theorem reads_language : Reads (language wild kind) cs (extent wild kind cs) := by
  cases kind with
  | none => exact reads_digits
  | some kind =>
    cases kind with
    | number => exact reads_number
    | wildcard =>
      cases wild with
      | false => exact (reads_zero_iff (Language.notMem_zero _)).mpr (by simp [lengths])
      | true => exact reads_wildcard
    | name => exact reads_name
    | operator => exact (reads_word (by decide)).add reads_single
    | equals => exact reads_letter
    | comma => exact reads_letter
    | leftParen => exact reads_letter
    | rightParen => exact reads_letter

theorem extent_of_sign {k : Token.Kind} (h : sign? cs = some (k, n)) :
    extent wild (some k) cs = n ∧ 0 < n := by
  unfold sign? at h
  split at h
  · obtain ⟨rfl, rfl⟩ := Prod.mk.inj (Option.some.inj h)
    simp [extent, isOperatorSign]
  · rename_i c rest hstars
    have hstart : "**".toList.isPrefixOf (c :: rest) = false := by
      rw [Bool.eq_false_iff, ne_eq, List.isPrefixOf_iff_prefix]
      rintro ⟨tail, htail⟩
      obtain ⟨hc, hrest⟩ := List.cons.inj htail
      exact hstars tail hc.symm hrest.symm
    split_ifs at h with hsign heq hcomma hleft hright
    · obtain ⟨rfl, rfl⟩ := Prod.mk.inj (Option.some.inj h)
      have hany : isOperatorSign c = true := by simpa [isOperatorSign] using hsign
      simp only [extent, hstart, List.head?_cons, Option.any_some, hany]
      decide
    · obtain ⟨rfl, rfl⟩ := Prod.mk.inj (Option.some.inj h)
      simp [extent, letterLength, heq]
    · obtain ⟨rfl, rfl⟩ := Prod.mk.inj (Option.some.inj h)
      simp [extent, letterLength, hcomma]
    · obtain ⟨rfl, rfl⟩ := Prod.mk.inj (Option.some.inj h)
      simp [extent, letterLength, hleft]
    · obtain ⟨rfl, rfl⟩ := Prod.mk.inj (Option.some.inj h)
      simp [extent, letterLength, hright]
  · exact absurd h (by simp)

theorem not_sign {c : Char} (h : sign? (c :: cs) = none) :
    isOperatorSign c = false ∧ c ≠ '=' ∧ c ≠ ',' ∧ c ≠ '(' ∧ c ≠ ')' := by
  unfold sign? at h
  split at h
  · exact absurd h (by simp)
  · rename_i d rest hstars hcons
    obtain ⟨rfl, rfl⟩ := List.cons.inj hcons
    split_ifs at h with hsign heq hcomma hleft hright
    refine ⟨?_, heq, hcomma, hleft, hright⟩
    simpa [isOperatorSign] using hsign
  · simp_all

theorem first?_eq : first? wild cs =
    if 0 < extent wild (some .number) cs then some (some .number, extent wild (some .number) cs)
    else if 0 < extent wild (some .wildcard) cs then
      some (some .wildcard, extent wild (some .wildcard) cs)
    else if 0 < extent wild (some .name) cs then some (some .name, extent wild (some .name) cs)
    else match sign? cs with
      | some (k, m) => some (some k, m)
      | none => if 0 < extent wild none cs then some (none, extent wild none cs) else none := rfl

theorem extent_of_first? (h : first? wild cs = some (kind, n)) :
    extent wild kind cs = n ∧ 0 < n := by
  rw [first?_eq] at h
  by_cases hnumber : 0 < extent wild (some .number) cs
  · rw [if_pos hnumber] at h
    obtain ⟨rfl, rfl⟩ := Prod.mk.inj (Option.some.inj h)
    exact ⟨rfl, hnumber⟩
  rw [if_neg hnumber] at h
  by_cases hwildcard : 0 < extent wild (some .wildcard) cs
  · rw [if_pos hwildcard] at h
    obtain ⟨rfl, rfl⟩ := Prod.mk.inj (Option.some.inj h)
    exact ⟨rfl, hwildcard⟩
  rw [if_neg hwildcard] at h
  by_cases hname : 0 < extent wild (some .name) cs
  · rw [if_pos hname] at h
    obtain ⟨rfl, rfl⟩ := Prod.mk.inj (Option.some.inj h)
    exact ⟨rfl, hname⟩
  rw [if_neg hname] at h
  split at h
  · rename_i hsign
    obtain ⟨rfl, rfl⟩ := Prod.mk.inj (Option.some.inj h)
    exact extent_of_sign hsign
  · split_ifs at h with hblank
    obtain ⟨rfl, rfl⟩ := Prod.mk.inj (Option.some.inj h)
    exact ⟨rfl, hblank⟩

theorem first?_eq_none (h : first? wild cs = none) :
    ¬0 < extent wild (some .number) cs ∧ ¬0 < extent wild (some .wildcard) cs ∧
      ¬0 < extent wild (some .name) cs ∧ sign? cs = none ∧ ¬0 < extent wild none cs := by
  rw [first?_eq] at h
  cases hsign : sign? cs with
  | some found =>
    simp only [hsign] at h
    split_ifs at h
  | none =>
    simp only [hsign] at h
    split_ifs at h with hnumber hwildcard hname hblank
    exact ⟨hnumber, hwildcard, hname, rfl, hblank⟩

theorem extent_of_first?_none {c : Char} (h : first? wild (c :: cs) = none) :
    extent wild kind (c :: cs) = 0 := by
  obtain ⟨hnumber, hwildcard, hname, hsign, hblank⟩ := first?_eq_none h
  obtain ⟨hoperator, heq, hcomma, hleft, hright⟩ := not_sign hsign
  have hstars : c ≠ '*' := by
    rintro rfl
    simp [isOperatorSign] at hoperator
  cases kind with
  | none => exact Nat.eq_zero_of_not_pos hblank
  | some kind =>
    cases kind with
    | number => exact Nat.eq_zero_of_not_pos hnumber
    | wildcard => exact Nat.eq_zero_of_not_pos hwildcard
    | name => exact Nat.eq_zero_of_not_pos hname
    | operator => simp [extent, hoperator, hstars.symm]
    | equals => simp [extent, letterLength, heq]
    | comma => simp [extent, letterLength, hcomma]
    | leftParen => simp [extent, letterLength, hleft]
    | rightParen => simp [extent, letterLength, hright]

theorem nil_notMem_language : [] ∉ language wild kind := by
  cases kind with
  | none => exact nil_notMem_mul (Or.inl nil_notMem_single)
  | some kind =>
    cases kind with
    | number => exact nil_notMem_number
    | wildcard =>
      cases wild with
      | false => exact Language.notMem_zero _
      | true => exact nil_notMem_wildcard
    | name => exact nil_notMem_name
    | operator =>
      rw [language, Language.mem_add, not_or]
      exact ⟨nil_notMem_word (by decide), nil_notMem_single⟩
    | equals => exact nil_notMem_letter
    | comma => exact nil_notMem_letter
    | leftParen => exact nil_notMem_letter
    | rightParen => exact nil_notMem_letter

theorem isLexeme_of_first? (h : first? wild cs = some (kind, n)) :
    IsLexeme wild kind (cs.take n) cs ∧ 0 < n ∧ n ≤ cs.length := by
  obtain ⟨hn, hpos⟩ := extent_of_first? h
  have hreads : Reads (language wild kind) cs (extent wild kind cs) := reads_language
  rw [hn] at hreads
  obtain ⟨⟨hle, hmem⟩, hmax⟩ := (reads_pos_iff hpos).mp hreads
  refine ⟨⟨hmem, List.take_prefix n cs, ?_⟩, hpos, hle⟩
  intro kind' v hv hstart
  rw [List.length_take, Nat.min_eq_left hle]
  have hlength := length_mem_lengths hv hstart
  cases v with
  | nil => exact Nat.zero_le n
  | cons c v =>
    obtain ⟨rest, rfl⟩ := hstart
    -- a word of another kind does not start with the same character
    have hstarts : Starts (language wild kind) c := starts_of_mem_lengths ⟨hle, hmem⟩ hpos
    have hstarts' : Starts (language wild kind') c := ⟨v, hv⟩
    rw [← starts_language hstarts', starts_language hstarts] at hlength
    exact hmax hlength

theorem no_lexeme_of_first? {c : Char} (h : first? wild (c :: cs) = none) :
    ∀ kind, ∀ w ∈ language wild kind, ¬w <+: c :: cs := by
  intro kind w hw hstart
  have hreads : Reads (language wild kind) (c :: cs) (extent wild kind (c :: cs)) := reads_language
  rw [extent_of_first?_none h, reads_zero_iff nil_notMem_language] at hreads
  exact Set.notMem_empty _ (hreads ▸ length_mem_lengths hw hstart)

theorem IsLexeme.length_pos {w : List Char} (h : IsLexeme wild kind w cs) : 0 < w.length := by
  cases w with
  | nil => exact absurd h.mem nil_notMem_language
  | cons c w => simp

theorem IsLexeme.starts {c : Char} {w : List Char} (h : IsLexeme wild kind w (c :: cs)) :
    leads c = kind := by
  obtain ⟨rest, hrest⟩ := h.start
  cases w with
  | nil => exact absurd h.mem nil_notMem_language
  | cons d w =>
    obtain ⟨rfl, -⟩ := List.cons.inj hrest
    exact starts_language ⟨w, h.mem⟩

theorem first?_of_isLexeme {w : List Char} (h : IsLexeme wild kind w cs) :
    first? wild cs = some (kind, w.length) := by
  obtain ⟨rest, rfl⟩ := h.start
  cases w with
  | nil => exact absurd h.mem nil_notMem_language
  | cons c w =>
    cases hfirst : first? wild (c :: w ++ rest) with
    | none => exact absurd h.start (no_lexeme_of_first? hfirst kind _ h.mem)
    | some found =>
      obtain ⟨kind', n⟩ := found
      obtain ⟨hlexeme, -, hle⟩ := isLexeme_of_first? hfirst
      obtain rfl : kind' = kind := hlexeme.starts.symm.trans h.starts
      have hlength := hlexeme.longest kind' _ h.mem h.start
      have hlength' := h.longest kind' _ hlexeme.mem hlexeme.start
      rw [List.length_take, Nat.min_eq_left hle] at hlength hlength'
      rw [Nat.le_antisymm hlength' hlength]

theorem IsLexeme.of_prefix {cs' w : List Char} (h : IsLexeme wild kind w cs) (hcs : cs' <+: cs)
    (hw : w <+: cs') : IsLexeme wild kind w cs' :=
  ⟨h.mem, hw, fun kind' v hv hstart => h.longest kind' v hv (hstart.trans hcs)⟩

end Kinds

end RuleAlgebra.Lexeme
