import RuleAlgebra.Proofs.Lexing
import RuleAlgebra.Proofs.LongestMatches

/-!
The languages of numbers, names and wildcards. The length that is read of each is the length of the
longest word of the language that a text starts with.
-/

namespace RuleAlgebra.Lexeme

open RuleAlgebra.Text

def isExponentMark (c : Char) : Bool := c == 'e' || c == 'E'

def isSign (c : Char) : Bool := c == '+' || c == '-'

def exponent : Language Char :=
  single isExponentMark * ((1 + single isSign) * (single isDigit * run isDigit))

/-- Digits with an optional point and more digits, or a point and digits; an exponent may follow. -/
def number : Language Char :=
  single isDigit * run isDigit * ((1 + letter '.') * (run isDigit * (1 + exponent))) +
    letter '.' * (single isDigit * run isDigit * (1 + exponent))

def name : Language Char := single isNameStart * run isNameChar

def free : Language Char :=
  word "free(" * (run isBlank * (name * (run isBlank * letter ')')))

def kindName : Language Char := word "const" + word "var" + word "expr" + free

def wildcard : Language Char :=
  letter '?' * (name * (1 + letter ':' * kindName)) + letter ':' * name

section Numbers

variable {cs : List Char}

theorem nil_notMem_digits : [] ∉ single isDigit * run isDigit :=
  nil_notMem_mul (Or.inl nil_notMem_single)

theorem nil_notMem_exponent : [] ∉ exponent := nil_notMem_mul (Or.inl nil_notMem_single)

theorem run_mul_run (p : Char → Bool) : run p * run p = run p := by
  ext w
  simp only [Language.mem_mul, mem_run]
  constructor
  · rintro ⟨a, ha, b, hb, rfl⟩ c hc
    exact (List.mem_append.mp hc).elim (ha c) (hb c)
  · intro hw
    exact ⟨w, hw, [], by simp, by simp⟩

theorem number_eq : number =
    single isDigit * run isDigit * ((1 + letter '.' * run isDigit) * (1 + exponent)) +
      letter '.' * (single isDigit * run isDigit * (1 + exponent)) := by
  have habsorb (X : Language Char) : run isDigit * (run isDigit * X) = run isDigit * X := by
    rw [← mul_assoc, run_mul_run]
  simp only [number, add_mul, mul_add, one_mul, mul_one, mul_assoc, habsorb, run_mul_run]

theorem starts_exponent {c : Char} (h : Starts exponent c) : isExponentMark c = true :=
  starts_single.mp (h.of_mul_left nil_notMem_single)

theorem isDigit_point : isDigit '.' = false := by decide

theorem not_isDigit_of_mark {c : Char} (h : isExponentMark c = true) : isDigit c = false := by
  simp only [isExponentMark, Bool.or_eq_true, beq_iff_eq] at h
  rcases h with rfl | rfl <;> decide

theorem not_isDigit_of_sign {c : Char} (h : isSign c = true) : isDigit c = false := by
  simp only [isSign, Bool.or_eq_true, beq_iff_eq] at h
  rcases h with rfl | rfl <;> decide

def signLength (cs : List Char) : Nat := if cs.head?.any isSign then 1 else 0

theorem exponentLength_cons (c : Char) (rest : List Char) :
    Numeral.exponentLength (c :: rest) =
      if isExponentMark c = true then
        if ((rest.drop (signLength rest)).takeWhile isDigit).length = 0 then 0
        else 1 + (signLength rest + ((rest.drop (signLength rest)).takeWhile isDigit).length)
      else 0 := by
  cases rest with
  | nil => simp [Numeral.exponentLength]
  | cons d rest =>
    simp [Numeral.exponentLength, signLength, isSign, isExponentMark, Nat.add_assoc]

theorem greatest_sign :
    IsGreatest (lengths (1 + single isSign) cs) (signLength cs) := reads_single

/-- A sign is never left for the digits after it. -/
theorem rests_sign :
    Rests (1 + single isSign) (single isDigit * run isDigit) cs (signLength cs) := by
  intro i _ hlt j hj
  by_cases hany : cs.head?.any isSign = true
  · rw [signLength, if_pos hany] at hlt
    obtain rfl : i = 0 := by omega
    apply eq_zero_of_mem_lengths _ hj
    intro d hd hstarts
    have hdigit := starts_single.mp (hstarts.of_mul_left nil_notMem_single)
    rw [List.drop_zero] at hd
    rw [hd] at hany
    simp [not_isDigit_of_sign hany] at hdigit
  · rw [signLength, if_neg hany] at hlt
    omega

theorem reads_exponent : Reads exponent cs (Numeral.exponentLength cs) := by
  cases cs with
  | nil =>
    apply (reads_zero_iff nil_notMem_exponent).mpr
    exact lengths_eq_empty nil_notMem_exponent (by simp)
  | cons c rest =>
    rw [exponentLength_cons]
    by_cases hc : isExponentMark c = true
    · have hmark : IsGreatest (lengths (single isExponentMark) (c :: rest)) 1 := greatest_single hc
      have htail := Reads.after greatest_sign reads_digits nil_notMem_digits
        (rests_sign : Rests _ _ rest _)
      have h : Reads exponent (c :: rest) _ :=
        Reads.after hmark htail (nil_notMem_mul (Or.inr nil_notMem_digits)) rests_single
      rw [if_pos hc]
      split_ifs with hd
      · simpa [hd] using h
      · simpa [hd] using h
    · rw [if_neg hc]
      apply (reads_zero_iff nil_notMem_exponent).mpr
      apply lengths_eq_empty nil_notMem_exponent
      rintro d hd hstarts
      obtain rfl : c = d := by simpa using hd
      exact hc (starts_exponent hstarts)

def fractionLength : List Char → Nat
  | '.' :: cs => 1 + (cs.takeWhile isDigit).length
  | _ => 0

theorem fractionLength_of_ne (h : cs.head? ≠ some '.') : fractionLength cs = 0 := by
  unfold fractionLength
  split
  · exact absurd rfl h
  · rfl

theorem starts_point {c : Char} {M : Language Char} (h : Starts (letter '.' * M) c) : c = '.' :=
  starts_letter.mp (h.of_mul_left nil_notMem_letter)

theorem greatest_fraction :
    IsGreatest (lengths (1 + letter '.' * run isDigit) cs) (fractionLength cs) := by
  by_cases hcs : cs.head? = some '.'
  · obtain ⟨rest, rfl⟩ := List.head?_eq_some_iff.mp hcs
    apply (reads_pos_iff (by simp [fractionLength])).mpr
    exact greatest_mul greatest_letter greatest_run rests_letter
  · rw [fractionLength_of_ne hcs]
    exact reads_letter_mul_ne hcs

theorem greatest_tail : IsGreatest
    (lengths ((1 + letter '.' * run isDigit) * (1 + exponent)) cs)
    (fractionLength cs + Numeral.exponentLength (cs.drop (fractionLength cs))) := by
  apply greatest_mul greatest_fraction reads_exponent
  intro i _ hlt j hj
  apply eq_zero_of_mem_lengths _ hj
  intro c hc hstarts
  have hmark := starts_exponent ((starts_add.mp hstarts).resolve_left starts_one)
  -- before the end of the fraction there is the point or a digit
  by_cases hcs : cs.head? = some '.'
  · obtain ⟨rest, rfl⟩ := List.head?_eq_some_iff.mp hcs
    cases i with
    | zero =>
      obtain rfl : '.' = c := by simpa using hc
      exact absurd hmark (by decide)
    | succ i =>
      have hi : i < (rest.takeWhile isDigit).length := by
        rw [fractionLength] at hlt
        omega
      obtain ⟨d, hd, hdigit⟩ := head_drop_of_lt hi
      rw [List.drop_succ_cons, hd] at hc
      obtain rfl := Option.some.inj hc
      simp [not_isDigit_of_mark hmark] at hdigit
  · rw [fractionLength_of_ne hcs] at hlt
    omega

theorem starts_tail {c : Char} (h : Starts ((1 + letter '.' * run isDigit) * (1 + exponent)) c) :
    isDigit c = false := by
  rcases h.of_mul with h | ⟨-, h⟩
  · obtain rfl := starts_point ((starts_add.mp h).resolve_left starts_one)
    exact isDigit_point
  · exact not_isDigit_of_mark (starts_exponent ((starts_add.mp h).resolve_left starts_one))

theorem numeralLength_of_digits (h : (cs.takeWhile isDigit).length ≠ 0) :
    Numeral.length cs = (cs.takeWhile isDigit).length +
      (fractionLength (cs.drop (cs.takeWhile isDigit).length) +
        Numeral.exponentLength ((cs.drop (cs.takeWhile isDigit).length).drop
          (fractionLength (cs.drop (cs.takeWhile isDigit).length)))) := by
  generalize hwhole : (cs.takeWhile isDigit).length = whole at h ⊢
  simp only [Numeral.length, hwhole, List.drop_drop]
  generalize cs.drop whole = rest
  unfold fractionLength
  split
  · simp [h, Nat.add_assoc]
  · simp [h]

theorem numeralLength_of_point (rest : List Char) :
    Numeral.length ('.' :: rest) =
      if (rest.takeWhile isDigit).length = 0 then 0
      else 1 + ((rest.takeWhile isDigit).length +
        Numeral.exponentLength (rest.drop (rest.takeWhile isDigit).length)) := by
  have hnone : ('.' :: rest).takeWhile isDigit = [] := by simp [isDigit_point]
  by_cases h : (rest.takeWhile isDigit).length = 0
  · simp [Numeral.length, isDigit_point, h]
  · have hdrop (k : Nat) : ('.' :: rest).drop (1 + k) = rest.drop k := by
      rw [Nat.add_comm, List.drop_succ_cons]
    simp [Numeral.length, hnone, h, hdrop, Nat.add_assoc]

theorem numeralLength_eq_zero_of_none (h : (cs.takeWhile isDigit).length = 0)
    (hpoint : cs.head? ≠ some '.') : Numeral.length cs = 0 := by
  cases cs with
  | nil => rfl
  | cons c cs =>
    apply numeralLength_eq_zero
    · by_contra hc
      simp [Bool.not_eq_false _ ▸ hc] at h
    · rintro rfl
      exact hpoint rfl

theorem nil_notMem_number : [] ∉ number := by
  rw [number_eq, Language.mem_add, not_or]
  exact ⟨nil_notMem_mul (Or.inl nil_notMem_digits),
    nil_notMem_mul (Or.inl nil_notMem_letter)⟩

theorem starts_number {c : Char} (h : Starts number c) : isDigit c = true ∨ c = '.' := by
  rcases starts_add.mp h with h | h
  · have hdigits := h.of_mul_left nil_notMem_digits
    exact Or.inl (starts_single.mp (hdigits.of_mul_left nil_notMem_single))
  · exact Or.inr (starts_point h)

theorem rests_exponent : Rests (single isDigit * run isDigit) (1 + exponent) cs
    (cs.takeWhile isDigit).length :=
  rests_run (fun _ h => not_isDigit_of_mark
    (starts_exponent ((starts_add.mp h).resolve_left starts_one))) (Nat.le_refl _)

theorem reads_whole : Reads (single isDigit * run isDigit *
    ((1 + letter '.' * run isDigit) * (1 + exponent))) cs
    (if (cs.takeWhile isDigit).length = 0 then 0 else Numeral.length cs) := by
  have h := Reads.then (reads_digits (p := isDigit)) nil_notMem_digits greatest_tail
    (rests_run (fun _ => starts_tail) (Nat.le_refl _) : Rests _ _ cs _)
  split_ifs at h ⊢ with hwhole
  · exact h
  · rwa [numeralLength_of_digits hwhole]

theorem reads_pointed : Reads (letter '.' * (single isDigit * run isDigit * (1 + exponent))) cs
    (if (cs.takeWhile isDigit).length = 0 then Numeral.length cs else 0) := by
  by_cases hcs : cs.head? = some '.'
  · obtain ⟨rest, rfl⟩ := List.head?_eq_some_iff.mp hcs
    have htail := Reads.then (reads_digits (p := isDigit)) nil_notMem_digits
      (reads_exponent : Reads _ (rest.drop (rest.takeWhile isDigit).length) _) rests_exponent
    have h := reads_letter_mul (c := '.') htail (nil_notMem_mul (Or.inl nil_notMem_digits))
    rw [List.takeWhile_cons_of_neg (by simp [isDigit_point]), List.length_nil, if_pos rfl,
      numeralLength_of_point]
    by_cases hfraction : (rest.takeWhile isDigit).length = 0
    · simpa [hfraction] using h
    · simpa [hfraction] using h
  · have hzero : (if (cs.takeWhile isDigit).length = 0 then Numeral.length cs else 0) = 0 := by
      split_ifs with h
      · exact numeralLength_eq_zero_of_none h hcs
      · rfl
    rw [hzero]
    exact reads_letter_mul_ne hcs

theorem reads_number : Reads number cs (Numeral.length cs) := by
  have h := reads_whole.add (reads_pointed : Reads _ cs _)
  rw [number_eq]
  split_ifs at h with hwhole
  · rwa [Nat.zero_max] at h
  · rwa [Nat.max_zero] at h

end Numbers

section Wildcards

variable {cs : List Char} {M : Language Char}

theorem nil_notMem_name : [] ∉ name := nil_notMem_mul (Or.inl nil_notMem_single)

theorem starts_name {c : Char} (h : Starts name c) : isNameStart c = true :=
  starts_single.mp (h.of_mul_left nil_notMem_single)

theorem reads_name : Reads name cs (nameLength cs) := by
  cases cs with
  | nil => exact (reads_zero_iff nil_notMem_name).mpr (lengths_eq_empty nil_notMem_name (by simp))
  | cons c cs => exact reads_single_run

theorem rests_name (hM : ∀ c, Starts M c → isNameChar c = false) :
    Rests name M cs (nameLength cs) := by
  intro i hi hlt j hj
  cases i with
  | zero => exact absurd (zero_mem_lengths.mp hi) nil_notMem_name
  | succ i =>
    cases cs with
    | nil => exact absurd hlt (by simp [nameLength])
    | cons c cs =>
      have hlt' : i < (cs.takeWhile isNameChar).length := by
        rw [nameLength] at hlt
        split_ifs at hlt <;> omega
      obtain ⟨d, hd, hname⟩ := head_drop_of_lt hlt'
      apply eq_zero_of_mem_lengths _ hj
      intro e he hstarts
      rw [List.drop_succ_cons, hd] at he
      obtain rfl := Option.some.inj he
      simp [hM d hstarts] at hname

theorem nil_notMem_close : [] ∉ run isBlank * letter ')' :=
  nil_notMem_mul (Or.inr nil_notMem_letter)

theorem starts_close {c : Char} (h : Starts (run isBlank * letter ')') c) :
    isNameChar c = false := by
  rcases h.of_mul with h | ⟨-, h⟩
  · by_contra hc
    have hblank := (isNameChar_class (Bool.not_eq_false _ ▸ hc)).1
    simp [h.of_run] at hblank
  · obtain rfl := starts_letter.mp h
    decide

def closeLength (cs : List Char) : Nat :=
  match cs.drop (cs.takeWhile isBlank).length with
  | ')' :: _ => (cs.takeWhile isBlank).length + 1
  | _ => 0

theorem closeLength_of_close {tail : List Char}
    (h : cs.drop (cs.takeWhile isBlank).length = ')' :: tail) :
    closeLength cs = (cs.takeWhile isBlank).length + 1 := by
  unfold closeLength
  simp only [h]

theorem closeLength_of_ne (h : ∀ tail, cs.drop (cs.takeWhile isBlank).length ≠ ')' :: tail) :
    closeLength cs = 0 := by
  unfold closeLength
  split
  · exact absurd ‹_› (h _)
  · rfl

theorem reads_close : Reads (run isBlank * letter ')') cs (closeLength cs) := by
  have hrests : Rests (run isBlank) (letter ')') cs (cs.takeWhile isBlank).length := by
    apply rests_run _ (Nat.le_refl _)
    intro c hc
    obtain rfl := starts_letter.mp hc
    decide
  have h := Reads.after greatest_run reads_letter nil_notMem_letter hrests
  unfold closeLength
  generalize cs.drop (cs.takeWhile isBlank).length = rest at h
  split
  · simpa using h
  · rename_i hrest
    have hhead : rest.head? ≠ some ')' := by
      rintro hhead
      obtain ⟨rest', rfl⟩ := List.head?_eq_some_iff.mp hhead
      exact hrest rest' rfl
    simpa [hhead] using h

theorem freeLength_eq_parts : freeLength cs =
    if "free(".toList.isPrefixOf cs = true then
      let inner := cs.drop 5
      let before := (inner.takeWhile isBlank).length
      let named := nameLength (inner.drop before)
      let close := closeLength ((inner.drop before).drop named)
      if named = 0 ∨ close = 0 then 0 else 5 + (before + (named + close))
    else 0 := by
  rw [freeLength]
  split_ifs with hfree
  · have hlength : "free(".toList.length = 5 := rfl
    simp only [hlength, ← List.drop_drop]
    generalize ((cs.drop 5).takeWhile isBlank).length = before
    generalize (cs.drop 5).drop before = rest
    generalize nameLength rest = named
    split
    · rename_i hclose
      rw [closeLength_of_close hclose]
      by_cases hnamed : named = 0
      · rw [if_pos hnamed, if_pos (Or.inl hnamed)]
      · rw [if_neg hnamed, if_neg (not_or.mpr ⟨hnamed, Nat.succ_ne_zero _⟩)]
        omega
    · rename_i hclose
      rw [closeLength_of_ne hclose, if_pos (Or.inr rfl)]
  · rfl

theorem nil_notMem_free : [] ∉ free := nil_notMem_mul (Or.inl (nil_notMem_word (by decide)))

theorem reads_named : Reads (name * (run isBlank * letter ')')) cs
    (if nameLength cs = 0 ∨ closeLength (cs.drop (nameLength cs)) = 0 then 0
      else nameLength cs + closeLength (cs.drop (nameLength cs))) :=
  Reads.both reads_name nil_notMem_name reads_close nil_notMem_close
    (rests_name fun _ => starts_close)

theorem reads_free : Reads free cs (freeLength cs) := by
  rw [freeLength_eq_parts]
  have hword : Reads (word "free(") cs _ := reads_word (by decide)
  split_ifs at hword ⊢ with hfree
  · have hopen : IsGreatest (lengths (word "free(") cs) 5 := (reads_pos_iff (by decide)).mp hword
    have hrests : Rests (run isBlank) (name * (run isBlank * letter ')')) (cs.drop 5)
        ((cs.drop 5).takeWhile isBlank).length := by
      apply rests_run _ (Nat.le_refl _)
      intro c hc
      have hstart := starts_name (hc.of_mul_left nil_notMem_name)
      exact (isNameChar_class (isNameChar_of_isNameStart hstart)).1
    have hnil : [] ∉ name * (run isBlank * letter ')') := nil_notMem_mul (Or.inl nil_notMem_name)
    have hinner := Reads.after greatest_run reads_named hnil hrests
    have h : Reads free cs _ :=
      Reads.after hopen hinner (nil_notMem_mul (Or.inr hnil)) rests_word
    simp only
    generalize ((cs.drop 5).takeWhile isBlank).length = before at h ⊢
    generalize (cs.drop 5).drop before = rest at h ⊢
    generalize nameLength rest = named at h ⊢
    generalize closeLength (rest.drop named) = close at h ⊢
    by_cases hnone : named = 0 ∨ close = 0
    · simpa only [if_pos hnone, if_pos] using h
    · have hsome : named + close ≠ 0 := by omega
      have hsome' : before + (named + close) ≠ 0 := by omega
      rw [if_neg hnone, if_neg hsome, if_neg hsome'] at h
      rwa [if_neg hnone]
  · rw [reads_zero_iff nil_notMem_free]
    exact lengths_mul_eq_empty ((reads_zero_iff (nil_notMem_word (by decide))).mp hword)

def kindNameLength (cs : List Char) : Nat :=
  match ["const", "var", "expr"].find? fun k => k.toList.isPrefixOf cs with
  | some k => k.length
  | none => freeLength cs

theorem reads_kindName : Reads kindName cs (kindNameLength cs) := by
  have hreads (s : String) (hs : s ≠ "") : Reads (word s) cs _ := reads_word hs
  have h : Reads kindName cs _ :=
    (((hreads "const" (by decide)).add (hreads "var" (by decide))).add
      (hreads "expr" (by decide))).add reads_free
  -- the names of kinds start with different letters
  by_cases hconst : "const".toList <+: cs
  · obtain ⟨rest, rfl⟩ := hconst
    simpa [kindNameLength, freeLength] using h
  by_cases hvar : "var".toList <+: cs
  · obtain ⟨rest, rfl⟩ := hvar
    simpa [kindNameLength, freeLength] using h
  by_cases hexpr : "expr".toList <+: cs
  · obtain ⟨rest, rfl⟩ := hexpr
    simpa [kindNameLength, freeLength] using h
  · simp only [← List.isPrefixOf_iff_prefix, Bool.not_eq_true] at hconst hvar hexpr
    simp only [hconst, hvar, hexpr, Bool.false_eq_true, if_false, Nat.zero_max] at h
    simpa only [kindNameLength, List.find?, hconst, hvar, hexpr] using h

theorem nil_notMem_kindName : [] ∉ kindName := by
  have hword {s : String} (hs : s ≠ "") := nil_notMem_word hs
  simp only [kindName, Language.mem_add, not_or]
  exact ⟨⟨⟨hword (by decide), hword (by decide)⟩, hword (by decide)⟩, nil_notMem_free⟩

theorem kindLength_colon :
    kindLength (':' :: cs) = if kindNameLength cs = 0 then 0 else 1 + kindNameLength cs := by
  unfold kindLength kindNameLength
  simp only
  cases hk : ["const", "var", "expr"].find? fun k => k.toList.isPrefixOf cs with
  | none => rfl
  | some k =>
    have hmem := List.mem_of_find?_eq_some hk
    have hlength : k.length ≠ 0 := by
      simp only [List.mem_cons, List.not_mem_nil, or_false] at hmem
      rcases hmem with rfl | rfl | rfl <;> decide
    simp only [if_neg hlength]

theorem kindLength_of_ne (h : cs.head? ≠ some ':') : kindLength cs = 0 := by
  unfold kindLength
  split
  · exact absurd rfl h
  · rfl

theorem reads_kind : Reads (letter ':' * kindName) cs (kindLength cs) := by
  by_cases hcs : cs.head? = some ':'
  · obtain ⟨rest, rfl⟩ := List.head?_eq_some_iff.mp hcs
    rw [kindLength_colon]
    exact reads_letter_mul reads_kindName nil_notMem_kindName
  · rw [kindLength_of_ne hcs]
    exact reads_letter_mul_ne hcs

theorem reads_kinded : Reads (name * (1 + letter ':' * kindName)) cs
    (if nameLength cs = 0 then 0 else nameLength cs + kindLength (cs.drop (nameLength cs))) := by
  apply Reads.then reads_name nil_notMem_name reads_kind
  apply rests_name
  intro c hc
  have hcolon := ((starts_add.mp hc).resolve_left starts_one).of_mul_left nil_notMem_letter
  obtain rfl := starts_letter.mp hcolon
  decide

theorem nil_notMem_wildcard : [] ∉ wildcard := by
  have hletter {c : Char} (M : Language Char) : [] ∉ letter c * M :=
    nil_notMem_mul (Or.inl nil_notMem_letter)
  rw [wildcard, Language.mem_add, not_or]
  exact ⟨hletter _, hletter _⟩

theorem starts_wildcard {c : Char} (h : Starts wildcard c) : c = '?' ∨ c = ':' :=
  (starts_add.mp h).imp (fun h => starts_letter.mp (h.of_mul_left nil_notMem_letter))
    fun h => starts_letter.mp (h.of_mul_left nil_notMem_letter)

theorem reads_wildcard : Reads wildcard cs (wildcardLength cs) := by
  by_cases hmark : cs.head? = some '?'
  · obtain ⟨rest, rfl⟩ := List.head?_eq_some_iff.mp hmark
    have h : Reads wildcard ('?' :: rest) _ :=
      (reads_letter_mul reads_kinded (nil_notMem_mul (Or.inl nil_notMem_name))).add
        (reads_letter_mul_ne (by simp))
    unfold wildcardLength
    by_cases hnamed : nameLength rest = 0
    · simpa [hnamed] using h
    · simpa [hnamed, Nat.add_assoc] using h
  · by_cases hcolon : cs.head? = some ':'
    · obtain ⟨rest, rfl⟩ := List.head?_eq_some_iff.mp hcolon
      have h : Reads wildcard (':' :: rest) _ :=
        (reads_letter_mul_ne hmark).add (reads_letter_mul reads_name nil_notMem_name)
      rwa [Nat.zero_max] at h
    · have hzero : wildcardLength cs = 0 := by
        unfold wildcardLength
        split
        · exact absurd rfl hmark
        · exact absurd rfl hcolon
        · rfl
      rw [hzero]
      exact (reads_letter_mul_ne hmark).add (reads_letter_mul_ne hcolon)

end Wildcards

end RuleAlgebra.Lexeme
