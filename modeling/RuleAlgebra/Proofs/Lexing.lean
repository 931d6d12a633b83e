import Mathlib
import RuleAlgebra.Grammar.Parser

/-!
The first lexeme of a text. A number, a name or a wildcard is the first lexeme of a text that it
starts when the character after it can neither continue it nor make it another one.
-/

namespace RuleAlgebra

namespace Text

/-- A letter of the basic alphabet or an underscore, followed by such characters and digits. -/
def isIdentifier (s : String) : Bool :=
  match s.toList with
  | [] => false
  | c :: cs => isNameStart c && cs.all isNameChar

theorem isIdentifier_iff {s : String} : isIdentifier s = true ↔
    ∃ c cs, s.toList = c :: cs ∧ isNameStart c = true ∧ ∀ d ∈ cs, isNameChar d = true := by
  unfold isIdentifier
  split
  · rename_i h
    simp [h]
  · rename_i c cs h
    simp only [Bool.and_eq_true, List.all_eq_true, h, List.cons.injEq]
    constructor
    · exact fun ⟨hc, hcs⟩ => ⟨c, cs, ⟨rfl, rfl⟩, hc, hcs⟩
    · rintro ⟨_, _, ⟨rfl, rfl⟩, hc, hcs⟩
      exact ⟨hc, hcs⟩

theorem isNameChar_of_isNameStart {c : Char} (h : isNameStart c = true) : isNameChar c = true := by
  simp only [isNameStart, isNameChar, Char.isAlphanum, Bool.or_eq_true] at h ⊢
  exact h.imp_left Or.inl

theorem lt_of_isNameChar {c : Char} (h : isNameChar c = true) : c.toNat < 128 := by
  simp only [isNameChar, Char.isAlphanum, Char.isAlpha, Char.isUpper, Char.isLower, Char.isDigit,
    Bool.or_eq_true, Bool.and_eq_true, decide_eq_true_eq, beq_iff_eq, UInt32.le_iff_toNat_le] at h
  rcases h with (((⟨-, h⟩ | ⟨-, h⟩) | ⟨-, h⟩) | rfl)
  · exact lt_of_le_of_lt h (by decide)
  · exact lt_of_le_of_lt h (by decide)
  · exact lt_of_le_of_lt h (by decide)
  · decide

theorem isNameChar_ascii : ∀ n < 128, isNameChar (Char.ofNat n) = true →
    isBlank (Char.ofNat n) = false ∧ (isNameStart (Char.ofNat n) = true →
      isDigit (Char.ofNat n) = false) := by
  decide

theorem isNameChar_class {c : Char} (h : isNameChar c = true) :
    isBlank c = false ∧ (isNameStart c = true → isDigit c = false) := by
  have key := isNameChar_ascii c.toNat (lt_of_isNameChar h)
  rw [Char.ofNat_toNat] at key
  exact key h

theorem isDigit_of_isNameStart {c : Char} (h : isNameStart c = true) : isDigit c = false :=
  (isNameChar_class (isNameChar_of_isNameStart h)).2 h

theorem isIdentifier_chars {s : String} (hs : isIdentifier s = true) :
    ∀ c ∈ s.toList, isNameChar c = true := by
  obtain ⟨c, cs, h, hc, hcs⟩ := isIdentifier_iff.mp hs
  rw [h]
  rintro d (_ | ⟨_, hd⟩)
  · exact isNameChar_of_isNameStart hc
  · exact hcs d hd

theorem digits_no_blank : ∀ base ∈ digitZeros, ∀ k < 10,
    (blanks.changes.takeWhile (· ≤ base + k)).length % 2 = 0 := by
  decide

theorem isBlank_of_isDigit {c : Char} (h : isDigit c = true) : isBlank c = false := by
  simp only [isDigit, digit?, Option.isSome_map, List.find?_isSome, Bool.and_eq_true,
    decide_eq_true_eq] at h
  obtain ⟨base, hbase, hle, hlt⟩ := h
  have key := digits_no_blank base hbase (c.toNat - base) (by omega)
  rw [Nat.add_sub_cancel' hle] at key
  simp [isBlank, CharClass.contains, key]

end Text

namespace Lexeme

open RuleAlgebra.Text

def delimiters : List Char := [' ', '*', '/', '^', ',', '(', ')']

def Delimited (cs : List Char) : Prop := ∀ c ∈ cs.head?, c ∈ delimiters

section Delimiters

variable {cs : List Char}

theorem delimiters_class {c : Char} (h : c ∈ delimiters) : isDigit c = false ∧
    isNameChar c = false ∧ c ≠ '.' ∧ c ≠ ':' ∧ c ≠ 'e' ∧ c ≠ 'E' ∧ c ≠ '+' ∧ c ≠ '-' := by
  simp only [delimiters, List.mem_cons, List.not_mem_nil, or_false] at h
  rcases h with rfl | rfl | rfl | rfl | rfl | rfl | rfl <;> decide

theorem Delimited.cons {c : Char} (h : c ∈ delimiters) : Delimited (c :: cs) := by
  rintro d hd
  obtain rfl := Option.some.inj hd
  exact h

theorem Delimited.nil : Delimited [] := by simp [Delimited]

theorem takeWhile_append_of_head {p : Char → Bool} (ws : List Char)
    (h : ∀ c ∈ cs.head?, p c = false) : (ws ++ cs).takeWhile p = ws.takeWhile p := by
  induction ws with
  | nil =>
    cases cs with
    | nil => rfl
    | cons c cs => simp [h c rfl]
  | cons w ws ih => by_cases hw : p w = true <;> simp [hw, ih]

theorem Delimited.noDigit (h : Delimited cs) : ∀ c ∈ cs.head?, isDigit c = false :=
  fun c hc => (delimiters_class (h c hc)).1

theorem Delimited.noNameChar (h : Delimited cs) : ∀ c ∈ cs.head?, isNameChar c = false :=
  fun c hc => (delimiters_class (h c hc)).2.1

end Delimiters

section Lengths

variable {cs : List Char}

theorem exponentLength_append (ws : List Char) (h : Delimited cs) :
    Numeral.exponentLength (ws ++ cs) = Numeral.exponentLength ws := by
  cases ws with
  | nil =>
    cases cs with
    | nil => rfl
    | cons c cs =>
      obtain ⟨-, -, -, -, he, hE, -, -⟩ := delimiters_class (h c rfl)
      simp [Numeral.exponentLength, he, hE]
  | cons w ws =>
    cases ws with
    | nil =>
      cases cs with
      | nil => rfl
      | cons c cs =>
        obtain ⟨hd, -, -, -, -, -, hp, hm⟩ := delimiters_class (h c rfl)
        simp [Numeral.exponentLength, hp, hm, hd]
    | cons v ws =>
      have hdrop (n : Nat) (hn : n ≤ 1) :
          ((v :: (ws ++ cs)).drop n).takeWhile isDigit = ((v :: ws).drop n).takeWhile isDigit := by
        rw [← List.cons_append, List.drop_append_of_le_length (by simp; omega)]
        exact takeWhile_append_of_head _ h.noDigit
      simp only [Numeral.exponentLength, List.cons_append]
      rw [hdrop _ (by split <;> omega)]

theorem numeralLength_append (ws : List Char) (h : Delimited cs) :
    Numeral.length (ws ++ cs) = Numeral.length ws := by
  have hwhole : (ws ++ cs).takeWhile isDigit = ws.takeWhile isDigit :=
    takeWhile_append_of_head ws h.noDigit
  have hdrop (n : Nat) (hn : n ≤ ws.length) : (ws ++ cs).drop n = ws.drop n ++ cs :=
    List.drop_append_of_le_length hn
  have hle : (ws.takeWhile isDigit).length ≤ ws.length := (List.takeWhile_sublist _).length_le
  simp only [Numeral.length, hwhole, hdrop _ hle]
  cases hrest : ws.drop (ws.takeWhile isDigit).length with
  | nil =>
    have hws : ws.length ≤ (ws.takeWhile isDigit).length := List.drop_eq_nil_iff.mp hrest
    cases cs with
    | nil => simp
    | cons c cs =>
      have hc : c ≠ '.' := (delimiters_class (h c rfl)).2.2.1
      simp only [List.nil_append]
      split
      · rename_i heq
        exact absurd (List.cons.inj heq).1 hc
      · simp [hdrop _ hle, exponentLength_append _ h]
  | cons w rest =>
    have hlen : (ws.takeWhile isDigit).length + (rest.length + 1) = ws.length := by
      rw [← List.length_cons (a := w), ← hrest, List.length_drop]
      omega
    by_cases hw : w = '.'
    · subst hw
      have hfraction : (rest ++ cs).takeWhile isDigit = rest.takeWhile isDigit :=
        takeWhile_append_of_head rest h.noDigit
      have hle' : (rest.takeWhile isDigit).length ≤ rest.length :=
        (List.takeWhile_sublist _).length_le
      simp only [List.cons_append, hfraction]
      have hpoint (p : Prop) [Decidable p] :
          (if p then 0 else 1 + (rest.takeWhile isDigit).length) ≤ rest.length + 1 := by
        split <;> omega
      rw [hdrop _ (hlen ▸ Nat.add_le_add_left (hpoint _) _), exponentLength_append _ h]
    · simp [hw, hdrop _ hle, exponentLength_append _ h]

theorem nameLength_append {s : String} (hs : isIdentifier s = true)
    (h : ∀ c ∈ cs.head?, isNameChar c = false) : nameLength (s.toList ++ cs) = s.length := by
  obtain ⟨c, ds, hd, hc, hds⟩ := isIdentifier_iff.mp hs
  have hall : ds.takeWhile isNameChar = ds := List.takeWhile_eq_self_iff.mpr hds
  have hlen : s.length = ds.length + 1 := by rw [← String.length_toList, hd, List.length_cons]
  rw [hd, List.cons_append, nameLength, if_pos hc, takeWhile_append_of_head ds h, hall, hlen,
    Nat.add_comm]

theorem numeralLength_eq_zero {c : Char} (hd : isDigit c = false) (hp : c ≠ '.') :
    Numeral.length (c :: cs) = 0 := by
  simp [Numeral.length, hd, hp]

theorem wildcardLength_eq_zero {c : Char} (hq : c ≠ '?') (hc : c ≠ ':') :
    wildcardLength (c :: cs) = 0 := by
  simp [wildcardLength, hq, hc]

end Lengths

section First

variable {wild : Bool} {cs : List Char}

def signs : List Char := '+' :: '-' :: '=' :: delimiters

theorem signs_class {c : Char} (h : c ∈ signs) :
    isDigit c = false ∧ isNameStart c = false ∧ c ≠ '.' ∧ c ≠ '?' ∧ c ≠ ':' := by
  simp only [signs, delimiters, List.mem_cons, List.not_mem_nil, or_false] at h
  rcases h with rfl | rfl | rfl | rfl | rfl | rfl | rfl | rfl | rfl | rfl <;> decide

theorem first?_number {s : String} (hs : Numeral.isDecimal s.toList = true) (h : Delimited cs) :
    first? wild (s.toList ++ cs) = some (some .number, s.length) := by
  simp only [Numeral.isDecimal, Bool.and_eq_true, beq_iff_eq, Bool.not_eq_true',
    List.isEmpty_eq_false_iff] at hs
  have hlen : Numeral.length (s.toList ++ cs) = s.length := by
    rw [numeralLength_append _ h, hs.1, String.length_toList]
  have hpos : 0 < s.length := by
    rw [← String.length_toList]
    exact List.length_pos_iff.mpr hs.2
  simp [first?, hlen, hpos]

theorem first?_name {s : String} (hs : isIdentifier s = true)
    (h : ∀ c ∈ cs.head?, isNameChar c = false) :
    first? wild (s.toList ++ cs) = some (some .name, s.length) := by
  have hname := nameLength_append hs h
  obtain ⟨c, ds, hd, hc, -⟩ := isIdentifier_iff.mp hs
  have hne (d : Char) (hd : isNameStart d = false) : c ≠ d := by
    rintro rfl
    simp [hc] at hd
  have hpos : 0 < s.length := by rw [← String.length_toList, hd]; simp
  rw [hd, List.cons_append] at hname ⊢
  simp [first?, hname, hpos,
    numeralLength_eq_zero (isDigit_of_isNameStart hc) (hne '.' (by decide)),
    wildcardLength_eq_zero (hne '?' (by decide)) (hne ':' (by decide))]

theorem first?_sign {c : Char} (hc : c ∈ signs) {kind : Token.Kind} {n : Nat}
    (h : sign? (c :: cs) = some (kind, n)) : first? wild (c :: cs) = some (some kind, n) := by
  obtain ⟨hd, hs, hp, hq, hcolon⟩ := signs_class hc
  simp [first?, numeralLength_eq_zero hd hp, wildcardLength_eq_zero hq hcolon, nameLength, hs, h]

theorem first?_space (h : ∀ c ∈ cs.head?, isBlank c = false) :
    first? wild (' ' :: cs) = some (none, 1) := by
  obtain ⟨hd, hs, hp, hq, hcolon⟩ := signs_class (c := ' ') (by decide)
  have hblank : (' ' :: cs).takeWhile isBlank = [' '] := by
    have := takeWhile_append_of_head [' '] h
    rwa [show [' '].takeWhile isBlank = [' '] by decide] at this
  have hsign : sign? (' ' :: cs) = none := by simp [sign?]
  simp [first?, numeralLength_eq_zero hd hp, wildcardLength_eq_zero hq hcolon, nameLength, hs,
    hsign, hblank]

end First

section Wildcards

variable {cs : List Char}

theorem isIdentifier_length_pos {s : String} (hs : isIdentifier s = true) : 0 < s.length := by
  obtain ⟨c, ds, hd, -, -⟩ := isIdentifier_iff.mp hs
  rw [← String.length_toList, hd]
  simp

theorem freeLength_eq {a : String} (ha : isIdentifier a = true) :
    freeLength ("free(".toList ++ (a.toList ++ ')' :: cs)) = a.length + 6 := by
  have hname : nameLength (a.toList ++ ')' :: cs) = a.length :=
    nameLength_append ha (by simp; decide)
  have hbefore : (a.toList ++ ')' :: cs).takeWhile isBlank = [] := by
    obtain ⟨c, ds, hd, hc, -⟩ := isIdentifier_iff.mp ha
    simp [hd, (isNameChar_class (isNameChar_of_isNameStart hc)).1]
  have hafter : (')' :: cs).takeWhile isBlank = [] := by
    simp [show isBlank ')' = false by decide]
  have hrest : (a.toList ++ ')' :: cs).drop a.length = ')' :: cs := by
    rw [← String.length_toList, List.drop_left]
  have hprefix : "free(".toList.isPrefixOf ("free(".toList ++ (a.toList ++ ')' :: cs)) = true := by
    simp
  have hinner : ("free(".toList ++ (a.toList ++ ')' :: cs)).drop "free(".toList.length =
      a.toList ++ ')' :: cs := List.drop_left
  have hpos := isIdentifier_length_pos ha
  rw [freeLength, if_pos hprefix]
  simp only [hinner, hbefore, hname, hrest, hafter, List.length_nil, List.drop_zero, Nat.zero_add,
    Nat.add_zero]
  simp [Nat.ne_of_gt hpos]
  omega

def kindText : WildcardKind → Option String → String
  | .anything, _ => ""
  | .free, avoids => ":free(" ++ avoids.getD "None" ++ ")"
  | kind, _ => ":" ++ kind.name

theorem wildText_eq (n : String) (k : WildcardKind) (a : Option String) :
    Expr.wildText n k a = "?" ++ n ++ kindText k a := by
  cases k <;> simp [Expr.wildText, kindText, String.append_assoc]

/-- Wildcards that can be written: another one to avoid is named for the kind `free` only. -/
structure Avoids (k : WildcardKind) (a : Option String) : Prop where
  free_iff : k = .free ↔ a.isSome = true
  name : ∀ x ∈ a, isIdentifier x = true

theorem kindLength_kindText {k : WildcardKind} {a : Option String} (ha : Avoids k a)
    (h : Delimited cs) : kindLength ((kindText k a).toList ++ cs) = (kindText k a).length := by
  cases k with
  | anything =>
    cases cs with
    | nil => rfl
    | cons c cs => simp [kindText, kindLength, (delimiters_class (h c rfl)).2.2.2.1]
  | constant =>
    simp only [kindText, WildcardKind.name, String.reduceAppend]
    simp [kindLength]
    rfl
  | symbol =>
    simp only [kindText, WildcardKind.name, String.reduceAppend]
    simp [kindLength]
    rfl
  | free =>
    obtain ⟨x, rfl⟩ := Option.isSome_iff_exists.mp (ha.free_iff.mp rfl)
    have hfree : freeLength ("free(".toList ++ (x.toList ++ ')' :: cs)) = x.length + 6 :=
      freeLength_eq (ha.name x rfl)
    simp only [kindText, Option.getD_some, String.toList_append, List.append_assoc,
      String.length_append]
    simp [kindLength]
    simp at hfree
    have hopen : ":free(".length = 6 := rfl
    have hclose : ")".length = 1 := rfl
    simp [hfree]
    omega

theorem kindText_head (k : WildcardKind) (a : Option String) (h : Delimited cs) :
    ∀ c ∈ ((kindText k a).toList ++ cs).head?, isNameChar c = false := by
  have hcolon : isNameChar ':' = false := by decide
  cases k with
  | anything => simpa [kindText] using h.noNameChar
  | constant => simp [kindText, hcolon]
  | symbol => simp [kindText, hcolon]
  | free => simp [kindText, hcolon]

theorem first?_wildcard {n : String} {k : WildcardKind} {a : Option String}
    (hn : isIdentifier n = true) (ha : Avoids k a) (h : Delimited cs) :
    first? true ((Expr.wildText n k a).toList ++ cs) =
      some (some .wildcard, (Expr.wildText n k a).length) := by
  have hname := nameLength_append hn (kindText_head k a h)
  have hpos := isIdentifier_length_pos hn
  have hrest : (n.toList ++ ((kindText k a).toList ++ cs)).drop n.length =
      (kindText k a).toList ++ cs := by
    rw [← String.length_toList, List.drop_left]
  have hchars : (Expr.wildText n k a).toList ++ cs =
      '?' :: (n.toList ++ ((kindText k a).toList ++ cs)) := by
    simp [wildText_eq]
  have hlen : (Expr.wildText n k a).length = 1 + n.length + (kindText k a).length := by
    simp only [wildText_eq, String.length_append]
    rfl
  have hwildcard : wildcardLength ((Expr.wildText n k a).toList ++ cs) =
      (Expr.wildText n k a).length := by
    rw [hchars, hlen, wildcardLength]
    simp only [hname, hrest, kindLength_kindText ha h, if_neg (Nat.ne_of_gt hpos)]
  have hnumber : Numeral.length ((Expr.wildText n k a).toList ++ cs) = 0 := by
    rw [hchars]
    exact numeralLength_eq_zero (by decide) (by decide)
  have hpos' : 0 < (Expr.wildText n k a).length := by omega
  simp [first?, hnumber, hwildcard, hpos']

theorem cutChars?_none {c : Char} {ws : List Char} (h : c ∉ ws) : cutChars? [c] ws = none := by
  induction ws with
  | nil => rfl
  | cons w ws ih =>
    simp only [List.mem_cons, not_or] at h
    simp [cutChars?, h.1, ih h.2]

theorem cutChars?_append {c : Char} {ws : List Char} (h : c ∉ ws) :
    cutChars? [c] (ws ++ c :: cs) = some (ws, cs) := by
  induction ws with
  | nil => simp [cutChars?]
  | cons w ws ih =>
    simp only [List.mem_cons, not_or] at h
    simp [cutChars?, h.1, ih h.2]

theorem stripChars_eq_self (h : ∀ c ∈ cs, isBlank c = false) : stripChars cs = cs := by
  have hdrop {ws : List Char} (hws : ∀ c ∈ ws, isBlank c = false) : ws.dropWhile isBlank = ws := by
    cases ws with
    | nil => rfl
    | cons w ws => simp [hws w (List.mem_cons_self ..)]
  have hreverse : ∀ c ∈ cs.reverse, isBlank c = false := by simpa using h
  simp only [stripChars, hdrop h, hdrop hreverse, List.reverse_reverse]

theorem cut?_body {n : String} (hn : isIdentifier n = true) (kind : String) :
    cut? ":" (String.ofList (n.toList ++ ':' :: kind.toList)) = some (n, kind) := by
  have hcolon : ':' ∉ n.toList := fun h => absurd (isIdentifier_chars hn _ h) (by decide)
  simp [cut?, cutChars?_append hcolon]

theorem ofName?_free (x : String) : WildcardKind.ofName? ("free(" ++ x ++ ")") = none := by
  have hhead (s : String) (hs : s.toList.take 5 ≠ "free(".toList) : "free(" ++ x ++ ")" ≠ s := by
    rintro rfl
    exact hs (by simp)
  unfold WildcardKind.ofName?
  split
  · rename_i h
    exact absurd h (hhead _ (by decide))
  · rename_i h
    exact absurd h (hhead _ (by decide))
  · rename_i h
    exact absurd h (hhead _ (by decide))
  · rename_i h
    exact absurd h (hhead _ (by decide))
  · rfl

theorem wildcard_wildText {α : Type} [Scalar α] {n : String} {k : WildcardKind} {a : Option String}
    (hn : isIdentifier n = true) (ha : Avoids k a) :
    Grammar.wildcard (α := α) (Expr.wildText n k a) = .wild n k a := by
  have hbody : (Expr.wildText n k a).toList.drop 1 = n.toList ++ (kindText k a).toList := by
    simp [wildText_eq]
  have hnone (h : k ≠ .free) : a = none := by
    simpa using mt ha.free_iff.mpr h
  rw [Grammar.wildcard, hbody]
  cases k with
  | anything =>
    have hcolon : ':' ∉ n.toList := fun h => absurd (isIdentifier_chars hn _ h) (by decide)
    simp [kindText, cut?, cutChars?_none hcolon, hnone (by decide)]
  | constant =>
    have hkind : (kindText .constant a).toList = ':' :: "const".toList := by
      simp [kindText, WildcardKind.name]
    rw [hkind, cut?_body hn, hnone (by decide)]
    rfl
  | symbol =>
    have hkind : (kindText .symbol a).toList = ':' :: "var".toList := by
      simp [kindText, WildcardKind.name]
    rw [hkind, cut?_body hn, hnone (by decide)]
    rfl
  | free =>
    obtain ⟨x, rfl⟩ := Option.isSome_iff_exists.mp (ha.free_iff.mp rfl)
    have hx : stripChars x.toList = x.toList := stripChars_eq_self fun c hc =>
      (isNameChar_class (isIdentifier_chars (ha.name x rfl) c hc)).1
    have hinside : (("free(" ++ x ++ ")").toList.drop "free(".length).dropLast = x.toList := by
      have hlen : "free(".length = 5 := rfl
      simp [hlen, List.dropLast_append_of_ne_nil]
    have hkind : (kindText .free (some x)).toList = ':' :: ("free(" ++ x ++ ")").toList := by
      simp [kindText]
    rw [hkind, cut?_body hn]
    simp only [ofName?_free, hinside, hx, String.ofList_toList]

end Wildcards

end Lexeme

end RuleAlgebra
