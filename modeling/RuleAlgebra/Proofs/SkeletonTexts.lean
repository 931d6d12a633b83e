import RuleAlgebra.Proofs.ParsedExpressions
import RuleAlgebra.Rule.Basic

/-!
The text of a skeleton, in which each wildcard is written as a colon and its name. It is read as the
skeleton with wildcards of no particular kind.
-/

namespace RuleAlgebra

open Text

namespace Numeral

variable {cs : List Char}

def IsNumeralChar (c : Char) : Prop := isDigit c = true ∨ c ∈ ['.', 'e', 'E', '+', '-']

theorem takeWhile_chars (cs : List Char) : ∀ c ∈ cs.takeWhile isDigit, IsNumeralChar c :=
  fun _ hc => .inl (List.mem_takeWhile_imp hc)

theorem exponentLength_chars (cs : List Char) :
    ∀ c ∈ cs.take (exponentLength cs), IsNumeralChar c := by
  unfold exponentLength
  split
  · rename_i c rest
    dsimp only
    split_ifs with hletter hdigits
    · simp
    · rw [Nat.add_assoc, Nat.add_comm, List.take_succ_cons, List.take_add, Lexeme.take_takeWhile]
      simp only [List.forall_mem_cons, List.forall_mem_append]
      refine ⟨.inr ?_, ?_, takeWhile_chars _⟩
      · rcases hletter with rfl | rfl <;> decide
      · split
        · split_ifs with hsign
          · rcases hsign with rfl | rfl <;> simp [IsNumeralChar]
          · simp
        · simp
    · simp
  · simp

theorem length_chars (cs : List Char) : ∀ c ∈ cs.take (length cs), IsNumeralChar c := by
  unfold length
  dsimp only
  split_ifs
  · simp
  · rw [List.take_add, List.take_add, Lexeme.take_takeWhile]
    simp only [List.forall_mem_append]
    refine ⟨⟨takeWhile_chars cs, ?_⟩, exponentLength_chars _⟩
    split
    · rename_i rest hpoint
      rw [hpoint]
      split_ifs
      · simp
      · rw [Nat.add_comm, List.take_succ_cons, Lexeme.take_takeWhile]
        exact List.forall_mem_cons.mpr ⟨.inr (by decide), takeWhile_chars rest⟩
    · simp

theorem isDecimal_chars (h : isDecimal cs = true) : ∀ c ∈ cs, IsNumeralChar c := by
  simp only [isDecimal, Bool.and_eq_true, beq_iff_eq] at h
  have hchars := length_chars cs
  rwa [h.1, List.take_length] at hchars

end Numeral

namespace Skeleton

section Colons

variable {c : Char} {cs ws : List Char} {x : String} {k : WildcardKind} {a : Option String}

def closers : List Char := [' ', '*', '/', '^', ',', ')']

theorem closers_class (h : c ∈ closers) : isWordChar c = false ∧ c ≠ '(' ∧ c ≠ ':' := by
  simp only [closers, List.mem_cons, List.not_mem_nil, or_false] at h
  rcases h with rfl | rfl | rfl | rfl | rfl | rfl <;> decide

theorem isWordChar_ascii :
    ∀ n < 128, isNameChar (Char.ofNat n) = true → isWordChar (Char.ofNat n) = true := by
  decide

theorem isWordChar_of_isNameChar (h : isNameChar c = true) : isWordChar c = true := by
  have key := isWordChar_ascii c.toNat (lt_of_isNameChar h)
  rw [Char.ofNat_toNat] at key
  exact key h

theorem colons_plain (h : '?' ∉ ws) : colons 0 (ws ++ cs) = ws ++ colons 0 cs := by
  induction ws with
  | nil => rfl
  | cons w ws ih =>
    obtain ⟨hw, hws⟩ := not_or.mp (mt List.mem_cons.mpr h)
    rw [List.cons_append, colons, if_neg (Ne.symm hw)]
    simp [ih hws]

theorem colons_skip (ws cs : List Char) : colons ws.length (ws ++ cs) = colons 0 cs := by
  induction ws with
  | nil => rfl
  | cons w ws ih => exact ih

theorem takeWhile_word (hws : ∀ d ∈ ws, isWordChar d = true)
    (h : ∀ d ∈ cs.head?, isWordChar d = false) : (ws ++ cs).takeWhile isWordChar = ws := by
  rw [Lexeme.takeWhile_append_of_head ws h, List.takeWhile_eq_self_iff.mpr hws]

theorem nameLength_append (hx : isIdentifier x = true)
    (h : ∀ d ∈ cs.head?, isWordChar d = false) : nameLength (x.toList ++ cs) = x.length := by
  obtain ⟨c, ds, hd, hc, hds⟩ := isIdentifier_iff.mp hx
  have hlen : x.length = 1 + ds.length := by
    rw [← String.length_toList, hd, List.length_cons, Nat.add_comm]
  rw [hd, List.cons_append, nameLength, if_pos hc,
    takeWhile_word (fun d hd => isWordChar_of_isNameChar (hds d hd)) h, hlen]

theorem kindLength_word (hne : ws ≠ []) (hws : ∀ d ∈ ws, isWordChar d = true)
    (h : ∀ d ∈ cs.head?, isWordChar d = false ∧ d ≠ '(') :
    kindLength (':' :: (ws ++ cs)) = 1 + ws.length := by
  simp only [kindLength, takeWhile_word hws fun d hd => (h d hd).1, List.drop_left,
    if_neg (mt List.length_eq_zero_iff.mp hne)]
  split
  · exact absurd rfl (h _ rfl).2
  · rfl

theorem word_free : ∀ d ∈ ['f', 'r', 'e', 'e'], isWordChar d = true :=
  fun d hd => isWordChar_of_isNameChar
    (isIdentifier_chars (s := "free") (by decide) d (by simpa using hd))

theorem kindLength_free {y : String} (hy : isIdentifier y = true) :
    kindLength (':' :: (['f', 'r', 'e', 'e'] ++ '(' :: (y.toList ++ ')' :: cs))) =
      y.length + 7 := by
  have hparen : isWordChar '(' = false := by decide
  have hword : (['f', 'r', 'e', 'e'] ++ '(' :: (y.toList ++ ')' :: cs)).takeWhile isWordChar =
      ['f', 'r', 'e', 'e'] := takeWhile_word word_free (by simpa using hparen)
  have hinside : (y.toList ++ ')' :: cs).takeWhile (· != ')') = y.toList := by
    rw [Lexeme.takeWhile_append_of_head _ (by simp), List.takeWhile_eq_self_iff]
    intro d hd
    have hname := isIdentifier_chars hy d hd
    simp only [bne_iff_ne, ne_eq]
    rintro rfl
    exact absurd hname (by decide)
  simp only [kindLength, hword, List.drop_left, hinside]
  simp [String.length_toList]
  omega

theorem kindLength_append (ha : Lexeme.Avoids k a) (h : ∀ d ∈ cs.head?, d ∈ closers) :
    kindLength ((Lexeme.kindText k a).toList ++ cs) = (Lexeme.kindText k a).length := by
  have hclass : ∀ d ∈ cs.head?, isWordChar d = false ∧ d ≠ '(' :=
    fun d hd => ⟨(closers_class (h d hd)).1, (closers_class (h d hd)).2.1⟩
  have hword (s : String) (hs : isIdentifier s = true) :
      kindLength ((":" ++ s).toList ++ cs) = (":" ++ s).length := by
    have hchars : (":" ++ s).toList = ':' :: s.toList := by simp
    obtain ⟨c, ds, hd, -, -⟩ := isIdentifier_iff.mp hs
    rw [hchars, List.cons_append, kindLength_word (by simp [hd])
        (fun d hd => isWordChar_of_isNameChar (isIdentifier_chars hs d hd)) hclass,
      ← String.length_toList, hchars, List.length_cons, Nat.add_comm]
  cases k with
  | anything =>
    cases cs with
    | nil => rfl
    | cons c cs => simp [Lexeme.kindText, kindLength, (closers_class (h c rfl)).2.2]
  | constant => exact hword "const" (by decide)
  | symbol => exact hword "var" (by decide)
  | free =>
    obtain ⟨y, rfl⟩ := Option.isSome_iff_exists.mp (ha.free_iff.mp rfl)
    have hchars : (Lexeme.kindText .free (some y)).toList ++ cs =
        ':' :: (['f', 'r', 'e', 'e'] ++ '(' :: (y.toList ++ ')' :: cs)) := by
      simp [Lexeme.kindText]
    have hlen : (Lexeme.kindText .free (some y)).length = y.length + 7 := by
      simp only [Lexeme.kindText, Option.getD_some, String.length_append]
      simp [show ":free(".length = 6 from rfl, show ")".length = 1 from rfl]
      omega
    rw [hchars, kindLength_free (ha.name y rfl), hlen]

theorem colons_wildcard (hx : isIdentifier x = true) (ha : Lexeme.Avoids k a)
    (h : ∀ d ∈ cs.head?, d ∈ closers) :
    colons 0 ((Expr.wildText x k a).toList ++ cs) = (":" ++ x).toList ++ colons 0 cs := by
  have hchars : (Expr.wildText x k a).toList ++ cs =
      '?' :: (x.toList ++ ((Lexeme.kindText k a).toList ++ cs)) := by
    simp [Lexeme.wildText_eq]
  have hhead : ∀ d ∈ ((Lexeme.kindText k a).toList ++ cs).head?, isWordChar d = false := by
    have hcolon : isWordChar ':' = false := by decide
    cases k with
    | anything => simpa [Lexeme.kindText] using fun d hd => (closers_class (h d hd)).1
    | _ => simp [Lexeme.kindText, hcolon]
  have hdrop : (x.toList ++ ((Lexeme.kindText k a).toList ++ cs)).drop x.length =
      (Lexeme.kindText k a).toList ++ cs := by
    rw [← String.length_toList, List.drop_left]
  have htake : (x.toList ++ ((Lexeme.kindText k a).toList ++ cs)).take x.length = x.toList := by
    rw [← String.length_toList, List.take_left]
  have hskip : colons (x.length + (Lexeme.kindText k a).length)
      (x.toList ++ ((Lexeme.kindText k a).toList ++ cs)) = colons 0 cs := by
    have hlen : x.length + (Lexeme.kindText k a).length =
        (x.toList ++ (Lexeme.kindText k a).toList).length := by simp [String.length_toList]
    rw [hlen, ← List.append_assoc, colons_skip]
  rw [hchars, colons]
  simp only [if_true, nameLength_append hx hhead, hdrop, kindLength_append ha h, htake, hskip,
    if_neg (Nat.ne_of_gt (Lexeme.isIdentifier_length_pos hx))]
  simp

end Colons

section Lines

variable {s s' l l' r r' m : String}

/-- The characters that mean something in a line of rules, and in no expression. -/
def reserved : List Char := ['>', '\n', '@', '#']

def Unreserved (s : String) : Prop := ∀ c ∈ s.toList, c ∉ reserved

theorem Unreserved.append (hl : Unreserved l) (hr : Unreserved r) : Unreserved (l ++ r) := by
  intro c hc
  rw [String.toList_append] at hc
  exact (List.mem_append.mp hc).elim (hl c) (hr c)

def EndsWord (s : String) : Prop := ∃ c ∈ s.toList.getLast?, isBlank c = false

theorem EndsWord.append (l : String) (hr : EndsWord r) : EndsWord (l ++ r) := by
  obtain ⟨c, hc, hblank⟩ := hr
  refine ⟨c, ?_, hblank⟩
  rw [String.toList_append, List.getLast?_append, hc]
  rfl

theorem EndsWord.ne_nil (h : EndsWord s) : s.toList ≠ [] := by
  obtain ⟨c, hc, -⟩ := h
  rintro hnil
  simp [hnil] at hc

/-- A printed text, and the same text with the wildcards of skeletons. -/
structure Respelled (s s' : String) : Prop where
  colons : ∀ {cs}, (∀ c ∈ cs.head?, c ∈ closers) →
    colons 0 (s.toList ++ cs) = s'.toList ++ colons 0 cs
  minus : s'.startsWith "-" = s.startsWith "-"
  unreserved : Unreserved s ∧ Unreserved s'
  ends : EndsWord s ∧ EndsWord s'

theorem startsWith_append (hne : l.toList ≠ []) :
    (l ++ r).startsWith "-" = l.startsWith "-" := by
  rw [Bool.eq_iff_iff, String.startsWith_string_iff, String.startsWith_string_iff,
    String.toList_append]
  obtain ⟨c, cs, hc⟩ := List.exists_cons_of_ne_nil hne
  simp [hc]

theorem respelled_plain (hs : Unreserved s) (hq : '?' ∉ s.toList) (he : EndsWord s) :
    Respelled s s := ⟨fun _ => colons_plain hq, rfl, ⟨hs, hs⟩, ⟨he, he⟩⟩

theorem Respelled.before (h : Respelled s s') (hm : Unreserved m) (hq : '?' ∉ m.toList)
    (hne : m.toList ≠ []) : Respelled (m ++ s) (m ++ s') where
  colons hcs := by
    rw [String.toList_append, List.append_assoc, colons_plain hq, h.colons hcs]
    simp
  minus := by rw [startsWith_append hne, startsWith_append hne]
  unreserved := ⟨hm.append h.unreserved.1, hm.append h.unreserved.2⟩
  ends := ⟨h.ends.1.append m, h.ends.2.append m⟩

theorem Respelled.append (hl : Respelled l l') (hr : Respelled r r')
    (hhead : ∀ c ∈ r.toList.head?, c ∈ closers) : Respelled (l ++ r) (l' ++ r') where
  colons {cs} hcs := by
    have hclose : ∀ c ∈ (r.toList ++ cs).head?, c ∈ closers := by
      rwa [List.head?_append_of_ne_nil _ hr.ends.1.ne_nil]
    rw [String.toList_append, List.append_assoc, hl.colons hclose, hr.colons hcs]
    simp
  minus := by rw [startsWith_append hl.ends.1.ne_nil, startsWith_append hl.ends.2.ne_nil, hl.minus]
  unreserved := ⟨hl.unreserved.1.append hr.unreserved.1, hl.unreserved.2.append hr.unreserved.2⟩
  ends := ⟨hr.ends.1.append l, hr.ends.2.append l'⟩

theorem Respelled.join (hl : Respelled l l') (hr : Respelled r r') (hm : Unreserved m)
    (hq : '?' ∉ m.toList) (hne : m.toList ≠ []) (hhead : ∀ c ∈ m.toList.head?, c ∈ closers) :
    Respelled (l ++ m ++ r) (l' ++ m ++ r') := by
  rw [String.append_assoc, String.append_assoc]
  refine hl.append (hr.before hm hq hne) ?_
  rwa [String.toList_append, List.head?_append_of_ne_nil _ hne]

theorem Respelled.parens (h : Respelled s s') : Respelled (Expr.parens s) (Expr.parens s') := by
  have hclose : Respelled ")" ")" :=
    respelled_plain (by simp [Unreserved, reserved]) (by simp) ⟨')', by simp, by decide⟩
  have hopen : Respelled ("(" ++ s) ("(" ++ s') :=
    h.before (by simp [Unreserved, reserved]) (by simp) (by simp)
  exact hopen.append hclose (by simp [closers])

theorem Respelled.parensIf (h : Respelled s s') (c : Bool) :
    Respelled (Expr.parensIf c s) (Expr.parensIf c s') := by
  cases c with
  | true => exact h.parens
  | false => exact h

end Lines

section Words

variable {x s : String} {k : WildcardKind} {a : Option String}

theorem unreserved_identifier (hx : isIdentifier x = true) : Unreserved x := by
  intro c hc hmem
  have hname := isIdentifier_chars hx c hc
  simp only [reserved, List.mem_cons, List.not_mem_nil, or_false] at hmem
  rcases hmem with rfl | rfl | rfl | rfl <;> exact absurd hname (by decide)

theorem endsWord_identifier (hx : isIdentifier x = true) : EndsWord x := by
  obtain ⟨c, cs, hd, -, -⟩ := isIdentifier_iff.mp hx
  refine ⟨x.toList.getLast (by simp [hd]), List.getLast?_eq_some_getLast _, ?_⟩
  exact (isNameChar_class (isIdentifier_chars hx _ (List.getLast_mem _))).1

theorem question_not_mem (hx : isIdentifier x = true) : '?' ∉ x.toList :=
  fun hmem => absurd (isIdentifier_chars hx _ hmem) (by decide)

theorem respelled_name (hx : isIdentifier x = true) : Respelled x x :=
  respelled_plain (unreserved_identifier hx) (question_not_mem hx) (endsWord_identifier hx)

theorem numeralChar_class {c : Char} (h : Numeral.IsNumeralChar c) :
    isBlank c = false ∧ c ≠ '?' ∧ c ∉ reserved := by
  rcases h with hd | hmem
  · refine ⟨isBlank_of_isDigit hd, ?_, fun hmem => ?_⟩
    · rintro rfl
      exact absurd hd (by decide)
    · simp only [reserved, List.mem_cons, List.not_mem_nil, or_false] at hmem
      rcases hmem with rfl | rfl | rfl | rfl <;> exact absurd hd (by decide)
  · simp only [List.mem_cons, List.not_mem_nil, or_false] at hmem
    rcases hmem with rfl | rfl | rfl | rfl | rfl <;> decide

theorem respelled_numeral (hs : Numeral.isDecimal s.toList = true) : Respelled s s := by
  have hclass := fun c hc => numeralChar_class (Numeral.isDecimal_chars hs c hc)
  have hne : s.toList ≠ [] := by
    simp only [Numeral.isDecimal, Bool.and_eq_true, Bool.not_eq_true',
      List.isEmpty_eq_false_iff] at hs
    exact hs.2
  exact respelled_plain (fun c hc => (hclass c hc).2.2) (fun hmem => (hclass _ hmem).2.1 rfl)
    ⟨s.toList.getLast hne, List.getLast?_eq_some_getLast _, (hclass _ (List.getLast_mem _)).1⟩

theorem unreserved_kindText (ha : Lexeme.Avoids k a) : Unreserved (Lexeme.kindText k a) := by
  cases k with
  | free =>
    obtain ⟨y, rfl⟩ := Option.isSome_iff_exists.mp (ha.free_iff.mp rfl)
    have hopen : Unreserved ":free(" := by simp [Unreserved, reserved]
    have hclose : Unreserved ")" := by simp [Unreserved, reserved]
    exact (hopen.append (unreserved_identifier (ha.name y rfl))).append hclose
  | _ => simp [Lexeme.kindText, WildcardKind.name, Unreserved, reserved]

theorem endsWord_wildText (hx : isIdentifier x = true) (k : WildcardKind) (a : Option String) :
    EndsWord (Expr.wildText x k a) := by
  rw [Lexeme.wildText_eq]
  cases k with
  | anything =>
    rw [Lexeme.kindText, String.append_empty]
    exact (endsWord_identifier hx).append "?"
  | constant =>
    refine EndsWord.append _ ⟨'t', ?_, by decide⟩
    simp [Lexeme.kindText, WildcardKind.name]
  | symbol =>
    refine EndsWord.append _ ⟨'r', ?_, by decide⟩
    simp [Lexeme.kindText, WildcardKind.name]
  | free => exact EndsWord.append _ (EndsWord.append _ ⟨')', by simp, by decide⟩)

theorem respelled_wildcard (hx : isIdentifier x = true) (ha : Lexeme.Avoids k a) :
    Respelled (Expr.wildText x k a) (":" ++ x) where
  colons hcs := colons_wildcard hx ha hcs
  minus := by
    rw [Bool.eq_iff_iff, String.startsWith_string_iff, String.startsWith_string_iff]
    simp [Lexeme.wildText_eq]
  unreserved := by
    have hquestion : Unreserved "?" := by simp [Unreserved, reserved]
    have hcolon : Unreserved ":" := by simp [Unreserved, reserved]
    rw [Lexeme.wildText_eq]
    exact ⟨(hquestion.append (unreserved_identifier hx)).append (unreserved_kindText ha),
      hcolon.append (unreserved_identifier hx)⟩
  ends := ⟨endsWord_wildText hx k a, (endsWord_identifier hx).append ":"⟩

end Words

end Skeleton

namespace Expr

open Lexeme Skeleton

variable {α : Type} [Scalar α]

section Plain

mutual

def plain : Expr α → Expr α
  | op o l r => op o (plain l) (plain r)
  | fn f as => fn f (plains as)
  | eq l r => eq (plain l) (plain r)
  | .wild x _ _ => .wild x .anything none
  | leaf => leaf

def plains : List (Expr α) → List (Expr α)
  | [] => []
  | a :: as => plain a :: plains as

end

variable {t r : Expr α}

@[simp] theorem rank_plain (t : Expr α) : t.plain.rank = t.rank := by
  cases t <;> rfl

omit [Scalar α] in
@[simp] theorem isNum_plain (t : Expr α) : t.plain.isNum = t.isNum := by
  cases t <;> rfl

end Plain

section Reading

variable {x s s' l l' r r' : String} {t a b : Expr α}

theorem first?_colon {cs : List Char} (hx : isIdentifier x = true) (h : Delimited cs) :
    first? true ((":" ++ x).toList ++ cs) = some (some .wildcard, (":" ++ x).length) := by
  have hchars : (":" ++ x).toList ++ cs = ':' :: (x.toList ++ cs) := by simp
  have hlen : (":" ++ x).length = 1 + x.length := String.length_append ..
  have hwildcard : wildcardLength (':' :: (x.toList ++ cs)) = 1 + x.length := by
    simp only [wildcardLength, Lexeme.nameLength_append hx h.noNameChar,
      if_neg (Nat.ne_of_gt (isIdentifier_length_pos hx))]
  have hnumber : Numeral.length (':' :: (x.toList ++ cs)) = 0 :=
    numeralLength_eq_zero (by decide) (by decide)
  rw [hchars, hlen]
  simp [first?, hnumber, hwildcard]

theorem cutsInto_colon (hx : isIdentifier x = true) :
    CutsInto true (":" ++ x) [(.wildcard, ":" ++ x)] where
  starts := ⟨':', x.toList, by simp, by decide, by decide⟩
  lexes hcs h := by
    have hpos : 0 < (":" ++ x).length := by
      rw [String.length_append]
      exact Nat.lt_add_left _ (isIdentifier_length_pos hx)
    have hstars : ":" ++ x ≠ "**" := by
      intro heq
      have hchars := congrArg String.toList heq
      simp at hchars
    exact h.word hpos hstars (first?_colon hx hcs)

theorem readsAs_colon (hx : isIdentifier x = true) {n : Nat} :
    ReadsAs true (":" ++ x) n (Expr.wild x .anything none : Expr α) := by
  refine ⟨_, cutsInto_colon hx, fun ts hts => ?_⟩
  obtain ⟨u, us, rfl, hu, ho, hus⟩ := words_cons hts
  obtain rfl := List.map_eq_nil_iff.mp hus
  refine ⟨Grammar.wildcard u.text, binds_primary (.wildcard hu), ?_⟩
  have htext : u.text = String.ofList (':' :: x.toList) := by
    rw [ho, ← String.toList_inj]
    simp
  rw [htext, wildcard_plain ':' hx]
  change same _ _ = true
  simp [same]

theorem respelled_operation {o : Arithmetic} {left left' right right' : String} (l r : Expr α)
    (hl : Respelled left left') (hr : Respelled right right') :
    Respelled (operationText o l r left right) (operationText o l.plain r.plain left' right') := by
  have hjoin {l l' r r' : String} (hl : Respelled l l') (hr : Respelled r r') (m : String)
      (hm : m = " + " ∨ m = " - " ∨ m = "*" ∨ m = "/" ∨ m = "^") :
      Respelled (l ++ m ++ r) (l' ++ m ++ r') := by
    rcases hm with rfl | rfl | rfl | rfl | rfl <;>
      exact hl.join hr (by simp [Unreserved, reserved]) (by simp) (by simp) (by simp [closers])
  have hspaced (l m r : String) : l ++ " " ++ m ++ " " ++ r = l ++ (" " ++ m ++ " ") ++ r := by
    simp only [String.append_assoc]
  unfold operationText
  rw [rank_plain, rank_plain, hr.minus]
  have hleft := hl.parensIf
  have hright := hr.parensIf
  cases o with
  | add =>
    simp only [reduceCtorEq, if_false, Arithmetic.isAdditive, Arithmetic.symbol, if_true, hspaced]
    exact hjoin (hleft _) (hright _) " + " (by simp)
  | sub =>
    simp only [reduceCtorEq, if_false, Arithmetic.isAdditive, Arithmetic.symbol, if_true, hspaced]
    exact hjoin (hleft _) (hright _) " - " (by simp)
  | mul =>
    simp only [reduceCtorEq, if_false, Arithmetic.isAdditive, Arithmetic.symbol]
    exact hjoin (hleft _) (hright _) "*" (by simp)
  | div =>
    simp only [reduceCtorEq, if_false, Arithmetic.isAdditive, Arithmetic.symbol]
    exact hjoin (hleft _) (hright _) "/" (by simp)
  | pow =>
    simp only [if_true]
    exact hjoin (hleft _) (hright _) "^" (by simp)

theorem respelled_negation (r : Expr α) (h : Respelled s s') :
    Respelled (negationText r s) (negationText r.plain s') := by
  unfold negationText
  rw [rank_plain, h.minus]
  exact (h.parensIf _).before (by simp [Unreserved, reserved]) (by simp) (by simp)

theorem respelled_num [FaithfulScalar α] {v : α} (h : Decimal.Readable v) :
    Respelled (Decimal.text v) (Decimal.text v) := by
  have hmagnitude := respelled_numeral h.isDecimal
  cases hlt : Scalar.lt v Scalar.zero with
  | false => rwa [Decimal.text_of_nonneg h.finite hlt]
  | true =>
    rw [Decimal.text_of_neg h.finite hlt]
    exact hmagnitude.before (by simp [Unreserved, reserved]) (by simp) (by simp)

theorem respelled_arguments {ss ss' : List String} (h : Respelled s s')
    (hs : List.Forall₂ Respelled ss ss') :
    Respelled (", ".intercalate (s :: ss)) (", ".intercalate (s' :: ss')) := by
  induction hs generalizing s s' with
  | nil => simpa using h
  | cons hr _ ih =>
    rw [String.intercalate_cons_cons, String.intercalate_cons_cons]
    exact h.join (ih hr) (by simp [Unreserved, reserved]) (by simp) (by simp) (by simp [closers])

mutual

theorem exists_respelled [FaithfulScalar α] : ∀ t : Expr α, PrintableTerm t →
    ∃ s, Respelled t.text s ∧ ReadsAs true s t.rank t.plain
  | num v, h => ⟨_, respelled_num (printableTerm_num.mp h), readsAs_num (printableTerm_num.mp h)⟩
  | var x, h => ⟨_, respelled_name (printableTerm_var.mp h), readsAs_name (printableTerm_var.mp h)⟩
  | .wild x k a, h => by
    obtain ⟨hx, ha⟩ := printableTerm_wild.mp h
    exact ⟨_, respelled_wildcard hx ha, readsAs_colon hx⟩
  | eq l r, h => (printableTerm_eq h).elim
  | op o l r, h => by
    obtain ⟨hl, hr⟩ := printableTerm_op.mp h
    obtain ⟨left, sl, rl⟩ := exists_respelled l hl
    obtain ⟨right, sr, rr⟩ := exists_respelled r hr
    rw [← rank_plain] at rl rr
    rw [text]
    split
    · rename_i u hneg
      obtain ⟨rfl, hnum, v, rfl, hv⟩ := negated?_eq_some hneg
      exact ⟨_, respelled_negation r sr, readsAs_negation hv (by simpa using hnum) rr⟩
    · exact ⟨_, respelled_operation l r sl sr, readsAs_operation rl rr⟩
  | fn f [], h => absurd rfl (printableTerm_fn.mp h).1.2
  | fn f (a :: as), h => by
    obtain ⟨⟨hf, -⟩, has⟩ := printableTerm_fn.mp h
    obtain ⟨s, hs, rs⟩ := exists_respelled a (has a (by simp))
    obtain ⟨ss, hss, rss⟩ := exists_respelled_all as fun b hb => has b (by simp [hb])
    have hf' := hf.identifier
    have hcall := (respelled_arguments hs hss).parens.before (unreserved_identifier hf')
      (question_not_mem hf') (endsWord_identifier hf').ne_nil
    exact ⟨_, hcall, readsAs_call hf rs rss⟩

theorem exists_respelled_all [FaithfulScalar α] : ∀ as : List (Expr α),
    (∀ a ∈ as, PrintableTerm a) → ∃ ss, List.Forall₂ Respelled (texts as) ss ∧
      List.Forall₂ (fun s a => ∃ n, ReadsAs true s n a) ss (plains as)
  | [], _ => ⟨[], .nil, .nil⟩
  | a :: as, h => by
    obtain ⟨s, hs, rs⟩ := exists_respelled a (h a (by simp))
    obtain ⟨ss, hss, rss⟩ := exists_respelled_all as fun b hb => h b (by simp [hb])
    exact ⟨s :: ss, .cons hs hss, .cons ⟨_, rs⟩ rss⟩

end

theorem ReadsAs.starts {n : Nat} (h : ReadsAs true s n t) : StartsWord s := by
  obtain ⟨ps, hcut, -⟩ := h
  exact hcut.starts

theorem Printable.startsWord [FaithfulScalar α] (h : Printable t) : StartsWord t.text := by
  have hstarts (t : Expr α) (ht : PrintableTerm t) : StartsWord t.text :=
    (readsAs_text t ht fun _ _ => rfl).starts
  cases t with
  | eq l r => exact ((hstarts l h.1).append " = ").append r.text
  | _ => exact hstarts _ h

theorem skeletonText_eq (h : Respelled t.text s) : skeletonText t = s := by
  have hcolons := h.colons (show ∀ c ∈ [].head?, c ∈ closers by simp)
  rw [List.append_nil] at hcolons
  rw [skeletonText, hcolons, ← String.toList_inj]
  simp [colons]

/-- The text of a skeleton is its text as a pattern, with colons, and is read as the skeleton
without the kinds of its wildcards. -/
theorem skeletonText_reads [FaithfulScalar α] (h : Printable t) :
    Respelled t.text (skeletonText t) ∧ StartsWord (skeletonText t) ∧
      ∃ p, ofPattern (skeletonText t) = .ok p ∧ (p == t.plain) = true := by
  have hterm (t : Expr α) (ht : PrintableTerm t) : Respelled t.text (skeletonText t) ∧
      StartsWord (skeletonText t) ∧
        ∃ p, ofPattern (skeletonText t) = .ok p ∧ (p == t.plain) = true := by
    obtain ⟨s, hs, hread⟩ := exists_respelled t ht
    rw [skeletonText_eq hs]
    exact ⟨hs, hread.starts, hread.read⟩
  cases t with
  | eq l r =>
    obtain ⟨left, sl, rl⟩ := exists_respelled l h.1
    obtain ⟨right, sr, rr⟩ := exists_respelled r h.2
    have hs : Respelled (eq l r).text (left ++ " = " ++ right) :=
      sl.join sr (by simp [Unreserved, reserved]) (by simp) (by simp) (by simp [closers])
    rw [skeletonText_eq hs]
    exact ⟨hs, (rl.starts.append " = ").append right, rl.read_eq rr⟩
  | _ => exact hterm _ h

end Reading

end Expr

end RuleAlgebra
