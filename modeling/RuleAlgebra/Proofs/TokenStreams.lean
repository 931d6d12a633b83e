import RuleAlgebra.Proofs.FirstLexemes
import RuleAlgebra.Proofs.Words

/-!
Texts as they are laid out by their tokens: white space, a lexeme, white space, and so on to the
end. Scanning a text finds its lexemes in order, or the first character that no lexeme starts with.
-/

namespace RuleAlgebra.Lexeme

open RuleAlgebra.Text

variable {wild : Bool} {kind : Token.Kind} {cs w : List Char} {n position ending : Nat}
  {tokens : List Token}

/-- The text of a token, where two stars are read as the power sign. -/
def spelled (w : List Char) : String := if w = ['*', '*'] then "^" else String.ofList w

theorem spelled_eq (w : List Char) :
    (if String.ofList w = "**" then "^" else String.ofList w) = spelled w := by
  have hstars : String.ofList w = "**" ↔ w = ['*', '*'] := by
    rw [show "**" = String.ofList ['*', '*'] from rfl, String.ofList_inj]
  simp only [spelled, hstars]

section Scanning

theorem scan_none {c : Char} (h : first? wild (c :: cs) = none) :
    scan wild 0 position (c :: cs) = .error (.character c position) := by
  simp only [scan, h]
  rfl

def put (kind : Option Token.Kind) (w : List Char) (position : Nat) (rest : TokenStream) :
    TokenStream :=
  match kind with
  | none => rest
  | some kind => ⟨⟨kind, spelled w, position⟩ :: rest.tokens, rest.ending⟩

theorem scan_lexeme {kind : Option Token.Kind} (h : IsLexeme wild kind w (w ++ cs)) :
    scan wild 0 position (w ++ cs) =
      (scan wild 0 (position + w.length) cs).map (put kind w position) := by
  have hfirst := first?_of_isLexeme h
  cases w with
  | nil => exact absurd h.length_pos (by simp)
  | cons c w =>
    have hskip : scan wild w.length (position + 1) (w ++ cs) =
        scan wild 0 (position + (c :: w).length) cs := by
      rw [scan_skip, List.length_cons, Nat.add_assoc, Nat.add_comm 1]
    have htake : (c :: (w ++ cs)).take (w.length + 1) = c :: w := by simp
    rw [List.cons_append] at hfirst ⊢
    rw [scan, hfirst]
    cases kind with
    | none =>
      simp only [List.length_cons, Nat.add_sub_cancel, hskip]
      cases scan wild 0 (position + (w.length + 1)) cs <;> rfl
    | some kind =>
      simp only [List.length_cons, Nat.add_sub_cancel, hskip, htake, spelled_eq]
      cases scan wild 0 (position + (w.length + 1)) cs <;> rfl

/-- Texts are read lexeme by lexeme to the end or to a character that no lexeme starts with. -/
theorem lexeme_induction (wild : Bool) {P : Nat → List Char → Prop}
    (hnil : ∀ position, P position [])
    (hnone : ∀ position c cs, first? wild (c :: cs) = none → P position (c :: cs))
    (hlexeme : ∀ position kind w cs, IsLexeme wild kind w (w ++ cs) →
      P (position + w.length) cs → P position (w ++ cs)) :
    ∀ position cs, P position cs := by
  intro position cs
  induction hlen : cs.length using Nat.strong_induction_on generalizing cs position with
  | _ len ih =>
  cases cs with
  | nil => exact hnil position
  | cons c cs =>
    cases hfirst : first? wild (c :: cs) with
    | none => exact hnone position c cs hfirst
    | some found =>
      obtain ⟨kind, n⟩ := found
      obtain ⟨h, hpos, hle⟩ := isLexeme_of_first? hfirst
      have hsplit : (c :: cs).take n ++ (c :: cs).drop n = c :: cs := List.take_append_drop n _
      have hshorter : ((c :: cs).drop n).length < len := by
        rw [List.length_drop, hlen]
        omega
      rw [← hsplit] at h ⊢
      exact hlexeme position kind _ _ (by rwa [hsplit] at h ⊢) (ih _ hshorter _ _ rfl)

end Scanning

/-- What is left of a text, its tokens and its end. -/
inductive Laid (wild : Bool) : Nat → List Char → List Token → Nat → Prop where
  | last (position : Nat) (gap : List Char) (hgap : ∀ c ∈ gap, isBlank c = true) :
      Laid wild position gap [] (position + gap.length)
  | token {position ending : Nat} {gap w cs : List Char} {kind : Token.Kind} {tokens : List Token}
      (hgap : ∀ c ∈ gap, isBlank c = true) (hlexeme : IsLexeme wild (some kind) w (w ++ cs))
      (hrest : Laid wild (position + gap.length + w.length) cs tokens ending) :
      Laid wild position (gap ++ (w ++ cs))
        (⟨kind, spelled w, position + gap.length⟩ :: tokens) ending

theorem Laid.blank (hw : ∀ c ∈ w, isBlank c = true)
    (h : Laid wild (position + w.length) cs tokens ending) :
    Laid wild position (w ++ cs) tokens ending := by
  cases h with
  | last _ _ hgap =>
    rw [Nat.add_assoc, ← List.length_append]
    apply Laid.last
    rintro c hc
    exact (List.mem_append.mp hc).elim (hw c) (hgap c)
  | @token _ _ gap v cs kind tokens hgap hlexeme hrest =>
    have hboth : ∀ c ∈ w ++ gap, isBlank c = true := by
      rintro c hc
      exact (List.mem_append.mp hc).elim (hw c) (hgap c)
    rw [Nat.add_assoc position, ← List.length_append] at hrest ⊢
    rw [← List.append_assoc]
    exact Laid.token hboth hlexeme hrest

theorem blank_of_isLexeme (h : IsLexeme wild none w cs) : ∀ c ∈ w, isBlank c = true := by
  obtain ⟨a, ⟨c, hc, rfl⟩, b, hb, rfl⟩ := Language.mem_mul.mp h.mem
  simpa using ⟨hc, hb⟩

theorem laid_of_scan (position : Nat) (cs : List Char) : ∀ s,
    scan wild 0 position cs = .ok s → Laid wild position cs s.tokens s.ending := by
  induction position, cs using lexeme_induction wild with
  | hnil position =>
    rintro s h
    obtain rfl := Except.ok.inj h
    exact Laid.last position [] (by simp)
  | hnone position c cs hfirst =>
    rintro s h
    rw [scan_none hfirst] at h
    exact absurd h (by simp)
  | hlexeme position kind w cs hlexeme ih =>
    rintro s h
    rw [scan_lexeme hlexeme] at h
    cases hscan : scan wild 0 (position + w.length) cs with
    | error fault => exact absurd (hscan ▸ h) (by simp [Except.map])
    | ok rest =>
      rw [hscan] at h
      obtain rfl := Except.ok.inj h
      cases kind with
      | none => exact Laid.blank (blank_of_isLexeme hlexeme) (ih rest hscan)
      | some kind => exact Laid.token (List.forall_mem_nil _) hlexeme (ih rest hscan)

/-- A text that is not scanned has a character that no lexeme starts with, and what stands in front
of that character is scanned. -/
theorem scan_error (position : Nat) (cs : List Char) : ∀ fault,
    scan wild 0 position cs = .error fault → ∃ before c after, cs = before ++ c :: after ∧
      fault = .character c (position + before.length) ∧
      (∃ s, scan wild 0 position before = .ok s) ∧
      ∀ kind, ∀ w ∈ language wild kind, ¬w <+: c :: after := by
  induction position, cs using lexeme_induction wild with
  | hnil position =>
    rintro fault h
    exact absurd h (by simp [scan, pure, Except.pure])
  | hnone position c cs hfirst =>
    rintro fault h
    rw [scan_none hfirst] at h
    obtain rfl := Except.error.inj h
    exact ⟨[], c, cs, rfl, rfl, ⟨_, rfl⟩, no_lexeme_of_first? hfirst⟩
  | hlexeme position kind w cs hlexeme ih =>
    rintro fault h
    rw [scan_lexeme hlexeme] at h
    cases hscan : scan wild 0 (position + w.length) cs with
    | ok rest => exact absurd (hscan ▸ h) (by simp [Except.map])
    | error fault' =>
      rw [hscan] at h
      obtain rfl := Except.error.inj h
      obtain ⟨before, c, after, rfl, rfl, ⟨s, hs⟩, hnone⟩ := ih _ hscan
      have hbefore : IsLexeme wild kind w (w ++ before) :=
        hlexeme.of_prefix (by simp) (List.prefix_append w before)
      refine ⟨w ++ before, c, after, by simp, by simp [Nat.add_assoc], ?_, hnone⟩
      exact ⟨put kind w position s, by rw [scan_lexeme hbefore, hs]; rfl⟩

def positions (tokens : List Token) (ending : Nat) : List Nat :=
  tokens.map Token.position ++ [ending]

def ends (tokens : List Token) (lexemes : List (List Char)) : List Nat :=
  List.zipWith (fun t w => t.position + w.length) tokens lexemes

def slice (text : List Char) (i j : Nat) : List Char := (text.take j).drop i

/-- The part of a text from `start` on is cut into lexemes with white space around them; the tokens
stand for the lexemes. -/
structure Sliced (wild : Bool) (text : List Char) (start : Nat) (tokens : List Token) (ending : Nat)
    (lexemes gaps : List (List Char)) : Prop where
  slices : List.Forall₂ (fun t w => IsLexeme wild (some t.kind) w (text.drop t.position) ∧
    t.text = spelled w) tokens lexemes
  apart : List.Forall₂ (· ≤ ·) (start :: ends tokens lexemes) (positions tokens ending)
  between : gaps =
    List.zipWith (slice text) (start :: ends tokens lexemes) (positions tokens ending)
  blank : ∀ gap ∈ gaps, ∀ c ∈ gap, isBlank c = true
  recovered : text.drop start = (List.zipWith (· ++ ·) gaps (lexemes ++ [[]])).flatten

section Layout

theorem Laid.le_positions (h : Laid wild position cs tokens ending) :
    ∀ p ∈ positions tokens ending, position ≤ p := by
  induction h with
  | last position gap hgap => simp [positions]
  | token hgap hlexeme hrest ih =>
    rintro p hp
    rcases List.mem_cons.mp hp with rfl | hp
    · exact Nat.le_add_right _ _
    · have hle := ih p hp
      omega

theorem Laid.increasing (h : Laid wild position cs tokens ending) :
    (positions tokens ending).Pairwise (· < ·) := by
  induction h with
  | last position gap hgap => simp [positions]
  | token hgap hlexeme hrest ih =>
    apply List.pairwise_cons.mpr ⟨_, ih⟩
    rintro p hp
    have hle := hrest.le_positions p hp
    have hpos := hlexeme.length_pos
    dsimp only
    omega

theorem Laid.ending_eq (h : Laid wild position cs tokens ending) :
    ending = position + cs.length := by
  induction h with
  | last position gap hgap => rfl
  | token hgap hlexeme hrest ih =>
    rw [ih]
    simp only [List.length_append]
    omega

theorem slice_of_drop {text gap rest : List Char} {start : Nat}
    (h : text.drop start = gap ++ rest) : slice text start (start + gap.length) = gap := by
  rw [slice, List.drop_take, Nat.add_sub_cancel_left, h, List.take_left]

theorem Laid.sliced {text : List Char} (h : Laid wild position cs tokens ending)
    (htext : text.drop position = cs) :
    ∃ lexemes gaps, Sliced wild text position tokens ending lexemes gaps := by
  induction h with
  | last position gap hgap =>
    have hslice := slice_of_drop (htext.trans (List.append_nil gap).symm)
    refine ⟨[], [gap], ⟨.nil, ?_, ?_, ?_, ?_⟩⟩
    · simp [positions, ends]
    · simp [positions, ends, hslice]
    · simpa using hgap
    · simpa using htext
  | @token position ending gap w cs kind tokens hgap hlexeme hrest ih =>
    have hlexeme_text : text.drop (position + gap.length) = w ++ cs := by
      rw [← List.drop_drop, htext, List.drop_left]
    have hrest_text : text.drop (position + gap.length + w.length) = cs := by
      rw [← List.drop_drop, hlexeme_text, List.drop_left]
    obtain ⟨lexemes, gaps, hsliced⟩ := ih hrest_text
    refine ⟨w :: lexemes, gap :: gaps, ⟨?_, ?_, ?_, ?_, ?_⟩⟩
    · exact .cons ⟨hlexeme_text ▸ hlexeme, rfl⟩ hsliced.slices
    · exact .cons (Nat.le_add_right _ _) hsliced.apart
    · rw [hsliced.between]
      simp [positions, ends, slice_of_drop htext]
    · exact List.forall_mem_cons.mpr ⟨hgap, hsliced.blank⟩
    · rw [htext, ← hrest_text, hsliced.recovered]
      simp

end Layout

/-- A text is cut into its tokens and the white space between them, or there is a first character
that no lexeme starts with. -/
theorem ofText_slices (text : String) (wild : Bool) :
    match TokenStream.ofText text wild with
    | .ok s =>
      s.entries.getLast? = some ⟨"EOF", "", text.length⟩ ∧
        (s.entries.map TokenStream.Entry.position).Pairwise (· < ·) ∧
        ∃ lexemes gaps, Sliced wild text.toList 0 s.tokens s.ending lexemes gaps
    | .error fault =>
      ∃ before c after, text.toList = before ++ c :: after ∧ fault = .character c before.length ∧
        (∃ s, TokenStream.ofText (String.ofList before) wild = .ok s) ∧
        ∀ kind, ∀ w ∈ language wild kind, ¬w <+: c :: after := by
  cases h : TokenStream.ofText text wild with
  | ok s =>
    have hlaid := laid_of_scan 0 text.toList s h
    have hending : s.ending = text.length := by
      rw [hlaid.ending_eq, Nat.zero_add, String.length_toList]
    have hpositions : s.entries.map TokenStream.Entry.position = positions s.tokens s.ending := by
      simp [TokenStream.entries, TokenStream.last, positions]
    refine ⟨?_, ?_, hlaid.sliced rfl⟩
    · simp [TokenStream.entries, TokenStream.last, hending]
    · rw [hpositions]
      exact hlaid.increasing
  | error fault =>
    obtain ⟨before, c, after, htext, hfault, ⟨s, hs⟩, hnone⟩ := scan_error 0 text.toList fault h
    refine ⟨before, c, after, htext, by rwa [Nat.zero_add] at hfault, ⟨s, ?_⟩, hnone⟩
    rwa [TokenStream.ofText, String.toList_ofList]

end RuleAlgebra.Lexeme
