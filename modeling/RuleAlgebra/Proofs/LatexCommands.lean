import RuleAlgebra.Proofs.SkeletonTexts

/-!
LaTeX rewritten as plain text. Commands and braces are replaced by calls and parentheses, so that
the LaTeX of an expression becomes a text that the parser reads.
-/

namespace RuleAlgebra.Latex

open RuleAlgebra.Expr RuleAlgebra.Text

def functions : List String :=
  ["sin", "cos", "tan", "sec", "csc", "cot", "asin", "acos", "atan", "sinh", "cosh", "tanh", "ln",
    "exp"]

/-- The commands and braces that are no names of functions, with the text that each is replaced
by. -/
def signs : List (String × String) :=
  [("\\left(", "("), ("\\right)", ")"), ("\x7b", "("), ("\x7d\x7b", ")/("), ("\x7d\\left(", "("),
    ("\\frac\x7b", "("), ("\\cdot", "*"), ("\\pi", "pi"), ("\\sqrt\x7b", "f_sqrt("),
    ("\\operatorname\x7b", "f_")]

def commands : List (String × String) :=
  signs ++ functions.map fun f => (latexName f ++ "\\left(", "f_" ++ f ++ "(")

/-- Replaces the commands of a text. The first `skip` characters belong to a command that has been
replaced. -/
def replaced : (skip : Nat) → List Char → List Char
  | _, [] => []
  | skip + 1, _ :: cs => replaced skip cs
  | 0, c :: cs =>
    match commands.find? fun p => p.1.toList.isPrefixOf (c :: cs) with
    | some (command, text) => text.toList ++ replaced (command.length - 1) cs
    | none => (if c = '\x7d' then ')' else c) :: replaced 0 cs

section Replacement

variable {cs ws : List Char}

def starters : List Char := ['\\', '\x7b', '\x7d']

theorem commands_head : ∀ p ∈ commands, p.1.toList.head? ∈ starters.map some := by
  decide

theorem commands_cons {p : String × String} (hp : p ∈ commands) :
    ∃ c ∈ starters, ∃ ws, p.1.toList = c :: ws := by
  obtain ⟨c, hc, hhead⟩ := List.mem_map.mp (commands_head p hp)
  exact ⟨c, hc, _, List.eq_cons_of_mem_head? hhead.symm⟩

theorem commands_apart : ∀ p ∈ commands, ∀ q ∈ commands, p.1.toList <+: q.1.toList → p = q := by
  decide

def openings : List (List Char) := ["\x7b".toList, "\\left(".toList]

theorem commands_brace : ∀ p ∈ commands, p.1.toList.head? = some '\x7d' →
    p.1.toList.tail ∈ openings := by
  decide

theorem replaced_skip (ws cs : List Char) : replaced ws.length (ws ++ cs) = replaced 0 cs := by
  induction ws with
  | nil => rfl
  | cons w ws ih => exact ih

theorem replaced_command {p : String × String} (hp : p ∈ commands) (cs : List Char) :
    replaced 0 (p.1.toList ++ cs) = p.2.toList ++ replaced 0 cs := by
  obtain ⟨c, -, ws, hc⟩ := commands_cons hp
  have hfind : commands.find? (fun q => q.1.toList.isPrefixOf (p.1.toList ++ cs)) = some p := by
    have hsome : (commands.find? fun q => q.1.toList.isPrefixOf (p.1.toList ++ cs)).isSome := by
      rw [List.find?_isSome]
      exact ⟨p, hp, List.isPrefixOf_iff_prefix.mpr (List.prefix_append ..)⟩
    obtain ⟨q, hq⟩ := Option.isSome_iff_exists.mp hsome
    have hmem := List.mem_of_find?_eq_some hq
    have hbegin : q.1.toList <+: p.1.toList ++ cs := by simpa using List.find?_some hq
    -- of two commands that start one text, one starts the other
    rcases List.prefix_or_prefix_of_prefix hbegin (List.prefix_append ..) with h | h
    · rw [hq, commands_apart q hmem p hp h]
    · rw [hq, commands_apart p hp q hmem h]
  rw [hc, List.cons_append] at hfind ⊢
  have hlen : p.1.length - 1 = ws.length := by
    rw [← String.length_toList, hc, List.length_cons, Nat.add_sub_cancel]
  simp only [replaced, hfind, hlen, replaced_skip]

theorem replaced_plain (h : ∀ c ∈ ws, c ∉ starters) :
    replaced 0 (ws ++ cs) = ws ++ replaced 0 cs := by
  induction ws with
  | nil => rfl
  | cons w ws ih =>
    obtain ⟨hw, hws⟩ := List.forall_mem_cons.mp h
    have hfind : commands.find? (fun p => p.1.toList.isPrefixOf (w :: (ws ++ cs))) = none := by
      rw [List.find?_eq_none]
      intro p hp hbegin
      obtain ⟨c, hc, rest, hcons⟩ := commands_cons hp
      rw [hcons, List.isPrefixOf_cons_cons, Bool.and_eq_true, beq_iff_eq] at hbegin
      exact hw (hbegin.1 ▸ hc)
    have hbrace : w ≠ '\x7d' := by
      rintro rfl
      exact hw (by decide)
    simp only [List.cons_append, replaced, hfind, if_neg hbrace, ih hws]

/-- Whether a closing brace before a text closes an argument, and is no part of a command. -/
def Closes (cs : List Char) : Prop := ∀ w ∈ openings, ¬w <+: cs

theorem replaced_brace (h : Closes cs) : replaced 0 ('\x7d' :: cs) = ')' :: replaced 0 cs := by
  have hfind : commands.find? (fun p => p.1.toList.isPrefixOf ('\x7d' :: cs)) = none := by
    rw [List.find?_eq_none]
    intro p hp hbegin
    obtain ⟨c, -, ws, hcons⟩ := commands_cons hp
    have hbrace := commands_brace p hp
    rw [hcons, List.isPrefixOf_cons_cons, Bool.and_eq_true, beq_iff_eq] at hbegin
    obtain ⟨rfl, hws⟩ := hbegin
    rw [hcons] at hbrace
    exact h ws (hbrace rfl) (List.isPrefixOf_iff_prefix.mp hws)
  simp [replaced, hfind]

end Replacement

section Rewriting

variable {P Q : List Char → Prop} {s s' l l' r r' : String}

/-- A text in which replacing the commands gives another one, before all that satisfies `P`. -/
def Rewrites (P : List Char → Prop) (s s' : String) : Prop :=
  ∀ cs, P cs → replaced 0 (s.toList ++ cs) = s'.toList ++ replaced 0 cs

theorem Rewrites.append (hl : Rewrites P l l') (hr : Rewrites Q r r')
    (hP : ∀ cs, Q cs → P (r.toList ++ cs)) : Rewrites Q (l ++ r) (l' ++ r') := by
  intro cs hcs
  rw [String.toList_append, List.append_assoc, hl _ (hP cs hcs), hr cs hcs]
  simp

def Anything (_ : List Char) : Prop := True

theorem rewrites_command {m m' : String} (h : (m, m') ∈ commands) : Rewrites P m m' :=
  fun cs _ => replaced_command h cs

theorem rewrites_sign {m m' : String} (h : (m, m') ∈ signs) : Rewrites P m m' :=
  rewrites_command (List.mem_append_left _ h)

theorem rewrites_plain (h : ∀ c ∈ s.toList, c ∉ starters) : Rewrites P s s :=
  fun _ _ => replaced_plain h

theorem rewrites_brace : Rewrites Closes "\x7d" ")" := fun _ hcs => by
  simpa using replaced_brace hcs

def followers : List String :=
  [" + ", " - ", " \\cdot ", " = ", "^", ", ", "\\right)", "\x7d\x7b", "\x7d"]

theorem followers_apart : ∀ m ∈ followers, ∀ w ∈ openings,
    ¬w <+: m.toList ∧ ¬m.toList <+: w := by
  decide

theorem closes_follower {m : String} (hm : m ∈ followers) (cs : List Char) :
    Closes (m.toList ++ cs) := by
  intro w hw hbegin
  obtain ⟨hwm, hmw⟩ := followers_apart m hm w hw
  exact (List.prefix_or_prefix_of_prefix hbegin (List.prefix_append ..)).elim hwm hmw

theorem Rewrites.follow {m m' : String} (h : Rewrites Closes s s') (hm : Rewrites P m m')
    (hmem : m ∈ followers) : Rewrites P (s ++ m) (s' ++ m') :=
  h.append hm fun cs _ => closes_follower hmem cs

theorem Rewrites.start {m m' : String} (hm : Rewrites Anything m m') (h : Rewrites P s s') :
    Rewrites P (m ++ s) (m' ++ s') :=
  hm.append h fun _ _ => trivial

theorem Rewrites.parens (h : Rewrites Closes s s') : Rewrites P (latexParens s) (parens s') := by
  have hopen : Rewrites Anything "\\left(" "(" := rewrites_sign (by decide)
  have hclose : Rewrites P "\\right)" ")" := rewrites_sign (by decide)
  exact (hopen.start h).follow hclose (by decide)

theorem Rewrites.parensIf (h : Rewrites Closes s s') (c : Bool) :
    Rewrites Closes (latexParensIf c s) (Expr.parensIf c s') := by
  cases c with
  | true => exact h.parens
  | false => exact h

theorem Rewrites.braces (h : Rewrites Closes s s') :
    Rewrites Closes (braces s) (Expr.parens s') := by
  have hopen : Rewrites Anything "\x7b" "(" := rewrites_sign (by decide)
  exact (hopen.start h).follow rewrites_brace (by decide)

theorem Rewrites.root (h : Rewrites Closes s s') :
    Rewrites Closes ("\\sqrt" ++ Expr.braces s) ("f_sqrt" ++ Expr.parens s') := by
  have hopen : Rewrites Anything "\\sqrt\x7b" "f_sqrt(" := rewrites_sign (by decide)
  have hlatex : "\\sqrt" ++ Expr.braces s = "\\sqrt\x7b" ++ s ++ "\x7d" := by
    simp [← String.toList_inj, Expr.braces]
  have htext : "f_sqrt" ++ Expr.parens s' = "f_sqrt(" ++ s' ++ ")" := by
    simp [← String.toList_inj, Expr.parens]
  rw [hlatex, htext]
  exact (hopen.start h).follow rewrites_brace (by decide)

theorem Rewrites.fraction (hl : Rewrites Closes l l') (hr : Rewrites Closes r r') :
    Rewrites Closes ("\\frac" ++ Expr.braces l ++ Expr.braces r)
      (Expr.parens l' ++ "/" ++ Expr.parens r') := by
  have hopen : Rewrites Anything "\\frac\x7b" "(" := rewrites_sign (by decide)
  have hmiddle : Rewrites Anything "\x7d\x7b" ")/(" := rewrites_sign (by decide)
  have hlatex : "\\frac" ++ Expr.braces l ++ Expr.braces r =
      "\\frac\x7b" ++ l ++ "\x7d\x7b" ++ r ++ "\x7d" := by
    simp [← String.toList_inj, Expr.braces]
  have htext : Expr.parens l' ++ "/" ++ Expr.parens r' = "(" ++ l' ++ ")/(" ++ r' ++ ")" := by
    simp [← String.toList_inj, Expr.parens]
  rw [hlatex, htext]
  exact (((hopen.start hl).follow hmiddle (by decide)).start hr).follow rewrites_brace (by decide)

end Rewriting

section Names

variable {P : List Char → Prop} {f x s s' : String}

theorem identifier_plain (hx : isIdentifier x = true) : ∀ c ∈ x.toList, c ∉ starters := by
  intro c hc hmem
  have hname := isIdentifier_chars hx c hc
  simp only [starters, List.mem_cons, List.not_mem_nil, or_false] at hmem
  rcases hmem with rfl | rfl | rfl <;> exact absurd hname (by decide)

theorem rewrites_variable (hx : isIdentifier x = true) :
    Rewrites P (if x = "pi" then "\\pi" else x) x := by
  split_ifs with hpi
  · subst hpi
    exact rewrites_sign (by decide)
  · exact rewrites_plain (identifier_plain hx)

theorem latexName_of_not_mem (h : f ∉ functions) : latexName f = "\\operatorname" ++ braces f := by
  unfold latexName
  split <;> first | exact absurd (by decide) h | rfl

theorem function_mem_commands (h : f ∈ functions) :
    (latexName f ++ "\\left(", "f_" ++ f ++ "(") ∈ commands := by
  rw [commands, List.mem_append]
  exact .inr (List.mem_map.mpr ⟨f, h, rfl⟩)

theorem rewrites_name (hf : isIdentifier f = true) :
    Rewrites Anything (latexName f ++ "\\left(") ("f_" ++ f ++ "(") := by
  by_cases hmem : f ∈ functions
  · exact rewrites_command (function_mem_commands hmem)
  · have hopen : Rewrites Anything "\\operatorname\x7b" "f_" :=
      rewrites_sign (by decide)
    have hclose : Rewrites Anything "\x7d\\left(" "(" := rewrites_sign (by decide)
    have hlatex : "\\operatorname" ++ braces f ++ "\\left(" =
        "\\operatorname\x7b" ++ f ++ "\x7d\\left(" := by
      simp [← String.toList_inj, braces]
    rw [latexName_of_not_mem hmem, hlatex]
    exact (hopen.start (rewrites_plain (P := Anything) (identifier_plain hf))).start hclose

theorem Rewrites.call (hf : isIdentifier f = true) (h : Rewrites Closes s s') :
    Rewrites P (latexName f ++ latexParens s) ("f_" ++ f ++ Expr.parens s') := by
  have hclose : Rewrites P "\\right)" ")" := rewrites_sign (by decide)
  have hlatex : latexName f ++ latexParens s = latexName f ++ "\\left(" ++ s ++ "\\right)" := by
    simp only [latexParens, String.append_assoc]
  have htext : "f_" ++ f ++ Expr.parens s' = "f_" ++ f ++ "(" ++ s' ++ ")" := by
    simp only [Expr.parens, String.append_assoc]
  rw [hlatex, htext]
  exact ((rewrites_name hf).start h).follow hclose (by decide)

theorem isDigit_starter {c : Char} (h : c ∈ starters) : isDigit c = false := by
  simp only [starters, List.mem_cons, List.not_mem_nil, or_false] at h
  rcases h with rfl | rfl | rfl <;> decide

theorem numeral_plain (hs : Numeral.isDecimal s.toList = true) : ∀ c ∈ s.toList, c ∉ starters := by
  intro c hc hmem
  rcases Numeral.isDecimal_chars hs c hc with hd | hsign
  · simp [isDigit_starter hmem] at hd
  · simp only [starters, List.mem_cons, List.not_mem_nil, or_false] at hmem hsign
    rcases hmem with rfl | rfl | rfl <;> simp at hsign

theorem rewrites_arguments {ss ss' : List String} (h : Rewrites Closes s s')
    (hs : List.Forall₂ (Rewrites Closes) ss ss') :
    Rewrites Closes (", ".intercalate (s :: ss)) (", ".intercalate (s' :: ss')) := by
  induction hs generalizing s s' with
  | nil => simpa using h
  | cons hr _ ih =>
    rw [String.intercalate_cons_cons, String.intercalate_cons_cons]
    have hcomma : Rewrites Anything ", " ", " := rewrites_plain (by simp [starters])
    exact (h.follow hcomma (by decide)).start (ih hr)

end Names

end RuleAlgebra.Latex
