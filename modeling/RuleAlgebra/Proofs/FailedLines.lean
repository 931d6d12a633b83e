import Mathlib
import RuleAlgebra.CommandLine.Run
import RuleAlgebra.Proofs.Outcomes

/-!
Lines that fail leave a session as it was. Expressions and commands of mathematics never change it,
and a file or a typed text of rules with one line that cannot be taken is refused as a whole. What
follows such a line goes on as if it had not been there.
-/

namespace RuleAlgebra

open Text

namespace Text

theorem cutLines_append (line : List Char) (fresh : Bool) (cs ds : List Char)
    (hfresh : fresh = true → line = []) :
    cutLines isLineEnd line fresh (cs ++ '\n' :: ds) =
      cutLines isLineEnd line fresh (cs ++ ['\n']) ++ cutLines isLineEnd [] false ds := by
  induction cs generalizing line fresh with
  | nil =>
    cases fresh with
    | false => simp [cutLines, isLineEnd]
    | true => simp [cutLines, hfresh rfl]
  | cons c cs ih =>
    simp only [List.cons_append, cutLines]
    split_ifs
    · exact ih line false (by simp)
    · rw [ih [] (c == '\r') fun _ => rfl, List.cons_append]
    · exact ih (c :: line) false (by simp)

theorem lines_append (a b : String) : lines (a ++ "\n" ++ b) = lines (a ++ "\n") ++ lines b := by
  simp only [lines, String.toList_append, List.append_assoc]
  exact cutLines_append [] false a.toList b.toList fun _ => rfl

end Text

section RuleTexts

theorem RuleText.mem_unbound {α : Type} {pattern skeleton : Expr α} {x : String} :
    x ∈ unbound pattern skeleton ↔ x ∈ skeleton.wildcards ∧ x ∉ pattern.wildcards := by
  simp [unbound]

variable (α : Type) [Scalar α]

/-- A line that spoils a text of rules: it has an arrow and is neither a header nor a comment, but
it is no rule, or its skeleton has a wildcard that its pattern lacks. -/
inductive RuleText.Spoils (line : String) : Prop
  | unreadable (hheader : isHeader (strip line) = false)
    (hnone : (RuleLine.ofText? (strip line) : Option (RuleLine α)) = none)
    (harrow : (cut? "=>" (strip line)).isSome = true)
    (hcomment : (strip line).startsWith "#" = false) : Spoils line
  | unbound (hheader : isHeader (strip line) = false) {r : RuleLine α}
    (hsome : RuleLine.ofText? (strip line) = some r) {x : String}
    (hskeleton : x ∈ r.skeleton.wildcards) (hpattern : x ∉ r.pattern.wildcards) : Spoils line

def HasSpoiltLine (text : String) : Prop := ∃ line ∈ lines text, RuleText.Spoils α line

variable {α}

theorem RuleText.rulesFrom_of_spoils {texts : List String} (n : Nat) (ts : List String)
    (h : ∃ line ∈ texts, Spoils α line) :
    ∃ fault, (rulesFrom n ts texts : Except Failure (List (Rule α))) = .error (.request fault) := by
  induction texts generalizing n ts with
  | nil => simp at h
  | cons raw rest ih =>
    -- when this line is not the spoilt one, a later line is
    have later (hraw : ¬Spoils α raw) : ∃ line ∈ rest, Spoils α line := by
      obtain ⟨line, hline, hspoils⟩ := h
      rcases List.mem_cons.mp hline with rfl | hline
      · exact absurd hspoils hraw
      · exact ⟨line, hline, hspoils⟩
    unfold rulesFrom
    dsimp only
    by_cases hheader : isHeader (strip raw) = true
    · rw [if_pos hheader]
      apply ih
      apply later
      rintro (⟨h, -⟩ | ⟨h, -⟩) <;> simp [h] at hheader
    · rw [if_neg hheader]
      cases hread : (RuleLine.ofText? (strip raw) : Option (RuleLine α)) with
      | none =>
        dsimp only
        split_ifs with harrow
        · exact ⟨_, rfl⟩
        · apply ih
          apply later
          rintro (⟨-, -, h, hc⟩ | ⟨-, h⟩)
          · simp [h, hc] at harrow
          · simp [h] at hread
      | some r =>
        dsimp only
        split_ifs with hmissing
        · obtain ⟨fault, hfault⟩ : ∃ fault, (rulesFrom (n + 1) ts rest :
              Except Failure (List (Rule α))) = .error (.request fault) := by
            apply ih
            apply later
            rintro (⟨-, h, -⟩ | ⟨-, h, hs, hp⟩)
            · simp [h] at hread
            · obtain rfl := Option.some.inj (h.symm.trans hread)
              rw [List.isEmpty_iff] at hmissing
              simpa [hmissing] using mem_unbound.mpr ⟨hs, hp⟩
          exact ⟨fault, by rw [hfault]; rfl⟩
        · exact ⟨_, rfl⟩

theorem rulesOfText_of_spoilt {text : String} (h : HasSpoiltLine α text) :
    ∃ fault, (rulesOfText text : Except Failure (List (Rule α))) = .error (.request fault) :=
  RuleText.rulesFrom_of_spoils 1 [] h

end RuleTexts

namespace Session

section Replies

/-- An exception, or a text that counts as a failure. -/
def Failed : Except Failure Reply → Prop
  | .error _ => True
  | .ok reply => ∃ text ∈ reply.text?, CommandLine.isFailure text = true

theorem isFailure_iff {text : String} : CommandLine.isFailure text = true ↔
    "Error".toList <+: text.toList ∨ "Unknown".toList <+: text.toList := by
  simp only [CommandLine.isFailure, Bool.or_eq_true, String.startsWith_string_iff]

theorem failed_refusal {text : String} (h : "Error".toList <+: text.toList) :
    Failed (.ok (.refusal text)) := ⟨text, rfl, isFailure_iff.mpr (Or.inl h)⟩

theorem not_failed_answer {text : String} (head : List Char) (hhead : head <+: text.toList)
    (hsigns : ∀ sign ∈ ["Error".toList, "Unknown".toList], ¬head <+: sign ∧ ¬sign <+: head) :
    ¬Failed (.ok (.answer text)) := by
  rintro ⟨t, ht, hfail⟩
  obtain rfl := Option.some.inj ht
  have apart : ∀ sign ∈ ["Error".toList, "Unknown".toList], ¬sign <+: text.toList := by
    intro sign hsign hprefix
    obtain ⟨h1, h2⟩ := hsigns sign hsign
    exact (List.prefix_or_prefix_of_prefix hhead hprefix).elim h1 h2
  rcases isFailure_iff.mp hfail with h | h
  · exact apart _ (by simp) h
  · exact apart _ (by simp) h

end Replies

variable {α : Type}

section Changes

/-- A change that leaves the session as it was, or succeeds. -/
def AllOrNothing (s : Session α) (c : Change α) : Prop := c.2 = s ∨ ¬Failed c.1

variable (s : Session α)

theorem extendLibrary_allOrNothing (heading : String) (extended : Except Failure (Library α))
    {answer : Library α → String} (hanswer : ∀ l, ¬Failed (.ok (.answer (answer l)))) :
    AllOrNothing s (s.extendLibrary heading extended answer) := by
  cases extended with
  | error f => exact Or.inl rfl
  | ok library => exact Or.inr (hanswer library)

theorem setTrace_allOrNothing (argument : String) : AllOrNothing s (s.setTrace argument) := by
  right
  apply not_failed_answer "Tracing".toList
  · split_ifs <;> simp
  · decide

theorem switchGroup_allOrNothing (argument usage : String) {done : String}
    (change : Library α → String → Library α)
    (hdone : ∀ rest, ¬Failed (.ok (.answer (done ++ rest)))) :
    AllOrNothing s (s.switchGroup argument usage done change) := by
  unfold switchGroup
  split_ifs
  · exact Or.inl rfl
  · right
    rw [String.append_assoc]
    exact hdone _

variable [Scalar α] {read : String → Except FileFault String}

theorem load_allOrNothing (path : String) : AllOrNothing s (load read s path) := by
  unfold load
  split_ifs
  · exact Or.inl rfl
  · apply extendLibrary_allOrNothing
    intro library
    apply not_failed_answer "Loaded".toList
    · simp [ToString.toString]
    · decide

theorem command_allOrNothing (c : SessionCommand) (argument : String) :
    AllOrNothing s (command read s c argument) := by
  cases c with
  | help => exact Or.inl rfl
  | quit => exact Or.inr fun ⟨_, h, _⟩ => by simp [Reply.text?] at h
  | trace => exact setTrace_allOrNothing s argument
  | load => exact load_allOrNothing s argument
  | rules => exact Or.inl rfl
  | groups => exact Or.inl rfl
  | enable =>
    apply switchGroup_allOrNothing
    intro rest
    apply not_failed_answer "Enabled".toList
    · simp
    · decide
  | disable =>
    apply switchGroup_allOrNothing
    intro rest
    apply not_failed_answer "Disabled".toList
    · simp
    · decide

theorem define_allOrNothing (line : String) : AllOrNothing s (s.define line) := by
  unfold define
  split
  · exact Or.inl rfl
  · right
    apply not_failed_answer "Added".toList
    · simp [ToString.toString]
    · decide
  · exact Or.inl rfl

def Line.Computes : Line → Prop
  | .expression _ | .command (.math _ _) => True
  | _ => False

theorem process_of_computes {line : String} (h : (Line.ofText line).Computes) :
    (s.process read line).2 = s := by
  unfold process
  generalize Line.ofText line = l at h
  match l, h with
  | .expression _, _ => rfl
  | .command (.math _ _), _ => rfl

theorem process_allOrNothing (line : String) : AllOrNothing s (s.process read line) := by
  unfold process
  cases Line.ofText line with
  | comment => exact Or.inl rfl
  | expression text => exact Or.inl rfl
  | rule text => exact define_allOrNothing s text
  | group name =>
    right
    apply not_failed_answer "Group".toList
    · simp
    · decide
  | command c =>
    cases c with
    | session c argument => exact command_allOrNothing s c argument
    | math c argument => exact Or.inl rfl
    | unnamed => exact Or.inl rfl
    | unknown name => exact Or.inl rfl

end Changes

variable [Scalar α]

section SpoiltRules

variable (α) in
/-- Lines that ask for rules of which one line cannot be taken. -/
def Line.AsksForSpoilt (read : String → Except FileFault String) : Line → Prop
  | .rule text => HasSpoiltLine α text
  | .command (.session .load path) =>
    path ≠ "" ∧ ∃ text, read path = .ok text ∧ HasSpoiltLine α text
  | _ => False

variable {read : String → Except FileFault String} (s : Session α)

theorem load_spoilt {path text : String} (hpath : path ≠ "") (hread : read path = .ok text)
    (h : HasSpoiltLine α text) : Failed (load read s path).1 := by
  obtain ⟨fault, hfault⟩ := rulesOfText_of_spoilt h
  have hload : loadFile read s.library path = .error (.request fault) := by
    simp only [loadFile, hread, Library.load, hfault]
    rfl
  rw [load, if_neg (by simpa using hpath), hload]
  apply failed_refusal
  simp [ToString.toString]

theorem define_spoilt {text : String} (h : HasSpoiltLine α text) : Failed (s.define text).1 := by
  have htyped : HasSpoiltLine α ("[" ++ s.group ++ "]\n" ++ text) := by
    obtain ⟨line, hline, hspoils⟩ := h
    refine ⟨line, ?_, hspoils⟩
    rw [show "]\n" = "]" ++ "\n" from rfl, ← String.append_assoc, lines_append]
    exact List.mem_append_right _ hline
  obtain ⟨fault, hfault⟩ := rulesOfText_of_spoilt htyped
  have htypedRules : s.typedRules text = .error (.request fault) := hfault
  rw [define, htypedRules]
  apply failed_refusal
  simp

theorem process_spoilt {line : String} (h : (Line.ofText line).AsksForSpoilt α read) :
    Failed (s.process read line).1 := by
  unfold process
  generalize Line.ofText line = l at h
  match l, h with
  | .rule text, h => exact define_spoilt s h
  | .command (.session .load path), ⟨hpath, text, hread, h⟩ => exact load_spoilt s hpath hread h

end SpoiltRules

section Histories

def after (read : String → Except FileFault String) (s : Session α) (lines : List String) :
    Session α := lines.foldl (fun t line => (t.process read line).2) s

variable {read : String → Except FileFault String} {s : Session α}

theorem after_append (xs ys : List String) :
    after read s (xs ++ ys) = after read (after read s xs) ys := List.foldl_append ..

theorem after_cons (line : String) (rest : List String) :
    after read s (line :: rest) = after read (s.process read line).2 rest := List.foldl_cons ..

/-- A line that is an expression or a command of mathematics, that fails, or that asks for rules of
which one line cannot be taken, changes nothing in the session, whatever was processed before: the
session goes on as if the line had not been there. Rules with a line that cannot be taken are always
refused. -/
theorem failed_line_changes_nothing (read : String → Except FileFault String) (s : Session α)
    (history rest : List String) (line : String)
    (h : (Line.ofText line).Computes ∨ Failed ((after read s history).process read line).1 ∨
      (Line.ofText line).AsksForSpoilt α read) :
    ((after read s history).process read line).2 = after read s history ∧
      after read s (history ++ line :: rest) = after read s (history ++ rest) ∧
      ((Line.ofText line).AsksForSpoilt α read →
        Failed ((after read s history).process read line).1) := by
  have hspoilt : (Line.ofText line).AsksForSpoilt α read →
      Failed ((after read s history).process read line).1 := process_spoilt _
  have hsame : ((after read s history).process read line).2 = after read s history := by
    rcases h with h | h | h
    · exact process_of_computes _ h
    · exact (process_allOrNothing _ line).resolve_right fun hn => hn h
    · exact (process_allOrNothing _ line).resolve_right fun hn => hn (hspoilt h)
  refine ⟨hsame, ?_, hspoilt⟩
  rw [after_append, after_append, after_cons, hsame]

/-- A session without rules, and a directory with one file, whose second rule has a wildcard that
nothing binds. -/
def bare : Session Rat :=
  .ofEngine (.ofLibrary .empty ⟨id, fun u _ => u, fun _ => [], fun _ _ _ => throw .overflow⟩)

def spoiltFile : Files := [("f.rules", "?x * 1 => :x\n?x => :y")]

theorem failed_line_changes_nothing_of_spoilt_file :
    let s := after spoiltFile.read bare [":trace on", "[mine]", "?x + ?x => 2 * :x"]
    s.tracing = true ∧ s.group = "mine" ∧ s.library.size = 1 ∧
      (Line.ofText ":load f.rules").AsksForSpoilt Rat spoiltFile.read ∧
      Failed (s.process spoiltFile.read ":load f.rules").1 ∧
      (s.process spoiltFile.read ":load f.rules").2 = s := by
  intro s
  have hline : Line.ofText ":load f.rules" = .command (.session .load "f.rules") := by
    decide +kernel
  have hread : spoiltFile.read "f.rules" = .ok "?x * 1 => :x\n?x => :y" := by decide +kernel
  have hasks : (Line.ofText ":load f.rules").AsksForSpoilt Rat spoiltFile.read := by
    rw [hline]
    refine ⟨by decide, _, hread, "?x => :y", by decide +kernel, ?_⟩
    have hunbound : ((RuleLine.ofText? (strip "?x => :y") : Option (RuleLine Rat)).map fun r =>
        RuleText.unbound r.pattern r.skeleton) = some ["y"] := by decide +kernel
    obtain ⟨r, hr, hy⟩ := Option.map_eq_some_iff.mp hunbound
    obtain ⟨hskeleton, hpattern⟩ := RuleText.mem_unbound.mp (hy ▸ List.mem_singleton_self "y")
    exact .unbound (by decide +kernel) hr hskeleton hpattern
  have hsame := failed_line_changes_nothing spoiltFile.read bare
    [":trace on", "[mine]", "?x + ?x => 2 * :x"] [] ":load f.rules" (Or.inr (Or.inr hasks))
  exact ⟨by decide +kernel, by decide +kernel, by decide +kernel, hasks, hsame.2.2 hasks, hsame.1⟩

end Histories

end Session

end RuleAlgebra
