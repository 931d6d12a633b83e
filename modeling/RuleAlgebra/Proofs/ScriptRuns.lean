import Mathlib
import RuleAlgebra.Proofs.FailedLines

/-!
Failures and the status of a run. A session refuses a line with a reason, or an exception breaks it
off; a run only sees texts, and takes those that start like a refusal for one. It misses no failure
that way, and it takes the answers of a session for answers, but an expression or a command of
mathematics can have a result that starts like a refusal.
-/

namespace RuleAlgebra

open Text

namespace Session

section Verdicts

/-- A refusal or an exception. -/
def Fails : Except Failure Reply → Prop
  | .error _ => True
  | .ok (.refusal _) => True
  | .ok _ => False

/-- An answer with a text that counts as a failure. -/
def ReadsAsRefusal : Except Failure Reply → Prop
  | .ok (.answer text) => CommandLine.isFailure text = true
  | _ => False

instance (r : Except Failure Reply) : Decidable (Failed r) :=
  match r with
  | .error _ => isTrue trivial
  | .ok reply =>
    inferInstanceAs (Decidable (∃ text ∈ reply.text?, CommandLine.isFailure text = true))

/-- What counts as a failure is one, and what is one counts as one. -/
def Told (r : Except Failure Reply) : Prop := Failed r ↔ Fails r

theorem told_error (f : Failure) : Told (.error f) := Iff.rfl

theorem told_silence : Told (.ok .silence) := by simp [Told, Failed, Fails, Reply.text?]

theorem told_answer {text : String} (h : ¬Failed (.ok (.answer text))) :
    Told (.ok (.answer text)) := iff_of_false h id

theorem told_refusal {text : String} (h : "Error".toList <+: text.toList) :
    Told (.ok (.refusal text)) := iff_of_true (failed_refusal h) trivial

theorem told_headed {text : String} (head : List Char) (hhead : head <+: text.toList)
    (hsigns : ∀ sign ∈ ["Error".toList, "Unknown".toList], ¬head <+: sign ∧ ¬sign <+: head) :
    Told (.ok (.answer text)) := told_answer (not_failed_answer head hhead hsigns)

theorem failed_iff {r : Except Failure Reply} (h : Fails r → Failed r) :
    Failed r ↔ Fails r ∨ ReadsAsRefusal r := by
  match r with
  | .error f => exact iff_of_true trivial (Or.inl trivial)
  | .ok .silence => simp [Failed, Fails, ReadsAsRefusal, Reply.text?]
  | .ok (.answer text) => simp [Failed, Fails, ReadsAsRefusal, Reply.text?]
  | .ok (.refusal text) => exact iff_of_true (h trivial) (Or.inl trivial)

theorem not_readsAsRefusal {r : Except Failure Reply} (h : Told r) : ¬ReadsAsRefusal r := by
  match r with
  | .ok (.answer text) => exact fun hr => h.mp ⟨text, rfl, hr⟩
  | .error f => exact id
  | .ok .silence => exact id
  | .ok (.refusal text) => exact id

theorem told_reply {heading : String} (hheading : "Error".toList <+: heading.toList)
    (reported : Failure → Bool) (f : Failure) : Told (reply heading reported (.error f)) := by
  unfold reply
  dsimp only
  split_ifs
  · apply told_refusal
    simpa [List.append_assoc] using hheading.trans (List.prefix_append _ _)
  · exact told_error f

theorem reply_failed {heading : String} (hheading : "Error".toList <+: heading.toList)
    (reported : Failure → Bool) (r : Except Failure String) (h : Fails (reply heading reported r)) :
    Failed (reply heading reported r) := by
  cases r with
  | ok text => exact h.elim
  | error f => exact (told_reply hheading reported f).mpr h

end Verdicts

section Lines

variable {α : Type} (s : Session α)

theorem extendLibrary_told {heading : String} (hheading : "Error".toList <+: heading.toList)
    (extended : Except Failure (Library α)) {answer : Library α → String}
    (hanswer : ∀ l, Told (.ok (.answer (answer l)))) :
    Told (s.extendLibrary heading extended answer).1 := by
  cases extended with
  | ok library => exact hanswer library
  | error f => exact told_reply hheading (fun f => isFileFault f || isRequestFault f) f

theorem setTrace_told (argument : String) : Told (s.setTrace argument).1 := by
  apply told_headed "Tracing".toList
  · split_ifs <;> simp
  · decide

theorem switchGroup_told (argument : String) {usage done : String}
    (change : Library α → String → Library α) (husage : Told (.ok (.answer usage)))
    (hdone : ∀ rest, Told (.ok (.answer (done ++ rest)))) :
    Told (s.switchGroup argument usage done change).1 := by
  unfold switchGroup
  split_ifs
  · exact husage
  · simp only [String.append_assoc]
    exact hdone _

theorem told_usage (rest : String) : Told (.ok (.answer ("Usage" ++ rest))) := by
  apply told_headed "Usage".toList
  · simp
  · decide

theorem groupsText_told : Told (.ok (.answer s.groupsText)) := by
  simp only [groupsText]
  split_ifs
  · exact told_headed "No groups".toList (by decide) (by decide)
  · apply told_headed "Groups".toList
    · simp
    · decide

variable [Scalar α] {read : String → Except FileFault String}

theorem load_told (path : String) : Told (load read s path).1 := by
  unfold load
  split_ifs
  · exact told_usage ": :load FILE"
  · apply extendLibrary_told
    · simp [ToString.toString]
    · intro library
      apply told_headed "Loaded".toList
      · simp [ToString.toString]
      · decide

theorem prefix_intercalate (separator text : String) (texts : List String) :
    text.toList <+: (separator.intercalate (text :: texts)).toList := by
  cases texts <;> simp [String.toList_intercalate, List.intercalate]

theorem helpText_told : Told (.ok (.answer helpText)) := by
  apply told_headed "Commands:".toList
  · exact prefix_intercalate "\n" "Commands:" helpLines.tail
  · decide

theorem rulesText_told : Told (.ok (.answer s.rulesText)) := by
  unfold rulesText
  cases hrules : s.library.rules with
  | nil =>
    apply told_headed "No rules".toList
    · simp
    · decide
  | cons r rs =>
    apply told_headed "[".toList
    · simp only [List.isEmpty_cons, Bool.false_eq_true, if_false, Library.listing, hrules,
        List.map_cons]
      refine List.IsPrefix.trans ?_ (prefix_intercalate _ _ _)
      simp [Rule.listing]
    · decide

theorem command_told (c : SessionCommand) (argument : String) :
    Told (command read s c argument).1 := by
  cases c with
  | help => exact helpText_told
  | quit => exact told_silence
  | trace => exact setTrace_told s argument
  | load => exact load_told s argument
  | rules => exact rulesText_told s
  | groups => exact groupsText_told s
  | enable =>
    apply switchGroup_told s argument _ (told_usage ": :enable GROUP")
    intro rest
    apply told_headed "Enabled".toList
    · simp
    · decide
  | disable =>
    apply switchGroup_told s argument _ (told_usage ": :disable GROUP")
    intro rest
    apply told_headed "Disabled".toList
    · simp
    · decide

theorem define_told (line : String) : Told (s.define line).1 := by
  unfold define
  cases s.typedRules line with
  | error f => exact told_reply (List.prefix_refl _) _ f
  | ok rules =>
    cases rules with
    | nil => exact told_refusal (by decide)
    | cons r rs =>
      apply told_headed "Added".toList
      · simp [ToString.toString]
      · decide

theorem told_unknownCommand (name : String) : Told (.ok (.refusal (unknownCommand name))) := by
  refine iff_of_true ⟨_, rfl, isFailure_iff.mpr (Or.inr ?_)⟩ trivial
  simp [unknownCommand]

theorem process_told {line : String} (h : ¬(Line.ofText line).Computes) :
    Told (s.process read line).1 := by
  unfold process
  generalize Line.ofText line = l at h
  cases l with
  | comment => exact told_silence
  | expression text => exact absurd trivial h
  | rule text => exact define_told s text
  | group name =>
    apply told_headed "Group".toList
    · simp
    · decide
  | command c =>
    cases c with
    | session c argument => exact command_told s c argument
    | math c argument => exact absurd trivial h
    | unnamed => exact told_unknownCommand ""
    | unknown name => exact told_unknownCommand name

theorem process_failed {line : String} (h : Fails (s.process read line).1) :
    Failed (s.process read line).1 := by
  by_cases hcomputes : (Line.ofText line).Computes
  · unfold process at h ⊢
    generalize Line.ofText line = l at h hcomputes
    match l, hcomputes with
    | .expression text, _ => exact reply_failed (List.prefix_refl _) _ _ h
    | .command (.math c argument), _ =>
      simp only [mathReply] at h ⊢
      split_ifs at h ⊢
      · exact h.elim
      · exact reply_failed (List.prefix_refl _) _ _ h
  · exact (process_told s hcomputes).mpr h

/-- No failure is missed, and only the answers of expressions and of commands of mathematics can be
mistaken for one. -/
theorem process_failed_iff (line : String) : Failed (s.process read line).1 ↔
    Fails (s.process read line).1 ∨
      (Line.ofText line).Computes ∧ ReadsAsRefusal (s.process read line).1 := by
  rw [failed_iff (process_failed s)]
  refine or_congr_right ⟨fun h => ⟨?_, h⟩, And.right⟩
  by_contra hcomputes
  exact not_readsAsRefusal (process_told s hcomputes) h

variable (read) in
def said : Session α → List String → List (String × Except Failure Reply)
  | _, [] => []
  | s, line :: rest => (line, (s.process read line).1) :: said (s.process read line).2 rest

end Lines

end Session

namespace CommandLine

open Session

def answers (said : List (String × Except Failure Reply)) : Printed :=
  said.filterMap fun p =>
    (p.2.toOption.bind printedText?).map fun text => (Channel.out, text ++ "\n")

def results (quiet : Bool) (said : List (String × Except Failure Reply)) : Printed :=
  if quiet then [] else answers (said.filter fun p => isEchoed p.1)

def Run.prepend (printed : Printed) (r : Run) : Run := { r with printed := printed ++ r.printed }

/-- The end of a script at a line that counts as failed. -/
def stop (shown : String) (n : Nat) : Except Failure Reply → Run
  | .error f => ⟨[], .error f⟩
  | .ok reply =>
    let reason := reply.text?.getD ""
    (Run.done 1).printLine .err s!"{shown}:{n}: {reason}"

@[simp] theorem Run.prepend_nil (r : Run) : r.prepend [] = r := rfl

@[simp] theorem Run.prepend_prepend (r : Run) (xs ys : Printed) :
    (r.prepend ys).prepend xs = r.prepend (xs ++ ys) := by simp [prepend]

@[simp] theorem Run.prepend_done (printed : Printed) (status : Nat) :
    (done status).prepend printed = ⟨printed, .ok status⟩ := by simp [prepend, done]

theorem answers_append (xs ys : List (String × Except Failure Reply)) :
    answers (xs ++ ys) = answers xs ++ answers ys := List.filterMap_append ..

theorem results_append (quiet : Bool) (xs ys : List (String × Except Failure Reply)) :
    results quiet (xs ++ ys) = results quiet xs ++ results quiet ys := by
  cases quiet <;> simp [results, answers_append]

theorem isEchoed_iff {line : String} : isEchoed line = true ↔
    (∃ text, Line.ofText line = .expression text) ∨
      (∃ c argument, Line.ofText line = .command (.math c argument)) ∧
        cut? "=>" line = none := by
  unfold isEchoed
  cases Line.ofText line with
  | command c => cases c <;> simp
  | _ => simp

theorem printedText?_of_failed {reply : Reply} (h : Failed (.ok reply)) :
    ∃ text, reply.text? = some text ∧ printedText? reply = some text ∧ isFailure text = true := by
  obtain ⟨text, htext, hfails⟩ := h
  have hne : text.isEmpty = false := by
    by_contra hempty
    obtain rfl : text = "" := by simpa using hempty
    revert hfails
    decide
  exact ⟨text, htext, by simp [printedText?, Option.mem_def.mp htext, hne], hfails⟩

theorem not_isFailure_of_not_failed {reply : Reply} (h : ¬Failed (.ok reply)) {text : String}
    (htext : printedText? reply = some text) : isFailure text = false := by
  obtain ⟨htext, -⟩ := Option.filter_eq_some_iff.mp htext
  exact Bool.eq_false_iff.mpr fun hfails => h ⟨text, htext, hfails⟩

section Runs

variable {α : Type} [Scalar α] {read : String → Except FileFault String} {quiet : Bool}
  {shown : String} {s : Session α}

theorem runLines_of_failed {line : String} (rest : List String) (n : Nat)
    (h : Failed (s.process read line).1) :
    runLines read quiet shown n s (line :: rest) = stop shown n (s.process read line).1 := by
  unfold runLines
  generalize s.process read line = change at h
  obtain ⟨reply, t⟩ := change
  cases reply with
  | error f => rfl
  | ok reply =>
    obtain ⟨text, htext, hprinted, hfails⟩ := printedText?_of_failed h
    simp [hprinted, hfails, stop, htext]

theorem runLines_of_not_failed {line : String} (rest : List String) (n : Nat)
    (h : ¬Failed (s.process read line).1) :
    runLines read quiet shown n s (line :: rest) =
      (runLines read quiet shown (n + 1) (s.process read line).2 rest).prepend
        (results quiet [(line, (s.process read line).1)]) := by
  conv_lhs => unfold runLines
  generalize s.process read line = change at h
  obtain ⟨reply, t⟩ := change
  cases reply with
  | error f => exact absurd trivial h
  | ok reply =>
    cases hprinted : printedText? reply with
    | none => cases quiet <;> cases hecho : isEchoed line <;>
        simp [results, answers, Except.toOption, hprinted, hecho]
    | some text =>
      have hpass := not_isFailure_of_not_failed h hprinted
      cases quiet <;> cases hecho : isEchoed line <;>
        simp [results, answers, Except.toOption, hprinted, hecho, hpass, Run.printLine, Run.print,
          Run.prepend]

theorem runLines_append {before : List String} (rest : List String) (n : Nat)
    (h : ∀ p ∈ said read s before, ¬Failed p.2) :
    runLines read quiet shown n s (before ++ rest) =
      (runLines read quiet shown (n + before.length) (after read s before) rest).prepend
        (results quiet (said read s before)) := by
  induction before generalizing s n with
  | nil => cases quiet <;> rfl
  | cons line before ih =>
    simp only [said, List.forall_mem_cons] at h
    rw [List.cons_append, runLines_of_not_failed _ n h.1, ih _ h.2, Run.prepend_prepend,
      ← results_append, after_cons, List.length_cons]
    congr 2
    omega

theorem runScript_of_failed {path source line : String} {before rest : List String}
    (hread : read path = .ok source) (hlines : lines source = before ++ line :: rest)
    (hbefore : ∀ p ∈ said read s before, ¬Failed p.2)
    (hline : Failed ((after read s before).process read line).1) :
    runScript read quiet s path =
      (stop (FileName.ofText path).text (before.length + 1)
        ((after read s before).process read line).1).prepend
          (results quiet (said read s before)) := by
  simp only [runScript, hread, hlines]
  rw [runLines_append _ _ hbefore, runLines_of_failed _ _ hline, Nat.add_comm]

theorem runScript_of_not_failed {path source : String} (hread : read path = .ok source)
    (hlines : ∀ p ∈ said read s (lines source), ¬Failed p.2) :
    runScript read quiet s path = ⟨results quiet (said read s (lines source)), .ok 0⟩ := by
  simp only [runScript, hread]
  rw [← List.append_nil (lines source), runLines_append _ _ hlines, List.append_nil]
  exact Run.prepend_done _ 0

theorem runInput_cons {line : String} (rest : List String) (failed : Bool) {reply : Reply}
    (h : (s.process read line).1 = .ok reply) :
    runInput read failed s (line :: rest) =
      (runInput read (failed || decide (Failed (.ok reply))) (s.process read line).2 rest).prepend
        (answers [(line, .ok reply)]) := by
  conv_lhs => unfold runInput
  generalize s.process read line = change at h
  obtain ⟨r, t⟩ := change
  obtain rfl : r = .ok reply := h
  cases hprinted : printedText? reply with
  | none =>
    have hpass : ¬Failed (.ok reply) := fun hfails => by
      obtain ⟨text, -, htext, -⟩ := printedText?_of_failed hfails
      simp [hprinted] at htext
    simp [answers, Except.toOption, hprinted, hpass]
  | some text =>
    have hfails : isFailure text = decide (Failed (.ok reply)) := by
      by_cases hfails : Failed (.ok reply)
      · obtain ⟨text', -, htext, hfails'⟩ := printedText?_of_failed hfails
        obtain rfl := Option.some.inj (hprinted.symm.trans htext)
        simp [hfails, hfails']
      · simp [hfails, not_isFailure_of_not_failed hfails hprinted]
    simp [answers, Except.toOption, hprinted, hfails, Run.printLine, Run.print, Run.prepend]

theorem runInput_append {before : List String} (rest : List String) (failed : Bool)
    (h : ∀ p ∈ said read s before, ∃ reply, p.2 = .ok reply) :
    runInput read failed s (before ++ rest) =
      (runInput read (failed || (said read s before).any fun p => decide (Failed p.2))
        (after read s before) rest).prepend (answers (said read s before)) := by
  induction before generalizing s failed with
  | nil => simp [said, answers, after]
  | cons line before ih =>
    simp only [said, List.forall_mem_cons] at h
    obtain ⟨⟨reply, hreply⟩, hbefore⟩ := h
    rw [List.cons_append, runInput_cons _ _ hreply, ih _ hbefore, Run.prepend_prepend,
      ← answers_append, after_cons]
    simp [said, hreply, Bool.or_assoc]

theorem runInput_eq {lines : List String}
    (h : ∀ p ∈ said read s lines, ∃ reply, p.2 = .ok reply) :
    runInput read false s lines =
      ⟨answers (said read s lines),
        .ok (if ∃ p ∈ said read s lines, Failed p.2 then 1 else 0)⟩ := by
  rw [← List.append_nil lines, runInput_append [] false h, List.append_nil, runInput,
    Run.prepend_done]
  simp only [Bool.false_or, List.any_eq_true, decide_eq_true_eq]

theorem runInput_of_error {line : String} {before rest : List String} {f : Failure}
    (hbefore : ∀ p ∈ said read s before, ∃ reply, p.2 = .ok reply)
    (hline : ((after read s before).process read line).1 = .error f) :
    runInput read false s (before ++ line :: rest) = ⟨answers (said read s before), .error f⟩ := by
  rw [runInput_append _ _ hbefore]
  unfold runInput
  generalize (after read s before).process read line = change at hline
  obtain ⟨r, t⟩ := change
  obtain rfl : r = .error f := hline
  simp [Run.prepend]

theorem runLine_eq (line : String) : runLine read s line = runInput read false s [line] := by
  simp only [runLine, runInput, Bool.false_or]
  obtain ⟨r, t⟩ := s.process read line
  cases r <;> rfl

variable (read s) in
/-- What counts as a failed line is one that fails, or an expression or a command of mathematics
with a result that reads like a refusal. A script is processed up to the first line that counts as
failed, the input to its end; an exception ends both. -/
theorem status_tells_failures (quiet : Bool) :
    (∀ line, Failed (s.process read line).1 ↔ Fails (s.process read line).1 ∨
      (Line.ofText line).Computes ∧ ReadsAsRefusal (s.process read line).1) ∧
    (∀ path source, read path = .ok source →
      ((∀ p ∈ said read s (lines source), ¬Failed p.2) →
        runScript read quiet s path = ⟨results quiet (said read s (lines source)), .ok 0⟩) ∧
      ∀ before line rest, lines source = before ++ line :: rest →
        (∀ p ∈ said read s before, ¬Failed p.2) →
        Failed ((after read s before).process read line).1 →
        runScript read quiet s path =
          (stop (FileName.ofText path).text (before.length + 1)
            ((after read s before).process read line).1).prepend
              (results quiet (said read s before))) ∧
    (∀ lines, (∀ p ∈ said read s lines, ∃ reply, p.2 = .ok reply) →
      runInput read false s lines =
        ⟨answers (said read s lines),
          .ok (if ∃ p ∈ said read s lines, Failed p.2 then 1 else 0)⟩) ∧
    (∀ before line rest f, (∀ p ∈ said read s before, ∃ reply, p.2 = .ok reply) →
      ((after read s before).process read line).1 = .error f →
      runInput read false s (before ++ line :: rest) = ⟨answers (said read s before), .error f⟩) ∧
    (∀ line, runLine read s line = runInput read false s [line]) ∧
    ∀ line, isEchoed line = true ↔
      (∃ text, Line.ofText line = .expression text) ∨
        (∃ c argument, Line.ofText line = .command (.math c argument)) ∧
          cut? "=>" line = none := by
  refine ⟨process_failed_iff s, ?_, fun _ => runInput_eq, ?_, runLine_eq, fun _ => isEchoed_iff⟩
  · intro path source hread
    exact ⟨runScript_of_not_failed hread,
      fun before line rest hlines => runScript_of_failed hread hlines⟩
  · intro before line rest f
    exact runInput_of_error

end Runs

section Scripts

def brokenScript : Files := [("demo.cas", "x + 0\n2 +\nx * 1")]

theorem status_tells_failures_of_brokenScript :
    runScript brokenScript.read false bare "demo.cas" =
        ⟨[(.out, "x + 0\n"), (.err, "demo.cas:2: Error: Parse error: Unexpected end of input\n")],
          .ok 1⟩ ∧
      runInput brokenScript.read false bare ["2 +", "x * 1"] =
        ⟨[(.out, "Error: Parse error: Unexpected end of input\n"), (.out, "x*1\n")], .ok 1⟩ := by
  obtain ⟨-, hscript, hinput, -⟩ := status_tells_failures brokenScript.read bare false
  have hread : brokenScript.read "demo.cas" = .ok "x + 0\n2 +\nx * 1" := by decide +kernel
  have hbefore : said brokenScript.read bare ["x + 0"] = [("x + 0", .ok (.answer "x + 0"))] := by
    decide +kernel
  have hline : ((after brokenScript.read bare ["x + 0"]).process brokenScript.read "2 +").1 =
      .ok (.refusal "Error: Parse error: Unexpected end of input") := by decide +kernel
  have hsaid : said brokenScript.read bare ["2 +", "x * 1"] =
      [("2 +", .ok (.refusal "Error: Parse error: Unexpected end of input")),
        ("x * 1", .ok (.answer "x*1"))] := by decide +kernel
  have hprinted : results false [("x + 0", .ok (.answer "x + 0"))] = [(.out, "x + 0\n")] := by
    decide +kernel
  have hname : (FileName.ofText "demo.cas").text = "demo.cas" := by decide +kernel
  constructor
  · rw [(hscript "demo.cas" _ hread).2 ["x + 0"] "2 +" ["x * 1"] (by decide +kernel)
      (by rw [hbefore]; decide +kernel) (by rw [hline]; decide +kernel), hbefore, hline,
      hprinted, hname]
    rfl
  · rw [hinput _ (by simp [hsaid]), hsaid, if_pos (by decide +kernel)]
    rfl

/-- The result of an expression reads like a refusal, and the run of the line ends as if it had
failed. -/
theorem status_mistakes_result :
    let s : Session Rat :=
      start ⟨id, fun u _ => u, fun _ => [], fun _ _ _ => throw .overflow⟩ .unset
    (s.process brokenScript.read "Error^2").1 = .ok (.answer "Error^2") ∧
      (runLine brokenScript.read s "Error^2").status = .ok 1 := by
  decide +kernel

end Scripts

end CommandLine

end RuleAlgebra
