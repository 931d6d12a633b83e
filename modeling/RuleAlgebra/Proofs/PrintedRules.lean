import RuleAlgebra.Proofs.EqualRules
import RuleAlgebra.Rule.Line

/-!
A rule that was read from a line is printed as a line that is read as the same rule: name and
description come back, the pattern as it was, and the skeleton without the kinds of its wildcards.
-/

namespace RuleAlgebra

open Text Lexeme

namespace RuleLine

section Headers

def isHeaderChar (c : Char) : Bool := isWordChar c || c == '-'

/-- Names and descriptions that stand before a rule: a name without blanks, and a description
without quotes. -/
structure PrintableInfo (i : RuleInfo) : Prop where
  name : ∀ n ∈ i.name, n ≠ "" ∧ ∀ c ∈ n.toList, isHeaderChar c = true
  description : ∀ d ∈ i.description, i.name.isSome = true ∧ d ≠ "" ∧ '"' ∉ d.toList

variable {cs : List Char} {n b : String} {d : Option String}

theorem quotedStart?_eq_some {inside rest : List Char} (h : quotedStart? cs = some (inside, rest)) :
    inside ≠ [] ∧ '"' ∉ inside := by
  unfold quotedStart? at h
  split at h
  · rename_i cs
    dsimp only at h
    split at h
    · split_ifs at h with hempty
      obtain ⟨rfl, rfl⟩ := Prod.mk.inj (Option.some.inj h)
      refine ⟨by simpa using hempty, fun hmem => ?_⟩
      simpa using List.mem_takeWhile_imp hmem
    · cases h
  · cases h

theorem ofList_ne_empty (h : cs ≠ []) : String.ofList cs ≠ "" := by
  intro heq
  have hnil := congrArg String.toList heq
  rw [String.toList_ofList] at hnil
  exact h hnil

theorem header?_printable (h : header? cs = some (n, d, b)) : PrintableInfo ⟨some n, d, []⟩ := by
  unfold header? at h
  split at h
  · rename_i cs
    dsimp only at h
    generalize hname : cs.takeWhile (fun c => isWordChar c || c == '-') = name at h
    have hchars : ∀ c ∈ name, isHeaderChar c = true := by
      rw [← hname]
      exact fun c hc => List.mem_takeWhile_imp hc
    generalize (cs.drop name.length).dropWhile isBlank = rest at h
    have hnamed (hne : name.isEmpty = false) :
        String.ofList name ≠ "" ∧ ∀ c ∈ (String.ofList name).toList, isHeaderChar c = true := by
      rw [String.toList_ofList]
      exact ⟨ofList_ne_empty (List.isEmpty_eq_false_iff.mp hne), hchars⟩
    cases hquoted : quotedStart? rest with
    | none =>
      simp only [hquoted] at h
      split at h
      · split_ifs at h with hempty
        simp only [Bool.or_eq_true, not_or, Bool.not_eq_true] at hempty
        obtain ⟨rfl, rfl, rfl⟩ : String.ofList name = n ∧ none = d ∧ _ = b := by simpa using h
        exact ⟨by simpa using hnamed hempty.1.1, by simp⟩
      · cases h
    | some p =>
      obtain ⟨inside, rest'⟩ := p
      obtain ⟨hne, hquote⟩ := quotedStart?_eq_some hquoted
      simp only [hquoted] at h
      split at h
      · split_ifs at h with hempty
        simp only [Bool.or_eq_true, not_or, Bool.not_eq_true] at hempty
        obtain ⟨rfl, rfl, rfl⟩ :
            String.ofList name = n ∧ some (String.ofList inside) = d ∧ _ = b := by
          simpa using h
        refine ⟨by simpa using hnamed hempty.1.1, fun e he => ?_⟩
        obtain rfl := Option.some.inj he
        exact ⟨rfl, ofList_ne_empty hne, by rwa [String.toList_ofList]⟩
      · cases h
  · cases h

theorem quotedStart?_quoted {inside rest : List Char} (hne : inside ≠ []) (hq : '"' ∉ inside) :
    quotedStart? ('"' :: (inside ++ '"' :: rest)) = some (inside, rest) := by
  have htake : (inside ++ '"' :: rest).takeWhile (· != '"') = inside := by
    rw [takeWhile_append_of_head _ (by simp), List.takeWhile_eq_self_iff]
    intro c hc
    simp only [bne_iff_ne, ne_eq]
    rintro rfl
    exact hq hc
  simp [quotedStart?, htake, hne]

theorem quotedStart?_colon (cs : List Char) : quotedStart? (':' :: cs) = none := rfl

theorem body_of_startsWord (hb : StartsWord b) (hline : '\n' ∉ b.toList) :
    b.toList.dropWhile isBlank = b.toList ∧ b.toList.isEmpty = false ∧
      b.toList.contains '\n' = false := by
  obtain ⟨c, cs, hc, hblank, -⟩ := hb
  exact ⟨dropWhile_eq_self (by simpa [hc] using hblank), by simp [hc], by simpa using hline⟩

theorem header_name {i : RuleInfo} (hn : i.name = some n) (hd : i.description = none) :
    i.header = "@" ++ n := by
  simp only [RuleInfo.header, RuleInfo.description?, hn, hd]
  rfl

theorem header_description {i : RuleInfo} {d : String} (hn : i.name = some n)
    (hd : i.description = some d) (hne : d ≠ "") : i.header = "@" ++ n ++ " \"" ++ d ++ "\"" := by
  have hfilter : i.description? = some d := by simp [RuleInfo.description?, hd, hne]
  simp only [RuleInfo.header, hfilter, hn]
  rfl

theorem header_head (i : RuleInfo) : ∃ cs, i.header.toList = '@' :: cs := by
  unfold RuleInfo.header
  dsimp only
  split <;> simp [toString]

theorem header?_header {i : RuleInfo} (hi : PrintableInfo i) (hn : i.name = some n)
    (hb : StartsWord b) (hline : '\n' ∉ b.toList) :
    header? (i.header ++ ": " ++ b).toList = some (n, i.description, b) := by
  obtain ⟨hdrop, hempty, hcontains⟩ := body_of_startsWord hb hline
  obtain ⟨hne, hchars⟩ := hi.name n hn
  have hname : n.toList.isEmpty = false := by simpa using hne
  have htake (cs : List Char) (h : ∀ c ∈ cs.head?, isHeaderChar c = false) :
      (n.toList ++ cs).takeWhile (fun c => isWordChar c || c == '-') = n.toList :=
    (takeWhile_append_of_head _ h).trans (List.takeWhile_eq_self_iff.mpr hchars)
  have hrest {c : Char} (cs : List Char) (h : isBlank c = false) :
      (c :: cs).dropWhile isBlank = c :: cs := dropWhile_eq_self (by simpa using h)
  have hcolon : isHeaderChar ':' = false ∧ isBlank ':' = false := by decide
  have hspace : isHeaderChar ' ' = false ∧ isBlank ' ' = true := by decide
  cases hd : i.description with
  | none =>
    have htext : (i.header ++ ": " ++ b).toList = '@' :: (n.toList ++ ':' :: ' ' :: b.toList) := by
      rw [header_name hn hd]
      simp
    rw [htext]
    simp only [header?, htake (':' :: ' ' :: b.toList) (by simpa using hcolon.1),
      List.drop_left, hrest _ hcolon.2, quotedStart?_colon, List.dropWhile_cons_of_pos hspace.2,
      hdrop, hname, hempty, hcontains]
    simp
  | some d =>
    obtain ⟨-, hdne, hquote⟩ := hi.description d hd
    have hinside : d.toList ≠ [] := by simpa using hdne
    have htext : (i.header ++ ": " ++ b).toList =
        '@' :: (n.toList ++ ' ' :: '"' :: (d.toList ++ '"' :: ':' :: ' ' :: b.toList)) := by
      rw [header_description hn hd hdne]
      simp
    have hquoted : isBlank '"' = false := by decide
    rw [htext]
    simp only [header?, htake (' ' :: '"' :: _) (by simpa using hspace.1), List.drop_left,
      List.dropWhile_cons_of_pos hspace.2, hrest _ hquoted, hrest _ hcolon.2,
      quotedStart?_quoted hinside hquote, hdrop, hname, hempty, hcontains]
    simp

end Headers

section Lines

variable {s : String} {cs ws : List Char}

theorem header?_none (h : '@' ∉ cs.head?) : header? cs = none := by
  unfold header?
  split
  · simp at h
  · rfl

theorem cutChars?_arrow (h : '>' ∉ ws) :
    cutChars? "=>".toList (ws ++ '=' :: '>' :: cs) = some (ws, cs) := by
  have hsep : "=>".toList = ['=', '>'] := rfl
  induction ws with
  | nil => simp [cutChars?]
  | cons w ws ih =>
    obtain ⟨hw, hws⟩ := not_or.mp (mt List.mem_cons.mpr h)
    have hno : "=>".toList.isPrefixOf (w :: (ws ++ '=' :: '>' :: cs)) = false := by
      cases ws with
      | nil => simp [List.isPrefixOf]
      | cons v ws =>
        have hv : '>' ≠ v := fun heq => hws (heq ▸ List.mem_cons_self ..)
        simp [List.isPrefixOf, hv]
    rw [List.cons_append, cutChars?, hno, ih hws]
    rfl

theorem strip_between (ls rs : String) (hl : ∀ c ∈ ls.toList, isBlank c = true)
    (hr : ∀ c ∈ rs.toList, isBlank c = true) (hstart : StartsWord s) (hend : Skeleton.EndsWord s) :
    strip (ls ++ s ++ rs) = s := by
  obtain ⟨c, cs, hc, hfirst, -⟩ := hstart
  obtain ⟨d, hd, hlast⟩ := hend
  have hchars : (ls ++ s ++ rs).toList = ls.toList ++ s.toList ++ rs.toList := by simp
  rw [strip, hchars, stripChars_between hl hr (by simpa [hc] using hfirst), String.ofList_toList]
  intro e he
  rw [Option.mem_def, Option.mem_def.mp hd, Option.some.injEq] at he
  exact he ▸ hlast

theorem strip_eq_self (hstart : StartsWord s) (hend : Skeleton.EndsWord s) : strip s = s := by
  simpa using strip_between "" "" (by simp) (by simp) hstart hend

end Lines

section Reading

variable {α : Type} [Scalar α] [FaithfulScalar α] {i : RuleInfo} {pattern skeleton : Expr α}

def body (pattern skeleton : Expr α) : String := pattern.text ++ " => " ++ skeletonText skeleton

theorem body_startsWord (hp : Expr.Printable pattern) : StartsWord (body pattern skeleton) :=
  (hp.startsWord.append " => ").append (skeletonText skeleton)

theorem body_endsWord (hs : Expr.Printable skeleton) :
    Skeleton.EndsWord (body pattern skeleton) :=
  (Expr.skeletonText_reads hs).1.ends.2.append _

theorem body_line (hp : Expr.Printable pattern) (hs : Expr.Printable skeleton) :
    '\n' ∉ (body pattern skeleton).toList := by
  have hpattern := (Expr.skeletonText_reads hp).1.unreserved.1
  have hskeleton := (Expr.skeletonText_reads hs).1.unreserved.2
  simp only [body, String.toList_append, List.mem_append, not_or]
  exact ⟨⟨fun h => hpattern _ h (by decide), by simp⟩, fun h => hskeleton _ h (by decide)⟩

theorem body_head (hp : Expr.Printable pattern) :
    ∀ c ∈ (body pattern skeleton).toList.head?, c ≠ '@' ∧ c ≠ '#' := by
  have hpattern := (Expr.skeletonText_reads hp).1.unreserved.1
  have hne := (Expr.skeletonText_reads hp).1.ends.1.ne_nil
  have hhead : (body pattern skeleton).toList.head? = pattern.text.toList.head? := by
    rw [body, String.toList_append, String.toList_append, List.append_assoc,
      List.head?_append_of_ne_nil _ hne]
  intro c hc
  have hclass := hpattern c (List.mem_of_mem_head? (hhead ▸ hc))
  constructor
  · rintro rfl
    exact hclass (by decide)
  · rintro rfl
    exact hclass (by decide)

theorem cut?_arrow (hp : Expr.Printable pattern) : cut? "=>" (body pattern skeleton) =
    some (pattern.text ++ " ", " " ++ skeletonText skeleton) := by
  have hpattern := (Expr.skeletonText_reads hp).1.unreserved.1
  have harrow : '>' ∉ (pattern.text ++ " ").toList := by
    simp only [String.toList_append, List.mem_append, not_or]
    exact ⟨fun h => hpattern _ h (by decide), by simp⟩
  have hchars : (body pattern skeleton).toList =
      (pattern.text ++ " ").toList ++ '=' :: '>' :: (" " ++ skeletonText skeleton).toList := by
    simp [body]
  rw [cut?, hchars, cutChars?_arrow harrow]
  simp only [Option.map_some, String.ofList_toList]

theorem parts_read (hp : Expr.Printable pattern) (hs : Expr.Printable skeleton) :
    ∃ p q, (Expr.ofPattern (strip (pattern.text ++ " "))).toOption = some p ∧
      (Expr.ofPattern (strip (" " ++ skeletonText skeleton))).toOption = some q ∧
      (p == pattern) = true ∧ (q == skeleton.plain) = true := by
  have hblank : ∀ c ∈ " ".toList, isBlank c = true := by simp; decide
  obtain ⟨hrespelled, hstart, q, hq, hqeq⟩ := Expr.skeletonText_reads hs
  obtain ⟨p, hp', hpeq⟩ := hp.read_text.1
  have hleft : strip (pattern.text ++ " ") = pattern.text := by
    simpa using strip_between "" " " (by simp) hblank hp.startsWord
      (Expr.skeletonText_reads hp).1.ends.1
  have hright : strip (" " ++ skeletonText skeleton) = skeletonText skeleton := by
    simpa using strip_between " " "" hblank (by simp) hstart hrespelled.ends.2
  rw [hleft, hright, hp', hq]
  exact ⟨p, q, rfl, rfl, hpeq, hqeq⟩

omit [FaithfulScalar α] in
theorem line?_ofPattern (hi : PrintableInfo i) :
    (Rule.ofPattern i pattern skeleton).line? = some (if i.name.isSome
      then i.header ++ ": " ++ body pattern skeleton else body pattern skeleton) := by
  have hname : i.name?.isSome = i.name.isSome := by
    cases hn : i.name with
    | none => simp [RuleInfo.name?, hn]
    | some n => simp [RuleInfo.name?, hn, (hi.name n hn).1]
  simp only [Rule.line?, Rule.ofPattern, Option.map_some, hname]
  rfl

def SplitsInto (line : String) (i : RuleInfo) (b : String) : Prop :=
  (∃ n d, header? line.toList = some (n, d, b) ∧ i = ⟨some n, d, []⟩) ∨
    header? line.toList = none ∧ i = ⟨none, none, []⟩ ∧ line = b

theorem ofText?_of_body {line : String} {p q : Expr α} (hp : Expr.Printable pattern)
    (hpread : (Expr.ofPattern (strip (pattern.text ++ " "))).toOption = some p)
    (hqread : (Expr.ofPattern (strip (" " ++ skeletonText skeleton))).toOption = some q)
    (hstart : StartsWord line) (hend : Skeleton.EndsWord line) (hcomment : '#' ∉ line.toList.head?)
    (hsplit : SplitsInto line i (body pattern skeleton)) : ofText? line = some ⟨i, p, q⟩ := by
  have hempty : line.isEmpty = false := by
    simpa [String.isEmpty_eq_false_iff] using hend.ne_nil
  have hhash : line.startsWith "#" = false := by
    rw [String.startsWith_string_eq_false_iff]
    obtain ⟨c, cs, hc, -⟩ := hstart
    simpa [hc, eq_comm] using hcomment
  simp only [ofText?, strip_eq_self hstart hend, hempty, hhash]
  rcases hsplit with ⟨n, d, hheader, rfl⟩ | ⟨hheader, rfl, rfl⟩
  · simp [hheader, cut?_arrow hp, hpread, hqread]
  · simp [hheader, cut?_arrow hp, hpread, hqread]

/-- A printed line is read as a rule with its name and description, its pattern, and its skeleton
without the kinds of wildcards. -/
theorem ofText?_line (hi : PrintableInfo i) (hp : Expr.Printable pattern)
    (hs : Expr.Printable skeleton) : ∃ line, (Rule.ofPattern i pattern skeleton).line? = some line ∧
      ∃ rl : RuleLine α, ofText? line = some rl ∧ rl.info = { i with tags := [] } ∧
        (rl.pattern == pattern) = true ∧ (rl.skeleton == skeleton.plain) = true := by
  obtain ⟨p, q, hpread, hqread, hpeq, hqeq⟩ := parts_read hp hs
  refine ⟨_, line?_ofPattern hi, ⟨{ i with tags := [] }, p, q⟩, ?_, rfl, hpeq, hqeq⟩
  -- a rule without a name has no description either, and is printed without a header
  cases hn : i.name with
  | none =>
    have hd : i.description = none := by
      cases hd : i.description with
      | none => rfl
      | some d => simpa [hn] using (hi.description d hd).1
    exact ofText?_of_body hp hpread hqread (body_startsWord hp) (body_endsWord hs)
      (fun h => (body_head hp _ h).2 rfl)
      (.inr ⟨header?_none fun h => (body_head hp _ h).1 rfl, by rw [hd], rfl⟩)
  | some n =>
    obtain ⟨cs, hheader⟩ := header_head i
    have hstart : StartsWord (i.header ++ ": " ++ body pattern skeleton) :=
      (StartsWord.append ⟨'@', cs, hheader, by decide, by decide⟩ _).append _
    exact ofText?_of_body hp hpread hqread hstart ((body_endsWord hs).append _)
      (by simp [hheader])
      (.inl ⟨n, _, header?_header hi hn (body_startsWord hp) (body_line hp hs), rfl⟩)

end Reading

section Loading

variable {α : Type} [Scalar α]

theorem ofText?_eq_some {line : String} {rl : RuleLine α} (h : ofText? line = some rl) :
    PrintableInfo rl.info ∧ (∃ s, Expr.ofPattern s = .ok rl.pattern) ∧
      ∃ s, Expr.ofPattern s = .ok rl.skeleton := by
  unfold ofText? at h
  dsimp only at h
  split_ifs at h
  split at h
  · cases h
  · split at h
    · rename_i lhs rhs _ p q hp hq
      obtain rfl := Option.some.inj h
      refine ⟨?_, ⟨_, toOption_eq_some.mp hp⟩, ⟨_, toOption_eq_some.mp hq⟩⟩
      dsimp only
      split
      · rename_i hheader
        exact header?_printable hheader
      · exact ⟨by simp, by simp⟩
    · cases h

end Loading

end RuleLine

namespace RuleText

variable {α : Type} [Scalar α]

theorem rulesFrom_lines : ∀ {lines : List String} {n : Nat} {tags : List String}
    {rules : List (Rule α)}, rulesFrom n tags lines = .ok rules → ∀ r ∈ rules,
    ∃ (line : String) (rl : RuleLine α) (ts : List String), RuleLine.ofText? line = some rl ∧
      r = Rule.ofPattern { rl.info with tags := ts } rl.pattern rl.skeleton
  | [], n, ts, rules, h => by
    obtain rfl := Except.ok.inj h
    simp
  | raw :: rest, n, ts, rules, h => by
    rw [rulesFrom] at h
    dsimp only at h
    split at h
    · exact rulesFrom_lines h
    · split at h
      · split at h
        · cases h
        · exact rulesFrom_lines h
      · rename_i rl hline
        split at h
        · obtain ⟨rules', hrules, hcons⟩ := bind_eq_ok.mp h
          obtain rfl := Except.ok.inj hcons
          exact List.forall_mem_cons.mpr ⟨⟨_, rl, _, hline, rfl⟩, rulesFrom_lines hrules⟩
        · cases h

end RuleText

namespace RuleLine

variable {α : Type} [Scalar α] [FaithfulScalar α]

theorem reads_printed {line : String} {rl : RuleLine α} (h : ofText? line = some rl)
    (hpattern : Expr.ReadableNumbers rl.pattern) (hskeleton : Expr.ReadableNumbers rl.skeleton)
    (ts : List String) : ∃ printed,
      (Rule.ofPattern { rl.info with tags := ts } rl.pattern rl.skeleton).line? = some printed ∧
        ∃ rl' : RuleLine α, ofText? printed = some rl' ∧ rl'.info = { rl.info with tags := [] } ∧
          (rl'.pattern == rl.pattern) = true ∧ (rl'.skeleton == rl.skeleton.plain) = true := by
  obtain ⟨hinfo, ⟨s, hs⟩, s', hs'⟩ := ofText?_eq_some h
  exact ofText?_line ⟨hinfo.name, hinfo.description⟩ (Expr.printable_of_read hs hpattern)
    (Expr.printable_of_read hs' hskeleton)

end RuleLine

section Survival

variable {α : Type} [Scalar α]

/-- The numbers in a rule's pattern and skeleton survive being written and read back. -/
def Rule.ReadableNumbers (r : Rule α) : Prop := ∀ pattern skeleton,
  r.form = some (pattern, skeleton) →
    Expr.ReadableNumbers pattern ∧ Expr.ReadableNumbers skeleton

/-- A rule that was read from a text is printed as a line that is read as a rule with the same name
and description, the same pattern, and the same skeleton but for the kinds of its wildcards; that
rule rewrites every expression as the first one does. -/
theorem Rule.line_rereads [FaithfulScalar α] [PartialEquivBEq α] {text : String}
    {rules : List (Rule α)} {r : Rule α} (h : rulesOfText text = .ok rules) (hr : r ∈ rules)
    (hnum : r.ReadableNumbers) : ∃ pattern skeleton line, ∃ rl : RuleLine α,
      r.form = some (pattern, skeleton) ∧ r.line? = some line ∧
        RuleLine.ofText? line = some rl ∧
        rl.info.name = r.info.name ∧ rl.info.description = r.info.description ∧
        (rl.pattern == pattern) = true ∧ (rl.skeleton == skeleton.plain) = true ∧
        ∀ e, Outcomes Expr.Alike (patternRule rl.pattern rl.skeleton e) (r.apply e) := by
  obtain ⟨raw, rl, ts, hraw, rfl⟩ := RuleText.rulesFrom_lines h r hr
  obtain ⟨hpattern, hskeleton⟩ := hnum _ _ rfl
  obtain ⟨line, hline, rl', hread, hinfo, hp, hs⟩ :=
    RuleLine.reads_printed hraw hpattern hskeleton ts
  refine ⟨rl.pattern, rl.skeleton, line, rl', rfl, hline, hread, ?_, ?_, hp, hs,
    patternRule_alike hp hs⟩
  · rw [hinfo]
    rfl
  · rw [hinfo]
    rfl

/-- A rule below a header, with a description that holds a colon and an arrow. -/
def shifting : String := "[sum]\n@shift \"a: => b\": ?x:var + ?n:free(x) => -2*?n:var"

def shiftingPattern : Expr Rat := .op .add (.wild "x" .symbol none) (.wild "n" .free (some "x"))

def shiftingSkeleton : Expr Rat := .op .mul (.num (-2)) (.wild "n" .symbol none)

theorem Rule.line_rereads_of_shifting : ∃ (rules : List (Rule Rat)) (r : Rule Rat),
    rulesOfText shifting = .ok rules ∧ r ∈ rules ∧ r.ReadableNumbers ∧
      ∃ line, ∃ rl : RuleLine Rat, r.line? = some line ∧ RuleLine.ofText? line = some rl ∧
        rl.info.name = some "shift" ∧ rl.info.description = some "a: => b" ∧
        rl.pattern = shiftingPattern ∧ rl.skeleton = shiftingSkeleton.plain ∧
        ∀ e, Outcomes Expr.Alike (patternRule rl.pattern rl.skeleton e) (r.apply e) := by
  have hforms : ((rulesOfText shifting).toOption.map fun rs : List (Rule Rat) =>
      rs.map fun r => (r.info, r.form)) = some [(⟨some "shift", some "a: => b", ["sum"]⟩,
        some (shiftingPattern, shiftingSkeleton))] := eq_of_beq (by decide +kernel)
  obtain ⟨rules, hrules, hforms⟩ := Option.map_eq_some_iff.mp hforms
  obtain ⟨r, rfl, hr⟩ := List.map_eq_singleton_iff.mp hforms
  obtain ⟨hinfo, hform⟩ := Prod.mk.inj hr
  have hread := toOption_eq_some.mp hrules
  have hnum : r.ReadableNumbers := by
    intro pattern skeleton hps
    obtain ⟨rfl, rfl⟩ := Prod.mk.inj (Option.some.inj (hform.symm.trans hps))
    refine ⟨fun v hv => ?_, fun v hv => ?_⟩
    · simp [shiftingPattern, Expr.walk] at hv
    · obtain rfl : v = -2 := by simpa [shiftingSkeleton, Expr.walk] using hv
      simpa using Decimal.readable_intCast (-2) (by decide)
  obtain ⟨p, s, line, rl, hps, hline, hrl, hname, hdescription, hpattern, hskeleton, happly⟩ :=
    Rule.line_rereads hread (List.mem_singleton_self r) hnum
  obtain ⟨rfl, rfl⟩ := Prod.mk.inj (Option.some.inj (hform.symm.trans hps))
  rw [hinfo] at hname hdescription
  exact ⟨_, r, hread, List.mem_singleton_self r, hnum, line, rl, hline, hrl, hname, hdescription,
    eq_of_beq hpattern, eq_of_beq hskeleton, happly⟩

end Survival

end RuleAlgebra
