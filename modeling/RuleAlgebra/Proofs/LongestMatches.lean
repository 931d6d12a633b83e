import Mathlib

/-!
The longest prefix of a text that belongs to a language. What is read greedily, part after part, is
the longest prefix in the product of the languages of the parts, when a shorter first part leaves
nothing for the parts after it.
-/

namespace RuleAlgebra.Text

def single (p : Char → Bool) : Language Char := {w | ∃ c, p c = true ∧ w = [c]}

def run (p : Char → Bool) : Language Char := {w | ∀ c ∈ w, p c = true}

def letter (c : Char) : Language Char := single (· == c)

def word (s : String) : Language Char := {s.toList}

/-- How many characters of a text can be taken for a word of a language. -/
def lengths (L : Language Char) (cs : List Char) : Set Nat := {n | n ≤ cs.length ∧ cs.take n ∈ L}

/-- The longest word of a language that a text starts with has `n` characters; there is none if `n`
is zero. -/
def Reads (L : Language Char) (cs : List Char) (n : Nat) : Prop := IsGreatest (lengths (1 + L) cs) n

section Lengths

variable {L M : Language Char} {cs w : List Char} {n : Nat} {p : Char → Bool} {s : String}

theorem mem_single : w ∈ single p ↔ ∃ c, p c = true ∧ w = [c] := Iff.rfl

theorem mem_run : w ∈ run p ↔ ∀ c ∈ w, p c = true := Iff.rfl

theorem mem_word : w ∈ word s ↔ w = s.toList := Iff.rfl

theorem mem_lengths : n ∈ lengths L cs ↔ n ≤ cs.length ∧ cs.take n ∈ L := Iff.rfl

theorem length_mem_lengths (hw : w ∈ L) (h : w <+: cs) : w.length ∈ lengths L cs :=
  ⟨h.length_le, by rwa [← List.prefix_iff_eq_take.mp h]⟩

theorem zero_mem_lengths : 0 ∈ lengths L cs ↔ [] ∈ L := by simp [mem_lengths]

theorem lengths_one : lengths 1 cs = {0} := by
  ext n
  simp only [mem_lengths, Language.mem_one, List.take_eq_nil_iff, Set.mem_singleton_iff]
  constructor
  · rintro ⟨hn, h | rfl⟩
    · exact h
    · simpa using hn
  · rintro rfl
    exact ⟨Nat.zero_le _, Or.inl rfl⟩

theorem lengths_add : lengths (L + M) cs = lengths L cs ∪ lengths M cs := by
  ext n
  simp only [mem_lengths, Language.mem_add, Set.mem_union, and_or_left]

theorem mem_lengths_mul :
    n ∈ lengths (L * M) cs ↔ ∃ i ∈ lengths L cs, ∃ j ∈ lengths M (cs.drop i), n = i + j := by
  constructor
  · rintro ⟨hn, h⟩
    obtain ⟨a, ha, b, hb, hab⟩ := Language.mem_mul.mp h
    have hstart : a ++ b <+: cs := hab ▸ List.take_prefix n cs
    obtain ⟨rest, hrest⟩ := hstart
    have hdrop : cs.drop a.length = b ++ rest := by
      rw [← hrest, List.append_assoc, List.drop_left]
    refine ⟨a.length, length_mem_lengths ha ⟨b ++ rest, by rw [← hrest, List.append_assoc]⟩,
      b.length, length_mem_lengths hb ⟨rest, hdrop.symm⟩, ?_⟩
    have hlength := congrArg List.length hab
    rw [List.length_append, List.length_take, Nat.min_eq_left hn] at hlength
    exact hlength.symm
  · rintro ⟨i, ⟨hi, hL⟩, j, ⟨hj, hM⟩, rfl⟩
    rw [List.length_drop] at hj
    refine ⟨by omega, ?_⟩
    rw [List.take_add]
    exact Language.append_mem_mul hL hM

theorem mem_lengths_run : n ∈ lengths (run p) cs ↔ n ≤ (cs.takeWhile p).length := by
  induction cs generalizing n with
  | nil => simp [mem_lengths, mem_run]
  | cons c cs ih =>
    cases n with
    | zero => simp [mem_lengths, mem_run]
    | succ n =>
      simp only [mem_lengths, mem_run] at ih
      by_cases hc : p c = true
      · simp [mem_lengths, mem_run, hc, ← ih]
      · simp [mem_lengths, mem_run, hc]

theorem mem_lengths_single : n ∈ lengths (single p) cs ↔ n = 1 ∧ ∃ c ∈ cs.head?, p c = true := by
  cases cs with
  | nil => simp [mem_lengths, mem_single]
  | cons c cs =>
    cases n with
    | zero => simp [mem_lengths, mem_single]
    | succ n =>
      simp only [mem_lengths, mem_single, List.take_succ_cons, List.cons.injEq]
      constructor
      · rintro ⟨hn, d, hd, rfl, htake⟩
        rw [List.take_eq_nil_iff] at htake
        simp only [List.length_cons] at hn
        have hzero : n = 0 := by
          rcases htake with h | rfl
          · exact h
          · simpa using hn
        exact ⟨by omega, c, rfl, hd⟩
      · rintro ⟨hn, d, hd, hp⟩
        obtain rfl : c = d := by simpa using hd
        obtain rfl : n = 0 := by omega
        exact ⟨by simp, c, hp, rfl, rfl⟩

theorem mem_lengths_word : n ∈ lengths (word s) cs ↔ n = s.length ∧ s.toList <+: cs := by
  simp only [mem_lengths, mem_word]
  constructor
  · rintro ⟨hn, h⟩
    have hstart : s.toList <+: cs := h ▸ List.take_prefix n cs
    have hlength := congrArg List.length h
    rw [List.length_take, Nat.min_eq_left hn, String.length_toList] at hlength
    exact ⟨hlength, hstart⟩
  · rintro ⟨rfl, h⟩
    rw [← String.length_toList]
    exact ⟨h.length_le, (List.prefix_iff_eq_take.mp h).symm⟩

end Lengths

section Greedy

variable {L M : Language Char} {cs : List Char} {n m : Nat} {p : Char → Bool}

theorem reads_zero_iff (hL : [] ∉ L) : Reads L cs 0 ↔ lengths L cs = ∅ := by
  unfold Reads
  rw [lengths_add, lengths_one]
  constructor
  · rintro ⟨-, hmax⟩
    apply Set.eq_empty_of_forall_notMem
    intro n hn
    obtain rfl : n = 0 := Nat.le_zero.mp (hmax (Or.inr hn))
    exact hL (zero_mem_lengths.mp hn)
  · intro h
    rw [h, Set.union_empty]
    exact isGreatest_singleton

theorem reads_pos_iff (hn : 0 < n) : Reads L cs n ↔ IsGreatest (lengths L cs) n := by
  unfold Reads
  rw [lengths_add, lengths_one]
  constructor
  · rintro ⟨hmem, hmax⟩
    refine ⟨hmem.resolve_left (by simp; omega), fun i hi => hmax (Or.inr hi)⟩
  · rintro ⟨hmem, hmax⟩
    refine ⟨Or.inr hmem, ?_⟩
    rintro i (rfl | hi)
    · exact Nat.zero_le n
    · exact hmax hi

theorem greatest_run : IsGreatest (lengths (run p) cs) (cs.takeWhile p).length :=
  ⟨mem_lengths_run.mpr (Nat.le_refl _), fun _ hn => mem_lengths_run.mp hn⟩

theorem Reads.add (hL : Reads L cs n) (hM : Reads M cs m) : Reads (L + M) cs (max n m) := by
  unfold Reads at *
  have hunion : lengths (1 + (L + M)) cs = lengths (1 + L) cs ∪ lengths (1 + M) cs := by
    rw [lengths_add, lengths_add, lengths_add, lengths_add, Set.union_union_distrib_left]
  rw [hunion]
  exact hL.union hM

/-- What is read first is taken whole: a shorter part of it leaves no character for what comes
after. -/
def Rests (L M : Language Char) (cs : List Char) (n : Nat) : Prop :=
  ∀ i ∈ lengths L cs, i < n → ∀ j ∈ lengths M (cs.drop i), j = 0

theorem nil_notMem_mul (h : [] ∉ L ∨ [] ∉ M) : [] ∉ L * M := by
  intro hnil
  obtain ⟨a, ha, b, hb, hab⟩ := Language.mem_mul.mp hnil
  obtain ⟨rfl, rfl⟩ := List.append_eq_nil_iff.mp hab
  exact h.elim (· ha) (· hb)

theorem lengths_mul_eq_empty (h : lengths L cs = ∅) : lengths (L * M) cs = ∅ := by
  apply Set.eq_empty_of_forall_notMem
  intro k hk
  obtain ⟨i, hi, -⟩ := mem_lengths_mul.mp hk
  rw [h] at hi
  exact hi

theorem greatest_mul (hL : IsGreatest (lengths L cs) n)
    (hM : IsGreatest (lengths M (cs.drop n)) m) (hrests : Rests L M cs n) :
    IsGreatest (lengths (L * M) cs) (n + m) := by
  refine ⟨mem_lengths_mul.mpr ⟨n, hL.1, m, hM.1, rfl⟩, ?_⟩
  intro k hk
  obtain ⟨i, hi, j, hj, rfl⟩ := mem_lengths_mul.mp hk
  rcases (hL.2 hi).lt_or_eq with hlt | rfl
  · have hzero := hrests i hi hlt j hj
    omega
  · exact Nat.add_le_add_left (hM.2 hj) i

theorem Reads.then (h : Reads L cs n) (hL : [] ∉ L)
    (hM : IsGreatest (lengths M (cs.drop n)) m) (hrests : Rests L M cs n) :
    Reads (L * M) cs (if n = 0 then 0 else n + m) := by
  split_ifs with hn
  · subst hn
    rw [reads_zero_iff (nil_notMem_mul (Or.inl hL))]
    exact lengths_mul_eq_empty ((reads_zero_iff hL).mp h)
  · have hpos : 0 < n := Nat.pos_of_ne_zero hn
    rw [reads_pos_iff (by omega)]
    exact greatest_mul ((reads_pos_iff hpos).mp h) hM hrests

theorem Reads.after (hL : IsGreatest (lengths L cs) n) (h : Reads M (cs.drop n) m) (hM : [] ∉ M)
    (hrests : Rests L M cs n) : Reads (L * M) cs (if m = 0 then 0 else n + m) := by
  split_ifs with hm
  · subst hm
    rw [reads_zero_iff (nil_notMem_mul (Or.inr hM))]
    apply Set.eq_empty_of_forall_notMem
    intro k hk
    obtain ⟨i, hi, j, hj, -⟩ := mem_lengths_mul.mp hk
    rcases (hL.2 hi).lt_or_eq with hlt | rfl
    · obtain rfl := hrests i hi hlt j hj
      exact hM (zero_mem_lengths.mp hj)
    · rw [(reads_zero_iff hM).mp h] at hj
      exact hj
  · have hpos : 0 < m := Nat.pos_of_ne_zero hm
    rw [reads_pos_iff (by omega)]
    exact greatest_mul hL ((reads_pos_iff hpos).mp h) hrests

theorem Reads.both (hL : Reads L cs n) (hnil : [] ∉ L) (hM : Reads M (cs.drop n) m) (hnil' : [] ∉ M)
    (hrests : Rests L M cs n) : Reads (L * M) cs (if n = 0 ∨ m = 0 then 0 else n + m) := by
  by_cases hn : n = 0
  · subst hn
    rw [if_pos (Or.inl rfl), reads_zero_iff (nil_notMem_mul (Or.inl hnil))]
    exact lengths_mul_eq_empty ((reads_zero_iff hnil).mp hL)
  · have h := Reads.after ((reads_pos_iff (Nat.pos_of_ne_zero hn)).mp hL) hM hnil' hrests
    simpa [hn] using h

end Greedy

section Starts

variable {L M : Language Char} {cs : List Char} {c : Char} {n j : Nat} {p q : Char → Bool}
  {s : String}

def Starts (L : Language Char) (c : Char) : Prop := ∃ w, c :: w ∈ L

theorem starts_one : ¬Starts 1 c := by
  rintro ⟨w, hw⟩
  simp [Language.mem_one] at hw

theorem starts_add : Starts (L + M) c ↔ Starts L c ∨ Starts M c := by
  simp only [Starts, Language.mem_add, exists_or]

theorem starts_single : Starts (single p) c ↔ p c = true := by
  constructor
  · rintro ⟨w, d, hd, hw⟩
    rwa [(List.cons.inj hw).1]
  · intro hc
    exact ⟨[], c, hc, rfl⟩

theorem starts_letter {d : Char} : Starts (letter d) c ↔ c = d := by
  rw [letter, starts_single, beq_iff_eq]

theorem starts_word : Starts (word s) c ↔ c ∈ s.toList.head? := by
  constructor
  · rintro ⟨w, hw⟩
    rw [← mem_word.mp hw]
    rfl
  · intro hc
    cases hs : s.toList with
    | nil => simp [hs] at hc
    | cons d ds =>
      obtain rfl : d = c := by simpa [hs] using hc
      exact ⟨ds, hs.symm⟩

theorem Starts.of_run (h : Starts (run p) c) : p c = true := by
  obtain ⟨w, hw⟩ := h
  exact hw c (by simp)

theorem Starts.of_mul (h : Starts (L * M) c) : Starts L c ∨ ([] ∈ L ∧ Starts M c) := by
  obtain ⟨w, hw⟩ := h
  obtain ⟨a, ha, b, hb, hab⟩ := Language.mem_mul.mp hw
  cases a with
  | nil => exact Or.inr ⟨ha, w, by rwa [← hab]⟩
  | cons d a =>
    obtain ⟨rfl, -⟩ := List.cons.inj hab
    exact Or.inl ⟨a, ha⟩

theorem Starts.of_mul_left (h : Starts (L * M) c) (hL : [] ∉ L) : Starts L c :=
  h.of_mul.resolve_right fun hM => hL hM.1

theorem starts_of_mem_lengths (hn : n ∈ lengths L (c :: cs)) (hpos : 0 < n) : Starts L c := by
  obtain ⟨k, rfl⟩ := Nat.exists_eq_succ_of_ne_zero hpos.ne'
  exact ⟨cs.take k, hn.2⟩

theorem eq_zero_of_mem_lengths (hcs : ∀ c ∈ cs.head?, ¬Starts L c) (hj : j ∈ lengths L cs) :
    j = 0 := by
  cases cs with
  | nil => exact Nat.le_zero.mp hj.1
  | cons c cs =>
    by_contra hne
    exact hcs c rfl (starts_of_mem_lengths hj (Nat.pos_of_ne_zero hne))

theorem lengths_eq_empty (hL : [] ∉ L) (hcs : ∀ c ∈ cs.head?, ¬Starts L c) : lengths L cs = ∅ := by
  apply Set.eq_empty_of_forall_notMem
  intro n hn
  obtain rfl := eq_zero_of_mem_lengths hcs hn
  exact hL (zero_mem_lengths.mp hn)

theorem head_drop_of_lt (h : n < (cs.takeWhile p).length) :
    ∃ c, (cs.drop n).head? = some c ∧ p c = true := by
  have hn : n < cs.length := h.trans_le (List.takeWhile_sublist p).length_le
  refine ⟨cs[n], by simp [List.head?_drop, hn], ?_⟩
  have hmem := List.getElem_mem h
  have hget : (cs.takeWhile p)[n] = cs[n] := (List.takeWhile_prefix p).getElem h
  rw [hget] at hmem
  exact List.mem_takeWhile_imp hmem

theorem rests_run (hM : ∀ c, Starts M c → p c = false) (hn : n ≤ (cs.takeWhile p).length) :
    Rests L M cs n := by
  intro i _ hi j hj
  obtain ⟨c, hc, hp⟩ := head_drop_of_lt (Nat.lt_of_lt_of_le hi hn)
  apply eq_zero_of_mem_lengths _ hj
  rintro d hd hstarts
  rw [hc] at hd
  obtain rfl := Option.some.inj hd
  simp [hM c hstarts] at hp

theorem rests_word : Rests (word s) M cs s.length := by
  intro i hi hlt
  exact absurd (mem_lengths_word.mp hi).1 hlt.ne

theorem rests_single : Rests (single p) M cs 1 := by
  intro i hi hlt
  exact absurd (mem_lengths_single.mp hi).1 hlt.ne

end Starts

section Parts

variable {cs : List Char} {p q : Char → Bool} {s : String}

theorem nil_notMem_single : [] ∉ single p := by simp [mem_single]

theorem nil_notMem_word (hs : s ≠ "") : [] ∉ word s := by
  rw [mem_word, eq_comm, String.toList_eq_nil_iff]
  exact hs

theorem reads_word (hs : s ≠ "") :
    Reads (word s) cs (if s.toList.isPrefixOf cs then s.length else 0) := by
  split_ifs with h
  · have hpos : 0 < s.length := by
      rw [← String.length_toList, List.length_pos_iff, ne_eq, String.toList_eq_nil_iff]
      exact hs
    rw [reads_pos_iff hpos]
    exact ⟨mem_lengths_word.mpr ⟨rfl, List.isPrefixOf_iff_prefix.mp h⟩,
      fun n hn => (mem_lengths_word.mp hn).1.le⟩
  · rw [reads_zero_iff (nil_notMem_word hs)]
    apply Set.eq_empty_of_forall_notMem
    intro n hn
    exact h (List.isPrefixOf_iff_prefix.mpr (mem_lengths_word.mp hn).2)

theorem reads_single : Reads (single p) cs (if cs.head?.any p then 1 else 0) := by
  have hany : cs.head?.any p = true ↔ ∃ c ∈ cs.head?, p c = true := by cases cs <;> simp
  split_ifs with h
  · rw [reads_pos_iff Nat.one_pos]
    exact ⟨mem_lengths_single.mpr ⟨rfl, hany.mp h⟩, fun n hn => (mem_lengths_single.mp hn).1.le⟩
  · rw [reads_zero_iff nil_notMem_single]
    apply Set.eq_empty_of_forall_notMem
    intro n hn
    exact h (hany.mpr (mem_lengths_single.mp hn).2)

theorem greatest_single {c : Char} (hc : p c = true) :
    IsGreatest (lengths (single p) (c :: cs)) 1 :=
  ⟨mem_lengths_single.mpr ⟨rfl, c, rfl, hc⟩, fun _ hn => (mem_lengths_single.mp hn).1.le⟩

theorem reads_single_run {c : Char} :
    Reads (single p * run q) (c :: cs) (if p c then 1 + (cs.takeWhile q).length else 0) := by
  have hnil : [] ∉ single p * run q := nil_notMem_mul (Or.inl nil_notMem_single)
  split_ifs with hc
  · rw [reads_pos_iff (by omega)]
    exact greatest_mul (greatest_single hc) greatest_run rests_single
  · rw [reads_zero_iff hnil]
    apply lengths_eq_empty hnil
    intro d hd hstarts
    obtain rfl : c = d := by simpa using hd
    exact hc (starts_single.mp (hstarts.of_mul_left nil_notMem_single))

theorem reads_digits : Reads (single p * run p) cs (cs.takeWhile p).length := by
  cases cs with
  | nil =>
    have hnil : [] ∉ single p * run p := nil_notMem_mul (Or.inl nil_notMem_single)
    exact (reads_zero_iff hnil).mpr (lengths_eq_empty hnil (by simp))
  | cons c cs =>
    have h : Reads (single p * run p) (c :: cs) _ := reads_single_run
    by_cases hc : p c = true
    · simpa [hc, Nat.add_comm] using h
    · simpa [hc] using h

theorem nil_notMem_letter {c : Char} : [] ∉ letter c := nil_notMem_single

theorem greatest_letter {c : Char} : IsGreatest (lengths (letter c) (c :: cs)) 1 :=
  greatest_single (beq_self_eq_true c)

theorem reads_letter {c : Char} : Reads (letter c) cs (if cs.head? = some c then 1 else 0) := by
  have h : Reads (letter c) cs _ := reads_single
  cases cs with
  | nil => simpa [letter] using h
  | cons d cs => simpa [letter] using h

theorem rests_letter {c : Char} {M : Language Char} : Rests (letter c) M cs 1 := rests_single

theorem reads_letter_mul {c : Char} {M : Language Char} {m : Nat} (h : Reads M cs m)
    (hM : [] ∉ M) : Reads (letter c * M) (c :: cs) (if m = 0 then 0 else 1 + m) :=
  Reads.after greatest_letter h hM rests_letter

theorem reads_letter_mul_ne {c : Char} {M : Language Char} (h : cs.head? ≠ some c) :
    Reads (letter c * M) cs 0 := by
  have hnil : [] ∉ letter c * M := nil_notMem_mul (Or.inl nil_notMem_letter)
  apply (reads_zero_iff hnil).mpr
  apply lengths_eq_empty hnil
  rintro d hd hstarts
  obtain rfl := starts_letter.mp (hstarts.of_mul_left nil_notMem_letter)
  exact h hd

end Parts

end RuleAlgebra.Text
