import RuleAlgebra.Proofs.EqualExpressions
import RuleAlgebra.Proofs.Instantiation

/-!
Matching finds the bindings under which a pattern stands for an expression whenever there are such,
and binds nothing but the wildcards of the pattern. Expressions are compared as the program compares
them: numbers may differ in how they represent equal values.
-/

namespace RuleAlgebra

namespace Expr

variable {α : Type}

section Names

def wildName? : Expr α → Option String
  | wild n _ _ => some n
  | _ => none

def addName (seen : List String) (n : String) : List String :=
  if seen.contains n then seen else seen ++ [n]

theorem addName_nodup {seen : List String} {n : String} (h : seen.Nodup) :
    (addName seen n).Nodup := by
  unfold addName
  split_ifs with hn
  · exact h
  · have hn' : n ∉ seen := by simpa using hn
    rw [← List.concat_eq_append]
    exact h.concat hn'

theorem firsts_nodup (names : List String) : (firsts names).Nodup := by
  have step (seen : List String) (h : seen.Nodup) : (names.foldl addName seen).Nodup := by
    induction names generalizing seen with
    | nil => exact h
    | cons n names ih => exact ih _ (addName_nodup h)
  exact step [] List.nodup_nil

theorem append_subset_addNames (seen names : List String) :
    seen ++ names ⊆ names.foldl addName seen := by
  intro n hn
  exact (mem_foldl_firsts names seen).mpr (List.mem_append.mp hn)

end Names

end Expr

namespace Bindings

open RuleAlgebra.Expr

variable {α : Type} [BEq α] {b c s : Bindings α} {x y : String} {d e : Expr α}

omit [BEq α] in
theorem get?_eq_none_iff : b.get? x = none ↔ x ∉ b.map (·.1) := by
  simp only [get?, Option.map_eq_none_iff, List.find?_eq_none, beq_iff_eq, List.mem_map, not_exists,
    not_and]

theorem extend?_names (h : b.extend? x e = some c) :
    c.map (·.1) = addName (b.map (·.1)) x := by
  unfold addName
  obtain ⟨hx, rfl⟩ | ⟨d, hx, -, rfl⟩ := extend?_eq_some.mp h
  · have hnew : x ∉ b.map (·.1) := get?_eq_none_iff.mp hx
    rw [if_neg (by simpa using hnew), List.map_append]
    rfl
  · have hold : ¬x ∉ c.map (·.1) := fun hn => by simp [get?_eq_none_iff.mpr hn] at hx
    rw [if_pos (by simpa using hold)]

/-- What is bound is equal to what the other bindings have for the name. -/
def Agrees (b s : Bindings α) : Prop :=
  ∀ x e, b.get? x = some e → ∃ d, s.get? x = some d ∧ Same d e

theorem Agrees.extend? [PartialEquivBEq α] (h : b.Agrees s) (hs : s.get? x = some d)
    (hde : Same d e) : ∃ c, b.extend? x e = some c ∧ c.Agrees s := by
  cases hb : b.get? x with
  | none =>
    refine ⟨b ++ [(x, e)], by simp [Bindings.extend?, hb], fun y a hy => ?_⟩
    rw [get?_append_singleton] at hy
    rcases Option.or_eq_some_iff.mp hy with hy | ⟨-, hy⟩
    · exact h y a hy
    · obtain ⟨rfl, rfl⟩ : x = y ∧ e = a := by simpa using hy
      exact ⟨d, hs, hde⟩
  | some a =>
    obtain ⟨d', hd', hda⟩ := h x a hb
    obtain rfl : d' = d := Option.some.inj (hd'.symm.trans hs)
    have hae : (a == e) = true := beq_iff_same.mpr (hda.symm.trans hde)
    exact ⟨b, by simp [Bindings.extend?, hb, hae], h⟩

end Bindings

namespace Expr

open RuleAlgebra.Bindings

variable {α : Type} {b c s : Bindings α} {e d : Expr α}

section Assignments

/-- What a wildcard of a kind may stand for, under an assignment to the wildcards: a constant for a
number, a symbol for a variable, and what is free of another wildcard for an expression without the
variable that is assigned to that one. -/
def MayStand (s : Bindings α) : WildcardKind → Option String → Expr α → Prop
  | .anything, _, _ => True
  | .constant, _, e => ∃ v, e = num v
  | .symbol, _, e => ∃ x, e = var x
  | .free, a, e => ∃ v ∈ a, ∃ x, s.get? v = some (var x) ∧ e.contains x = false

/-- Every wildcard of the pattern is assigned something that it may stand for. -/
def Admissible (s : Bindings α) (p : Expr α) : Prop :=
  ∀ n k a, wild n k a ∈ p.walk → ∃ d, s.get? n = some d ∧ MayStand s k a d

theorem admissible_num (v : α) : Admissible s (num v) := by simp [Admissible, walk]

theorem admissible_var (x : String) : Admissible s (var x) := by simp [Admissible, walk]

theorem admissible_wild {n : String} {k : WildcardKind} {a : Option String} :
    Admissible s (wild n k a) ↔ ∃ d, s.get? n = some d ∧ MayStand s k a d := by
  constructor
  · exact fun h => h n k a (List.mem_singleton.mpr rfl)
  · rintro h n' k' a' hmem
    cases List.mem_singleton.mp hmem
    exact h

theorem admissible_op {o : Arithmetic} {l r : Expr α} :
    Admissible s (op o l r) ↔ Admissible s l ∧ Admissible s r := by
  simp [Admissible, walk, or_imp, forall_and]

theorem admissible_eq {l r : Expr α} :
    Admissible s (eq l r) ↔ Admissible s l ∧ Admissible s r := by
  simp [Admissible, walk, or_imp, forall_and]

theorem admissible_fn {f : String} {as : List (Expr α)} :
    Admissible s (fn f as) ↔ ∀ a ∈ as, Admissible s a := by
  simp only [Admissible, walk, List.mem_cons, reduceCtorEq, false_or, mem_walkArgs]
  constructor
  · exact fun h a ha n k v hv => h n k v ⟨a, ha, hv⟩
  · rintro h n k v ⟨a, ha, hv⟩
    exact h a ha n k v hv

/-- Among the parts of a pattern, from left to right, each wildcard that has to be free of another
one comes after it; `seen` are the names before the first part. -/
def avoidsEarlier (seen : List String) : List (Expr α) → Bool
  | [] => true
  | wild n k a :: parts =>
    (k != .free || a.all seen.contains) && avoidsEarlier (seen ++ [n]) parts
  | _ :: parts => avoidsEarlier seen parts

theorem avoidsEarlier_append (seen : List String) (ps qs : List (Expr α)) :
    avoidsEarlier seen (ps ++ qs) =
      (avoidsEarlier seen ps && avoidsEarlier (seen ++ ps.filterMap wildName?) qs) := by
  induction ps generalizing seen with
  | nil => simp [avoidsEarlier]
  | cons p ps ih =>
    cases p with
    | wild n k a => simp [avoidsEarlier, ih, wildName?, Bool.and_assoc]
    | _ => simp [avoidsEarlier, ih, wildName?, List.filterMap_cons]

theorem avoidsEarlier_mono {seen seen' : List String} {ps : List (Expr α)} (h : seen ⊆ seen')
    (hp : avoidsEarlier seen ps = true) : avoidsEarlier seen' ps = true := by
  induction ps generalizing seen seen' with
  | nil => rfl
  | cons p ps ih =>
    cases p with
    | wild n k a =>
      simp only [avoidsEarlier, Bool.and_eq_true, Bool.or_eq_true, Option.all_eq_true,
        List.contains_iff_mem] at hp ⊢
      refine ⟨hp.1.imp_right fun ha v hv => h (ha v hv), ih ?_ hp.2⟩
      exact List.append_subset.mpr
        ⟨List.subset_append_of_subset_left _ h, List.subset_append_right _ _⟩
    | _ => exact ih h hp

end Assignments

variable [BEq α]

section Soundness

theorem mayStand_of_admits {k : WildcardKind} {a : Option String}
    (h : admits k a e b = true) (hbs : b <+: s) (hde : Same d e) : MayStand s k a d := by
  cases k with
  | anything => trivial
  | constant =>
    cases hde with
    | num _ => exact ⟨_, rfl⟩
    | _ => simp [admits] at h
  | symbol =>
    cases hde with
    | var x => exact ⟨x, rfl⟩
    | _ => simp [admits] at h
  | free =>
    simp only [admits] at h
    split at h
    · rename_i x hx
      obtain ⟨v, hv, hbv⟩ := Option.bind_eq_some_iff.mp hx
      refine ⟨v, hv, x, get?_mono hbv hbs, ?_⟩
      rw [hde.contains]
      simpa using h
    · cases h

theorem extend?_same [PartialEquivBEq α] {n : String} (h : b.extend? n e = some c)
    (he : Same e e) : b <+: c ∧ ∃ d, c.get? n = some d ∧ Same d e := by
  obtain ⟨hn, rfl⟩ | ⟨d, hn, hd, rfl⟩ := extend?_eq_some.mp h
  · exact ⟨List.prefix_append _ _, e, get?_append_self e hn, he⟩
  · exact ⟨List.prefix_rfl, d, hn, beq_iff_same.mp hd⟩

mutual

/-- However the bindings of a match are extended, they are admissible for the pattern, and the
pattern filled with them is equal to the matched expression. -/
theorem Matches.sound [PartialEquivBEq α] {p e : Expr α} {b c s : Bindings α} (hcs : c <+: s) :
    Matches p e b c → Same e e → Admissible s p ∧ ∃ u, p.instantiate s = .ok u ∧ Same u e
  | .wild hadmits hextend, he => by
    obtain ⟨hbc, d, hd, hde⟩ := extend?_same hextend he
    have hsn := get?_mono hd hcs
    refine ⟨admissible_wild.mpr ⟨d, hsn, mayStand_of_admits hadmits (hbc.trans hcs) hde⟩, d, ?_, hde⟩
    simp [instantiate, hsn, pure, Except.pure]
  | .num huv, _ => ⟨admissible_num _, num _, rfl, .num huv⟩
  | .var x, _ => ⟨admissible_var x, var x, rfl, .var x⟩
  | .op o hl hr, .op _ hl' hr' => by
    -- what the left part has bound stays bound while the right part is matched
    obtain ⟨al, u, hu, sl⟩ := hl.sound (hr.bound.1.trans hcs) hl'
    obtain ⟨ar, w, hw, sr⟩ := hr.sound hcs hr'
    refine ⟨admissible_op.mpr ⟨al, ar⟩, op o u w, ?_, .op o sl sr⟩
    simp only [instantiate, hu, hw, ok_bind]
    rfl
  | .eq hl hr, .eq hl' hr' => by
    obtain ⟨al, u, hu, sl⟩ := hl.sound (hr.bound.1.trans hcs) hl'
    obtain ⟨ar, w, hw, sr⟩ := hr.sound hcs hr'
    refine ⟨admissible_eq.mpr ⟨al, ar⟩, eq u w, ?_, .eq sl sr⟩
    simp only [instantiate, hu, hw, ok_bind]
    rfl
  | .fn f hargs, .fn _ hes => by
    obtain ⟨ha, us, hus, hsame⟩ := hargs.sound hcs hes
    refine ⟨admissible_fn.mpr ha, fn f us, ?_, .fn f hsame⟩
    simp only [instantiate, hus, ok_bind]
    rfl

theorem MatchesAll.sound [PartialEquivBEq α] {ps es : List (Expr α)} {b c s : Bindings α}
    (hcs : c <+: s) : MatchesAll ps es b c → SameAll es es →
      (∀ p ∈ ps, Admissible s p) ∧ ∃ us, instantiateArgs s ps = .ok us ∧ SameAll us es
  | .nil, _ => ⟨List.forall_mem_nil _, [], rfl, .nil⟩
  | .cons hp hps, .cons he hes => by
    obtain ⟨ap, u, hu, su⟩ := hp.sound (hps.bound.1.trans hcs) he
    obtain ⟨aps, us, hus, sus⟩ := hps.sound hcs hes
    refine ⟨List.forall_mem_cons.mpr ⟨ap, aps⟩, u :: us, ?_, .cons su sus⟩
    simp only [instantiateArgs, hu, hus, ok_bind]
    rfl

end

theorem matchFrom?_sound [PartialEquivBEq α] {p e : Expr α} {b c s : Bindings α}
    (h : matchFrom? p e b = some c) (he : Same e e) (hcs : c <+: s) :
    Admissible s p ∧ ∃ u, p.instantiate s = .ok u ∧ Same u e :=
  (matchFrom?_eq_some.mp h).sound hcs he

end Soundness

section Names

mutual

theorem Matches.names {p e : Expr α} {b c : Bindings α} : Matches p e b c →
    c.map (·.1) = (p.walk.filterMap wildName?).foldl addName (b.map (·.1))
  | .wild _ hextend => extend?_names hextend
  | .num _ => rfl
  | .var _ => rfl
  | .op _ hl hr => by
    rw [hr.names, hl.names]
    simp [walk, wildName?, List.filterMap_cons, List.foldl_append]
  | .eq hl hr => by
    rw [hr.names, hl.names]
    simp [walk, wildName?, List.filterMap_cons, List.foldl_append]
  | .fn _ hargs => by
    rw [hargs.names]
    simp [walk, wildName?, List.filterMap_cons]

theorem MatchesAll.names {ps es : List (Expr α)} {b c : Bindings α} : MatchesAll ps es b c →
    c.map (·.1) = ((walkArgs ps).filterMap wildName?).foldl addName (b.map (·.1))
  | .nil => rfl
  | .cons hp hps => by
    rw [hps.names, hp.names]
    simp [walkArgs, List.foldl_append]

end

theorem match?_names {p e : Expr α} (h : match? p e = some b) : b.map (·.1) = p.wildcards :=
  (matchFrom?_eq_some.mp h).names

end Names

section Completeness

theorem admits_of_mayStand {k : WildcardKind} {a : Option String} (h : MayStand s k a d)
    (hde : Same d e) (hbs : b.Agrees s) (ha : k = .free → ∀ v ∈ a, v ∈ b.map (·.1)) :
    admits k a e b = true := by
  cases k with
  | anything => rfl
  | constant =>
    obtain ⟨v, rfl⟩ := h
    cases hde
    rfl
  | symbol =>
    obtain ⟨x, rfl⟩ := h
    cases hde
    rfl
  | free =>
    obtain ⟨v, hv, x, hx, hfree⟩ := h
    obtain ⟨w, hw⟩ : ∃ w, b.get? v = some w := by
      rw [← Option.ne_none_iff_exists', ne_eq, get?_eq_none_iff, not_not]
      exact ha rfl v hv
    -- what the other wildcard is bound to is the variable assigned to it
    obtain ⟨w', hw', hsame⟩ := hbs v w hw
    obtain rfl : w' = var x := Option.some.inj (hw'.symm.trans hx)
    cases hsame
    rw [Option.mem_def] at hv
    subst hv
    simp [admits, hw, ← hde.contains, hfree]

mutual

/-- Bindings that agree with an admissible assignment, under which the pattern stands for the
expression, are extended by the match, and agree with it afterwards. -/
theorem matches_complete [PartialEquivBEq α] : ∀ {p u e : Expr α} {b s : Bindings α},
    Admissible s p → p.instantiate s = .ok u → Same u e → b.Agrees s →
      avoidsEarlier (b.map (·.1)) p.walk = true → ∃ c, Matches p e b c ∧ c.Agrees s
  | wild n k a, u, e, b, s, hp, hu, hue, hbs, hw => by
    obtain ⟨d, hd, hstand⟩ := admissible_wild.mp hp
    obtain rfl : d = u := by simpa [instantiate, hd, pure, Except.pure] using hu
    have ha : k = .free → ∀ v ∈ a, v ∈ b.map (·.1) := by
      rintro rfl
      simpa only [walk, avoidsEarlier, bne_self_eq_false, Bool.false_or, Bool.and_true,
        Option.all_eq_true, List.contains_iff_mem, Option.mem_def] using hw
    obtain ⟨c, hc, hcs⟩ := hbs.extend? hd hue
    exact ⟨c, .wild (admits_of_mayStand hstand hue hbs ha) hc, hcs⟩
  | num v, u, e, b, s, _, hu, hue, hbs, _ => by
    obtain rfl := Except.ok.inj hu
    cases hue with
    | num h => exact ⟨b, .num h, hbs⟩
  | var x, u, e, b, s, _, hu, hue, hbs, _ => by
    obtain rfl := Except.ok.inj hu
    cases hue with
    | var => exact ⟨b, .var x, hbs⟩
  | op o l r, u, e, b, s, hp, hu, hue, hbs, hw => by
    obtain ⟨hl, hr⟩ := admissible_op.mp hp
    simp only [instantiate, bind_eq_ok] at hu
    obtain ⟨ul, hul, ur, hur, ⟨⟩⟩ := hu
    cases hue with
    | op _ hsl hsr =>
      simp only [walk, avoidsEarlier, avoidsEarlier_append, Bool.and_eq_true] at hw
      obtain ⟨m, hm, hms⟩ := matches_complete hl hul hsl hbs hw.1
      -- to the right part, the names that the left part binds are earlier ones
      obtain ⟨c, hc, hcs⟩ := matches_complete hr hur hsr hms
        (hm.names ▸ avoidsEarlier_mono (append_subset_addNames _ _) hw.2)
      exact ⟨c, .op o hm hc, hcs⟩
  | eq l r, u, e, b, s, hp, hu, hue, hbs, hw => by
    obtain ⟨hl, hr⟩ := admissible_eq.mp hp
    simp only [instantiate, bind_eq_ok] at hu
    obtain ⟨ul, hul, ur, hur, ⟨⟩⟩ := hu
    cases hue with
    | eq hsl hsr =>
      simp only [walk, avoidsEarlier, avoidsEarlier_append, Bool.and_eq_true] at hw
      obtain ⟨m, hm, hms⟩ := matches_complete hl hul hsl hbs hw.1
      obtain ⟨c, hc, hcs⟩ := matches_complete hr hur hsr hms
        (hm.names ▸ avoidsEarlier_mono (append_subset_addNames _ _) hw.2)
      exact ⟨c, .eq hm hc, hcs⟩
  | fn f as, u, e, b, s, hp, hu, hue, hbs, hw => by
    simp only [instantiate, bind_eq_ok] at hu
    obtain ⟨us, hus, ⟨⟩⟩ := hu
    cases hue with
    | fn _ hsame =>
      obtain ⟨c, hc, hcs⟩ := matchesAll_complete (admissible_fn.mp hp) hus hsame hbs hw
      exact ⟨c, .fn f hc, hcs⟩

theorem matchesAll_complete [PartialEquivBEq α] : ∀ {ps us es : List (Expr α)}
    {b s : Bindings α}, (∀ p ∈ ps, Admissible s p) → instantiateArgs s ps = .ok us →
      SameAll us es → b.Agrees s → avoidsEarlier (b.map (·.1)) (walkArgs ps) = true →
        ∃ c, MatchesAll ps es b c ∧ c.Agrees s
  | [], us, es, b, s, _, hus, hsame, hbs, _ => by
    obtain rfl := Except.ok.inj hus
    cases hsame
    exact ⟨b, .nil, hbs⟩
  | p :: ps, us, es, b, s, hps, hus, hsame, hbs, hw => by
    obtain ⟨hp, hps⟩ := List.forall_mem_cons.mp hps
    simp only [instantiateArgs, bind_eq_ok] at hus
    obtain ⟨u, hu, us', hus', ⟨⟩⟩ := hus
    cases hsame with
    | cons hue hsame =>
      simp only [walkArgs, avoidsEarlier_append, Bool.and_eq_true] at hw
      obtain ⟨m, hm, hms⟩ := matches_complete hp hu hue hbs hw.1
      obtain ⟨c, hc, hcs⟩ := matchesAll_complete hps hus' hsame hms
        (hm.names ▸ avoidsEarlier_mono (append_subset_addNames _ _) hw.2)
      exact ⟨c, .cons hm hc, hcs⟩

end

theorem matchFrom?_complete [PartialEquivBEq α] {p u e : Expr α} {b s : Bindings α}
    (hp : Admissible s p) (hu : p.instantiate s = .ok u) (hue : Same u e) (hbs : b.Agrees s)
    (hw : avoidsEarlier (b.map (·.1)) p.walk = true) :
    ∃ c, matchFrom? p e b = some c ∧ c.Agrees s := by
  simpa only [matchFrom?_eq_some] using matches_complete hp hu hue hbs hw

end Completeness

/-- A pattern matches an expression exactly when there is an assignment to its wildcards under which
it stands for the expression. The match is such an assignment, binds every wildcard once, and agrees
with all others; and matching only appends to the bindings that it starts with. -/
theorem match?_exact [PartialEquivBEq α] {p t : Expr α} (hp : avoidsEarlier [] p.walk = true)
    (ht : (t == t) = true) :
    ((∃ b, match? p t = some b) ↔
        ∃ s u, Admissible s p ∧ p.instantiate s = .ok u ∧ (u == t) = true) ∧
      (∀ b, match? p t = some b →
        b.map (·.1) = p.wildcards ∧ (b.map (·.1)).Nodup ∧ Admissible b p ∧
          (∃ u, p.instantiate b = .ok u ∧ (u == t) = true) ∧
          ∀ s u, Admissible s p → p.instantiate s = .ok u → (u == t) = true → b.Agrees s) ∧
      ∀ (q e : Expr α) (b c : Bindings α), matchFrom? q e b = some c → b <+: c := by
  have complete {s : Bindings α} {u : Expr α} (hs : Admissible s p)
      (hu : p.instantiate s = .ok u) (hut : (u == t) = true) :
      ∃ b, match? p t = some b ∧ b.Agrees s :=
    matchFrom?_complete hs hu (beq_iff_same.mp hut) (by simp [Agrees, get?]) hp
  have sound {b : Bindings α} (hb : match? p t = some b) :
      Admissible b p ∧ ∃ u, p.instantiate b = .ok u ∧ (u == t) = true := by
    obtain ⟨hadmissible, u, hu, hut⟩ :=
      matchFrom?_sound hb (beq_iff_same.mp ht) List.prefix_rfl
    exact ⟨hadmissible, u, hu, beq_iff_same.mpr hut⟩
  refine ⟨⟨?_, ?_⟩, ?_, fun q e b c h => (matchFrom?_bound h).1⟩
  · rintro ⟨b, hb⟩
    obtain ⟨hadmissible, u, hu, hut⟩ := sound hb
    exact ⟨b, u, hadmissible, hu, hut⟩
  · rintro ⟨s, u, hs, hu, hut⟩
    obtain ⟨b, hb, -⟩ := complete hs hu hut
    exact ⟨b, hb⟩
  · intro b hb
    obtain ⟨hadmissible, hinstance⟩ := sound hb
    have hnames := match?_names hb
    refine ⟨hnames, hnames ▸ firsts_nodup _, hadmissible, hinstance, ?_⟩
    intro s u hs hu hut
    obtain ⟨c, hc, hagrees⟩ := complete hs hu hut
    obtain rfl : b = c := Option.some.inj (hb.symm.trans hc)
    exact hagrees

/-- The pattern `(?c:const * ?v:var)^2 + ?e:free(v) + ?v` stands for `(3*x)^2 + 2*y + x`. -/
theorem match?_exact_of_free_part :
    let v : Expr Rat := .wild "v" .symbol none
    let p : Expr Rat := .op .add (.op .add (.squared (.op .mul (.wild "c" .constant none) v))
      (.wild "e" .free (some "v"))) (.wild "v" .anything none)
    let x : Expr Rat := .var "x"
    let y : Expr Rat := .op .mul (.ofNat 2) (.var "y")
    let t : Expr Rat := .op .add (.op .add (.squared (.op .mul (.ofNat 3) x)) y) x
    avoidsEarlier [] p.walk = true ∧ (t == t) = true ∧
      ∃ b, match? p t = some b ∧ b.map (·.1) = ["c", "v", "e"] ∧
        b.Agrees [("c", .ofNat 3), ("v", x), ("e", y)] := by
  intro v p x y t
  have hp : avoidsEarlier [] p.walk = true := by decide +kernel
  have ht : (t == t) = true := by simp
  let s : Bindings Rat := [("c", .ofNat 3), ("v", x), ("e", y)]
  have hs : Admissible s p := by
    simp [p, v, s, x, y, squared, ofNat, admissible_op, admissible_wild, admissible_num,
      Bindings.get?, MayStand, contains]
  have hu : p.instantiate s = .ok t := rfl
  obtain ⟨hiff, hmatch, -⟩ := match?_exact hp ht
  obtain ⟨b, hb⟩ := hiff.mpr ⟨s, t, hs, hu, ht⟩
  obtain ⟨hnames, -, -, -, hagrees⟩ := hmatch b hb
  exact ⟨hp, ht, b, hb, hnames, hagrees s t hs hu ht⟩

end Expr

end RuleAlgebra
