import RuleAlgebra.Proofs.GrammarRecognition
import RuleAlgebra.Proofs.Printing

/-!
Expressions that were read can be written. The names and wildcards among the tokens of a text are
spelled as they are printed, so that what the parser makes of them is printable but for its numbers.
-/

namespace RuleAlgebra

namespace Text

theorem dropWhile_eq_self {p : Char → Bool} {cs : List Char} (h : ∀ c ∈ cs.head?, p c = false) :
    cs.dropWhile p = cs := by
  cases cs with
  | nil => rfl
  | cons c cs => simp [h c rfl]

theorem stripChars_between {ls ms rs : List Char} (hl : ∀ c ∈ ls, isBlank c = true)
    (hr : ∀ c ∈ rs, isBlank c = true) (hfirst : ∀ c ∈ ms.head?, isBlank c = false)
    (hlast : ∀ c ∈ ms.getLast?, isBlank c = false) : stripChars (ls ++ ms ++ rs) = ms := by
  have hreverse : ∀ c ∈ rs.reverse, isBlank c = true := by simpa using hr
  have hhead : ∀ c ∈ ms.reverse.head?, isBlank c = false := by simpa using hlast
  rw [stripChars, List.append_assoc, List.dropWhile_append_of_pos hl]
  rcases eq_or_ne ms [] with rfl | hne
  · rw [List.nil_append, List.dropWhile_eq_nil_iff.mpr hr]
    rfl
  · have hmiddle : ∀ c ∈ (ms ++ rs).head?, isBlank c = false := by
      rwa [List.head?_append_of_ne_nil ms hne]
    rw [dropWhile_eq_self hmiddle, List.reverse_append, List.dropWhile_append_of_pos hreverse,
      dropWhile_eq_self hhead, List.reverse_reverse]

end Text

open Text

namespace Lexeme

section Names

variable {cs ws : List Char} {n : Nat}

theorem take_takeWhile (p : Char → Bool) (cs : List Char) :
    cs.take (cs.takeWhile p).length = cs.takeWhile p :=
  (List.prefix_iff_eq_take.mp (List.takeWhile_prefix p)).symm

theorem isIdentifier_take (h : 0 < nameLength cs) :
    isIdentifier (String.ofList (cs.take (nameLength cs))) = true := by
  cases cs with
  | nil => simp [nameLength] at h
  | cons c cs =>
    rw [nameLength] at h ⊢
    split_ifs at h ⊢ with hc
    · rw [Nat.add_comm, List.take_succ_cons, take_takeWhile]
      refine isIdentifier_iff.mpr ⟨c, _, String.toList_ofList, hc, fun d hd => ?_⟩
      exact (List.mem_takeWhile_imp hd)
    · simp at h

theorem sign?_kind {k : Token.Kind} (h : sign? cs = some (k, n)) : k ≠ .name ∧ k ≠ .wildcard := by
  unfold sign? at h
  split at h
  · obtain ⟨rfl, -⟩ := Prod.mk.inj (Option.some.inj h)
    decide
  · split_ifs at h <;> obtain ⟨rfl, -⟩ := Prod.mk.inj (Option.some.inj h) <;> decide
  · cases h

theorem first?_cases {wild : Bool} {k : Token.Kind} (h : first? wild cs = some (some k, n)) :
    (k = .name → n = nameLength cs ∧ 0 < n) ∧ (k = .wildcard → n = wildcardLength cs ∧ 0 < n) := by
  simp only [first?] at h
  generalize hw : (if wild = true then wildcardLength cs else 0) = w at h
  have hwild : 0 < w → w = wildcardLength cs := by
    rw [← hw]
    split_ifs <;> simp
  split at h
  · obtain ⟨rfl, rfl⟩ : Token.Kind.number = k ∧ _ = n := by simpa using h
    simp
  · split at h
    · rename_i hpos
      obtain ⟨rfl, rfl⟩ : Token.Kind.wildcard = k ∧ w = n := by simpa using h
      exact ⟨by simp, fun _ => ⟨hwild hpos, hpos⟩⟩
    · split at h
      · rename_i hpos
        obtain ⟨rfl, rfl⟩ : Token.Kind.name = k ∧ _ = n := by simpa using h
        exact ⟨fun _ => ⟨rfl, hpos⟩, by simp⟩
      · split at h
        · rename_i kind m hsign
          obtain ⟨rfl, rfl⟩ : kind = k ∧ m = n := by simpa using h
          obtain ⟨hname, hwildcard⟩ := sign?_kind hsign
          exact ⟨fun h => absurd h hname, fun h => absurd h hwildcard⟩
        · split at h <;> simp at h

end Names

section Wildcards

variable {α : Type} {cs ws : List Char} {n : Nat}

def SpellsWildcard (α : Type) (s : String) : Prop :=
  ∃ x k a, isIdentifier x = true ∧ Avoids k a ∧ (Grammar.wildcard s : Expr α) = .wild x k a

theorem avoids_none {k : WildcardKind} (hk : k ≠ .free) : Avoids k none :=
  ⟨by simp [hk], by simp⟩

theorem avoids_free {x : String} (hx : isIdentifier x = true) : Avoids .free (some x) :=
  ⟨by simp, by simpa using hx⟩

theorem wildcard_plain {x : String} (c : Char) (hx : isIdentifier x = true) :
    (Grammar.wildcard (String.ofList (c :: x.toList)) : Expr α) = .wild x .anything none := by
  have hcolon : ':' ∉ x.toList := fun h => absurd (isIdentifier_chars hx _ h) (by decide)
  simp [Grammar.wildcard, cut?, cutChars?_none hcolon]

theorem wildcard_kind {x kind : String} {k : WildcardKind} (hx : isIdentifier x = true)
    (hk : WildcardKind.ofName? kind = some k) :
    (Grammar.wildcard (String.ofList ('?' :: (x.toList ++ ':' :: kind.toList))) : Expr α) =
      .wild x k none := by
  rw [Grammar.wildcard, String.toList_ofList, List.drop_one, List.tail_cons, cut?_body hx]
  simp only [hk]

theorem wildcard_free {x y : String} {ls rs : List Char} (hx : isIdentifier x = true)
    (hy : isIdentifier y = true) (hl : ∀ c ∈ ls, isBlank c = true)
    (hr : ∀ c ∈ rs, isBlank c = true) :
    (Grammar.wildcard (String.ofList ('?' :: (x.toList ++ ':' ::
      ("free(".toList ++ (ls ++ y.toList ++ rs) ++ [')'])))) : Expr α) =
      .wild x .free (some y) := by
  have hword : ∀ c ∈ y.toList, isBlank c = false :=
    fun c hc => (isNameChar_class (isIdentifier_chars hy c hc)).1
  have hstrip : stripChars (ls ++ y.toList ++ rs) = y.toList :=
    stripChars_between hl hr (fun c hc => hword c (List.mem_of_mem_head? hc))
      fun c hc => hword c (List.mem_of_getLast? hc)
  generalize hinside : ls ++ y.toList ++ rs = inside at hstrip ⊢
  have hkind : "free(".toList ++ inside ++ [')'] =
      ("free(" ++ String.ofList inside ++ ")").toList := by
    simp
  have hdrop : (("free(" ++ String.ofList inside ++ ")").toList.drop "free(".length).dropLast =
      inside := by
    have hlen : "free(".length = 5 := rfl
    simp [hlen, List.dropLast_append_of_ne_nil]
  rw [Grammar.wildcard, String.toList_ofList, List.drop_one, List.tail_cons, hkind, cut?_body hx]
  simp only [ofName?_free, hdrop, hstrip, String.ofList_toList]

theorem freeLength_take (h : 0 < freeLength cs) : ∃ ls y rs, isIdentifier y = true ∧
    (∀ c ∈ ls, isBlank c = true) ∧ (∀ c ∈ rs, isBlank c = true) ∧
    cs.take (freeLength cs) = "free(".toList ++ (ls ++ y.toList ++ rs) ++ [')'] := by
  unfold freeLength at h ⊢
  generalize "free(".toList = head at h ⊢
  dsimp only at h ⊢
  by_cases hbegin : head.isPrefixOf cs = true
  · obtain ⟨inner, rfl⟩ := List.isPrefixOf_iff_prefix.mp hbegin
    simp only [hbegin, if_true, List.drop_left] at h ⊢
    generalize hbefore : (inner.takeWhile isBlank).length = before at h ⊢
    generalize hname : nameLength (inner.drop before) = name at h ⊢
    generalize hafter : ((inner.drop (before + name)).takeWhile isBlank).length = after at h ⊢
    split at h
    · rename_i rest hclose
      by_cases hzero : name = 0
      · simp [hzero] at h
      · have hpos : 0 < nameLength (inner.drop before) := by omega
        refine ⟨inner.take before, String.ofList ((inner.drop before).take name),
          (inner.drop (before + name)).take after, hname ▸ isIdentifier_take hpos, ?_, ?_, ?_⟩
        · rw [← hbefore, take_takeWhile]
          exact fun c hc => List.mem_takeWhile_imp hc
        · rw [← hafter, take_takeWhile]
          exact fun c hc => List.mem_takeWhile_imp hc
        · have hlen : head.length + before + name + after + 1 =
              head.length + (before + name + after + 1) := by omega
          simp only [if_neg hzero]
          rw [hlen, List.take_length_add_append, List.take_add, hclose, List.take_add,
            List.take_add, String.toList_ofList]
          simp
    · cases h
  · simp [hbegin] at h

theorem kindLength_take (ws : List Char) : ∃ k a, Avoids k a ∧ ∀ x, isIdentifier x = true →
    (Grammar.wildcard (String.ofList ('?' :: (x.toList ++ ws.take (kindLength ws)))) : Expr α) =
      .wild x k a := by
  have hplain : ∃ k a, Avoids k a ∧ ∀ x, isIdentifier x = true →
      (Grammar.wildcard (String.ofList ('?' :: (x.toList ++ []))) : Expr α) = .wild x k a :=
    ⟨.anything, none, avoids_none (by decide), fun x hx => by
      rw [List.append_nil, wildcard_plain '?' hx]⟩
  unfold kindLength
  split
  · rename_i us
    split
    · rename_i kind hfind
      have hmem := List.mem_of_find?_eq_some hfind
      have hbegin : kind.toList.isPrefixOf us = true := by simpa using List.find?_some hfind
      obtain ⟨vs, rfl⟩ := List.isPrefixOf_iff_prefix.mp hbegin
      have htake : (':' :: (kind.toList ++ vs)).take (1 + kind.length) = ':' :: kind.toList := by
        rw [Nat.add_comm, List.take_succ_cons, ← String.length_toList, List.take_left]
      obtain ⟨k, hk, hne⟩ : ∃ k, WildcardKind.ofName? kind = some k ∧ k ≠ .free := by
        simp only [List.mem_cons, List.not_mem_nil, or_false] at hmem
        rcases hmem with rfl | rfl | rfl <;> exact ⟨_, rfl, by decide⟩
      refine ⟨k, none, avoids_none hne, fun x hx => ?_⟩
      rw [htake, wildcard_kind hx hk]
    · dsimp only
      split_ifs with hzero
      · exact hplain
      · obtain ⟨ls, y, rs, hy, hl, hr, htake⟩ := freeLength_take (Nat.pos_of_ne_zero hzero)
        refine ⟨.free, some y, avoids_free hy, fun x hx => ?_⟩
        rw [Nat.add_comm, List.take_succ_cons, htake, wildcard_free hx hy hl hr]
  · exact hplain

theorem spellsWildcard_take (h : 0 < wildcardLength cs) :
    SpellsWildcard α (String.ofList (cs.take (wildcardLength cs))) := by
  unfold wildcardLength at h ⊢
  split at h
  · rename_i ds
    dsimp only at h ⊢
    split_ifs at h ⊢ with hzero
    · simp at h
    · have hname := isIdentifier_take (Nat.pos_of_ne_zero hzero)
      obtain ⟨k, a, ha, hkind⟩ := kindLength_take (α := α) (ds.drop (nameLength ds))
      refine ⟨_, k, a, hname, ha, ?_⟩
      rw [← hkind _ hname, String.toList_ofList, ← List.take_add, Nat.add_assoc, Nat.add_comm 1,
        List.take_succ_cons]
  · rename_i ds
    dsimp only at h ⊢
    split_ifs at h ⊢ with hzero
    · simp at h
    · have hname := isIdentifier_take (Nat.pos_of_ne_zero hzero)
      refine ⟨_, .anything, none, hname, avoids_none (by decide), ?_⟩
      rw [← wildcard_plain ':' hname, String.toList_ofList, Nat.add_comm 1, List.take_succ_cons]
  · simp at h

end Wildcards

section Tokens

structure WellSpelled (α : Type) (t : Token) : Prop where
  name : t.kind = .name → isIdentifier t.text = true
  wildcard : t.kind = .wildcard → SpellsWildcard α t.text

theorem star_of_stars {c : Char} {cs : List Char} {n : Nat} (hn : 0 < n)
    (h : String.ofList ((c :: cs).take n) = "**") : c = '*' := by
  obtain ⟨n, rfl⟩ : ∃ m, n = m + 1 := ⟨n - 1, by omega⟩
  have hchars := congrArg String.toList h
  rw [String.toList_ofList, List.take_succ_cons] at hchars
  exact (List.cons.inj hchars).1

theorem wellSpelled_lexeme (α : Type) {wild : Bool} {c : Char} {cs : List Char} {kind : Token.Kind}
    {n : Nat} (h : first? wild (c :: cs) = some (some kind, n)) (position : Nat) :
    WellSpelled α ⟨kind, if String.ofList ((c :: cs).take n) = "**" then "^"
      else String.ofList ((c :: cs).take n), position⟩ := by
  obtain ⟨hname, hwildcard⟩ := first?_cases h
  constructor
  · rintro rfl
    obtain ⟨rfl, hpos⟩ := hname rfl
    have hstars : String.ofList ((c :: cs).take (nameLength (c :: cs))) ≠ "**" := by
      intro heq
      obtain rfl := star_of_stars hpos heq
      exact absurd hpos (by simp [nameLength, show isNameStart '*' = false by decide])
    rw [if_neg hstars]
    exact isIdentifier_take hpos
  · rintro rfl
    obtain ⟨rfl, hpos⟩ := hwildcard rfl
    have hstars : String.ofList ((c :: cs).take (wildcardLength (c :: cs))) ≠ "**" := by
      intro heq
      obtain rfl := star_of_stars hpos heq
      rw [wildcardLength_eq_zero (by decide) (by decide)] at hpos
      exact absurd hpos (by decide)
    rw [if_neg hstars]
    exact spellsWildcard_take hpos

theorem scan_wellSpelled (α : Type) {wild : Bool} : ∀ {cs : List Char} {skip position : Nat}
    {stream : TokenStream}, scan wild skip position cs = .ok stream →
    ∀ t ∈ stream.tokens, WellSpelled α t
  | [], 0, position, stream, h => by
    obtain rfl := Except.ok.inj h
    simp
  | [], _ + 1, position, stream, h => by
    obtain rfl := Except.ok.inj h
    simp
  | c :: cs, skip + 1, position, stream, h => by
    rw [scan] at h
    exact scan_wellSpelled α h
  | c :: cs, 0, position, stream, h => by
    rw [scan] at h
    split at h
    · cases h
    · exact scan_wellSpelled α h
    · rename_i kind n hfirst
      obtain ⟨rest, hrest, hstream⟩ := bind_eq_ok.mp h
      obtain rfl := Except.ok.inj hstream
      exact List.forall_mem_cons.mpr
        ⟨wellSpelled_lexeme α hfirst position, scan_wellSpelled α hrest⟩

end Tokens

end Lexeme

namespace Expr

open Lexeme Grammar

variable {α : Type} [Scalar α]

section Derivations

/-- All parts but the numbers can be written and read back. -/
def Spellable (t : Expr α) : Prop := ∀ u ∈ t.walk, u.isNum = false → PrintableRoot u

variable {ts : List Token} {e l r : Expr α}

theorem spellable_num (v : α) : Spellable (num v) := by simp [Spellable, walk, isNum]

theorem spellable_op {o : Arithmetic} (hl : Spellable l) (hr : Spellable r) :
    Spellable (op o l r) := by
  rintro u (_ | ⟨_, hu⟩) hnum
  · trivial
  · exact (List.mem_append.mp hu).elim (fun h => hl u h hnum) fun h => hr u h hnum

theorem spellable_fn {f : String} {as : List (Expr α)} (hf : IsFunctionName f) (hne : as ≠ [])
    (has : ∀ a ∈ as, Spellable a) : Spellable (fn f as) := by
  rintro u (_ | ⟨_, hu⟩) hnum
  · exact ⟨hf, hne⟩
  · obtain ⟨a, ha, hu⟩ := mem_walkArgs.mp hu
    exact has a ha u hu hnum

theorem spellable_leaf (hwalk : e.walk = [e]) (h : PrintableRoot e) : Spellable e := by
  intro u hu _
  rw [hwalk, List.mem_singleton] at hu
  exact hu ▸ h

theorem spellable_negate (h : Spellable e) : Spellable (negate e) := by
  cases e with
  | num v => exact spellable_num _
  | _ => exact spellable_op (spellable_num _) h

theorem spellable_wildcard {s : String} (h : SpellsWildcard α s) :
    Spellable (Grammar.wildcard s : Expr α) := by
  obtain ⟨x, k, a, hx, ha, heq⟩ := h
  rw [heq]
  exact spellable_leaf rfl ⟨hx, ha⟩

theorem isFunctionName_functionName {f : String} (hf : isIdentifier f = true)
    (hcall : isCallable f = true) : IsFunctionName (functionName f) := by
  simp only [isCallable, constants, Bool.and_eq_true, decide_eq_true_eq, Bool.not_eq_true',
    List.contains_eq_mem, decide_eq_false_iff_not, List.mem_cons, not_or] at hcall
  unfold functionName
  split_ifs with hlog
  · exact ⟨by decide, by decide, by decide, by decide⟩
  · exact ⟨hf, hcall.1, hcall.2.1, hlog⟩

end Derivations

end Expr

namespace Grammar

open RuleAlgebra.Expr Lexeme

variable {α : Type} [Scalar α]

section Derivations

variable {ts : List Token} {e : Expr α}

mutual

theorem IsSum.spellable : ∀ {ts : List Token} {e : Expr α}, IsSum ts e →
    (∀ t ∈ ts, WellSpelled α t) → Spellable e
  | _, _, .term h, hts => h.spellable hts
  | _, _, @IsSum.more _ _ ls rs t _ _ hl ht hr, hts => by
    simp only [List.forall_mem_append, List.forall_mem_cons] at hts
    exact spellable_op (hl.spellable hts.1) (hr.spellable hts.2.2)

theorem IsTerm.spellable : ∀ {ts : List Token} {e : Expr α}, IsTerm ts e →
    (∀ t ∈ ts, WellSpelled α t) → Spellable e
  | _, _, .unary h, hts => h.spellable hts
  | _, _, @IsTerm.more _ _ ls rs t _ _ hl ht hr, hts => by
    simp only [List.forall_mem_append, List.forall_mem_cons] at hts
    exact spellable_op (hl.spellable hts.1) (hr.spellable hts.2.2)
  | _, _, @IsTerm.next _ _ ls rs t _ _ hl _ _ hr, hts => by
    rw [List.forall_mem_append] at hts
    exact spellable_op (hl.spellable hts.1) (hr.spellable hts.2)

theorem IsUnary.spellable : ∀ {ts : List Token} {e : Expr α}, IsUnary ts e →
    (∀ t ∈ ts, WellSpelled α t) → Spellable e
  | _, _, .minus _ h, hts => spellable_negate (h.spellable (List.forall_mem_cons.mp hts).2)
  | _, _, .plus _ h, hts => h.spellable (List.forall_mem_cons.mp hts).2
  | _, _, .power h, hts => h.spellable hts

theorem IsPower.spellable : ∀ {ts : List Token} {e : Expr α}, IsPower ts e →
    (∀ t ∈ ts, WellSpelled α t) → Spellable e
  | _, _, .primary h, hts => h.spellable hts
  | _, _, @IsPower.pow _ _ ls rs t _ _ hb _ hx, hts => by
    simp only [List.forall_mem_append, List.forall_mem_cons] at hts
    exact spellable_op (hb.spellable hts.1) (hx.spellable hts.2.2)

theorem IsPrimary.spellable : ∀ {ts : List Token} {e : Expr α}, IsPrimary ts e →
    (∀ t ∈ ts, WellSpelled α t) → Spellable e
  | _, _, .number _, _ => spellable_num _
  | _, _, .wildcard ht, hts => spellable_wildcard ((hts _ (List.mem_singleton_self _)).wildcard ht)
  | _, _, .name ht, hts => spellable_leaf rfl ((hts _ (List.mem_singleton_self _)).name ht)
  | _, _, @IsPrimary.parens _ _ ts p q _ _ h _, hts =>
    h.spellable fun t ht => hts t (by simp [ht])
  | _, _, @IsPrimary.call _ _ ts us t p q _ _ ht hcall _ h hs _, hts => by
    have hname : isIdentifier t.text = true := (hts t (by simp)).name ht
    refine spellable_fn (isFunctionName_functionName hname hcall) (by simp) ?_
    exact List.forall_mem_cons.mpr ⟨h.spellable fun u hu => hts u (by simp [hu]),
      hs.spellable fun u hu => hts u (by simp [hu])⟩

theorem AreArguments.spellable : ∀ {us : List Token} {as : List (Expr α)}, AreArguments us as →
    (∀ t ∈ us, WellSpelled α t) → ∀ a ∈ as, Spellable a
  | _, _, .nil, _ => by simp
  | _, _, @AreArguments.cons _ _ ts us c _ _ _ h hs, hts => by
    simp only [List.forall_mem_cons, List.forall_mem_append] at hts
    exact List.forall_mem_cons.mpr ⟨h.spellable hts.2.1, hs.spellable hts.2.2⟩

end

end Derivations

end Grammar

namespace Expr

open Lexeme Grammar

variable {α : Type} [Scalar α] {t l r : Expr α}

/-- All numbers of an expression survive being written and read back. -/
def ReadableNumbers (t : Expr α) : Prop := ∀ v, num v ∈ t.walk → Decimal.Readable v

theorem Spellable.printable (h : Spellable t) (hnum : ReadableNumbers t) : PrintableTerm t := by
  intro u hu
  cases u with
  | num v => exact hnum v hu
  | _ => exact h _ hu rfl

/-- An expression or an equation that was read can be printed, if its numbers can. -/
theorem printable_of_read {wild : Bool} {s : String} (h : read wild s = .ok t)
    (hnum : ReadableNumbers t) : Printable t := by
  obtain ⟨stream, hscan, hparse⟩ := bind_eq_ok.mp h
  have hts := scan_wellSpelled α hscan
  have hderived := isEquation_of_parse hparse
  generalize stream.tokens = tokens at hts hderived
  -- no sum is an equation, so that one can only stand at the root
  cases hderived with
  | sum hsum =>
    have hspell := hsum.spellable hts
    cases t with
    | eq l r => exact (hspell _ (self_mem_walk _) rfl).elim
    | _ => exact hspell.printable hnum
  | eq hl _ hr =>
    simp only [List.forall_mem_append, List.forall_mem_cons] at hts
    refine ⟨(hl.spellable hts.1).printable fun v hv => hnum v ?_,
      (hr.spellable hts.2.2).printable fun v hv => hnum v ?_⟩ <;> simp [walk, hv]

end Expr

end RuleAlgebra
