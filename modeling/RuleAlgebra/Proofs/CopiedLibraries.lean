import RuleAlgebra.Proofs.NameIndex
import RuleAlgebra.Proofs.RuleSwitches
import RuleAlgebra.Session.Basic

/-!
Libraries that are changed in place. The rules, the index and the switches of a library lie in
cells. Actions write into the cells of one library, or make a new library. No two libraries share a
cell, so that what is done with one is seen in no other, and the index of each follows its rules.
-/

namespace RuleAlgebra

def Library.addFunction {α : Type} (l : Library α) (f : Expr α → Except Failure (Expr α))
    (name category : String) (description : Option String) : Library α :=
  l.add ⟨⟨some name, description, [category]⟩, f, none⟩

/-- The cells that hold the parts of a library. -/
structure Library.Cells where
  rules : Nat
  index : Nat
  disabled : Nat

/-- Libraries, known by their places, and the contents of the cells. -/
structure Libraries (α : Type) where
  rules : List (List (Rule α))
  indexes : List (List (String × Rule α))
  switches : List (List String)
  cells : List Library.Cells

namespace Libraries

variable {α : Type}

inductive Action (α : Type) where
  | create
  | add (k : Nat) (r : Rule α)
  | addFunction (k : Nat) (f : Expr α → Except Failure (Expr α)) (name category : String)
      (description : Option String)
  | load (k : Nat) (text : String)
  | loadFile (k : Nat) (path : String)
  | disable (k : Nat) (group : String)
  | enable (k : Nat) (group : String)
  | copy (k : Nat)
  | union (i j : Nat)

def Action.target? : Action α → Option Nat
  | .add k _ | .addFunction k _ _ _ _ | .load k _ | .loadFile k _ | .disable k _ | .enable k _ =>
    some k
  | .create | .copy _ | .union _ _ => none

def library? (s : Libraries α) (k : Nat) : Option (Library α) := do
  let c ← s.cells[k]?
  let rules ← s.rules[c.rules]?
  let index ← s.indexes[c.index]?
  let disabled ← s.switches[c.disabled]?
  pure ⟨rules, index, disabled⟩

def update (s : Libraries α) (k : Nat) (f : Library α → Library α) : Libraries α :=
  match s.cells[k]?, s.library? k with
  | some c, some l =>
    { s with
      rules := s.rules.set c.rules (f l).rules
      indexes := s.indexes.set c.index (f l).index
      switches := s.switches.set c.disabled (f l).disabled }
  | _, _ => s

def addAll (s : Libraries α) (k : Nat) (rs : List (Rule α)) : Libraries α :=
  rs.foldl (fun s r => s.update k (·.add r)) s

def create (s : Libraries α) : Libraries α where
  rules := s.rules ++ [[]]
  indexes := s.indexes ++ [[]]
  switches := s.switches ++ [[]]
  cells := s.cells ++ [⟨s.rules.length, s.indexes.length, s.switches.length⟩]

def renewSwitches (s : Libraries α) (k : Nat) (groups : List String) : Libraries α :=
  { s with
    switches := s.switches ++ [groups]
    cells := s.cells.modify k fun c => { c with disabled := s.switches.length } }

def copy (s : Libraries α) (l : Library α) : Libraries α :=
  (s.create.addAll s.cells.length l.rules).renewSwitches s.cells.length l.disabled

def union (s : Libraries α) (l m : Library α) : Libraries α :=
  (s.copy l).addAll s.cells.length m.rules

section Steps

variable [Scalar α] (read : String → Except FileFault String)

def rulesOfFile (path : String) : Except Failure (List (Rule α)) :=
  match read path with
  | .ok text => rulesOfText text
  | .error fault => throw (.file fault)

def addRead (s : Libraries α) (k : Nat) :
    Except Failure (List (Rule α)) → Except Failure Unit × Libraries α
  | .ok rs => (.ok (), s.addAll k rs)
  | .error f => (.error f, s)

/-- Nothing is done where there is no library. -/
def step (s : Libraries α) : Action α → Except Failure Unit × Libraries α
  | .create => (.ok (), s.create)
  | .add k r => (.ok (), s.update k (·.add r))
  | .addFunction k f name category description =>
    (.ok (), s.update k (·.addFunction f name category description))
  | .load k text => s.addRead k (rulesOfText text)
  | .loadFile k path => s.addRead k (rulesOfFile read path)
  | .disable k group => (.ok (), s.update k (·.disable group))
  | .enable k group => (.ok (), s.update k (·.enable group))
  | .copy k =>
    match s.library? k with
    | some l => (.ok (), s.copy l)
    | none => (.ok (), s)
  | .union i j =>
    match s.library? i, s.library? j with
    | some l, some m => (.ok (), s.union l m)
    | _, _ => (.ok (), s)

def run (s : Libraries α) (as : List (Action α)) : Libraries α :=
  as.foldl (fun s a => (s.step read a).2) s

def start : Libraries α :=
  (⟨[], [], [], []⟩ : Libraries α).create.create.addAll 1 Library.standard.rules

end Steps

/-- The cells of the libraries are there, no two libraries share one, and the indexes follow the
rules. -/
structure Sound (s : Libraries α) : Prop where
  bounded {k : Nat} {c : Library.Cells} : s.cells[k]? = some c →
    c.rules < s.rules.length ∧ c.index < s.indexes.length ∧ c.disabled < s.switches.length
  apart {i j : Nat} {c d : Library.Cells} : s.cells[i]? = some c → s.cells[j]? = some d → i ≠ j →
    c.rules ≠ d.rules ∧ c.index ≠ d.index ∧ c.disabled ≠ d.disabled
  follows {k : Nat} {l : Library α} : s.library? k = some l → l.Follows

section Places

variable {s t : Libraries α} {j k : Nat} {l : Library α}

theorem library?_of_cells {c : Library.Cells} (h : s.cells[k]? = some c) :
    s.library? k = some l ↔ s.rules[c.rules]? = some l.rules ∧
      s.indexes[c.index]? = some l.index ∧ s.switches[c.disabled]? = some l.disabled := by
  cases l
  simp only [library?, h, Option.bind_eq_bind, Option.bind_some, Option.bind_eq_some_iff,
    Option.pure_def, Option.some.injEq, Library.mk.injEq]
  constructor
  · rintro ⟨_, hrules, _, hindex, _, hdisabled, rfl, rfl, rfl⟩
    exact ⟨hrules, hindex, hdisabled⟩
  · rintro ⟨hrules, hindex, hdisabled⟩
    exact ⟨_, hrules, _, hindex, _, hdisabled, rfl, rfl, rfl⟩

theorem library?_eq_none (h : s.cells.length ≤ k) : s.library? k = none := by
  simp [library?, List.getElem?_eq_none h]

theorem exists_cells (h : s.library? k = some l) : ∃ c, s.cells[k]? = some c := by
  cases hc : s.cells[k]? with
  | none => simp [library?, hc] at h
  | some c => exact ⟨c, rfl⟩

theorem lt_of_library? (h : s.library? k = some l) : k < s.cells.length := by
  obtain ⟨c, hc⟩ := exists_cells h
  exact (List.getElem?_eq_some_iff.mp hc).1

theorem library?_congr (hcells : t.cells[k]? = s.cells[k]?)
    (h : ∀ c, s.cells[k]? = some c → t.rules[c.rules]? = s.rules[c.rules]? ∧
      t.indexes[c.index]? = s.indexes[c.index]? ∧
      t.switches[c.disabled]? = s.switches[c.disabled]?) :
    t.library? k = s.library? k := by
  rw [library?, library?, hcells]
  cases hc : s.cells[k]? with
  | none => rfl
  | some c =>
    obtain ⟨hrules, hindex, hdisabled⟩ := h c hc
    simp only [Option.bind_eq_bind, Option.bind_some, hrules, hindex, hdisabled]

end Places

section Updates

variable {s : Libraries α} {j k : Nat} {l : Library α} {f : Library α → Library α}

theorem update_of_some {c : Library.Cells} (hc : s.cells[k]? = some c)
    (h : s.library? k = some l) : s.update k f =
      ⟨s.rules.set c.rules (f l).rules, s.indexes.set c.index (f l).index,
        s.switches.set c.disabled (f l).disabled, s.cells⟩ := by
  simp only [update, hc, h]

theorem update_of_none (h : s.library? k = none) : s.update k f = s := by
  rw [update, h]
  split <;> trivial

theorem cells_update : (s.update k f).cells = s.cells := by
  cases h : s.library? k with
  | none => rw [update_of_none h]
  | some l =>
    obtain ⟨c, hc⟩ := exists_cells h
    rw [update_of_some hc h]

theorem Sound.library?_update (hs : s.Sound) (h : s.library? k = some l) :
    (s.update k f).library? k = some (f l) := by
  obtain ⟨c, hc⟩ := exists_cells h
  obtain ⟨hrules, hindex, hdisabled⟩ := hs.bounded hc
  have hcells : (s.update k f).cells[k]? = some c := by rw [cells_update, hc]
  rw [library?_of_cells hcells, update_of_some hc h]
  simp [hrules, hindex, hdisabled]

theorem Sound.library?_update_of_ne (hs : s.Sound) (hj : j ≠ k) :
    (s.update k f).library? j = s.library? j := by
  cases h : s.library? k with
  | none => rw [update_of_none h]
  | some l =>
    obtain ⟨c, hc⟩ := exists_cells h
    rw [update_of_some hc h]
    -- The other library has other cells, so none of its own is written.
    refine library?_congr rfl fun d hd => ?_
    obtain ⟨hrules, hindex, hdisabled⟩ := hs.apart hc hd hj.symm
    simp [hrules, hindex, hdisabled]

theorem Sound.update (hs : s.Sound) (k : Nat) (hf : ∀ l, l.Follows → (f l).Follows) :
    (s.update k f).Sound := by
  cases h : s.library? k with
  | none => rwa [update_of_none h]
  | some l =>
    obtain ⟨c, hc⟩ := exists_cells h
    have hupdate := update_of_some (f := f) hc h
    refine ⟨fun {j d} hd => ?_, fun {i j d e} hd he => ?_, fun {j m} hm => ?_⟩
    · rw [cells_update] at hd
      simpa [hupdate] using hs.bounded hd
    · rw [cells_update] at hd he
      exact hs.apart hd he
    · by_cases hj : j = k
      · subst hj
        rw [hs.library?_update h, Option.some.injEq] at hm
        exact hm ▸ hf l (hs.follows h)
      · rw [hs.library?_update_of_ne hj] at hm
        exact hs.follows hm

variable {rs : List (Rule α)}

theorem Sound.addAll (hs : s.Sound) (k : Nat) (rs : List (Rule α)) : (s.addAll k rs).Sound := by
  induction rs generalizing s with
  | nil => exact hs
  | cons r rs ih => exact ih (hs.update k fun l hl => hl.add r)

theorem Sound.library?_addAll (hs : s.Sound) (h : s.library? k = some l) :
    (s.addAll k rs).library? k = some (l.addAll rs) := by
  induction rs generalizing s l with
  | nil => exact h
  | cons r rs ih => exact ih (hs.update k fun l hl => hl.add r) (hs.library?_update h)

theorem Sound.library?_addAll_of_ne (hs : s.Sound) (hj : j ≠ k) :
    (s.addAll k rs).library? j = s.library? j := by
  induction rs generalizing s with
  | nil => rfl
  | cons r rs ih =>
    exact (ih (hs.update k fun l hl => hl.add r)).trans (hs.library?_update_of_ne hj)

theorem Sound.addRead (hs : s.Sound) (k : Nat) (rs : Except Failure (List (Rule α))) :
    (s.addRead k rs).2.Sound := by
  cases rs with
  | ok rs => exact hs.addAll k rs
  | error f => exact hs

theorem Sound.library?_addRead_of_ne (hs : s.Sound) (hj : j ≠ k)
    (rs : Except Failure (List (Rule α))) : (s.addRead k rs).2.library? j = s.library? j := by
  cases rs with
  | ok rs => exact hs.library?_addAll_of_ne hj
  | error f => rfl

theorem addRead_failed {rs : Except Failure (List (Rule α))} {f : Failure}
    (h : (s.addRead k rs).1 = .error f) : (s.addRead k rs).2 = s := by
  cases rs with
  | ok rs => cases h
  | error f => rfl

theorem Sound.addRead_spec (hs : s.Sound) (h : s.library? k = some l)
    (rs : Except Failure (List (Rule α))) :
    match rs.map l.addAll with
    | .ok m => (s.addRead k rs).1 = .ok () ∧ (s.addRead k rs).2.library? k = some m
    | .error f => s.addRead k rs = (.error f, s) := by
  cases rs with
  | ok rs => exact ⟨rfl, hs.library?_addAll h⟩
  | error f => rfl

end Updates

section NewLibraries

variable {s : Libraries α} {j k : Nat} {l m : Library α} {groups : List String}

theorem library?_create : s.create.library? s.cells.length = some .empty := by
  have hcells : s.create.cells[s.cells.length]? =
      some ⟨s.rules.length, s.indexes.length, s.switches.length⟩ := by simp [create]
  rw [library?_of_cells hcells]
  simp [create, Library.empty]

theorem Sound.library?_create_of_ne (hs : s.Sound) (hj : j ≠ s.cells.length) :
    s.create.library? j = s.library? j := by
  apply library?_congr
  · rw [create, List.getElem?_append]
    split
    · rfl
    · rw [List.getElem?_eq_none (by simp; omega), List.getElem?_eq_none (by omega)]
  · intro c hc
    obtain ⟨hrules, hindex, hdisabled⟩ := hs.bounded hc
    simp [create, List.getElem?_append_left, hrules, hindex, hdisabled]

theorem getElem?_cells_create {c : Library.Cells} (hc : s.create.cells[j]? = some c) :
    s.cells[j]? = some c ∨
      c.rules = s.rules.length ∧ c.index = s.indexes.length ∧ c.disabled = s.switches.length ∧
        j = s.cells.length := by
  rw [Libraries.create, List.getElem?_append] at hc
  split at hc
  · exact .inl hc
  · obtain ⟨hj, hc⟩ := List.getElem?_eq_some_iff.mp hc
    rw [List.length_singleton] at hj
    rw [List.getElem_singleton] at hc
    exact .inr ⟨hc ▸ rfl, hc ▸ rfl, hc ▸ rfl, by omega⟩

theorem Sound.create (hs : s.Sound) : s.create.Sound := by
  refine ⟨fun {k c} hc => ?_, fun {i j c d} hc hd hij => ?_, fun {k l} hl => ?_⟩
  · simp only [Libraries.create, List.length_append, List.length_singleton]
    rcases getElem?_cells_create hc with hc | hc
    · have := hs.bounded hc
      omega
    · omega
  · rcases getElem?_cells_create hc with hc | hc <;> rcases getElem?_cells_create hd with hd | hd
    · exact hs.apart hc hd hij
    · have := hs.bounded hc
      omega
    · have := hs.bounded hd
      omega
    · omega
  · by_cases hk : k = s.cells.length
    · rw [hk, library?_create, Option.some.injEq] at hl
      exact hl ▸ Library.follows_empty
    · rw [hs.library?_create_of_ne hk] at hl
      exact hs.follows hl

theorem library?_renewSwitches (h : s.library? k = some l) :
    (s.renewSwitches k groups).library? k = some { l with disabled := groups } := by
  obtain ⟨c, hc⟩ := exists_cells h
  have hcells : (s.renewSwitches k groups).cells[k]? =
      some { c with disabled := s.switches.length } := by simp [renewSwitches, hc]
  obtain ⟨hrules, hindex, -⟩ := (library?_of_cells hc).mp h
  rw [library?_of_cells hcells]
  simp [renewSwitches, hrules, hindex]

theorem Sound.library?_renewSwitches_of_ne (hs : s.Sound) (hj : j ≠ k) :
    (s.renewSwitches k groups).library? j = s.library? j := by
  apply library?_congr
  · simp [renewSwitches, hj.symm]
  · intro c hc
    obtain ⟨-, -, hdisabled⟩ := hs.bounded hc
    simp [renewSwitches, List.getElem?_append_left, hdisabled]

theorem getElem?_cells_renewSwitches {c : Library.Cells}
    (hc : (s.renewSwitches k groups).cells[j]? = some c) :
    ∃ d, s.cells[j]? = some d ∧ c.rules = d.rules ∧ c.index = d.index ∧
      if j = k then c.disabled = s.switches.length else c.disabled = d.disabled := by
  simp only [renewSwitches, List.getElem?_modify, Option.map_eq_map, Option.map_eq_some_iff] at hc
  obtain ⟨d, hd, rfl⟩ := hc
  refine ⟨d, hd, ?_⟩
  by_cases hj : j = k <;> simp [hj, Ne.symm]

theorem Sound.renewSwitches (hs : s.Sound) (h : s.library? k = some l) (groups : List String) :
    (s.renewSwitches k groups).Sound := by
  refine ⟨fun {i c} hc => ?_, fun {i j c d} hc hd hij => ?_, fun {j m} hm => ?_⟩
  · obtain ⟨c', hc', hrules, hindex, hdisabled⟩ := getElem?_cells_renewSwitches hc
    have := hs.bounded hc'
    simp only [Libraries.renewSwitches, List.length_append, List.length_singleton]
    split at hdisabled <;> omega
  · obtain ⟨c', hc', hrules, hindex, hdisabled⟩ := getElem?_cells_renewSwitches hc
    obtain ⟨d', hd', hrules', hindex', hdisabled'⟩ := getElem?_cells_renewSwitches hd
    have hapart := hs.apart hc' hd' hij
    have hbound := hs.bounded hc'
    have hbound' := hs.bounded hd'
    split at hdisabled <;> split at hdisabled' <;> omega
  · by_cases hj : j = k
    · rw [hj, library?_renewSwitches h, Option.some.injEq] at hm
      have hl : l.Follows := hs.follows h
      exact hm ▸ hl
    · rw [hs.library?_renewSwitches_of_ne hj] at hm
      exact hs.follows hm

theorem Sound.library?_create_addAll (hs : s.Sound) (rs : List (Rule α)) :
    (s.create.addAll s.cells.length rs).library? s.cells.length = some (.ofRules rs) :=
  hs.create.library?_addAll library?_create

theorem Sound.library?_copy (hs : s.Sound) (hl : l.Follows) :
    (s.copy l).library? s.cells.length = some l := by
  -- The copy is built from the rules alone: its index is the source's since that follows them.
  rw [copy, library?_renewSwitches (hs.library?_create_addAll l.rules), hl.rebuilt]

theorem Sound.library?_copy_of_ne (hs : s.Sound) (hj : j ≠ s.cells.length) :
    (s.copy l).library? j = s.library? j := by
  rw [Libraries.copy, (hs.create.addAll _ _).library?_renewSwitches_of_ne hj,
    hs.create.library?_addAll_of_ne hj, hs.library?_create_of_ne hj]

theorem Sound.copy (hs : s.Sound) (l : Library α) : (s.copy l).Sound :=
  (hs.create.addAll _ _).renewSwitches (hs.library?_create_addAll l.rules) _

theorem Sound.library?_union (hs : s.Sound) (hl : l.Follows) :
    (s.union l m).library? s.cells.length = some (l.union m) :=
  (hs.copy l).library?_addAll (hs.library?_copy hl)

theorem Sound.library?_union_of_ne (hs : s.Sound) (hj : j ≠ s.cells.length) :
    (s.union l m).library? j = s.library? j :=
  ((hs.copy l).library?_addAll_of_ne hj).trans (hs.library?_copy_of_ne hj)

theorem Sound.union (hs : s.Sound) (l m : Library α) : (s.union l m).Sound :=
  (hs.copy l).addAll _ _

end NewLibraries

section Runs

variable [Scalar α] {read : String → Except FileFault String} {s : Libraries α} {k : Nat}
  {l : Library α} {a : Action α}

theorem Sound.step (hs : s.Sound) (a : Action α) : (s.step read a).2.Sound := by
  cases a with
  | create => exact hs.create
  | add k r => exact hs.update k fun l hl => hl.add r
  | addFunction k f name category description => exact hs.update k fun l hl => hl.add _
  | load k text => exact hs.addRead k _
  | loadFile k path => exact hs.addRead k _
  | disable k group => exact hs.update k fun l hl => hl.disable group
  | enable k group => exact hs.update k fun l hl => hl.enable group
  | copy k =>
    simp only [Libraries.step]
    split
    · exact hs.copy _
    · exact hs
  | union i j =>
    simp only [Libraries.step]
    split
    · exact hs.union _ _
    · exact hs

/-- An action is seen in no library but the one that it changes. -/
theorem Sound.library?_step_of_ne (hs : s.Sound) (h : s.library? k = some l)
    (ha : a.target? ≠ some k) : (s.step read a).2.library? k = some l := by
  -- New libraries are made in the place after the last one.
  have hnew : k ≠ s.cells.length := (lt_of_library? h).ne
  have hother {i : Nat} (hi : some i ≠ some k) : k ≠ i := fun hki => hi (hki ▸ rfl)
  rw [← h]
  cases a with
  | create => exact hs.library?_create_of_ne hnew
  | add i r => exact hs.library?_update_of_ne (hother ha)
  | addFunction i f name category description => exact hs.library?_update_of_ne (hother ha)
  | load i text => exact hs.library?_addRead_of_ne (hother ha) _
  | loadFile i path => exact hs.library?_addRead_of_ne (hother ha) _
  | disable i group => exact hs.library?_update_of_ne (hother ha)
  | enable i group => exact hs.library?_update_of_ne (hother ha)
  | copy i =>
    simp only [Libraries.step]
    split
    · exact hs.library?_copy_of_ne hnew
    · rfl
  | union i j =>
    simp only [Libraries.step]
    split
    · exact hs.library?_union_of_ne hnew
    · rfl

theorem step_failed {f : Failure} (h : (s.step read a).1 = .error f) :
    (s.step read a).2 = s := by
  cases a with
  | load k text => exact addRead_failed h
  | loadFile k path => exact addRead_failed h
  | copy k =>
    simp only [step] at h
    split at h <;> cases h
  | union i j =>
    simp only [step] at h
    split at h <;> cases h
  | _ => cases h

theorem Sound.run (hs : s.Sound) (as : List (Action α)) : (s.run read as).Sound := by
  induction as generalizing s with
  | nil => exact hs
  | cons a as ih => exact ih (hs.step a)

theorem Sound.library?_run_of_ne (hs : s.Sound) (h : s.library? k = some l)
    {as : List (Action α)} (has : ∀ a ∈ as, a.target? ≠ some k) :
    (s.run read as).library? k = some l := by
  induction as generalizing s with
  | nil => exact h
  | cons a as ih =>
    have hfirst : (s.step read a).2.library? k = some l :=
      hs.library?_step_of_ne h (has a List.mem_cons_self)
    exact ih (hs.step a) hfirst fun b hb => has b (List.mem_cons_of_mem a hb)

end Runs

section Effects

variable [Scalar α] {read : String → Except FileFault String} {s : Libraries α} {k : Nat}
  {l : Library α} {a : Action α}

def Action.effect (read : String → Except FileFault String) (l : Library α) :
    Action α → Except Failure (Library α)
  | .add _ r => .ok (l.add r)
  | .addFunction _ f name category description =>
    .ok (l.addFunction f name category description)
  | .load _ text => l.load text
  | .loadFile _ path => Session.loadFile read l path
  | .disable _ group => .ok (l.disable group)
  | .enable _ group => .ok (l.enable group)
  | .create | .copy _ | .union _ _ => .ok l

theorem loadFile_eq (path : String) :
    Session.loadFile read l path = (rulesOfFile read path).map l.addAll := by
  rw [Session.loadFile, rulesOfFile]
  cases read path with
  | ok text => rfl
  | error fault => rfl

/-- An action does with the library in its place what the operation does with a library alone. -/
theorem Sound.step_target (hs : s.Sound) (h : s.library? k = some l) (ha : a.target? = some k) :
    match a.effect read l with
    | .ok m => (s.step read a).1 = .ok () ∧ (s.step read a).2.library? k = some m
    | .error f => s.step read a = (.error f, s) := by
  cases a with
  | create => cases ha
  | copy i => cases ha
  | union i j => cases ha
  | load i text =>
    cases ha
    exact hs.addRead_spec h (rulesOfText text)
  | loadFile i path =>
    cases ha
    rw [Action.effect, loadFile_eq]
    exact hs.addRead_spec h (rulesOfFile read path)
  | _ =>
    cases ha
    exact ⟨rfl, hs.library?_update h⟩

end Effects

section Main

variable [Scalar α]

theorem sound_start : (start : Libraries α).Sound := by
  have hnone : (⟨[], [], [], []⟩ : Libraries α).Sound := ⟨nofun, nofun, nofun⟩
  exact hnone.create.create.addAll _ _

theorem library?_start : (start : Libraries α).library? 0 = some .empty ∧
    (start : Libraries α).library? 1 = some .standard := by
  have hnone : (⟨[], [], [], []⟩ : Libraries α).Sound := ⟨nofun, nofun, nofun⟩
  constructor
  · rw [start, hnone.create.create.library?_addAll_of_ne (by decide)]
    rfl
  · have hone := hnone.create.library?_create_addAll (Library.standard : Library α).rules
    rw [start]
    refine hone.trans ?_
    rw [Library.standard, Library.rules_ofRules]

/-- The index follows the rules of every library that actions lead to from an empty library and
from the standard one, whatever the files are: a name is there exactly when a rule carries it, and
leads to the last such rule. A failed action changes nothing. A copy is equal to its source, and a
union has the rules of both and the switches of the left one. No library is changed by actions on
others, such as its copies and its unions. -/
theorem names_follow_rules (read : String → Except FileFault String) (program : List (Action α)) :
    let s := (start : Libraries α).run read program
    (∀ k l, s.library? k = some l →
      (∀ name, l.contains name = true ↔ ∃ r ∈ l.rules, r.info.name? = some name) ∧
      ∀ name, l.get name = match Library.lastNamed? l.rules name with
        | some r => .ok r
        | none => .error (.lookup (.rule name))) ∧
    (∀ a f, (s.step read a).1 = .error f → (s.step read a).2 = s) ∧
    (∀ i l, s.library? i = some l →
      (s.step read (.copy i)).2.library? s.cells.length = some l) ∧
    s.library? s.cells.length = none ∧
    (∀ i j l m, s.library? i = some l → s.library? j = some m →
      ∃ u, (s.step read (.union i j)).2.library? s.cells.length = some u ∧
        u.rules = l.rules ++ m.rules ∧ u.disabled = l.disabled) ∧
    ∀ k l later, s.library? k = some l → (∀ a ∈ later, a.target? ≠ some k) →
      (s.run read later).library? k = some l := by
  intro s
  have hs : s.Sound := sound_start.run program
  refine ⟨fun k l hl => ?_, fun a f => step_failed, fun i l hl => ?_,
    library?_eq_none le_rfl, fun i j l m hl hm => ?_,
    fun k l later hl hlater => hs.library?_run_of_ne hl hlater⟩
  · have hfollows := hs.follows hl
    exact ⟨hfollows.contains_iff, hfollows.get⟩
  · simp only [step, hl]
    exact hs.library?_copy (hs.follows hl)
  · simp only [step, hl, hm]
    refine ⟨l.union m, hs.library?_union (hs.follows hl), ?_, ?_⟩
    · exact Library.addAll_rules l m.rules
    · exact Library.disabled_addAll m.rules

def noFiles (path : String) : Except FileFault String := .error (.missing path)

def idle (category : String) : Rule Rat := ⟨⟨some "idle", none, [category]⟩, pure, none⟩

def shadowing : List (Action Rat) := [.add 0 (idle "arithmetic"), .add 0 (idle "algebraic")]

def shadowed : Library Rat := (Library.empty.add (idle "arithmetic")).add (idle "algebraic")

theorem names_follow_rules_of_shadowing :
    let s := (start : Libraries Rat).run noFiles shadowing
    s.library? 0 = some shadowed ∧
    (shadowed.contains "idle" = true ∧ shadowed.get "idle" = .ok (idle "algebraic")) ∧
    ((s.step noFiles (.loadFile 0 "more")).1 = .error (.file (.missing "more")) ∧
      (s.step noFiles (.loadFile 0 "more")).2 = s) ∧
    (s.step noFiles (.copy 0)).2.library? s.cells.length = some shadowed ∧
    (∃ u, (s.step noFiles (.union 0 0)).2.library? s.cells.length = some u ∧
      u.rules = shadowed.rules ++ shadowed.rules ∧ u.disabled = []) ∧
    (s.run noFiles [.copy 0, .add 2 (idle "expand"), .disable 2 "algebraic"]).library? 0 =
      some shadowed := by
  have hplace : ((start : Libraries Rat).run noFiles shadowing).library? 0 = some shadowed := by
    have hfirst := sound_start.library?_update (f := (·.add (idle "arithmetic"))) library?_start.1
    simp only [shadowing, run, List.foldl_cons, List.foldl_nil, step]
    exact (sound_start.update 0 fun l hl => hl.add _).library?_update hfirst
  obtain ⟨hnames, hfailed, hcopy, -, hunion, hothers⟩ := names_follow_rules noFiles shadowing
  obtain ⟨hcontains, hget⟩ := hnames 0 shadowed hplace
  have hload (s : Libraries Rat) :
      (s.step noFiles (.loadFile 0 "more")).1 = .error (.file (.missing "more")) := rfl
  refine ⟨hplace, ⟨?_, ?_⟩, ⟨hload _, hfailed _ _ (hload _)⟩, hcopy 0 shadowed hplace,
    hunion 0 0 shadowed shadowed hplace hplace, ?_⟩
  · exact (hcontains "idle").mpr ⟨idle "arithmetic", List.mem_cons_self, rfl⟩
  · rw [hget]
    rfl
  · exact hothers 0 shadowed _ hplace (by simp [Action.target?])

end Main

end Libraries

end RuleAlgebra
