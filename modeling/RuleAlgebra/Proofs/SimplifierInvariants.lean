import RuleAlgebra.Proofs.TracedComputations
import RuleAlgebra.Simplifier

/-!
What rewriting a whole expression with any rule of the library preserves, simplification preserves,
in every form, domain and number of passes.
-/

namespace RuleAlgebra.Simplifier

open RuleAlgebra.Traced

variable {α : Type} {s : Simplifier α} {P : Expr α → Prop} {F : Failure → Prop} {e d : Expr α}
  {domain : NumberDomain}

theorem mem_rules {category : String} {r : Rule α} (hr : r ∈ s.rulesFor domain category) :
    r ∈ s.library.rules := List.mem_of_mem_filter (List.mem_of_mem_filter hr)

variable [BEq α]

theorem record_preserves (category : String) (r : Rule α) (he : P e) (hd : P d) :
    Ensures (record category r e d) P F := by
  unfold record
  split_ifs
  · exact ensures_pure he
  · exact ensures_step hd

theorem factorPass_preserves
    (hdown : ∀ r ∈ s.library.rules, ∀ c, P c → Outcome P F (transformDown r.apply maxDepth c))
    (he : P e) : Ensures (s.factorPass domain e) P F := by
  apply ensures_foldlM he
  intro c hc r hr
  apply (ensures_lift (hdown r (mem_rules hr) c hc)).bind
  intro d hd
  exact record_preserves "factor" r hc hd

variable (hup : ∀ r ∈ s.library.rules, ∀ c, P c → Outcome P F (c.transform r.apply))
include hup

theorem pass_preserves (categories : List String) (he : P e) :
    Ensures (s.pass domain categories e) P F := by
  apply ensures_foldlM he
  intro d hd category _
  apply ensures_foldlM hd
  intro c hc r hr
  apply (ensures_lift (hup r (mem_rules hr) c hc)).bind
  intro b hb
  exact record_preserves category r hc hb

theorem fixpoint_preserves (categories : List String) (limit : Nat) (he : P e) :
    Ensures (s.fixpoint domain categories limit e) (fun d => P d.1) F := by
  induction limit generalizing e with
  | zero => exact ensures_pure he
  | succ limit ih =>
    apply (pass_preserves hup categories he).bind
    intro d hd
    split_ifs
    · exact ensures_pure he
    · exact ih hd

theorem run_preserves {form : TargetForm}
    (hdown : form = .factored → ∀ r ∈ s.library.rules, ∀ c, P c →
      Outcome P F (transformDown r.apply maxDepth c)) (limit : Nat) (he : P e) :
    Ensures (s.run form domain limit e) (fun d => P d.1) F := by
  apply (fixpoint_preserves hup categories limit he).bind
  intro d hd
  cases form with
  | plain => exact ensures_pure hd
  | expanded =>
    apply (fixpoint_preserves hup ["expand"] limit hd).bind
    intro c hc
    apply (fixpoint_preserves hup categories limit hc).bind
    intro b hb
    exact ensures_pure hb
  | factored =>
    apply (factorPass_preserves (hdown rfl) hd).bind
    intro c hc
    split_ifs
    · exact ensures_pure hd
    · apply (fixpoint_preserves hup categories limit hc).bind
      intro b hb
      exact ensures_pure hb

end RuleAlgebra.Simplifier
