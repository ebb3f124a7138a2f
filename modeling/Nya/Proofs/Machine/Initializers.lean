import Nya.Proofs.Machine.Moves
import Nya.Proofs.Machine.Realm
import Nya.Proofs.Scope.Pending

/-!
# References in their statements

Resolution accounts for each reference: its name is pending at most if the statement around it
declares that name. A run takes references out of statements and evaluates them for the sake of
these statements, also after calls have come in between. So whenever a reference with a pending name
is evaluated, the value is awaited by the declaration of that very name.

* `accounted` for the realm of code whose references are accounted for
* `Config.Accounted`, and `Config.Accounted.step` for a step
-/

namespace Nya

/-- A statement that is accounted for has such parts. -/
theorem Stmt.Accounted.parts {vs : List Visit} {s : Stmt} (h : s.Accounted vs) :
    ∀ part ∈ s.parts, part.Accounted vs := by
  cases s with
  | block body => exact Stmt.accountedAll_iff.mp h
  | function id name params body => exact Stmt.accountedAll_iff.mp h
  | branch condition thenBranch elseBranch =>
    cases elseBranch with
    | none =>
      rw [Accounted] at h
      simpa [Stmt.parts] using h.2
    | some elseBranch =>
      rw [Accounted] at h
      simpa [Stmt.parts] using h.2
  | loop condition body =>
    rw [Accounted] at h
    simpa [Stmt.parts] using h.2
  | _ => exact fun part hpart => (List.not_mem_nil hpart).elim

/-- Statements whose references are accounted for by the visits. -/
def accounted (vs : List Visit) : Realm where
  expr _ := True
  stmt s := s.Accounted vs
  unary _ := True
  binary _ := True
  fault _ := True
  frame _ := True
  expr_parts _ _ _ := trivial
  stmt_exprs _ _ _ := trivial
  stmt_parts := Stmt.Accounted.parts
  unary_of_expr _ := trivial
  binary_of_expr _ := trivial
  fault_unary _ _ := trivial
  fault_binary _ _ := trivial
  fault_of_proper _ := trivial

namespace Machine

variable {vs : List Visit} {natives : Array Native} {c c' : Config}

/-- The expression that a statement starts with is accounted for by what the statement declares. -/
theorem accounted_of_start? {s : Stmt} {e : Expr} {purpose : Purpose}
    (h : start? s = some (e, purpose)) (hs : s.Accounted vs) :
    e.Accounted vs purpose.declared? := by
  cases s with
  | expression e' => cases h; exact hs
  | print e' => cases h; exact hs
  | var name init =>
    cases init with
    | none => cases h
    | some e' => cases h; exact hs e rfl
  | block body => cases h
  | branch condition thenBranch elseBranch =>
    cases h
    cases elseBranch with
    | none =>
      rw [Stmt.Accounted] at hs
      exact hs.1
    | some s =>
      rw [Stmt.Accounted] at hs
      exact hs.1
  | loop condition body =>
    cases h
    rw [Stmt.Accounted] at hs
    exact hs.1
  | function id name params body => cases h
  | ret keyword value =>
    cases value with
    | none => cases h
    | some e' => cases h; exact hs e rfl

/-- The references of a caller that waits for its call are accounted for. -/
def Task.Accounted (vs : List Visit) : Task → Prop
  | .back _ caller => ∀ r ∈ caller.references, Nya.Accounted vs caller.purpose.declared? r
  | _ => True

/-- All references that are still to be evaluated are accounted for by their statements. -/
structure Config.Accounted (vs : List Visit) (c : Config) : Prop where
  focus : ∀ r ∈ c.focus.references, Nya.Accounted vs c.focus.declared? r
  stack : ∀ task ∈ c.stack, task.Accounted vs

/-- A configuration with nothing to evaluate. -/
theorem Config.accounted_of_references {focus : Focus} {stack : List Task} {w : World}
    (hfocus : focus.references = []) (hstack : ∀ task ∈ stack, task.Accounted vs) :
    Config.Accounted vs ⟨focus, stack, w⟩ := by
  refine ⟨?_, hstack⟩
  intro r hr
  rw [hfocus] at hr
  exact (List.not_mem_nil hr).elim

theorem Focus.references_of_exits {f : Focus} (h : f.exits = true) : f.references = [] := by
  cases f with
  | finish flow => rfl
  | raise e => rfl
  | _ => cases h

/-- **Every step keeps the references with their statements.** -/
theorem Config.Accounted.step (h : c.Accounted vs) (hkeeps : c.Keeps (Nya.accounted vs))
    (hstep : Machine.step natives c = .config c') : c'.Accounted vs := by
  obtain ⟨hfocus, hstack⟩ := h
  cases move_of_step hstep with
  | @think f f' context context' stack w w' hf hf' hpurpose hrefs hstore henv =>
    refine ⟨?_, hstack⟩
    intro r hr
    have hdeclared : f'.declared? = f.declared? := by
      rw [Focus.declared?_of_context? hf', hpurpose, Focus.declared?_of_context? hf]
    exact hdeclared ▸ hfocus r (hrefs hr)
  | fault hf hstore henv => exact accounted_of_references rfl hstack
  | assign hholder => exact ⟨fun r hr => hfocus r (List.mem_append_right _ hr), hstack⟩
  | @call f context caller d env args stack w hf hpurpose hrefs hbirth =>
    refine accounted_of_references rfl (List.forall_mem_cons.mpr ⟨?_, hstack⟩)
    intro r hr
    rw [hpurpose, ← Focus.declared?_of_context? hf]
    exact hfocus r (hrefs hr)
  | start hs =>
    refine ⟨?_, hstack⟩
    intro r hr
    rcases List.mem_append.mp hr with hr | hr
    · exact accounted_of_start? hs hkeeps.focus r hr
    · exact (List.not_mem_nil hr).elim
  | choose hs => exact accounted_of_references rfl hstack
  | iterate => exact accounted_of_references rfl (List.forall_mem_cons.mpr ⟨trivial, hstack⟩)
  | block => exact accounted_of_references rfl (List.forall_mem_cons.mpr ⟨trivial, hstack⟩)
  | next => exact accounted_of_references rfl (List.forall_mem_cons.mpr ⟨trivial, hstack⟩)
  | declare hname => exact accounted_of_references rfl hstack
  | finish hname hexits hstore henv => exact accounted_of_references rfl hstack
  | follow => exact accounted_of_references rfl (List.forall_mem_cons.mp hstack).2
  | @again condition body stack w =>
    have hloop : (Stmt.loop condition body).Accounted vs :=
      hkeeps.stack (.again condition body) List.mem_cons_self
    refine ⟨?_, (List.forall_mem_cons.mp hstack).2⟩
    intro r hr
    rcases List.mem_append.mp hr with hr | hr
    · exact @accounted_of_start? vs _ condition (.iterate condition body) rfl hloop r hr
    · exact (List.not_mem_nil hr).elim
  | drop hexits htask =>
    exact accounted_of_references (Focus.references_of_exits hexits)
      (List.forall_mem_cons.mp hstack).2
  | leave hexits =>
    exact accounted_of_references (Focus.references_of_exits hexits)
      (List.forall_mem_cons.mp hstack).2
  | back =>
    obtain ⟨hcaller, hrest⟩ := List.forall_mem_cons.mp hstack
    exact ⟨hcaller, hrest⟩
  | unwind => exact accounted_of_references rfl (List.forall_mem_cons.mp hstack).2

end Machine

end Nya
