import Nya.Proofs.Relabel.Machine
import Nya.Proofs.Relabel.Parse

/-!
# Relabelling sessions

Reading a text and running a program commute with relabelling, and so does what a session makes of
a text that has been read. Two texts with the same reading up to a relabelling thus have the same
runs up to it.

* `Reading.check_relabel`, `Session.proceed_relabel`
-/

namespace Nya

/-- The fault on its new line. -/
def ScanError.relabel (ρ : Relabel) (e : ScanError) : ScanError := { e with line := ρ.line e.line }

/-- The report on its new line. -/
def Diagnostic.relabel (ρ : Relabel) : Diagnostic → Diagnostic
  | scan e => scan (e.relabel ρ)
  | parse e => parse (e.relabel ρ)
  | scope e => scope (e.relabel ρ)
  | runtime e => runtime (e.relabel ρ)

theorem filterMap_map_relabel (ρ : Relabel) (slots : List (Option Stmt)) :
    (slots.map (Option.map (Stmt.relabel ρ))).filterMap id =
      Stmt.relabelAll ρ (slots.filterMap id) := by
  rw [Stmt.relabelAll_eq_map, List.filterMap_map, List.map_filterMap]
  rfl

/-! ## Reading -/

namespace Reading

/-- What was read, with new numbers and lines. -/
def relabel (ρ : Relabel) (r : Reading) : Reading :=
  ⟨r.parsed.relabel ρ, r.diagnostics.map (Diagnostic.relabel ρ)⟩

/-- The program or what is wrong with it, with new numbers and lines. -/
def relabelCheck (ρ : Relabel) :
    Except (List Diagnostic) (List Stmt) → Except (List Diagnostic) (List Stmt)
  | .error diagnostics => .error (diagnostics.map (Diagnostic.relabel ρ))
  | .ok program => .ok (Stmt.relabelAll ρ program)

theorem program_relabel (ρ : Relabel) (r : Reading) :
    (r.relabel ρ).program = Stmt.relabelAll ρ r.program :=
  filterMap_map_relabel ρ r.parsed.statements

theorem check_relabel (ρ : Relabel) (r : Reading) :
    (r.relabel ρ).check = relabelCheck ρ r.check := by
  have hempty : (r.relabel ρ).diagnostics.isEmpty = r.diagnostics.isEmpty := List.isEmpty_map
  simp only [check, program_relabel, scopeErrors_relabelAll, List.isEmpty_map, hempty]
  by_cases hdiagnostics : (!r.diagnostics.isEmpty) = true
  · rw [if_pos hdiagnostics, if_pos hdiagnostics]
    rfl
  rw [if_neg hdiagnostics, if_neg hdiagnostics]
  by_cases hscope : (!(scopeErrors r.program).isEmpty) = true
  · simp only [if_pos hscope, relabelCheck, List.map_map]
    rfl
  · simp only [if_neg hscope, relabelCheck, resolve_relabelAll]

end Reading

/-! ## Running -/

namespace Session

/-- The session with new numbers and lines. -/
def relabel (ρ : Relabel) (s : Session) : Session :=
  { s with
    world := s.world.relabel ρ
    nodes := ρ.node s.nodes
    functions := ρ.function s.functions }

/-- What a run leads to, with new numbers and lines. -/
def relabelRun (ρ : Relabel) :
    Status × List Diagnostic × Session → Status × List Diagnostic × Session
  | (status, diagnostics, s) => (status, diagnostics.map (Diagnostic.relabel ρ), s.relabel ρ)

variable {ρ : Relabel} {s : Session}

theorem interpret_relabel (hρ : ρ.Faithful) (hn : ∀ n ∈ s.natives, n.Indifferent) (fuel : Nat)
    (program : List Stmt) :
    (s.relabel ρ).interpret fuel (Stmt.relabelAll ρ program) =
      (s.interpret fuel program).map (relabelRun ρ) := by
  have hrun := Machine.interpret_relabel hρ hn fuel program s.world
  rw [interpret_eq, interpret_eq]
  simp only [relabel, hrun]
  cases Machine.interpret s.natives fuel program s.world with
  | none => rfl
  | some e =>
    obtain ⟨result, w⟩ := e
    cases result <;> rfl

/-- What the session makes of a text that has been read. -/
def proceed (s : Session) (fuel : Nat) (r : Reading) :
    Option (Status × List Diagnostic × Session) :=
  let s' := { s with nodes := r.parsed.nodes, functions := r.parsed.functions }
  match r.check with
  | .error diagnostics => some (.staticError, diagnostics, s')
  | .ok program => s'.interpret fuel program

theorem run_eq_proceed (s : Session) (fuel : Nat) (source : String) :
    s.run fuel source = s.proceed fuel (.ofSource source s.nodes s.functions) := by
  rw [run_eq, read, proceed]
  cases (Reading.ofSource source s.nodes s.functions).check <;> rfl

/-- **What a session makes of a text commutes with relabelling.** -/
theorem proceed_relabel (hρ : ρ.Faithful) (hn : ∀ n ∈ s.natives, n.Indifferent) (fuel : Nat)
    (r : Reading) :
    (s.relabel ρ).proceed fuel (r.relabel ρ) = (s.proceed fuel r).map (relabelRun ρ) := by
  rw [proceed, proceed, Reading.check_relabel]
  cases r.check with
  | error diagnostics => rfl
  | ok program =>
    let s' : Session := { s with nodes := r.parsed.nodes, functions := r.parsed.functions }
    exact interpret_relabel (s := s') hρ hn fuel program

end Session

end Nya
