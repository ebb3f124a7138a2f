import Nya.Proofs.Machine.History
import Nya.Proofs.Parse.Extend
import Nya.Proofs.Relabel.Session
import Nya.Proofs.Token.Seam

/-!
# One text or two

Two texts that are run one after another do the same as the one text made of both, with a line end
between them. Only the lines of the second text are counted on, and no run depends on them.

The two texts are put together stage by stage: `Token/Seam.lean` does so for scanning and
`Parse/Extend.lean` for parsing. At the top level there are no scopes, so what one statement
declares does not change how the next one is resolved. A run goes on with the second part in the
world that the first one leaves.

* `Session.split_agrees`
-/

namespace Nya

/-! ## Reading -/

namespace Reading

/-- The text is read without a report, from the given numbers to the given numbers. -/
structure Accepts (source : String) (start stop : Parse.Count) (slots : List (Option Stmt)) :
    Prop where
  scanned : scanErrors (scan source) = []
  parsed : Parse.declarations (Parse.fuelFor (sourceTokens source))
    ⟨sourceTokens source, start.nodes, start.functions, []⟩ =
      .ok slots ⟨[], stop.nodes, stop.functions, []⟩

variable {source : String} {start stop : Parse.Count} {slots : List (Option Stmt)}

theorem parsed_of_declarations {nodes functions : Nat} {s : Parse.State}
    (h : Parse.declarations (Parse.fuelFor (sourceTokens source))
      ⟨sourceTokens source, nodes, functions, []⟩ = .ok slots s) :
    ∃ mark, (ofSource source nodes functions).parsed =
      ⟨slots, s.faults.map (Parse.Fault.locate mark), s.nodes, s.functions⟩ := by
  refine ⟨⟨.eof, "", 1 + newlines (dropMark source.toList)⟩, ?_⟩
  simp only [ofSource, parse, splitAtEnd_scan, h]

theorem Accepts.parsed_eq (h : Accepts source start stop slots) :
    (ofSource source start.nodes start.functions).parsed =
      ⟨slots, [], stop.nodes, stop.functions⟩ := by
  obtain ⟨mark, hparsed⟩ := parsed_of_declarations h.parsed
  exact hparsed

theorem Accepts.diagnostics_eq (h : Accepts source start stop slots) :
    (ofSource source start.nodes start.functions).diagnostics = [] := by
  have herrors : (parse (scannedTokens (scan source)) start.nodes start.functions).errors = [] :=
    congrArg Parsed.errors h.parsed_eq
  simp only [ofSource, h.scanned, herrors, List.map_nil, List.append_nil]

/-- A text without a report is read to its end. -/
theorem accepts_of_diagnostics
    (h : (ofSource source start.nodes start.functions).diagnostics = []) :
    ∃ stop slots, Accepts source start stop slots := by
  obtain ⟨slots, s, hdeclarations, hrest⟩ := Parse.declarations_fuelFor (sourceTokens source)
    start.nodes start.functions []
  obtain ⟨mark, hparsed⟩ := parsed_of_declarations hdeclarations
  obtain ⟨hscan, hparse⟩ := List.append_eq_nil_iff.mp h
  have hfaults : s.faults = [] := by
    have herrors : (ofSource source start.nodes start.functions).parsed.errors = [] :=
      List.map_eq_nil_iff.mp hparse
    rw [hparsed] at herrors
    exact List.map_eq_nil_iff.mp herrors
  have hs : s = ⟨[], s.nodes, s.functions, []⟩ := by rw [← hrest, ← hfaults]
  refine ⟨⟨s.nodes, s.functions⟩, slots, List.map_eq_nil_iff.mp hscan, ?_⟩
  rw [hdeclarations, hs]

/-- **Two texts that are read one after the other can be read as one.** -/
theorem Accepts.append {a b : String} {middle : Parse.Count} {slots' : List (Option Stmt)}
    (ha : Accepts a start middle slots) (hb : Accepts b middle stop slots')
    (hmark : b.toList.head? ≠ some '\ufeff') :
    Accepts (a ++ "\n" ++ b) start stop
      (slots ++ slots'.map (Option.map (Stmt.relabel (.later (linesBefore a))))) := by
  refine ⟨scanErrors_scan_append ha.scanned hmark hb.scanned, ?_⟩
  have hlater := Parse.declarations_natural (Relabel.later_shifts (linesBefore a))
    (Parse.fuelFor (sourceTokens b)) ⟨sourceTokens b, middle.nodes, middle.functions, []⟩
  have hfuel : Parse.fuelFor ((sourceTokens b).map (Token.relabel (.later (linesBefore a)))) =
      Parse.fuelFor (sourceTokens b) := by
    rw [Parse.fuelFor, Parse.fuelFor, List.length_map]
  rw [hb.parsed, ← hfuel] at hlater
  rw [sourceTokens_append ha.scanned hmark]
  exact Parse.declarations_fuelFor_append ha.parsed hlater

end Reading

/-! ## Resolving -/

/-- Outside of all scopes a declaration changes nothing. -/
theorem Stmt.after_nil : ∀ s : Stmt, s.after [] = []
  | .var _ _ | .function _ _ _ _ => rfl
  | .branch _ t none => by rw [after, after_nil t]
  | .branch _ t (some e) => by rw [after, after_nil t, after_nil e]
  | .loop _ body => by rw [after, after_nil body]
  | .expression _ | .print _ | .block _ | .ret _ _ => rfl

theorem resolve_append (p q : List Stmt) : resolve (p ++ q) = resolve p ++ resolve q := by
  induction p with
  | nil => rfl
  | cons s p ih =>
    simp only [resolve, List.cons_append, Stmt.resolveAll, Stmt.after_nil] at ih ⊢
    rw [ih]

theorem scopeErrors_append (p q : List Stmt) :
    scopeErrors (p ++ q) = scopeErrors p ++ scopeErrors q := by
  induction p with
  | nil => rfl
  | cons s p ih =>
    simp only [scopeErrors, List.cons_append, Stmt.scopeErrorsAll, Stmt.after_nil,
      List.append_assoc] at ih ⊢
    rw [ih]

/-! ## Running -/

namespace Machine

variable {natives : Array Native} {n m : Nat}

/-- More fuel changes nothing. -/
theorem run_of_le {c : Config} {r : Except RuntimeError Flow × World} (h : n ≤ m)
    (hr : run natives n c = some r) : run natives m c = some r := by
  induction n generalizing m c with
  | zero => cases hr
  | succ n ih =>
    obtain ⟨m, rfl⟩ := Nat.exists_eq_add_of_le' (Nat.lt_of_lt_of_le (Nat.succ_pos n) h)
    rw [run_succ] at hr ⊢
    cases hstep : step natives c with
    | halt result w => rwa [hstep] at hr
    | config c' =>
      rw [hstep] at hr
      exact ih (Nat.le_of_succ_le_succ h) hr

theorem interpret_of_le {ss : List Stmt} {w : World} {r : Except RuntimeError Unit × World}
    (h : n ≤ m) (hr : interpret natives n ss w = some r) : interpret natives m ss w = some r := by
  induction ss generalizing w with
  | nil => exact hr
  | cons s ss ih =>
    rw [interpret_cons] at hr ⊢
    cases hs : execute natives n s w with
    | none =>
      rw [hs] at hr
      cases hr
    | some e =>
      obtain ⟨result, w'⟩ := e
      have hs' : execute natives m s w = some (result, w') := run_of_le h hs
      rw [hs] at hr
      rw [hs']
      cases result with
      | ok flow => exact ih hr
      | error e => exact hr

/-- After a program without a fault the next one runs in the world that it left. -/
theorem interpret_append {ss : List Stmt} {w w' : World} (ts : List Stmt)
    (h : interpret natives n ss w = some (.ok (), w')) :
    interpret natives n (ss ++ ts) w = interpret natives n ts w' := by
  induction ss generalizing w with
  | nil =>
    cases h
    rfl
  | cons s ss ih =>
    rw [interpret_cons] at h
    rw [List.cons_append, interpret_cons]
    cases hs : execute natives n s w with
    | none =>
      rw [hs] at h
      cases h
    | some e =>
      obtain ⟨result, w₁⟩ := e
      rw [hs] at h
      cases result with
      | ok flow => exact ih h
      | error e => cases h

end Machine

namespace Session

open Reading (Accepts)

variable {s s' : Session} {fuel : Nat} {source : String} {status : Status} {ds : List Diagnostic}

/-! ## Reading and running -/

/-- The numbers that a session has come to. -/
def count (s : Session) : Parse.Count := ⟨s.nodes, s.functions⟩

/-- The session after reading a text. -/
def recount (s : Session) (c : Parse.Count) : Session :=
  { s with nodes := c.nodes, functions := c.functions }

theorem run_of_accepts {stop : Parse.Count} {slots : List (Option Stmt)}
    (h : Accepts source s.count stop slots) (hscope : scopeErrors (slots.filterMap id) = [])
    (fuel : Nat) :
    s.run fuel source = (s.recount stop).interpret fuel (resolve (slots.filterMap id)) := by
  have hparsed : (Reading.ofSource source s.nodes s.functions).parsed =
      ⟨slots, [], stop.nodes, stop.functions⟩ := h.parsed_eq
  have hdiagnostics : (Reading.ofSource source s.nodes s.functions).diagnostics = [] :=
    h.diagnostics_eq
  have hcheck : (Reading.ofSource source s.nodes s.functions).check =
      .ok (resolve (slots.filterMap id)) := by
    rw [Reading.check, Reading.program, hdiagnostics, hparsed]
    simp only [hscope, List.isEmpty_nil, Bool.not_true, Bool.false_eq_true, if_false]
  rw [run_eq, read, hcheck, hparsed]
  rfl

/-- A run that was not rejected has read its text without a report. -/
theorem accepts_of_run (h : s.run fuel source = some (status, ds, s'))
    (hstatus : status ≠ .staticError) :
    ∃ stop slots, Accepts source s.count stop slots ∧ scopeErrors (slots.filterMap id) = [] := by
  cases hcheck : (Reading.ofSource source s.nodes s.functions).check with
  | error ds' =>
    rw [run_eq, read, hcheck] at h
    cases h
    exact absurd rfl hstatus
  | ok program =>
    obtain ⟨hdiagnostics, hscope, -⟩ := Reading.check_ok hcheck
    obtain ⟨stop, slots, haccepts⟩ :=
      Reading.accepts_of_diagnostics (show (Reading.ofSource source s.count.nodes
        s.count.functions).diagnostics = [] from hdiagnostics)
    refine ⟨stop, slots, haccepts, ?_⟩
    have hparsed : (Reading.ofSource source s.nodes s.functions).parsed =
        ⟨slots, [], stop.nodes, stop.functions⟩ := haccepts.parsed_eq
    rwa [Reading.program, hparsed] at hscope

/-! ## Lines -/

/-- Forgets the lines; the numbers stay. -/
def unlined : Relabel := ⟨id, id, fun _ => 0⟩

/-- A program whose lines are counted on ends in the same way. -/
theorem interpret_later {program : List Stmt}
    (h : s.interpret fuel program = some (status, ds, s'))
    (hn : ∀ n ∈ s.natives, n.Indifferent) (lines : Nat) :
    ∃ ds' s'', s.interpret fuel (Stmt.relabelAll (.later lines) program) = some (status, ds', s'') ∧
      s''.world.relabel unlined = s'.world.relabel unlined := by
  have hfaithful : unlined.Faithful := fun _ _ hij => hij
  have hcomp : unlined.comp (.later lines) = unlined := rfl
  -- Without lines the two programs are the same one.
  have hlater := interpret_relabel hfaithful hn fuel (Stmt.relabelAll (.later lines) program)
  rw [Stmt.relabelAll_relabelAll, hcomp, interpret_relabel hfaithful hn, h] at hlater
  obtain ⟨⟨status', ds', s''⟩, hrun, hend⟩ := Option.map_eq_some_iff.mp hlater.symm
  obtain rfl : status' = status := congrArg Prod.fst hend
  exact ⟨ds', s'', hrun, congrArg (fun r => r.2.2.world) hend⟩

theorem interpret_of_le {fuel' : Nat} {program : List Stmt} (hfuel : fuel ≤ fuel')
    (h : s.interpret fuel program = some (status, ds, s')) :
    s.interpret fuel' program = some (status, ds, s') := by
  obtain ⟨result, world, hi, -, -⟩ := interpret_cases h
  rw [interpret_eq, Machine.interpret_of_le hfuel hi]
  rwa [interpret_eq, hi] at h

/-! ## One text or two -/

theorem interpret_append {program : List Stmt} {world : Machine.World} (others : List Stmt)
    (h : Machine.interpret s.natives fuel program s.world = some (.ok (), world)) :
    s.interpret fuel (program ++ others) = { s with world }.interpret fuel others := by
  rw [interpret_eq, interpret_eq, Machine.interpret_append others h]

/--
**A text does the same at once as in two parts.** The parts are run one after the other, and the
first one ends well; the second one may stop at a fault. The whole text, with a line end between
the parts, then ends as the second part does, has written what the two have written, and leaves the
same globals.
-/
theorem split_agrees (hn : ∀ n ∈ s.natives, n.Indifferent) {first second : String}
    (hmark : second.toList.head? ≠ some '\ufeff') {s₁ s₂ : Session} {fuel₁ fuel₂ : Nat}
    {ds₁ ds₂ : List Diagnostic} (h₁ : s.run fuel₁ first = some (.ok, ds₁, s₁))
    (h₂ : s₁.run fuel₂ second = some (status, ds₂, s₂)) (hstatus : status ≠ .staticError)
    (hfuel₁ : fuel₁ ≤ fuel) (hfuel₂ : fuel₂ ≤ fuel) :
    ∃ ds s', s.run fuel (first ++ "\n" ++ second) = some (status, ds, s') ∧
      s'.world.console = s₂.world.console ∧
      ∀ name, (s'.global? name).map Value.text = (s₂.global? name).map Value.text := by
  -- Each part was read without a report, the second one from the numbers the first one left.
  obtain ⟨middle, slots₁, ha, hscope₁⟩ := accepts_of_run h₁ nofun
  rw [run_of_accepts ha hscope₁] at h₁
  obtain ⟨result, world, hi, rfl, hok⟩ := interpret_cases h₁
  rw [hok rfl] at hi
  obtain ⟨stop, slots₂, hb, hscope₂⟩ := accepts_of_run h₂ hstatus
  rw [run_of_accepts hb hscope₂] at h₂
  -- So the whole is, and its program is that of the parts, the second one further down.
  have hboth := ha.append hb hmark
  have hscope : scopeErrors (slots₁.filterMap id ++
      Stmt.relabelAll (.later (linesBefore first)) (slots₂.filterMap id)) = [] := by
    rw [scopeErrors_append, hscope₁, scopeErrors_relabelAll, hscope₂]
    rfl
  rw [← filterMap_map_relabel, ← List.filterMap_append] at hscope
  -- It runs as the first part does, and goes on with the second one where that has ended.
  have hfirst : Machine.interpret (s.recount stop).natives fuel (resolve (slots₁.filterMap id))
      (s.recount stop).world = some (.ok (), world) := Machine.interpret_of_le hfuel₁ hi
  have hsecond : { s.recount stop with world }.interpret fuel (resolve (slots₂.filterMap id)) =
      some (status, ds₂, s₂) := interpret_of_le hfuel₂ h₂
  obtain ⟨ds, s', hlater, hworld⟩ := interpret_later hsecond hn (linesBefore first)
  refine ⟨ds, s', ?_, Machine.World.seen_of_relabel hworld⟩
  rw [run_of_accepts hboth hscope, List.filterMap_append, filterMap_map_relabel, resolve_append,
    resolve_relabelAll, interpret_append _ hfirst]
  exact hlater

/-- A text that ends in a conditional and in a comment. -/
def firstPart : String :=
  ":D f(x) :> c: x; <: >.< a o/ f(f); ^u^ (twue) pwint a; // to be continued"

/-- A text that goes on with what `firstPart` declares, and stops at an unknown name. -/
def secondPart : String := "pwint a(fawse); :D g() :> c: a; <: a o/ g(); pwint missing;"

/-- The second part does not go on with the conditional, and its fault is found all the same. -/
theorem split_agrees_at_fault :
    ∃ ds₁ s₁ ds₂ s₂ ds s', (new Native.standard {}).run 100 firstPart = some (.ok, ds₁, s₁) ∧
      s₁.run 100 secondPart = some (.runtimeError, ds₂, s₂) ∧
      (new Native.standard {}).run 100 (firstPart ++ "\n" ++ secondPart) =
        some (.runtimeError, ds, s') ∧
      s'.world.console = s₂.world.console ∧
      ∀ name, (s'.global? name).map Value.text = (s₂.global? name).map Value.text := by
  have hfirst : ((new Native.standard {}).run 100 firstPart).map Prod.fst = some .ok := by
    decide +kernel
  have hsecond : (((new Native.standard {}).run 100 firstPart).bind
      fun r => r.2.2.run 100 secondPart).map Prod.fst = some .runtimeError := by
    decide +kernel
  obtain ⟨⟨status₁, ds₁, s₁⟩, h₁, hstatus₁⟩ := Option.map_eq_some_iff.mp hfirst
  rw [h₁] at hsecond
  obtain ⟨⟨status₂, ds₂, s₂⟩, h₂, hstatus₂⟩ := Option.map_eq_some_iff.mp hsecond
  obtain rfl : status₁ = .ok := hstatus₁
  obtain rfl : status₂ = .runtimeError := hstatus₂
  have hn := forall_natives_new Native.standard_indifferent {}
  obtain ⟨ds, s', hwhole⟩ := split_agrees hn (by decide) h₁ h₂ nofun (Nat.le_refl 100)
    (Nat.le_refl 100)
  exact ⟨ds₁, s₁, ds₂, s₂, ds, s', h₁, h₂, hwhole⟩

end Session

end Nya
