import Nya.Command.Response
import Nya.Proofs.Session.Rejected

/-!
# The commands agree

Three commands look at the text of a file: one scans it, one parses it as well, one runs it. Each
goes only as far as it has to, and each reports what it finds. What one of them finds, those that go
further find too, before anything else, and in the same words.

A session numbers what it reads from where it stands, so the text may be read from other numbers
than those of `parse`. The faults do not depend on the numbers.

* `Session.run_of_faults`, `Session.faultless_of_run` for what any session makes of a text
* `Command.commands_agree`
-/

namespace Nya

namespace Session

variable {s : Session} {source : String}

/-- A text with faults of scanning or parsing is refused by any session, with just those faults. -/
theorem run_of_faults (h : (Reading.ofSource source 0 0).diagnostics ≠ []) (fuel : Nat) :
    ∃ s', s.run fuel source = some (.staticError, (Reading.ofSource source 0 0).diagnostics, s') ∧
      s'.world = s.world := by
  have hempty : (Reading.ofSource source 0 0).diagnostics.isEmpty = false := by simpa using h
  have hcheck : (Reading.ofSource source s.nodes s.functions).check =
      .error (Reading.ofSource source 0 0).diagnostics := by
    rw [Reading.check, Reading.diagnostics_ofSource, hempty]
    rfl
  refine ⟨(s.read source).2, ?_, rfl⟩
  rw [run_eq, read, hcheck]

/-- A text that gets as far as being run has no faults of scanning or parsing. -/
theorem faultless_of_run {fuel : Nat} {status : Status} {ds : List Diagnostic} {s' : Session}
    (h : s.run fuel source = some (status, ds, s')) (hstatus : status ≠ .staticError) :
    (Reading.ofSource source 0 0).diagnostics = [] := by
  refine Classical.byContradiction fun hfaults => ?_
  obtain ⟨s₁, hrun, -⟩ := run_of_faults (s := s) hfaults fuel
  rw [hrun] at h
  cases h
  exact hstatus rfl

end Session

/-- What parsing reports starts with what scanning reports. -/
theorem Reading.diagnostics_eq (source : String) :
    (ofSource source 0 0).diagnostics = (scanErrors (scan source)).map .scan ++
      (ofSource source 0 0).parsed.errors.map .parse :=
  rfl

namespace Command

variable {d : Directory} {file source : String}

/-! ## What each command does with a file -/

/-- What is made of a file that can be read is what is made of its text. -/
theorem onSource_of_source {desk : Desk} (hsource : sourceOf desk.directory file = .ok source)
    (f : String → Desk.Work Response) :
    (Host.onSource file f : Desk.Work Nat) desk =
      (f source desk).map fun done => (done.1.exit, done.2.written done.1) := by
  have hread : (bytesOf desk.directory file).bind textOf = .ok source := hsource
  simp only [Host.onSource, Desk.work_bind, Desk.work_bytesOf, Option.bind_some, hread,
    Desk.work_emit, Option.map_eq_bind]
  rfl

/-- A response on an empty desk is all that is there. -/
theorem responseOf_written (r : Response) (fuel : Nat) (d : Directory) (input : List UInt8) :
    responseOf (r.exit, Desk.written { fuel, directory := d, input } r) = r := by
  simp only [responseOf, Desk.written, String.empty_append]

theorem perform_tokenize (hsource : sourceOf d file = .ok source) (fuel : Nat)
    (input : List UInt8) (json : Bool) :
    perform fuel d input (.tokenize file json) = some (tokenizeSource json source) := by
  rw [perform, Host.perform, onSource_of_source hsource, Desk.work_pure, Option.map_some,
    Option.map_some, responseOf_written]

theorem perform_parse (hsource : sourceOf d file = .ok source) (fuel : Nat)
    (input : List UInt8) : perform fuel d input (.parse file) = some (parseSource source) := by
  rw [perform, Host.perform, onSource_of_source hsource, Desk.work_pure, Option.map_some,
    Option.map_some, responseOf_written]

theorem perform_run (hscript : isScript file = true) (hsource : sourceOf d file = .ok source)
    (fuel : Nat) (input : List UInt8) :
    perform fuel d input (.run file) = ((newSession input).run fuel source).map ranSource := by
  rw [perform, Host.perform, if_pos hscript, onSource_of_source hsource]
  simp only [Desk.work_bind, Desk.work_input, Desk.work_run, Option.bind_some]
  cases (newSession input).run fuel source with
  | none => rfl
  | some ended => exact congrArg some (responseOf_written (ranSource ended) fuel d input)

/-! ## What each command says about a text -/

theorem exit_tokenizeSource (json : Bool) (source : String) :
    (tokenizeSource json source).exit = if scanErrors (scan source) = [] then 0 else 65 := by
  simp only [tokenizeSource, List.isEmpty_iff, exitStatic]

theorem stderr_tokenizeSource (json : Bool) (source : String) :
    (tokenizeSource json source).stderr =
      linesOf (((scanErrors (scan source)).map Diagnostic.scan).map Diagnostic.message) := by
  rw [List.map_map]
  rfl

theorem parseSource_of_faultless (h : (Reading.ofSource source 0 0).diagnostics = []) :
    (parseSource source).exit = 0 := by
  simp [parseSource, h]

theorem parseSource_of_faults (h : (Reading.ofSource source 0 0).diagnostics ≠ []) :
    parseSource source = ⟨65, "",
      linesOf ((Reading.ofSource source 0 0).diagnostics.map Diagnostic.message)⟩ := by
  have hempty : (Reading.ofSource source 0 0).diagnostics.isEmpty = false := by simpa using h
  simp [parseSource, hempty, exitStatic]

theorem faults_of_parseSource (h : (parseSource source).exit = 65) :
    (Reading.ofSource source 0 0).diagnostics ≠ [] := by
  intro hfaultless
  rw [parseSource_of_faultless hfaultless] at h
  cases h

/-- A new session has written nothing. -/
theorem transcript_newSession (input : List UInt8) :
    (newSession input).world.console.transcript = "" := by
  rfl

theorem ranSource_of_faults (h : (Reading.ofSource source 0 0).diagnostics ≠ []) (fuel : Nat)
    (input : List UInt8) : ((newSession input).run fuel source).map ranSource = some ⟨65, "",
      linesOf ((Reading.ofSource source 0 0).diagnostics.map Diagnostic.message)⟩ := by
  obtain ⟨s', hrun, hworld⟩ := Session.run_of_faults (s := newSession input) h fuel
  rw [hrun, Option.map_some, ranSource, hworld, transcript_newSession]
  rfl

/-- The exit code says whether a text was run. -/
theorem faultless_of_ranSource {fuel : Nat} {input : List UInt8} {response : Response}
    (h : ((newSession input).run fuel source).map ranSource = some response)
    (hexit : response.exit = 0 ∨ response.exit = 70) :
    (Reading.ofSource source 0 0).diagnostics = [] := by
  obtain ⟨⟨status, ds, s'⟩, hrun, rfl⟩ := Option.map_eq_some_iff.mp h
  refine Session.faultless_of_run hrun ?_
  rintro rfl
  rcases hexit with hexit | hexit <;> cases hexit

/-! ## Agreement -/

/--
**The commands agree on every file.** Of a script that can be read, `tokenize` and `parse` give a
response whatever the fuel and the input. If `tokenize` exits with 65, so does `parse`, and its
reports start with those of `tokenize`. If `parse` exits with 65, so does `run`: both write nothing
but their reports, which are the same. And if `run` comes as far as running the script, with exit
code 0 or 70, then both others exit with 0.
-/
theorem commands_agree (hscript : isScript file = true) (hsource : sourceOf d file = .ok source)
    (json : Bool) : ∃ tokenized parsed : Response,
    (∀ fuel input, perform fuel d input (.tokenize file json) = some tokenized ∧
      perform fuel d input (.parse file) = some parsed) ∧
    (tokenized.exit = 65 → parsed.exit = 65 ∧ ∃ first more : List Diagnostic,
      tokenized.stderr = linesOf (first.map Diagnostic.message) ∧
      parsed.stderr = linesOf ((first ++ more).map Diagnostic.message)) ∧
    (parsed.exit = 65 → ∀ fuel input, ∃ ran, perform fuel d input (.run file) = some ran ∧
      ran.exit = 65 ∧ ran.stdout = "" ∧ parsed.stdout = "" ∧ ran.stderr = parsed.stderr) ∧
    ∀ fuel input ran, perform fuel d input (.run file) = some ran →
      ran.exit = 0 ∨ ran.exit = 70 → tokenized.exit = 0 ∧ parsed.exit = 0 := by
  refine ⟨tokenizeSource json source, parseSource source, ?_, ?_, ?_, ?_⟩
  · intro fuel input
    exact ⟨perform_tokenize hsource fuel input json, perform_parse hsource fuel input⟩
  · intro hexit
    have hscan : scanErrors (scan source) ≠ [] := by
      intro hnone
      rw [exit_tokenizeSource, if_pos hnone] at hexit
      cases hexit
    have hfaults : (Reading.ofSource source 0 0).diagnostics ≠ [] := by
      simp [Reading.diagnostics_eq, hscan]
    rw [parseSource_of_faults hfaults]
    exact ⟨rfl, _, _, stderr_tokenizeSource json source,
      by rw [← Reading.diagnostics_eq]⟩
  · intro hexit fuel input
    have hfaults := faults_of_parseSource hexit
    rw [perform_run hscript hsource, ranSource_of_faults hfaults, parseSource_of_faults hfaults]
    exact ⟨_, rfl, rfl, rfl, rfl, rfl⟩
  · intro fuel input ran hran hexit
    rw [perform_run hscript hsource] at hran
    have hfaultless := faultless_of_ranSource hran hexit
    refine ⟨?_, parseSource_of_faultless hfaultless⟩
    rw [Reading.diagnostics_eq, List.append_eq_nil_iff, List.map_eq_nil_iff] at hfaultless
    rw [exit_tokenizeSource, if_pos hfaultless.1]

/-- A directory with a script that can neither be scanned nor parsed: `@;`. -/
def faultyFiles : Directory := ⟨[("a.nya", [0x40, 0x3b])]⟩

/-- All three commands refuse the script; the last two find a fault that the first one does not. -/
theorem commands_agree_faulty :
    isScript "a.nya" = true ∧ sourceOf faultyFiles "a.nya" = .ok "@;" ∧
    ∃ tokenized parsed : Response,
      perform 10 faultyFiles [] (.tokenize "a.nya" false) = some tokenized ∧
      perform 10 faultyFiles [] (.parse "a.nya") = some parsed ∧
      tokenized.exit = 65 ∧ parsed.exit = 65 ∧ tokenized.stderr ≠ parsed.stderr ∧
      ∃ ran, perform 10 faultyFiles [] (.run "a.nya") = some ran ∧
        ran.exit = 65 ∧ ran.stdout = "" ∧ parsed.stdout = "" ∧ ran.stderr = parsed.stderr := by
  have hscript : isScript "a.nya" = true := by decide +kernel
  have hstart : Directory.start "a.nya" = .here := by decide +kernel
  have hlocate : faultyFiles.locate "a.nya" = .ok (.file "a.nya") := by
    rw [Directory.locate, hstart]
    rfl
  have hsource : sourceOf faultyFiles "a.nya" = .ok "@;" := by
    rw [sourceOf, bytesOf, hlocate]
    rfl
  obtain ⟨tokenized, parsed, hperform, hscan, hparse, -⟩ := commands_agree hscript hsource false
  obtain ⟨htokenized, hparsed⟩ := hperform 10 []
  have htokens := perform_tokenize hsource 10 [] false
  have hstatements := perform_parse hsource 10 []
  obtain rfl : tokenizeSource false "@;" = tokenized :=
    Option.some.inj (htokens.symm.trans htokenized)
  obtain rfl : parseSource "@;" = parsed := Option.some.inj (hstatements.symm.trans hparsed)
  have hexit : (tokenizeSource false "@;").exit = 65 := by decide +kernel
  have hdiffer : (tokenizeSource false "@;").stderr ≠ (parseSource "@;").stderr := by
    decide +kernel
  have hexit' := (hscan hexit).1
  exact ⟨hscript, hsource, _, _, htokenized, hparsed, hexit, hexit', hdiffer, hparse hexit' 10 []⟩

end Command

end Nya
