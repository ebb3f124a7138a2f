import Nya.Proofs.Machine.Preserve
import Nya.Proofs.Parse.Numbers

/-!
# Histories

What steps keep, runs keep, and so does a session: in a trace each configuration is sound on the
ground of the openings before it. So every frame goes back to the one configuration in the trace
that made it.

* `Machine.Chain` for a trace, `Machine.Chain.getElem?_births` for the frames
* `Session.Grounded` for a session between two runs
* `Session.trace_chain` for the trace of a session
-/

namespace Nya

namespace Machine

variable {vs : List Visit} {natives : Array Native}

/-- Each configuration is sound on the ground of the openings before it. -/
def Chain (vs : List Visit) : List Birth → List Config → Prop
  | _, [] => True
  | before, c :: cs => c.Sound vs before ∧ Chain vs (before ++ c.birth?.toList) cs

theorem births_cons (c : Config) (cs : List Config) :
    births (c :: cs) = c.birth?.toList ++ births cs := by
  rw [births, List.filterMap_cons]
  cases c.birth? <;> rfl

theorem births_append (cs cs' : List Config) : births (cs ++ cs') = births cs ++ births cs' :=
  List.filterMap_append

theorem Chain.append : ∀ {before : List Birth} {cs cs' : List Config}, Chain vs before cs →
    Chain vs (before ++ births cs) cs' → Chain vs before (cs ++ cs')
  | before, [], cs', _, h => by rwa [births, List.filterMap_nil, List.append_nil] at h
  | before, c :: cs, cs', h, h' => by
    rw [births_cons, ← List.append_assoc] at h'
    exact ⟨h.1, h.2.append h'⟩

/-- A configuration of a chain is sound on the ground of the openings before it. -/
theorem Chain.sound_of_append : ∀ {before : List Birth} {cs : List Config} {c : Config}
    {cs' : List Config}, Chain vs before (cs ++ c :: cs') → c.Sound vs (before ++ births cs)
  | before, [], c, cs', h => by
    rw [births, List.filterMap_nil, List.append_nil]
    exact h.1
  | before, c' :: cs, c, cs', h => by
    rw [births_cons, ← List.append_assoc]
    exact h.2.sound_of_append

theorem Chain.left : ∀ {before : List Birth} {cs cs' : List Config},
    Chain vs before (cs ++ cs') → Chain vs before cs
  | _, [], _, _ => trivial
  | _, _ :: _, _, h => ⟨h.1, h.2.left⟩

/-- Every opening of a chain is that of a configuration, which makes the frame of that number. -/
theorem Chain.getElem?_births : ∀ {before : List Birth} {cs : List Config}, Chain vs before cs →
    ∀ {i : Nat} {b : Birth}, (births cs)[i]? = some b →
      ∃ c ∈ cs, c.birth? = some b ∧ c.world.store.next = before.length + i + 1
  | _, [], _, i, b, hb => by simp [births] at hb
  | before, c :: cs, h, i, b, hb => by
    rw [births_cons] at hb
    cases hbirth : c.birth? with
    | none =>
      rw [hbirth, Option.toList_none, List.nil_append] at hb
      have htail := h.2
      rw [hbirth, Option.toList_none, List.append_nil] at htail
      obtain ⟨c', hc', hrest⟩ := htail.getElem?_births hb
      exact ⟨c', List.mem_cons_of_mem _ hc', hrest⟩
    | some b₀ =>
      rw [hbirth, Option.toList_some] at hb
      cases i with
      | zero =>
        cases hb
        exact ⟨c, List.mem_cons_self, hbirth, h.1.ground.next⟩
      | succ i =>
        have htail := h.2
        rw [hbirth, Option.toList_some] at htail
        obtain ⟨c', hc', hb', hnext⟩ := htail.getElem?_births hb
        rw [List.length_append, List.length_singleton] at hnext
        have hlen : before.length + 1 + i + 1 = before.length + (i + 1) + 1 := by omega
        exact ⟨c', List.mem_cons_of_mem _ hc', hb', hnext.trans hlen⟩

/-! ## Runs -/

/-- The trace of a run is a chain. -/
theorem trace_chain (hvs : ∀ v ∈ vs, v.Sound) (hn : ∀ n ∈ natives, n.Honest) :
    ∀ (fuel : Nat) {before : List Birth} {c : Config}, c.Sound vs before →
      Chain vs before (trace natives fuel c)
  | 0, _, _, _ => trivial
  | fuel + 1, before, c, h => by
    refine ⟨h, ?_⟩
    cases hstep : step natives c with
    | config c' => exact trace_chain hvs hn fuel (step_sound hvs hn h hstep)
    | halt result w => trivial

/-- The world that a run leaves behind is sound, and is back at the globals. -/
theorem run_sound (hvs : ∀ v ∈ vs, v.Sound) (hn : ∀ n ∈ natives, n.Honest) :
    ∀ (fuel : Nat) {before : List Birth} {c : Config}, c.Sound vs before →
      ∀ {result : Except RuntimeError Flow} {w : World}, run natives fuel c = some (result, w) →
        (w.ground vs (before ++ births (trace natives fuel c))).Sound ∧ w.env = globals
  | 0, _, _, _, _, _, hrun => by cases hrun
  | fuel + 1, before, c, h, result, w, hrun => by
    rw [run_succ] at hrun
    rw [trace_succ, births_cons, ← List.append_assoc]
    cases hstep : step natives c with
    | config c' =>
      rw [hstep] at hrun
      exact run_sound hvs hn fuel (step_sound hvs hn h hstep) hrun
    | halt result' w' =>
      rw [hstep] at hrun
      cases hrun
      obtain ⟨hg, henv, hbirth⟩ := halt_sound h hstep
      rw [hbirth, Option.toList_none, List.append_nil, births, List.filterMap_nil, List.append_nil]
      exact ⟨hg, henv⟩

/-- A statement that is scoped outside of all scopes is sound to start with. -/
theorem exec_sound {w : World} {before : List Birth} (hg : (w.ground vs before).Sound)
    (henv : w.env = globals) {s : Stmt} (hs : s.Scoped vs []) :
    Config.Sound vs before ⟨.exec s, [], w⟩ := by
  refine ⟨hg, [], ?_, hs, ?_⟩
  · rw [henv]
    exact .globals
  · rw [s.afterLevels_nil]
    exact .nil henv

/-- Statements that are run one after another make a chain, and leave a sound world behind. -/
theorem traceAll_chain (hvs : ∀ v ∈ vs, v.Sound) (hn : ∀ n ∈ natives, n.Honest) (fuel : Nat) :
    ∀ {ss : List Stmt} {before : List Birth} {w : World}, (w.ground vs before).Sound →
      w.env = globals → Stmt.ScopedAll vs [] ss →
      Chain vs before (traceAll natives fuel ss w) ∧
        ∀ {result : Except RuntimeError Unit} {w' : World},
          interpret natives fuel ss w = some (result, w') →
          (w'.ground vs (before ++ births (traceAll natives fuel ss w))).Sound ∧ w'.env = globals
  | [], before, w, hg, henv, _ => by
    refine ⟨trivial, ?_⟩
    intro result w' hi
    cases hi
    rw [traceAll_nil, births, List.filterMap_nil, List.append_nil]
    exact ⟨hg, henv⟩
  | s :: ss, before, w, hg, henv, hs => by
    rw [Stmt.ScopedAll, s.afterLevels_nil] at hs
    have hstart := exec_sound hg henv hs.1
    have hchain := trace_chain hvs hn fuel hstart
    rw [traceAll_cons, interpret_cons]
    cases hx : execute natives fuel s w with
    | none =>
      refine ⟨hchain.append trivial, ?_⟩
      intro result w' hi
      cases hi
    | some outcome =>
      obtain ⟨result₁, w₁⟩ := outcome
      obtain ⟨hg₁, henv₁⟩ := run_sound hvs hn fuel hstart hx
      cases result₁ with
      | error e =>
        refine ⟨hchain.append trivial, ?_⟩
        intro result w' hi
        cases hi
        rw [List.append_nil]
        exact ⟨hg₁, henv₁⟩
      | ok flow =>
        -- The rest starts on the ground that the first statement leaves.
        obtain ⟨hrest, hfinal⟩ := traceAll_chain hvs hn fuel hg₁ henv₁ hs.2
        refine ⟨hchain.append hrest, ?_⟩
        intro result w' hi
        rw [births_append, ← List.append_assoc]
        exact hfinal hi

end Machine

/-! ## Sessions -/

theorem Reading.check_ok {r : Reading} {program : List Stmt} (h : r.check = .ok program) :
    r.diagnostics = [] ∧ scopeErrors r.program = [] ∧ program = resolve r.program := by
  unfold Reading.check at h
  cases hd : r.diagnostics with
  | cons d ds => simp [hd] at h
  | nil =>
    cases he : scopeErrors r.program with
    | cons e es => simp [hd, he] at h
    | nil =>
      simp only [hd, he, List.isEmpty_nil, Bool.not_true, Bool.false_eq_true, if_false,
        Except.ok.injEq] at h
      exact ⟨rfl, rfl, h.symm⟩

namespace Session

/-- What holds of a session without natives and is kept by defining one holds of a new session. -/
theorem new_induction {motive : Session → Prop} {natives : List Native} (console : Console)
    (start : motive ⟨#[], ⟨Store.push {}, Machine.globals, 0, console⟩, 0, 0⟩)
    (step : ∀ s n, n ∈ natives → motive s → motive (s.define n)) :
    motive (new natives console) := by
  have key : ∀ (ns : List Native) (s : Session), (∀ n ∈ ns, n ∈ natives) → motive s →
      motive (ns.foldl Session.define s) := by
    intro ns
    induction ns with
    | nil => intro s _ h; exact h
    | cons n ns ih =>
      intro s hmem h
      exact ih _ (fun m hm => hmem m (List.mem_cons_of_mem _ hm))
        (step s n (hmem n List.mem_cons_self) h)
  exact key natives _ (fun _ h => h) start

/-- What holds of the natives that a new session is given holds of those it has. -/
theorem forall_natives_new {P : Native → Prop} {natives : List Native} (h : ∀ n ∈ natives, P n)
    (console : Console) : ∀ n ∈ (new natives console).natives, P n := by
  refine new_induction (motive := fun s => ∀ n ∈ s.natives, P n) console (by simp) ?_
  intro s n hmem hs m hm
  rcases Array.mem_push.mp hm with hm | rfl
  · exact hs m hm
  · exact h m hmem

open Machine (Birth Chain births)

variable {vs : List Visit} {before : List Birth}

/-- Between two runs the natives are honest, the store is sound, and the globals are in place. -/
structure Grounded (vs : List Visit) (before : List Birth) (s : Session) : Prop where
  natives : ∀ n ∈ s.natives, n.Honest
  ground : (s.world.ground vs before).Sound
  env : s.world.env = Machine.globals

theorem Grounded.define {s : Session} (h : s.Grounded vs before) {native : Native}
    (hn : native.Honest) : (s.define native).Grounded vs before := by
  refine ⟨?_, ?_, h.env⟩
  · intro n hm
    rcases Array.mem_push.mp hm with hm | rfl
    · exact h.natives n hm
    · exact hn
  · exact h.ground.bind_value (Machine.Ground.Fits.frame_lt h.ground .globals) trivial

/-- A new session starts on a ground without openings. -/
theorem new_grounded {natives : List Native} (hn : ∀ n ∈ natives, n.Honest) (console : Console) :
    (new natives console).Grounded vs [] := by
  refine new_induction console ⟨?_, ⟨rfl, ?_⟩, rfl⟩ (fun s n hmem h => h.define (hn n hmem))
  · intro n hm
    simp at hm
  · intro f name b hb
    rw [Machine.World.ground, Store.frame_push] at hb
    simp [Store.frame, Frame.get?] at hb

/-- What a program that was run leaves behind. -/
theorem interpret_cases {s s' : Session} {fuel : Nat} {program : List Stmt} {status : Status}
    {ds : List Diagnostic} (h : s.interpret fuel program = some (status, ds, s')) :
    ∃ result world, Machine.interpret s.natives fuel program s.world = some (result, world) ∧
      s' = { s with world } ∧ (status = .ok → result = .ok ()) := by
  rw [interpret_eq] at h
  split at h
  · next world hi =>
    cases h
    exact ⟨_, world, hi, rfl, fun _ => rfl⟩
  · next e world hi =>
    cases h
    exact ⟨_, world, hi, rfl, nofun⟩
  · cases h

/-- A text that is run was rejected, or its program came to an end. -/
theorem run_cases {s s' : Session} {fuel : Nat} {source : String} {status : Status}
    {ds : List Diagnostic} (h : s.run fuel source = some (status, ds, s')) :
    s' = (s.read source).2 ∨ ∃ program result world, (s.read source).1 = .ok program ∧
      Machine.interpret s.natives fuel program s.world = some (result, world) ∧
      s' = { (s.read source).2 with world } := by
  rw [run_eq] at h
  split at h
  · next hread =>
    cases h
    exact .inl (congrArg Prod.snd hread).symm
  · next program s₁ hread =>
    obtain ⟨result, world, hi, rfl, -⟩ := interpret_cases h
    obtain rfl : (s.read source).2 = s₁ := congrArg Prod.snd hread
    exact .inr ⟨program, result, world, congrArg Prod.fst hread, hi, rfl⟩

/-- A text that was read leaves the session grounded, and its program is scoped. -/
theorem Grounded.read {s s₁ : Session} (h : s.Grounded vs before) {source : String}
    {result : Except (List Diagnostic) (List Stmt)} (hread : s.read source = (result, s₁))
    (hsub : ∀ v ∈ s.visitsOf source, v.Sound → v ∈ vs) :
    s₁.Grounded vs before ∧ ∀ program, result = .ok program → Stmt.ScopedAll vs [] program := by
  rw [Session.read] at hread
  cases hread
  refine ⟨⟨h.natives, h.ground, h.env⟩, ?_⟩
  intro program hprogram
  obtain ⟨hdiag, herr, rfl⟩ := Reading.check_ok hprogram
  have hregular : Stmt.RegularAll (Reading.ofSource source s.nodes s.functions).program :=
    Stmt.regularAll_iff.mpr (Reading.program_formed source s.nodes s.functions).regular
  have hvisits : Nya.visits (Reading.ofSource source s.nodes s.functions).program ⊆ vs := by
    intro v hv
    refine hsub v ?_ (visits_sound herr v hv)
    rw [visitsOf, hdiag]
    exact hv
  exact Stmt.resolveAll_scoped hregular hvisits

/-- The trace of a run is a chain, and the session is grounded after it. -/
theorem Grounded.run {s : Session} (h : s.Grounded vs before) (hvs : ∀ v ∈ vs, v.Sound)
    (fuel : Nat) {source : String} (hsub : ∀ v ∈ s.visitsOf source, v.Sound → v ∈ vs) :
    Chain vs before (s.traceOf fuel source) ∧
      ∀ {status : Status} {ds : List Diagnostic} {s' : Session},
        s.run fuel source = some (status, ds, s') →
        s'.Grounded vs (before ++ births (s.traceOf fuel source)) := by
  rw [traceOf_eq, Session.run_eq]
  cases hread : s.read source with
  | mk result s₁ =>
    obtain ⟨h₁, hscoped⟩ := h.read hread hsub
    cases result with
    | error ds =>
      -- Nothing of a rejected text is run.
      refine ⟨trivial, ?_⟩
      intro status ds s' hrun
      cases hrun
      rw [births, List.filterMap_nil, List.append_nil]
      exact h₁
    | ok program =>
      obtain ⟨hchain, hfinal⟩ := Machine.traceAll_chain hvs h₁.natives fuel h₁.ground h₁.env
        (hscoped program rfl)
      refine ⟨hchain, ?_⟩
      intro status ds s' hrun
      obtain ⟨result, world, hi, rfl, -⟩ := interpret_cases hrun
      obtain ⟨hg, henv⟩ := hfinal hi
      exact ⟨h₁.natives, hg, henv⟩

/-- **In the trace of a session each configuration is sound on the openings before it.** -/
theorem Grounded.trace (hvs : ∀ v ∈ vs, v.Sound) (fuel : Nat) : ∀ {sources : List String}
    {s : Session} {before : List Birth}, s.Grounded vs before →
    (∀ v ∈ s.visits fuel sources, v.Sound → v ∈ vs) → Chain vs before (s.trace fuel sources)
  | [], _, _, _, _ => trivial
  | source :: rest, s, before, h, hsub => by
    rw [Session.visits] at hsub
    obtain ⟨hchain, hnext⟩ := h.run hvs fuel (fun v hv => hsub v (List.mem_append_left _ hv))
    rw [trace_cons]
    refine hchain.append ?_
    cases hrun : s.run fuel source with
    | none => trivial
    | some outcome =>
      obtain ⟨status, ds, s'⟩ := outcome
      refine (hnext hrun).trace hvs fuel (fun v hv => hsub v (List.mem_append_right _ ?_))
      rw [hrun]
      exact hv

/-! ## Numbers in a session -/

/-- The numbers of the references that a run visits lie between those before and after it. -/
theorem visitsOf_fresh (s : Session) (source : String) :
    Fresh s.nodes (s.read source).2.nodes ((s.visitsOf source).map (·.reference.id)) := by
  have hf := (Reading.program_formed source s.nodes s.functions).given.nodes
  simp only [visitsOf]
  split
  · exact hf.sublist (Stmt.visitsAll_sublist [] _)
  · exact Fresh.nil hf.le

theorem nodes_run {s s' : Session} {fuel : Nat} {source : String} {status : Status}
    {ds : List Diagnostic} (h : s.run fuel source = some (status, ds, s')) :
    s'.nodes = (s.read source).2.nodes := by
  obtain rfl | ⟨_, _, _, -, -, rfl⟩ := run_cases h
  · rfl
  · rfl

/-- No two visits in a session are of references with the same number. -/
theorem visits_fresh (fuel : Nat) : ∀ (sources : List String) (s : Session),
    ∃ last, Fresh s.nodes last ((s.visits fuel sources).map (·.reference.id))
  | [], s => ⟨s.nodes, Fresh.nil (Nat.le_refl _)⟩
  | source :: rest, s => by
    have hfirst := s.visitsOf_fresh source
    rw [Session.visits, List.map_append]
    cases hrun : s.run fuel source with
    | none => exact ⟨_, hfirst.append (Fresh.nil (Nat.le_refl _))⟩
    | some outcome =>
      obtain ⟨status, ds, s'⟩ := outcome
      obtain ⟨last, hrest⟩ := visits_fresh fuel rest s'
      rw [nodes_run hrun] at hrest
      exact ⟨last, hfirst.append hrest⟩

end Session

end Nya
