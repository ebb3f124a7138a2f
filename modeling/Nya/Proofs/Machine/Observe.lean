import Nya.Proofs.Machine.Agree
import Nya.Proofs.Machine.Preserve

/-!
# What can be seen of a run

Values look the same if they have the same text and the same type. Two ends of a statement look the
same if both are faults, both are returns of values that look the same or neither is either, if the
same was printed, and if every variable in sight looks the same; and nothing that is run afterwards
tells them apart.

Actions that agree look the same from every sound configuration.

* `EndsLike`, `SameFrom`
* `Agrees.sameFrom`
-/

namespace Nya

/-- The values look the same. -/
structure Value.LooksLike (v v' : Value) : Prop where
  text : v'.text = v.text
  typeName : v'.typeName = v.typeName

theorem Value.Thin.looksLike {Λ : Thinning} {v v' : Value} (h : v.Thin Λ v') : v.LooksLike v' :=
  ⟨Value.Matches.text_eq Λ.faithful_closed h, Value.Matches.typeName_eq h⟩

namespace Machine

/-- The statements ended in the same way, as far as can be seen. -/
inductive ResultLike : Except RuntimeError Flow → Except RuntimeError Flow → Prop
  | error (e : RuntimeError) : ResultLike (.error e) (.error e)
  | completed : ResultLike (.ok .completed) (.ok .completed)
  | returning {v v' : Value} (h : v.LooksLike v') :
    ResultLike (.ok (.returning v)) (.ok (.returning v'))

/-- The same was printed, and every variable in sight looks the same. -/
structure World.LooksLike (w w' : World) : Prop where
  console : w'.console = w.console
  env : w'.env = w.env
  calls : w'.calls = w.calls
  read? : ∀ r : Reference, Option.Rel Value.LooksLike (w.read? r) (w'.read? r)

/-- Runs what is left of a statement, and then the statements that follow it. -/
def runThen (natives : Array Native) (fuel : Nat) (c : Config) (program : List Stmt) :
    Option (Except RuntimeError Unit × World) :=
  match run natives fuel c with
  | some (.ok _, w) => interpret natives fuel program w
  | some (.error e, w) => some (.error e, w)
  | none => none

/-- Two ends of a statement that look the same, also to all that is run afterwards. -/
structure EndsLike (natives : Array Native) (tasks : List Task) (r : Except RuntimeError Flow)
    (w : World) (r' : Except RuntimeError Flow) (w' : World) : Prop where
  result : ResultLike r r'
  world : w.LooksLike w'
  rest : ∀ fuel program, Option.Rel (fun a b => b.1 = a.1 ∧ a.2.LooksLike b.2)
    (runThen natives fuel ⟨.ofResult r, tasks, w⟩ program)
    (runThen natives fuel ⟨.ofResult r', tasks, w'⟩ program)

/-- From the configuration both actions do the same, as far as can be seen then and afterwards. -/
structure SameFrom (natives : Array Native) (c : Config)
    (A B : Action (Except RuntimeError Flow)) : Prop where
  forth : ∀ {r w}, A c.world r w →
    ∃ r' w', B c.world r' w' ∧ EndsLike natives c.stack r w r' w'
  back : ∀ {r' w'}, B c.world r' w' →
    ∃ r w, A c.world r w ∧ EndsLike natives c.stack r w r' w'

section

variable {natives : Array Native} {Λ : Thinning} {w w' : World}

theorem ResultThin.resultLike {r r' : Except RuntimeError Flow} (h : ResultThin Λ r r') :
    ResultLike r r' := by
  cases h with
  | error h =>
    obtain rfl := h
    exact .error _
  | ok h =>
    cases h with
    | completed => exact .completed
    | returning hv => exact .returning (Value.Thin.looksLike hv)

theorem ResultThin.focus {r r' : Except RuntimeError Flow} (h : ResultThin Λ r r')
    (marks : Marks) : (Focus.ofResult r).Thin Λ marks (.ofResult r') := by
  cases h with
  | ok h => exact .finish h
  | error h => exact .raise h

/-- Where no frame is spare, every variable in sight looks the same. -/
theorem World.Thin.looksLike (h : w.Thin Λ w') (hmarks : Λ.marks w.env = Marks.none)
    (henv : Λ.thin w.env = w.env) : w.LooksLike w' where
  console := h.console
  env := h.env.trans henv
  calls := h.calls
  read? r := by
    have hread := h.read? (hmarks ▸ r.thin_refl)
    exact optionRel_imp hread fun _ _ => Value.Thin.looksLike

theorem World.Thin.looksLike_globals (h : w.Thin Λ w') (henv : w.env = globals) :
    w.LooksLike w' :=
  h.looksLike (by rw [henv, Λ.marks_globals]) (by rw [henv, Λ.thin_globals])

/-- What is left of a statement runs in the same way, and so does what follows if it does. -/
theorem runThen_thin (hn : ∀ n ∈ natives, n.Discreet) {fuel : Nat} {program : List Stmt}
    (hprogram : ∀ {Λ : Thinning} {w w' : World}, w.Thin Λ w' → w.env = globals →
      Option.Rel (fun a b => b.1 = a.1 ∧ a.2.LooksLike b.2) (interpret natives fuel program w)
        (interpret natives fuel program w'))
    {c c' : Config} (h : c.Thin Λ c') (hplace : (restoreAll c.stack c.world.place).1 = globals) :
    Option.Rel (fun a b => b.1 = a.1 ∧ a.2.LooksLike b.2) (runThen natives fuel c program)
      (runThen natives fuel c' program) := by
  have hended := run_thin hn fuel h
  unfold runThen
  generalize hrun : run natives fuel c = ended at hended ⊢
  generalize run natives fuel c' = ended' at hended ⊢
  cases hended with
  | none => exact .none
  | some _ hresult hw =>
    have henv := (congrArg Prod.fst (run_place fuel hrun)).trans hplace
    cases hresult with
    | ok _ => exact hprogram hw henv
    | error h =>
      obtain rfl := h
      exact .some ⟨rfl, World.Thin.looksLike_globals hw henv⟩

/-- Programs that go on among the globals run in the same way. -/
theorem interpret_thin (hn : ∀ n ∈ natives, n.Discreet) (fuel : Nat) (program : List Stmt) :
    ∀ {Λ : Thinning} {w w' : World}, w.Thin Λ w' → w.env = globals →
      Option.Rel (fun a b => b.1 = a.1 ∧ a.2.LooksLike b.2) (interpret natives fuel program w)
        (interpret natives fuel program w') := by
  induction program with
  | nil =>
    intro Λ w w' h henv
    exact .some ⟨rfl, h.looksLike_globals henv⟩
  | cons s program ih =>
    intro Λ w w' h henv
    have hconfig : Config.Thin Λ ⟨.exec s, [], w⟩ ⟨.exec s, [], w'⟩ := by
      refine ⟨.exec ?_, .nil w.env, h⟩
      show s.Thin (Λ.marks w.env) s
      rw [henv, Λ.marks_globals]
      exact s.thin_refl
    rw [interpret_cons, interpret_cons]
    exact runThen_thin hn ih hconfig henv

end

/-! ## From sound configurations -/

/-- The tasks of a program lead back to the globals. -/
theorem Ground.Stacks.restoreAll {g : Ground} {env : Env} {levels : Levels} {stack : List Task}
    (h : g.Stacks env levels stack) (calls : Nat) :
    (Machine.restoreAll stack (env, calls)).1 = globals := by
  induction h generalizing calls with
  | nil henv => exact henv
  | sequence _ _ ih => exact ih calls
  | again _ _ _ _ ih => exact ih calls
  | leave _ _ ih => exact ih calls
  | back _ _ _ _ ih => exact ih (calls - 1)

section

variable {vs : List Visit} {births : List Birth} {c : Config} {s : Stmt}

/-- A configuration that executes a statement, beside itself. -/
theorem Config.Sound.thinAt (h : c.Sound vs births) (hfocus : c.focus = .exec s) :
    ThinAt Marks.none c.world.env (.plain births) c.world c.world ∧
      TasksThin (.plain births) c.world.env c.stack c.stack ∧
      ∀ calls, (restoreAll c.stack (c.world.env, calls)).1 = globals := by
  have hfocused := h.focused
  rw [hfocus] at hfocused
  obtain ⟨levels, hfits, -, hstack⟩ := hfocused
  have hworld : c.world.Thin (.plain births) c.world :=
    ⟨h.ground.thin_plain, (Thinning.plain_thin births _).symm, hfits.born.knows_plain, rfl, rfl⟩
  exact ⟨⟨hworld, rfl, rfl⟩, .plain hstack, hstack.restoreAll⟩

/-- **Actions that agree look the same.** -/
theorem Agrees.sameFrom {natives : Array Native} (hn : ∀ n ∈ natives, n.Discreet)
    {A B : Action (Except RuntimeError Flow)} (h : Agrees ResultThin Marks.none A B)
    (hc : c.Sound vs births) (hfocus : c.focus = .exec s) : SameFrom natives c A B := by
  obtain ⟨hthin, htasks, hplace⟩ := hc.thinAt hfocus
  have hknown := hthin.thin.known
  have hends {Λ : Thinning} {r r' : Except RuntimeError Flow} {w w' : World}
      (hΛ : (Thinning.plain births).Extends Λ) (hw : ThinAt Marks.none c.world.env Λ w w')
      (hr : ResultThin Λ r r') : EndsLike natives c.stack r w r' w' := by
    have henv : Λ.thin w.env = w.env := by
      rw [hw.env_eq, hknown.thin_eq hΛ, Thinning.plain_thin]
    have hmarks : Λ.marks w.env = Marks.none := by rw [hw.env_eq, hw.marks_eq]
    have htasks' : TasksThin Λ w.env c.stack c.stack := by
      rw [hw.env_eq]
      exact thinning_lawful.tasks_later hΛ htasks hknown
    refine ⟨hr.resultLike, hw.thin.looksLike hmarks henv, fun fuel program => ?_⟩
    refine runThen_thin hn (interpret_thin hn fuel program) ⟨hr.focus _, htasks', hw.thin⟩ ?_
    show (restoreAll c.stack (w.env, w.calls)).1 = globals
    rw [hw.env_eq]
    exact hplace w.calls
  refine ⟨fun {r w} hA => ?_, fun {r' w'} hB => ?_⟩
  · obtain ⟨Λ, r', w', hΛ, hw, hr, hB⟩ := h.forth c.world.env hthin hA
    exact ⟨r', w', hB, hends hΛ hw hr⟩
  · obtain ⟨Λ, r, w, hΛ, hw, hr, hA⟩ := h.back c.world.env hthin hB
    exact ⟨r, w, hA, hends hΛ hw hr⟩

end

end Machine

end Nya
