import Nya.Proofs.Machine.Alpha
import Nya.Proofs.Scope.Rename
import Nya.Proofs.Session.Balance

/-!
# The names of locals do not matter

Whatever a session has run before, a program that is accepted runs in the same way when a local is
renamed, together with the references that are bound to it: it ends in the same way and leaves the
console the same. So which variable a name means is settled before the program is run.

Natives must not look into functions, or they could tell the programs apart. The natives of the
command line do not.

* `Session.Reachable.alike`: the world of a session is like itself, with no name exchanged
* `Session.renaming_invariant`
-/

namespace Nya

/-! ## Sessions are like themselves -/

/-- A world that is like another is like itself, with no name exchanged. -/
theorem Machine.World.Alike.clear {ρ : Swap} {Λ : Layout} {w w' : Machine.World}
    (h : w.Alike ρ Λ w') (ρ' : Swap) : w.Alike ρ' Λ.clear w where
  store := h.store.clear ρ'
  env := rfl
  known := h.known
  calls := rfl
  console := rfl

/-- The layout of a session in which nothing was run: there is only the frame of the globals. -/
def Layout.initial : Layout where
  next := 1
  mark _ := false
  chain _ := Machine.globals
  next_pos := Nat.one_pos
  mark_zero := rfl
  chain_zero := rfl

namespace Session

theorem new_alike (ρ : Swap) (natives : List Native) (console : Console) :
    (new natives console).world.Alike ρ .initial (new natives console).world := by
  refine new_induction (motive := fun s => s.world.Alike ρ .initial s.world) console ?_ ?_
  · refine ⟨⟨rfl, rfl, fun id name => ?_⟩, rfl, Layout.knows_globals _, rfl, rfl⟩
    rw [Store.frame_push]
    exact .none
  · intro s n _ h
    exact { h with store := h.store.define (Layout.knows_globals _) n.name (.native _) }

/-- **The world of a session is like itself, with no name exchanged**, whatever it has run. -/
theorem Reachable.alike {natives : List Native} {console : Console} {s : Session}
    (h : Reachable natives console s) (hblind : ∀ n ∈ natives, n.Blind) :
    (∀ n ∈ s.natives, n.Blind) ∧ ∃ Λ : Layout, ∀ ρ, s.world.Alike ρ Λ.clear s.world := by
  induction h with
  | new =>
    exact ⟨forall_natives_new hblind console,
      .initial, fun ρ => (new_alike ρ natives console).clear ρ⟩
  | @run s s' fuel source status ds hs hrun ih =>
    obtain ⟨hn, Λ, hΛ⟩ := ih
    obtain rfl | ⟨program, result, world, -, hi, rfl⟩ := run_cases hrun
    · exact ⟨hn, Λ, hΛ⟩
    · -- any two names will do: the program is run beside itself
      have hended := Machine.interpret_alike hn fuel (Stmt.AlphaAll.refl ⟨"", ""⟩ program)
        (hΛ _) (congrArg Prod.fst hs.place)
      rw [hi] at hended
      cases hended with
      | some _ _ hw => exact ⟨hn, _, fun ρ => Machine.World.Alike.clear hw ρ⟩

/-- What is seen of a run: how it ended, and the console. -/
def seen (result : Option (Status × List Diagnostic × Session)) : Option (Status × Console) :=
  result.map fun r => (r.1, r.2.2.world.console)

/-- Programs that differ in the names of locals are seen to run in the same way. -/
theorem seen_interpret {s : Session} {ρ : Swap} {Λ : Layout} {program program' : List Stmt}
    (hn : ∀ n ∈ s.natives, n.Blind) (h : s.world.Alike ρ Λ s.world)
    (henv : s.world.env = Machine.globals)
    (hprogram : Stmt.AlphaAll ρ Marks.none program program') (fuel : Nat) :
    seen (s.interpret fuel program') = seen (s.interpret fuel program) := by
  have hended := Machine.interpret_alike hn fuel hprogram h henv
  rw [interpret_eq, interpret_eq]
  generalize Machine.interpret s.natives fuel program s.world = r at hended ⊢
  generalize Machine.interpret s.natives fuel program' s.world = r' at hended ⊢
  cases hended with
  | none => rfl
  | some _ hresult hw =>
    cases hresult with
    | ok _ => exact congrArg (fun console => some (Status.ok, console)) hw.console
    | error _ => exact congrArg (fun console => some (Status.runtimeError, console)) hw.console

/-- A program that was read has no fault, and is resolved. -/
theorem resolved_of_read {s s₁ : Session} {source : String} {program : List Stmt}
    (h : s.read source = (.ok program, s₁)) :
    scopeErrors program = [] ∧ resolve program = program := by
  obtain ⟨-, herr, rfl⟩ := Reading.check_ok (congrArg Prod.fst h)
  exact ⟨Stmt.scopeErrorsAll_resolveAll herr, Stmt.resolveAll_resolveAll _ []⟩

/--
**Which variable a name means is settled by scopes, not by names.** In a program that is accepted,
let a local be renamed at its declaration and in all references that are bound to it, to a name
that is new to the program. The declaration has the new name then; the program has no fault, every
reference has the depth that resolution gives it, which is the depth it had; and in whatever state a
session is, the program is seen to run as before.
-/
theorem renaming_invariant (natives : List Native) (console : Console) (s s₁ : Session)
    (source : String) (program : List Stmt) (i : Nat) (site : Site) (token : Token) (y : String)
    (hblind : ∀ n ∈ natives, n.Blind) (hs : Reachable natives console s)
    (hread : s.read source = (.ok program, s₁))
    (hsite : program[i]?.bind site.declared? = some token) (hy : y ∉ Stmt.namesAll program) :
    let renamed := program.modify i (site.rename token.lexeme y)
    renamed[i]?.bind site.declared? = some (token.renamed y) ∧
    scopeErrors renamed = [] ∧ resolve renamed = renamed ∧
    (Stmt.referencesAll renamed).map (fun r => (r.1, r.2.id, r.2.depth)) =
      (Stmt.referencesAll program).map (fun r => (r.1, r.2.id, r.2.depth)) ∧
    ∀ fuel, seen (s₁.interpret fuel renamed) = seen (s.run fuel source) := by
  intro renamed
  obtain ⟨herr, hresolve⟩ := resolved_of_read hread
  have halpha : Stmt.AlphaAll ⟨token.lexeme, y⟩ Marks.none program renamed :=
    Site.modify_alpha herr hsite hy Site.rename_alpha
  have hnew : Scopes.Lacks [] y := by simp [Scopes.Lacks]
  refine ⟨Site.declared?_modify Site.declared?_rename hsite,
    halpha.scopeErrorsAll_eq_nil hnew hy hresolve herr,
    halpha.resolveAll_eq hnew hy hresolve, halpha.depths_eq, ?_⟩
  intro fuel
  obtain ⟨hn, Λ, hΛ⟩ := hs.alike hblind
  obtain rfl : s₁ = (s.read source).2 := by rw [hread]
  have hrun : s.run fuel source = (s.read source).2.interpret fuel program := by
    rw [run_eq, hread]
  rw [hrun]
  exact seen_interpret (s := (s.read source).2) hn (hΛ ⟨token.lexeme, y⟩)
    (congrArg Prod.fst hs.place) halpha fuel

/-- A function in a loop sees the variable of the loop, also after its block declares another. -/
def shadowedLoop : String :=
  "^o^ (>.< x o/ twue; x; x o/ fawse) :> :D g() :> c: x; <: >.< x o/ nuww; pwint g(); <:"

/-- The variable of the loop is renamed, and the other variable of that name is not. -/
theorem renaming_invariant_shadowed :
    ∃ program s₁ token,
      (new (Native.standard ++ [Native.input]) {}).read shadowedLoop = (.ok program, s₁) ∧
      program[0]?.bind (Site.var 0).declared? = some token ∧ token.lexeme = "x" ∧
      "y" ∉ Stmt.namesAll program ∧
      scopeErrors (program.modify 0 ((Site.var 0).rename "x" "y")) = [] ∧
      seen (s₁.interpret 300 (program.modify 0 ((Site.var 0).rename "x" "y"))) =
        some (.ok, { written := [.line "twue"] }) := by
  have hblind : ∀ n ∈ Native.standard ++ [Native.input], n.Blind := by
    intro n hn
    rcases List.mem_append.mp hn with hn | hn
    · exact (Native.standard_discreet n hn).blind
    · rw [List.mem_singleton.mp hn]
      exact Native.input_discreet.blind
  have hread : ((new (Native.standard ++ [Native.input]) {}).read shadowedLoop).1.toOption.map
      (fun program => ((program[0]?.bind (Site.var 0).declared?).map Token.lexeme,
        decide ("y" ∈ Stmt.namesAll program))) = some (some "x", false) := by
    decide +kernel
  have hrun : seen ((new (Native.standard ++ [Native.input]) {}).run 300 shadowedLoop) =
      some (.ok, { written := [.line "twue"] }) := by
    decide +kernel
  cases h : (new (Native.standard ++ [Native.input]) {}).read shadowedLoop with
  | mk result s₁ =>
    rw [h] at hread
    cases result with
    | error ds => cases hread
    | ok program =>
      simp only [Except.toOption, Option.map_some, Option.some.injEq, Prod.mk.injEq,
        Option.map_eq_some_iff, decide_eq_false_iff_not] at hread
      obtain ⟨⟨token, hsite, hx⟩, hy⟩ := hread
      obtain ⟨-, herr, -, -, hseen⟩ := renaming_invariant (Native.standard ++ [Native.input]) {}
        _ s₁ shadowedLoop program 0 (.var 0) token "y" hblind .new h hsite hy
      rw [hx] at herr hseen
      exact ⟨program, s₁, token, rfl, hsite, hx, hy, herr, (hseen 300).trans hrun⟩

end Session

end Nya
