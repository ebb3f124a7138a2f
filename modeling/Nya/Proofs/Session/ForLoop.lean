import Nya.Proofs.Machine.Observe
import Nya.Proofs.Parse.ReadsProgram
import Nya.Proofs.Session.Scopes
import Nya.Proofs.Tree.Equality

/-!
# Loops as they are written

A `^o^` loop is read as a loop in a block, whose body is a block again if there is an increment.
Here it is given a meaning of its own, part by part, with one scope for all of the loop and none for
the increment. The two meanings agree wherever a program comes to such a loop: they end in the same
way, and nothing that is run afterwards can tell which of them was used.

* `ForLoop.runs` for the meaning of a loop as it is written
* `ForLoop.executesTo_stmt` for that of the statement that it is read as
* `Session.forLoop_meaning`
-/

namespace Nya

open Machine

/-! ## What is written is regular -/

namespace Stmt

theorem declares_eq_isDeclaration (s : Stmt) : s.declares = s.isDeclaration := by
  cases s <;> rfl

theorem SpelledClause.regular {init : Option Stmt} {ts : List Token} (h : SpelledClause init ts) :
    ∀ s ∈ init, s.Regular := by
  rintro s rfl
  cases s with
  | var name init => trivial
  | expression e => trivial
  | _ => exact h.elim

mutual

/-- A statement that is spelled in full has no bare declaration as a branch or as a body. -/
theorem Spelled.regular : ∀ {s : Stmt} {ts : List Token}, s.Spelled ts → s.Regular
  | _, _, .expression _ => trivial
  | _, _, .print _ _ => trivial
  | _, _, .var _ => trivial
  | _, _, .block _ hbody _ => hbody.regular
  | _, _, .branch _ _ _ _ hthen hstatement =>
    ⟨(declares_eq_isDeclaration _).trans hstatement, hthen.regular⟩
  | _, _, .branchElse _ _ _ _ hthen hstatement _ helse hstatement' =>
    ⟨⟨(declares_eq_isDeclaration _).trans hstatement, hthen.regular⟩,
      (declares_eq_isDeclaration _).trans hstatement', helse.regular⟩
  | _, _, .loop _ _ _ _ hbody hstatement =>
    ⟨(declares_eq_isDeclaration _).trans hstatement, hbody.regular⟩
  | _, _, .forLoop _ _ hinit _ _ _ _ hbody hstatement => by
    have hregular := hbody.regular
    have hdeclares := (declares_eq_isDeclaration _).trans hstatement
    exact Parse.regular_withInitializer hinit.regular hdeclares hregular _
  | _, _, .function _ _ _ _ _ _ _ hbody _ => hbody.regular
  | _, _, .ret _ _ _ => trivial

theorem SpelledAll.regular : ∀ {ss : List Stmt} {ts : List Token}, SpelledAll ss ts → RegularAll ss
  | _, _, .nil => trivial
  | _, _, .cons first others => ⟨first.regular, others.regular⟩

end

end Stmt

/-! ## The meaning of a loop -/

namespace ForLoop

section

variable (natives : Array Native) (l : ForLoop)

/-- Whether there is another turn. Without a condition there always is. -/
def tests : Action (Except RuntimeError Bool) :=
  match l.condition with
  | some e => Tests natives e
  | none => Passes

/-- What is done between two turns. -/
def advances : Action (Except RuntimeError Flow) :=
  match l.increment with
  | some e => Performs natives e
  | none => Done

/-- The turns: the body and then the increment, as long as the condition holds. -/
def turns : Action (Except RuntimeError Flow) :=
  Iterates (l.tests natives) (Then (ExecutesTo natives l.body) (l.advances natives))

/-- What the loop does. With an initializer there is one scope, in which it is run once. -/
def runs : Action (Except RuntimeError Flow) :=
  match l.init with
  | some s => InScope (Then (ExecutesTo natives s) (l.turns natives))
  | none => l.turns natives

/-- A turn of the statement that the loop is read as: in a scope of its own with an increment. -/
def blockTurn : Action (Except RuntimeError Flow) :=
  match l.increment with
  | some e => InScope (Then (ExecutesTo natives l.body) (Performs natives e))
  | none => ExecutesTo natives l.body

/-- What the statement does that the loop is read as. -/
def blockRuns : Action (Except RuntimeError Flow) :=
  match l.init with
  | some s =>
    InScope (Then (ExecutesTo natives s) (Iterates (l.tests natives) (l.blockTurn natives)))
  | none => Iterates (l.tests natives) (l.blockTurn natives)

theorem executesTo_stmt (id : Nat) : ExecutesTo natives (l.stmt id) = l.blockRuns natives := by
  obtain ⟨init, condition, increment, body⟩ := l
  have htests : Tests natives (condition.getD (.literal id (.boolean true))) =
      tests natives ⟨init, condition, increment, body⟩ := by
    cases condition with
    | some e => rfl
    | none => exact tests_true id
  have hturn : ExecutesTo natives (Parse.withIncrement body increment) =
      blockTurn natives ⟨init, condition, increment, body⟩ := by
    cases increment with
    | none => rfl
    | some e =>
      rw [Parse.withIncrement, executesTo_block, ExecutesAllTo, ExecutesAllTo, ExecutesAllTo,
        then_done, executesTo_expression]
      rfl
  cases init with
  | none => rw [stmt, Parse.withInitializer, executesTo_loop, htests, hturn, blockRuns]
  | some s =>
    rw [stmt, Parse.withInitializer, executesTo_block, ExecutesAllTo, ExecutesAllTo, ExecutesAllTo,
      then_done, executesTo_loop, htests, hturn, blockRuns]

end

/-! ## Resolution -/

section

variable (l : ForLoop) (scopes : Scopes)

/-- The scopes around the condition, the increment and the body. -/
def inner : Scopes :=
  match l.init with
  | some s => s.after ([] :: scopes)
  | none => scopes

/-- The loop with the depth of every reference filled in, as its parts are written: in one scope. -/
def resolve : ForLoop where
  init := l.init.map (Stmt.resolve ([] :: scopes))
  condition := l.condition.map (Expr.resolve (l.inner scopes))
  increment := l.increment.map (Expr.resolve (l.inner scopes))
  body := l.body.resolve (l.inner scopes)

/-- The loop as its parts are resolved in blocks: an increment puts one around every turn. -/
def resolveBlocks : ForLoop where
  init := l.init.map (Stmt.resolve ([] :: scopes))
  condition := l.condition.map (Expr.resolve (l.inner scopes))
  increment := l.increment.map (Expr.resolve ([] :: l.inner scopes))
  body := l.body.resolve (if l.increment.isSome then [] :: l.inner scopes else l.inner scopes)

variable {l}

theorem resolve_stmt (hdeclares : l.body.declares = false) (hregular : l.body.Regular) (id : Nat) :
    (l.stmt id).resolve scopes = (l.resolveBlocks scopes).stmt id := by
  obtain ⟨init, condition, increment, body⟩ := l
  have hloop (scopes : Scopes) :
      Stmt.resolve scopes (.loop (condition.getD (.literal id (.boolean true)))
        (Parse.withIncrement body increment)) =
      .loop ((condition.map (Expr.resolve scopes)).getD (.literal id (.boolean true)))
        (Parse.withIncrement
          (body.resolve (if increment.isSome then [] :: scopes else scopes))
          (increment.map (Expr.resolve ([] :: scopes)))) := by
    rw [Stmt.resolve]
    refine congrArg₂ Stmt.loop (by cases condition <;> rfl) ?_
    cases increment with
    | none => rfl
    | some e =>
      simp only [Parse.withIncrement, Stmt.resolve, Stmt.resolveAll, Option.map_some,
        Option.isSome_some, if_true, Stmt.after_eq ([] :: scopes) hdeclares hregular]
  cases init with
  | none => exact hloop scopes
  | some s =>
    rw [stmt, Parse.withInitializer, Stmt.resolve, Stmt.resolveAll, Stmt.resolveAll,
      Stmt.resolveAll, hloop]
    rfl

end

/-! ## Agreement -/

section

variable {natives : Array Native} (hn : ∀ n ∈ natives, n.Discreet) {l : ForLoop}
  (hdeclares : l.body.declares = false) (hregular : l.body.Regular)

include hn

theorem agrees_tests (scopes : Scopes) :
    Agrees (fun _ b b' => b = b') Marks.none ((l.resolveBlocks scopes).tests natives)
      ((l.resolve scopes).tests natives) := by
  obtain ⟨init, condition, increment, body⟩ := l
  cases condition with
  | some e => exact Machine.agrees_tests hn (Expr.thin_refl _)
  | none => exact .passes

include hdeclares hregular

/-- The scope that an increment puts around a turn is spare. -/
theorem agrees_turn (scopes : Scopes) :
    Agrees ResultThin Marks.none ((l.resolveBlocks scopes).blockTurn natives)
      (Then (ExecutesTo natives (l.resolve scopes).body)
        ((l.resolve scopes).advances natives)) := by
  obtain ⟨init, condition, increment, body⟩ := l
  cases increment with
  | none =>
    show Agrees _ _ _ (Then _ Done)
    rw [then_done]
    exact agrees_executesTo hn (Stmt.thin_refl _)
  | some e =>
    have hscopes : Scopes.Thin (Marks.none.push true)
        ([] :: inner ⟨init, condition, some e, body⟩ scopes)
        (inner ⟨init, condition, some e, body⟩ scopes) := .spare (.base _)
    exact .inSpareScope
      ((agrees_executesTo hn (body.resolve_thin hscopes hregular fun _ => hdeclares)).andThen
        (agrees_performs hn (e.resolve_thin hscopes)))

/-- **A loop does what the statement does that it is read as.** -/
theorem agrees (id : Nat) (scopes : Scopes) :
    Agrees ResultThin Marks.none (ExecutesTo natives ((l.stmt id).resolve scopes))
      ((l.resolve scopes).runs natives) := by
  have hturns : Agrees ResultThin Marks.none
      (Iterates ((l.resolveBlocks scopes).tests natives)
        ((l.resolveBlocks scopes).blockTurn natives))
      ((l.resolve scopes).turns natives) :=
    .iterates (agrees_tests hn scopes) (agrees_turn hn hdeclares hregular scopes)
  rw [resolve_stmt scopes hdeclares hregular, executesTo_stmt]
  obtain ⟨init, condition, increment, body⟩ := l
  cases init with
  | none => exact hturns
  | some s =>
    refine .inScope ?_
    rw [Marks.push_none]
    exact (agrees_executesTo hn (Stmt.thin_refl _)).andThen hturns

end

end ForLoop

/-! ## In every session -/

/-- A variable in sight is held by a frame of the chain, or it is a global. -/
theorem Machine.World.knows_holder {Λ : Thinning} {w : World} {r : Reference} {holder : Env}
    (hknown : Λ.Knows w.env) (h : w.holder? r = some holder) : Λ.Knows holder := by
  unfold World.holder? at h
  cases hdepth : r.depth with
  | some depth =>
    rw [hdepth] at h
    simp only [Store.holderAt?] at h
    split at h <;> cases h
    exact hknown.ancestor depth
  | none =>
    rw [hdepth] at h
    simp only [globals, Store.holder?] at h
    split at h <;> cases h
    exact .globals

/-- The statement that is to be executed next. -/
def Machine.Focus.statement? : Focus → Option Stmt
  | .exec s => some s
  | _ => none

theorem Machine.Focus.eq_of_statement? {focus : Focus} {s : Stmt}
    (h : focus.statement? = some s) : focus = .exec s := by
  cases focus with
  | exec s' => rw [Option.some.inj h]
  | _ => cases h

namespace Session

/--
**Loops mean what they say.** What is read as a `^o^` loop is the statement of the parts that were
written. Wherever a session comes to it, executing that statement and running the loop part by part
do the same: they end in the same way with the same lines printed and every variable in sight
looking the same, and so does all that is run afterwards. The scopes in sight are those from before
the loop.
-/
theorem forLoop_meaning {natives : List Native} (hn : ∀ n ∈ natives, n.Discreet)
    (console : Console) (fuel : Nat) (sources : List String) {c : Config}
    (hc : c ∈ (new natives console).trace fuel sources) {l : ForLoop} {ts : List Token}
    (hl : l.Spelled ts) {id : Nat} {scopes : Scopes}
    (hfocus : c.focus = .exec ((l.stmt id).resolve scopes)) :
    SameFrom (new natives console).natives c
      (ExecutesTo (new natives console).natives ((l.stmt id).resolve scopes))
      ((l.resolve scopes).runs (new natives console).natives) ∧
    (∀ r w, ExecutesTo (new natives console).natives ((l.stmt id).resolve scopes) c.world r w →
      w.env = c.world.env ∧
        ∀ reference holder, w.holder? reference = some holder →
          holder.frame < c.world.store.next) ∧
    (∀ n s stmt s', Parse.forLoop n s = .ok stmt s' → s'.faults.length = s.faults.length →
      ∃ (ts : List Token) (l : ForLoop) (id : Nat), s.rest = ts ++ s'.rest ∧ stmt = l.stmt id ∧
        ∀ start : Token, start.isSymbol .forLoop = true → l.Spelled (start :: ts)) := by
  obtain ⟨i, hi⟩ := List.mem_iff_getElem?.mp hc
  have hhonest : ∀ n ∈ natives, n.Honest := fun n h => (hn n h).honest
  obtain ⟨after, hchain⟩ := new_trace_chain hhonest console fuel sources hi
  have hsound := hchain.sound_of_append
  have hnatives := forall_natives_new hn console
  refine ⟨?_, ?_, ?_⟩
  · cases hl with
    | intro _ _ _ _ _ _ _ hbody hstatement =>
      have hdeclares := (Stmt.declares_eq_isDeclaration _).trans hstatement
      exact (ForLoop.agrees hnatives hdeclares hbody.regular id scopes).sameFrom hnatives hsound
        hfocus
  · rintro r w ⟨n, hexecute⟩
    have henv : w.env = c.world.env := congrArg Prod.fst (Machine.run_place n hexecute)
    refine ⟨henv, fun reference holder hholder => ?_⟩
    have hknown := (hsound.thinAt hfocus).1.thin.known
    rw [← henv] at hknown
    rw [show c.world.store.next = _ from hsound.ground.next]
    exact (World.knows_holder hknown hholder).frame_lt
  · intro n s stmt s' hread hfaults
    have hreads := Parse.forLoop_reads n s
    rw [hread] at hreads
    obtain ⟨ts, hts, l, id, hstmt, hspelled⟩ := hreads.2 hfaults
    exact ⟨ts, l, id, hts, hstmt, hspelled⟩

/-- A loop whose body makes a function that captures the variable of the loop, and keeps it. -/
def capturingLoop : String :=
  ">.< f; ^o^ (>.< i o/ twue; i; i o/ fawse) :> :D g() :> c: i; <: f o/ g; <:"

/-- The same loop, to be read from after its `^o^` on. -/
def capturingClauses : Parse.State :=
  ⟨scannedTokens (scan "(>.< i o/ twue; i; i o/ fawse) :> :D g() :> c: i; <: f o/ g; <:"), 0, 0, []⟩

/-- Prints what the function yields. -/
def printCaptured : Stmt :=
  .print (.call 9 (.read ⟨10, ⟨.identifier, "f", 1⟩, none⟩) [] Symbol.rightParen.token)

theorem capturingLoop_statement :
    (((new Native.standard {}).trace 60 [capturingLoop])[2]?).map (fun c => c.focus.statement?) =
      match Parse.forLoop 60 capturingClauses with
      | .ok s ⟨_, _, _, []⟩ => some (some (s.resolve []))
      | _ => none := by
  decide +kernel

theorem capturingLoop_printed :
    (((new Native.standard {}).trace 60 [capturingLoop])[2]?).map (fun c => (c.stack.isEmpty,
      (Machine.run (new Native.standard {}).natives 60 c).bind fun ended =>
        (runThen (new Native.standard {}).natives 60 ⟨.ofResult ended.1, c.stack, ended.2⟩
          [printCaptured]).map fun ended => ended.2.console.lines)) =
      some (true, some ["fawse"]) := by
  decide +kernel

/-- The function is called after the loop: it sees the binding that the increment has changed. -/
theorem forLoop_meaning_capturing :
    ∃ c ∈ (new Native.standard {}).trace 60 [capturingLoop], ∃ (l : ForLoop) (ts : List Token)
      (id : Nat), l.Spelled ts ∧ c.focus = .exec ((l.stmt id).resolve []) ∧
      ∃ r w, (l.resolve []).runs (new Native.standard {}).natives c.world r w ∧
        (runThen (new Native.standard {}).natives 60 ⟨.ofResult r, c.stack, w⟩ [printCaptured]).map
          (fun ended => ended.2.console.lines) = some ["fawse"] := by
  obtain ⟨c, hc, hprinted⟩ := Option.map_eq_some_iff.mp capturingLoop_printed
  obtain ⟨hstack, hprinted⟩ := Prod.mk.inj hprinted
  obtain ⟨⟨r₀, w₀⟩, hrun, hlines⟩ := Option.bind_eq_some_iff.mp hprinted
  have hread := capturingLoop_statement
  have hreads := Parse.forLoop_reads 60 capturingClauses
  rw [hc] at hread
  split at hread
  · next s rest nodes functions hok =>
    rw [hok] at hreads
    obtain ⟨ts, -, l, id, rfl, hspelled⟩ := hreads.2 rfl
    have hfocus := Focus.eq_of_statement? (Option.some.inj hread)
    have hl : l.Spelled (Symbol.forLoop.token :: ts) := hspelled _ (Symbol.isSymbol_token _)
    have hmem := List.mem_of_getElem? hc
    obtain ⟨hsame, -, -⟩ := forLoop_meaning Native.standard_discreet {} 60 [capturingLoop] hmem hl
      hfocus
    have hexecutes : ExecutesTo (new Native.standard {}).natives ((l.stmt id).resolve []) c.world
        r₀ w₀ := by
      obtain ⟨focus, stack, w⟩ := c
      obtain rfl : stack = [] := List.isEmpty_iff.mp hstack
      obtain rfl : focus = _ := hfocus
      exact ⟨60, hrun⟩
    obtain ⟨r, w, hruns, hends⟩ := hsame.forth hexecutes
    refine ⟨c, hmem, l, _, id, hl, hfocus, r, w, hruns, ?_⟩
    have hrest := hends.rest 60 [printCaptured]
    rw [← hlines]
    generalize runThen _ 60 ⟨.ofResult r₀, c.stack, w₀⟩ [printCaptured] = ended₀ at hrest
    generalize runThen _ 60 ⟨.ofResult r, c.stack, w⟩ [printCaptured] = ended at hrest
    cases hrest with
    | none => rfl
    | some h => exact congrArg (some ∘ Console.lines) h.2.console
  · cases hread

end Session

end Nya
